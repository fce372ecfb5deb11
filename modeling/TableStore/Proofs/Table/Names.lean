import TableStore.Disk.Basic

/-! Names of table files inside a directory. Which paths name a table, and which one, is said by the
form of their last component. A path ends in the name of the entry it was built for, whatever the
folder, so a table's final name is read back as its generation and layout, its temporary name is
known as such, and no path is both. -/

namespace TableStore

namespace Text.Path

/-! ### The end of a path -/

/-- The names that an entry of a directory can have. -/
structure IsEntryName (name : String) : Prop where
  ne_nil : name.toList ≠ []
  no_slash : '/' ∉ name.toList
  ne_stay : name.toList ≠ stay
  ne_back : name.toList ≠ back

theorem pieces_of_not_mem {separator : Char} {text : List Char} (h : separator ∉ text) :
    pieces separator text = [text] := by
  induction text with
  | nil => rfl
  | cons c cs ih =>
    rw [List.mem_cons, not_or] at h
    rw [pieces, if_neg (Ne.symm h.1), ih h.2]

theorem pieces_append (separator : Char) (front back : List Char) :
    pieces separator (front ++ separator :: back) =
      pieces separator front ++ pieces separator back := by
  induction front with
  | nil => simp [pieces]
  | cons c cs ih =>
    rw [List.cons_append, pieces, ih, pieces]
    split
    · rfl
    · cases hp : pieces separator cs with
      | nil =>
        have := length_pieces separator cs
        simp [hp] at this
      | cons piece rest => rfl

theorem toList_join (base name : String) :
    (join base name).toList = name.toList ∨
      ∃ front, (join base name).toList = front ++ '/' :: name.toList := by
  unfold join
  split
  · exact Or.inl rfl
  · split
    · rename_i he
      obtain ⟨front, hf⟩ := List.getLast?_eq_some_iff.mp (by simpa [endsOpen] using he)
      exact Or.inr ⟨front, by simp [hf]⟩
    · exact Or.inr ⟨base.toList, by simp⟩

theorem components_join {base name : String} (h : IsEntryName name) :
    ∃ front, components (join base name) = front ++ [name.toList] := by
  have hname : (pieces '/' name.toList).filter (· ≠ []) = [name.toList] := by
    rw [pieces_of_not_mem h.no_slash]
    simpa using h.ne_nil
  unfold components
  rcases toList_join base name with hj | ⟨front, hj⟩
  · exact ⟨[], by rw [hj, hname]; rfl⟩
  · exact ⟨(pieces '/' front).filter (· ≠ []), by rw [hj, pieces_append, List.filter_append, hname]⟩

theorem finalComponent?_join (base : String) {name : String} (h : IsEntryName name) :
    finalComponent? (join base name) = some name.toList := by
  obtain ⟨front, hc⟩ := components_join h
  have hstay : [name.toList].filter (· ≠ stay) = [name.toList] := by
    simpa using h.ne_stay
  rw [finalComponent?, hc, List.filter_append, hstay, List.getLast?_concat]
  exact if_neg h.ne_back

end Text.Path

/-! ### Decimal digits -/

namespace Text

theorem decimalValue_eq_ofDigitChars (text : List Char) :
    decimalValue text = Nat.ofDigitChars 10 text 0 := by
  rw [decimalValue, Nat.ofDigitChars_eq_foldl]
  congr 1
  funext n digit
  rw [appendDigit, Nat.mul_comm]
  rfl

theorem decimalBelow?_eq_some_iff {limit n : Nat} {text : List Char} :
    decimalBelow? limit text = some n ↔
      text ≠ [] ∧ (∀ c ∈ text, c.isDigit = true) ∧ decimalValue text = n ∧ n < limit := by
  rw [decimalBelow?_eq, decimal?, Option.filter_eq_some_iff, decide_eq_true_iff]
  split
  · rename_i h
    rw [List.all_eq_true] at h
    rw [Option.some.injEq]
    exact ⟨fun ⟨hv, hlt⟩ => ⟨h.1, h.2, hv, hlt⟩, fun ⟨_, _, hv, hlt⟩ => ⟨hv, hlt⟩⟩
  · rename_i h
    rw [List.all_eq_true] at h
    refine iff_of_false (fun hn => by simp at hn) ?_
    rintro ⟨hne, hd, -, -⟩
    exact h ⟨hne, hd⟩

end Text

namespace TableName

open Text.Path

theorem isDigit_of_mem_digits {generation : UInt64} {c : Char} (h : c ∈ digits generation) :
    c.isDigit = true := by
  unfold digits List.leftpad at h
  rcases List.mem_append.mp h with h | h
  · rw [List.eq_of_mem_replicate h]
    rfl
  · exact Nat.isDigit_of_mem_toDigits (by decide) (by decide) h

theorem digits_ne_nil (generation : UInt64) : digits generation ≠ [] := by
  unfold digits List.leftpad
  exact List.append_ne_nil_of_right_ne_nil _ Nat.toDigits_ne_nil

theorem decimalValue_digits (generation : UInt64) :
    Text.decimalValue (digits generation) = generation.toNat := by
  rw [Text.decimalValue_eq_ofDigitChars, digits, List.leftpad, Nat.ofDigitChars_append]
  simp

theorem not_mem_digits {generation : UInt64} {c : Char} (h : c.isDigit = false) :
    c ∉ digits generation := by
  intro hm
  rw [isDigit_of_mem_digits hm] at h
  simp at h

/-! ### Reading names -/

theorem after?_append (start text : List Char) : after? start (start ++ text) = some text := by
  induction start with
  | nil => rfl
  | cons c start ih => simpa [after?] using ih

theorem eq_of_after? {start text rest : List Char} (h : after? start text = some rest) :
    text = start ++ rest := by
  induction start generalizing text with
  | nil => exact Option.some.inj h
  | cons s start ih =>
    cases text with
    | nil => simp [after?] at h
    | cons c text =>
      unfold after? at h
      split at h
      · rename_i hc
        rw [hc, List.cons_append, ← ih h]
      · simp at h

theorem splitLast?_eq_none_iff {separator : Char} {text : List Char} :
    splitLast? separator text = none ↔ separator ∉ text := by
  induction text with
  | nil => simp [splitLast?]
  | cons c cs ih =>
    unfold splitLast?
    cases hs : splitLast? separator cs with
    | some found =>
      have : separator ∈ cs := by
        rw [hs] at ih
        simpa using ih
      simp [this]
    | none =>
      have : separator ∉ cs := ih.mp hs
      by_cases hc : c = separator
      · simp [hc]
      · simp [hc, this, Ne.symm hc]

theorem splitLast?_append {separator : Char} (front : List Char) {back : List Char}
    (h : separator ∉ back) :
    splitLast? separator (front ++ separator :: back) = some (front, back) := by
  induction front with
  | nil => simp [splitLast?, splitLast?_eq_none_iff.mpr h]
  | cons c front ih => rw [List.cons_append, splitLast?, ih]

theorem eq_of_splitLast? {separator : Char} {text front back : List Char}
    (h : splitLast? separator text = some (front, back)) : text = front ++ separator :: back := by
  induction text generalizing front with
  | nil => simp [splitLast?] at h
  | cons c cs ih =>
    unfold splitLast? at h
    split at h
    · rename_i found hs
      simp only [Option.some.injEq, Prod.mk.injEq] at h
      obtain ⟨rfl, rfl⟩ := h
      rw [List.cons_append, ← ih hs]
    · split at h
      · rename_i hc
        simp only [Option.some.injEq, Prod.mk.injEq] at h
        obtain ⟨rfl, rfl⟩ := h
        rw [hc]
        rfl
      · simp at h

theorem layout?_extension (layout : Layout) : layout? layout.extension.toList = some layout := by
  cases layout <;> rfl

theorem extension_of_layout? {extension : List Char} {layout : Layout}
    (h : layout? extension = some layout) : extension = layout.extension.toList := by
  unfold layout? at h
  split at h
  · rename_i he
    rw [← Option.some.inj h]
    exact he
  · split at h
    · rename_i he
      rw [← Option.some.inj h]
      exact he
    · simp at h

/-- The last component of a path is a stem, a generation in decimal digits, and the extension of a
layout behind a dot. -/
def Names (path : String) (generation : UInt64) (layout : Layout) : Prop :=
  ∃ number : List Char,
    finalComponent? path = some ("table_".toList ++ number ++ '.' :: layout.extension.toList) ∧
      number ≠ [] ∧ (∀ c ∈ number, c.isDigit = true) ∧
      Nat.ofDigitChars 10 number 0 = generation.toNat

theorem not_dot_mem_extension (layout : Layout) : '.' ∉ layout.extension.toList := by
  cases layout <;> decide

theorem parse?_eq_some_iff {path : String} {generation : UInt64} {layout : Layout} :
    parse? path = some (generation, layout) ↔ Names path generation layout := by
  constructor
  · intro h
    unfold parse? at h
    simp only [Option.bind_eq_bind, Option.bind_eq_some_iff, Option.pure_def, Option.some.injEq,
      Prod.mk.injEq] at h
    obtain ⟨name, hn, rest, hr, ⟨number, extension⟩, hs, found, hl, n, hd, hg, rfl⟩ := h
    obtain ⟨hne, hdigits, hv, hlt⟩ := Text.decimalBelow?_eq_some_iff.mp hd
    have hextension : extension = found.extension.toList := extension_of_layout? hl
    refine ⟨number, ?_, hne, hdigits, ?_⟩
    · rw [hn, eq_of_after? hr, eq_of_splitLast? hs, hextension, List.append_assoc]
      rfl
    · rw [← Text.decimalValue_eq_ofDigitChars, hv, ← hg, UInt64.toNat_ofNat_of_lt' hlt]
  · rintro ⟨number, hn, hne, hdigits, hv⟩
    have hd : Text.decimalBelow? UInt64.size number = some generation.toNat := by
      rw [Text.decimalBelow?_eq_some_iff, Text.decimalValue_eq_ofDigitChars]
      exact ⟨hne, hdigits, hv, generation.toNat_lt_size⟩
    have hstem : "table_".toList = stem.toList := rfl
    unfold parse?
    rw [hn, hstem, List.append_assoc]
    simp only [Option.bind_eq_bind, Option.bind_some, after?_append,
      splitLast?_append _ (not_dot_mem_extension layout), layout?_extension, hd]
    simp

theorem toList_named (generation : UInt64) (extension : String) :
    (named generation extension).toList =
      stem.toList ++ (digits generation ++ '.' :: extension.toList) := by
  simp [named]

theorem isEntryName_named (generation : UInt64) {extension : String}
    (h : '/' ∉ extension.toList) : IsEntryName (named generation extension) := by
  have hlist := toList_named generation extension
  have hstem : ∃ rest, stem.toList = 't' :: rest := ⟨_, rfl⟩
  obtain ⟨rest, hs⟩ := hstem
  refine ⟨?_, ?_, ?_, ?_⟩
  · simp [hlist, hs]
  · rw [hlist, List.mem_append, List.mem_append, List.mem_cons]
    rintro (hm | hm | hm | hm)
    · exact absurd hm (by decide)
    · exact not_mem_digits (by decide) hm
    · exact absurd hm (by decide)
    · exact h hm
  · simp [hlist, hs, stay]
  · simp [hlist, hs, back]

theorem isEntryName_file (generation : UInt64) (layout : Layout) :
    IsEntryName (file generation layout) := by
  apply isEntryName_named
  cases layout <;> decide

theorem isEntryName_temporary (generation : UInt64) : IsEntryName (temporary generation) :=
  isEntryName_named generation (by decide)

/-- What a table's final name says about it, in any folder. -/
theorem parse?_join_file (base : String) (generation : UInt64) (layout : Layout) :
    parse? (join base (file generation layout)) = some (generation, layout) := by
  refine parse?_eq_some_iff.mpr
    ⟨digits generation, ?_, digits_ne_nil generation, fun _ => isDigit_of_mem_digits, ?_⟩
  · rw [finalComponent?_join base (isEntryName_file generation layout), file, toList_named,
      List.append_assoc]
    rfl
  · rw [← Text.decimalValue_eq_ofDigitChars, decimalValue_digits]

theorem file_injective {generation generation' : UInt64} {layout layout' : Layout}
    (h : file generation layout = file generation' layout') :
    generation = generation' ∧ layout = layout' := by
  have hp := parse?_join_file "" generation layout
  rw [h, parse?_join_file, Option.some.injEq, Prod.mk.injEq] at hp
  exact ⟨hp.1.symm, hp.2.symm⟩

theorem isTemporary_join_temporary (base : String) (generation : UInt64) :
    isTemporary (join base (temporary generation)) = true := by
  rw [isTemporary, finalComponent?_join base (isEntryName_temporary generation), temporary,
    toList_named]
  simp only [Bool.and_eq_true, List.isPrefixOf_iff_prefix, List.isSuffixOf_iff_suffix]
  refine ⟨List.prefix_append _ _, ?_⟩
  refine List.IsSuffix.trans ?_ (List.suffix_append _ _)
  exact List.suffix_append _ _

/-- A path that names a table does not name one that is being written. -/
theorem isTemporary_of_parse? {path : String} {generation : UInt64} {layout : Layout}
    (h : parse? path = some (generation, layout)) : isTemporary path = false := by
  obtain ⟨number, hn, -⟩ := parse?_eq_some_iff.mp h
  rw [isTemporary, hn, Bool.and_eq_false_iff]
  refine Or.inr (Bool.eq_false_iff.mpr fun hsuffix => ?_)
  rw [List.isSuffixOf_iff_suffix] at hsuffix
  obtain ⟨front, hf⟩ := hsuffix
  generalize "table_".toList ++ number = before at hf
  have hlast := congrArg List.getLast? hf
  cases layout <;> simp [Layout.extension, List.getLast?_append] at hlast

theorem parse?_of_isTemporary {path : String} (h : isTemporary path = true) :
    parse? path = none := by
  cases hp : parse? path with
  | none => rfl
  | some found => simp [isTemporary_of_parse? hp] at h

end TableName

end TableStore
