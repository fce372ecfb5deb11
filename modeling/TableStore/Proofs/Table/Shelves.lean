import Mathlib.Data.List.Induction
import Mathlib.Logic.Function.Basic
import TableStore.Proofs.Table.Filters

/-! Filters over a history. Several filters stand on a shelf under numbers; they are made empty,
take keys in, are united, copied, and written down and read again. Beside the shelf a ledger notes which
keys were put into each filter, be it directly or along with another filter. At every moment each
filter is what an empty one of its size becomes by inserting the noted keys, in whatever order, and
the shelf is read off the ledger: inserting, uniting and copying filters is inserting, uniting and
copying sets of keys. -/

namespace TableStore

namespace Filter

/-- The filter read from the bytes that another one is written as: the number of words is told by
the last four of them, the words by the others. -/
def reread (f : Filter) : Except Fault Filter :=
  let bytes := f.encode
  let stop := bytes.length - 4
  decodeWords (bytes.take stop) (ofBigEndian (bytes.drop stop))

theorem reread_eq_ok {f : Filter} (h : f.words.size < capacity 4) : f.reread = .ok f := by
  have hstop : f.encode.length - 4 = f.wordBytes.length := by
    rw [encode, List.length_append, length_bigEndian, Nat.add_sub_cancel]
  simp only [reread, hstop]
  rw [encode, List.take_left, List.drop_left, ofBigEndian_bigEndian h, decodeWords_wordBytes]

theorem mayContain_insertAll {f : Filter} {keys : List Bytes} {key : Bytes} (h : key ∈ keys) :
    (f.insertAll keys).mayContain key = true := by
  have hbits : (f.insertAll keys).bits = f.bits := by rw [bits, size_insertAll, ← bits]
  rw [mayContain, hbits, List.all_eq_true]
  intro i hi
  have hset : ∃ other ∈ keys, i ∈ positions f.bits other := ⟨key, h, hi⟩
  rw [hasBit_insertAll, decide_eq_true hset, Bool.true_or]

/-! ### Acts on a shelf -/

/-- Things under numbers. -/
abbrev Shelf (α : Type) := Nat → Option α

/-- What is done to filters. Each act puts a filter under `i`: an empty one, the one there with a
key or with the bits of the filter `j`, or the filter `j` itself, copied or written down and
read. -/
inductive Act
  | make (i words : Nat)
  | insert (i : Nat) (key : Bytes)
  | unite (i j : Nat)
  | clone (i j : Nat)
  | reread (i j : Nat)

namespace Act

/-- The number under which the outcome of an act is put. -/
def place : Act → Nat
  | make i _ | insert i _ | unite i _ | clone i _ | reread i _ => i

/-- The outcome of an act; none when it is about a filter that is not there. -/
def outcome : Act → Shelf Filter → Option (Except Fault Filter)
  | make _ words, _ => some (.ok (empty (words * 64)))
  | insert i key, s => (s i).map fun f => .ok (f.insert key)
  | unite i j, s => do return (← s i).union (← s j)
  | clone _ j, s => (s j).map .ok
  | reread _ j, s => (s j).map Filter.reread

/-- The fault of an act, if it fails, and the shelf afterwards. -/
def run (a : Act) (s : Shelf Filter) : Option Fault × Shelf Filter :=
  match a.outcome s with
  | some (.ok f) => (none, Function.update s a.place (some f))
  | some (.error fault) => (some fault, s)
  | none => (none, s)

theorem outcome_unite {s : Shelf Filter} {i j : Nat} {f g : Filter} (hf : s i = some f)
    (hg : s j = some g) : (unite i j).outcome s = some (f.union g) := by
  simp [outcome, hf, hg]

/-- The shelf after acts on an empty one. -/
def runAll (acts : List Act) : Shelf Filter := acts.foldl (fun s a => (a.run s).2) fun _ => none

end Act

/-! ### The ledger -/

/-- The size of a filter and the keys put into it. -/
structure Content where
  words : Nat
  keys : List Bytes

namespace Act

/-- The content that an act makes; none when it makes nothing new. -/
def content : Act → Shelf Content → Option Content
  | make _ words, _ => some ⟨words, []⟩
  | insert i key, c => (c i).map fun x => ⟨x.words, key :: x.keys⟩
  | unite i j, c => do
    let x ← c i
    let y ← c j
    if x.words = y.words then some ⟨x.words, x.keys ++ y.keys⟩ else none
  | clone _ j, c => c j
  | reread _ j, c => c j

/-- The ledger after an act. -/
def note (a : Act) (c : Shelf Content) : Shelf Content :=
  match a.content c with
  | some x => Function.update c a.place (some x)
  | none => c

/-- The ledger of acts on an empty shelf. -/
def noteAll (acts : List Act) : Shelf Content := acts.foldl (fun c a => a.note c) fun _ => none

/-- Filters are made with at least one word and with no more than four bytes can count. -/
def IsSized : Act → Prop
  | make _ words => 0 < words ∧ words < capacity 4
  | _ => True

instance (a : Act) : Decidable a.IsSized :=
  match a with
  | make _ words => inferInstanceAs (Decidable (0 < words ∧ words < capacity 4))
  | insert _ _ | unite _ _ | clone _ _ | reread _ _ => isTrue trivial

end Act

namespace Content

/-- The filter of a content. -/
def filter (x : Content) : Filter := (empty (x.words * 64)).insertAll x.keys

def IsSized (x : Content) : Prop := 0 < x.words ∧ x.words < capacity 4

theorem size_filter {x : Content} (h : x.IsSized) : x.filter.words.size = x.words := by
  rw [filter, size_insertAll, size_empty h.1 h.2]

theorem insert_filter (x : Content) (key : Bytes) :
    x.filter.insert key = filter ⟨x.words, key :: x.keys⟩ := by
  have hlast : x.filter.insert key = (empty (x.words * 64)).insertAll (x.keys ++ [key]) := by
    simp only [filter, insertAll, List.foldl_append, List.foldl_cons, List.foldl_nil]
  rw [hlast, filter]
  exact insertAll_congr _ fun other => by simp [or_comm]

theorem union_filter {x y : Content} (h : x.words = y.words) :
    x.filter.union y.filter = .ok (filter ⟨x.words, x.keys ++ y.keys⟩) := by
  unfold filter
  rw [← h, union_insertAll]

theorem union_filter_of_ne {x y : Content} (hx : x.IsSized) (hy : y.IsSized)
    (h : x.words ≠ y.words) :
    x.filter.union y.filter = .error (.misfit (.filterSizes (x.words * 64) (y.words * 64))) := by
  rw [← size_filter hx, ← size_filter hy] at h
  rw [union, dif_neg h, bits, bits, size_filter hx, size_filter hy]

theorem reread_filter {x : Content} (h : x.IsSized) : x.filter.reread = .ok x.filter :=
  reread_eq_ok (size_filter h ▸ h.2)

end Content

/-! ### The shelf is read off the ledger -/

/-- The filters of a ledger. -/
def filters (c : Shelf Content) : Shelf Filter := fun i => (c i).map Content.filter

theorem filters_update (c : Shelf Content) (i : Nat) (x : Content) :
    filters (Function.update c i (some x)) = Function.update (filters c) i (some x.filter) := by
  funext j
  by_cases hj : j = i
  · subst hj
    simp [filters]
  · simp [filters, Function.update_of_ne hj]

def AllSized (c : Shelf Content) : Prop := ∀ i x, c i = some x → x.IsSized

namespace Act

variable {c : Shelf Content}

theorem isSized_content (hc : AllSized c) {a : Act} (ha : a.IsSized) {x : Content}
    (hx : a.content c = some x) : x.IsSized := by
  cases a with
  | make i words =>
    rw [content, Option.some.injEq] at hx
    exact hx ▸ ha
  | insert i key =>
    obtain ⟨y, hy, rfl⟩ := Option.map_eq_some_iff.mp hx
    exact hc i y hy
  | unite i j =>
    simp only [content, Option.bind_eq_bind, Option.bind_eq_some_iff] at hx
    obtain ⟨y, hy, z, -, hx⟩ := hx
    split at hx
    · rw [Option.some.injEq] at hx
      exact hx ▸ hc i y hy
    · simp at hx
  | clone i j => exact hc j x hx
  | reread i j => exact hc j x hx

theorem allSized_note (hc : AllSized c) {a : Act} (ha : a.IsSized) : AllSized (a.note c) := by
  intro i x hx
  cases hy : a.content c with
  | none =>
    rw [note, hy] at hx
    exact hc i x hx
  | some y =>
    simp only [note, hy] at hx
    by_cases hi : i = a.place
    · rw [hi, Function.update_self, Option.some.injEq] at hx
      exact hx ▸ isSized_content hc ha hy
    · rw [Function.update_of_ne hi] at hx
      exact hc i x hx

/-- An act makes the filter of the content it is noted with. -/
theorem outcome_of_content (hc : AllSized c) {a : Act} {x : Content}
    (hx : a.content c = some x) : a.outcome (filters c) = some (.ok x.filter) := by
  cases a with
  | make i words =>
    rw [content, Option.some.injEq] at hx
    subst hx
    rfl
  | insert i key =>
    obtain ⟨y, hy, rfl⟩ := Option.map_eq_some_iff.mp hx
    simp [outcome, filters, hy, Content.insert_filter]
  | unite i j =>
    simp only [content, Option.bind_eq_bind, Option.bind_eq_some_iff] at hx
    obtain ⟨y, hy, z, hz, hx⟩ := hx
    split at hx
    · rename_i he
      rw [Option.some.injEq] at hx
      subst hx
      simp [outcome, filters, hy, hz, Content.union_filter he]
    · simp at hx
  | clone i j =>
    have hj : c j = some x := hx
    simp [outcome, filters, hj]
  | reread i j =>
    have hj : c j = some x := hx
    simp [outcome, filters, hj, Content.reread_filter (hc j x hj)]

/-- An act that is not noted makes no filter. -/
theorem run_of_content_eq_none (hc : AllSized c) {a : Act} (hx : a.content c = none) :
    (a.run (filters c)).2 = filters c := by
  cases a with
  | make i words => simp [content] at hx
  | insert i key =>
    have hi : c i = none := by simpa [content] using hx
    simp [run, outcome, filters, hi]
  | unite i j =>
    cases hi : c i with
    | none => simp [run, outcome, filters, hi]
    | some x =>
      cases hj : c j with
      | none => simp [run, outcome, filters, hi, hj]
      | some y =>
        have hne : x.words ≠ y.words := fun he => by simp [content, hi, hj, he] at hx
        have hu := Content.union_filter_of_ne (hc i x hi) (hc j y hj) hne
        simp [run, outcome, filters, hi, hj, hu]
  | clone i j =>
    have hj : c j = none := hx
    simp [run, outcome, filters, hj]
  | reread i j =>
    have hj : c j = none := hx
    simp [run, outcome, filters, hj]

theorem run_filters (hc : AllSized c) (a : Act) :
    (a.run (filters c)).2 = filters (a.note c) := by
  cases hx : a.content c with
  | none => rw [run_of_content_eq_none hc hx, note, hx]
  | some x => rw [run, outcome_of_content hc hx, note, hx, filters_update]

/-- After any acts the filters are those of the ledger. -/
theorem runAll_eq (acts : List Act) (h : ∀ a ∈ acts, a.IsSized) :
    AllSized (noteAll acts) ∧ runAll acts = filters (noteAll acts) := by
  induction acts using List.reverseRecOn with
  | nil => exact ⟨fun i x hx => by simp [noteAll] at hx, rfl⟩
  | append_singleton acts a ih =>
    obtain ⟨hc, hrun⟩ := ih fun b hb => h b (List.mem_append_left _ hb)
    have ha : a.IsSized := h a (by simp)
    simp only [noteAll, runAll, List.foldl_append, List.foldl_cons, List.foldl_nil]
    simp only [noteAll, runAll] at hc hrun
    exact ⟨allSized_note hc ha, by rw [hrun, run_filters hc]⟩

end Act

/-! ### Histories -/

/-- A filter is that of a content: its words are those of a fresh filter into which the keys of the
content are inserted, in any order and any number of times, it denies none of the keys, and written
down it is read again. -/
structure IsFilterOf (f : Filter) (x : Content) : Prop where
  size : f.words.size = x.words
  words : ∀ keys, (∀ key, key ∈ keys ↔ key ∈ x.keys) →
    f.words = ((empty (x.words * 64)).insertAll keys).words
  mayContain : ∀ key ∈ x.keys, f.mayContain key = true
  reread : f.reread = .ok f

theorem Content.isFilterOf {x : Content} (h : x.IsSized) : x.filter.IsFilterOf x where
  size := size_filter h
  words := fun keys hk => by rw [filter, insertAll_congr _ hk]
  mayContain := fun _ => mayContain_insertAll
  reread := reread_filter h

/-- After any acts on filters of any sizes each filter is that of the keys that were put into it,
the union of two of one size is the filter of the keys of both, and uniting two of different sizes
fails and leaves the shelf as it is. -/
theorem runAll_isHomomorphic {acts : List Act} (h : ∀ a ∈ acts, a.IsSized) (i : Nat) :
    (Act.runAll acts i).isSome = (Act.noteAll acts i).isSome ∧
    ∀ f x, Act.runAll acts i = some f → Act.noteAll acts i = some x → f.IsFilterOf x ∧
      ∀ j g y, Act.runAll acts j = some g → Act.noteAll acts j = some y →
        (x.words = y.words →
          ∃ u, f.union g = .ok u ∧ u.IsFilterOf ⟨x.words, x.keys ++ y.keys⟩) ∧
        (x.words ≠ y.words → (Act.unite i j).run (Act.runAll acts) =
          (some (.misfit (.filterSizes (x.words * 64) (y.words * 64))), Act.runAll acts)) := by
  obtain ⟨hc, hrun⟩ := Act.runAll_eq acts h
  have hfilter : ∀ {k f x}, Act.runAll acts k = some f → Act.noteAll acts k = some x →
      f = x.filter := by
    intro k f x hf hx
    rw [hrun, filters, hx, Option.map_some, Option.some.injEq] at hf
    exact hf.symm
  refine ⟨by rw [hrun, filters, Option.isSome_map], fun f x hf hx => ⟨?_, fun j g y hg hy => ?_⟩⟩
  · rw [hfilter hf hx]
    exact Content.isFilterOf (hc i x hx)
  · have hu := Act.outcome_unite hf hg
    rw [hfilter hf hx, hfilter hg hy] at hu ⊢
    refine ⟨fun he => ⟨_, Content.union_filter he, Content.isFilterOf (hc i x hx)⟩, fun hne => ?_⟩
    rw [Content.union_filter_of_ne (hc i x hx) (hc j y hy) hne] at hu
    rw [Act.run, hu]

/-- Three filters of one word and one of two: two are united in a copy, which is written down, read
again and takes one more key; the larger one cannot be united with it. -/
def exchange : List Act :=
  [.make 0 1, .insert 0 [97], .make 1 1, .insert 1 [98], .clone 2 0, .unite 2 1, .make 3 2,
    .unite 2 3, .reread 4 2, .insert 4 []]

theorem exchange_isHomomorphic : (∀ a ∈ exchange, a.IsSized) ∧
    ∃ f g, Act.runAll exchange 4 = some f ∧ Act.runAll exchange 3 = some g ∧
      f.words = ((empty 64).insertAll [[98], [], [97], [98]]).words ∧
      f.mayContain [97] = true ∧ f.mayContain [98] = true ∧ f.mayContain [] = true ∧
      f.reread = .ok f ∧ (Act.unite 4 3).run (Act.runAll exchange) =
        (some (.misfit (.filterSizes 64 128)), Act.runAll exchange) := by
  have hsized : ∀ a ∈ exchange, a.IsSized := by decide
  have hx : Act.noteAll exchange 4 = some ⟨1, [[], [97], [98]]⟩ := rfl
  have hy : Act.noteAll exchange 3 = some ⟨2, []⟩ := rfl
  obtain ⟨hthere, hkeys⟩ := runAll_isHomomorphic hsized 4
  obtain ⟨f, hf⟩ := Option.isSome_iff_exists.mp (hthere.trans (hx ▸ rfl))
  obtain ⟨g, hg⟩ := Option.isSome_iff_exists.mp
    ((runAll_isHomomorphic hsized 3).1.trans (hy ▸ rfl))
  obtain ⟨hfilter, hunite⟩ := hkeys f _ hf hx
  refine ⟨hsized, f, g, hf, hg, hfilter.words _ (by simp), hfilter.mayContain _ (by simp),
    hfilter.mayContain _ (by simp), hfilter.mayContain _ (by simp), hfilter.reread, ?_⟩
  exact (hunite 3 g _ hg hy).2 (by decide)

end Filter

end TableStore
