import TableStore.Proofs.Store.Refinement

/-! Getting a key against ranging over it, whatever the stamps. Getting takes the disk for the later
of two places and a range the memory, so they may part only where the newest version in memory and
the newest on disk are of one age; versions of one age within the memory, or in several tables on
disk, are taken in the same order by both. -/

namespace TableStore

/-- A key between the bounds of a range. -/
def Within (start : Bytes) (limit : Option Bytes) (key : Bytes) : Prop :=
  ¬ key < start ∧ ∀ l ∈ limit, key < l

theorem within_all (key : Bytes) : Within [] none key :=
  ⟨List.not_lt_nil key, fun _ hl => by simp at hl⟩

namespace Store

variable {s : Store} {key : Bytes}

/-- All that a range yields. -/
def rangeAnswers (s : Store) (start : Bytes) (limit : Option Bytes) :
    Except Fault (List (Except Fault (Bytes × Bytes))) :=
  (s.range start limit).map (·.toList s.memory)

/-- Getting a key and every range around it answer alike: the range yields the pair that getting the
key gives, and no pair of the key when there is none to get. -/
def ReadsAgree (s : Store) (key : Bytes) : Prop :=
  ∀ start limit, Within start limit key → ∃ answers, s.rangeAnswers start limit = .ok answers ∧
    (∀ data, s.get key = .ok (some data) ↔ .ok (key, data) ∈ answers) ∧
    (s.get key = .ok none ↔ ∀ data, .ok (key, data) ∉ answers)

/-- The newest version on disk. -/
def newestOnDisk (s : Store) (key : Bytes) : Version := Version.newest (s.versionsOnDisk key)

/-- Getting a key lets the disk stand where memory and disk are of one age. -/
theorem IsSound.get_eq_later (h : s.IsSound) (key : Bytes) :
    s.get key = .ok (Version.later (s.memory.get key) (s.newestOnDisk key)).data? := by
  rw [Store.get, h.version, Memory.get_eq h.memory.buffers, Version.newest_cons]
  rfl

/-- A range lets the memory stand there. -/
theorem IsSound.mem_rangeAnswers (h : s.IsSound) (start : Bytes) (limit : Option Bytes) :
    ∃ answers, s.rangeAnswers start limit = .ok answers ∧
      ∀ key data, .ok (key, data) ∈ answers ↔ Within start limit key ∧
        (Version.later (s.newestOnDisk key) (s.memory.get key)).data? = some data := by
  obtain ⟨cursor, pairs, hrange, hlist, hpairs⟩ := h.range start limit
  refine ⟨pairs.map .ok, ?_, fun key data => ?_⟩
  · rw [rangeAnswers, hrange, ← hlist]
    rfl
  · rw [List.mem_map_of_injective fun _ _ => Except.ok.inj, hpairs.mem_iff, Version.newest_append,
      ← Memory.get_eq h.memory.buffers, ← and_assoc]
    rfl

/-- Getting a key agrees with all ranges around it exactly when the newest version in memory and the
newest on disk carry the same data, or are not of one age. -/
theorem IsSound.readsAgree_iff (h : s.IsSound) (key : Bytes) : s.ReadsAgree key ↔
    ((s.memory.get key).stamp? = (s.newestOnDisk key).stamp? →
      (s.memory.get key).data? = (s.newestOnDisk key).data?) := by
  have hget := h.get_eq_later key
  constructor
  · intro hagree hage
    obtain ⟨answers, hrange, hsome, -⟩ := hagree [] none (within_all key)
    obtain ⟨answers', hrange', hmem⟩ := h.mem_rangeAnswers [] none
    obtain rfl := Except.ok.inj (hrange.symm.trans hrange')
    have hdata : ∀ data, (Version.later (s.memory.get key) (s.newestOnDisk key)).data? = some data ↔
        (Version.later (s.newestOnDisk key) (s.memory.get key)).data? = some data := by
      intro data
      have hpair := (hsome data).trans (hmem key data)
      rw [hget, Except.ok.injEq] at hpair
      exact hpair.trans (and_iff_right (within_all key))
    rw [Version.later_of_same_age hage, Version.later_of_same_age hage.symm] at hdata
    exact (Option.ext hdata).symm
  · intro hsame start limit hin
    obtain ⟨answers, hrange, hmem⟩ := h.mem_rangeAnswers start limit
    have hdata : (Version.later (s.newestOnDisk key) (s.memory.get key)).data? =
        (Version.later (s.memory.get key) (s.newestOnDisk key)).data? := by
      rcases Version.later_comm_or (s.newestOnDisk key) (s.memory.get key) with he | ⟨hd, hm, hage⟩
      · rw [he]
      · rw [hd, hm]
        exact hsame hage
    have hpair : ∀ data, .ok (key, data) ∈ answers ↔ s.get key = .ok (some data) := by
      intro data
      rw [hmem, hdata, hget, Except.ok.injEq]
      exact and_iff_right hin
    refine ⟨answers, hrange, fun data => (hpair data).symm, ?_⟩
    simp only [hpair, hget, Except.ok.injEq, ← Option.eq_none_iff_forall_ne_some]

/-- Two tables on disk hold the key with one stamp, and memory holds an older version: getting and
ranging agree. -/
theorem readsAgree_of_tie_on_disk : ∃ s writes, Life (.ofEmpty "data") writes s ∧
    s.versionsOnDisk [98] = [.present 1 [120], .present 1 [121]] ∧ s.ReadsAgree [98] := by
  have hvalid : Settings.validate { layout := .plain, filterBits := 64 } = .ok () := rfl
  have hfits : Draft.FilterFits .plain 64 := nofun
  obtain ⟨start, hl⟩ := exists_load_ofEmpty hvalid
  obtain ⟨a, ha, hra, hfa, b, hb, ⟨hrb, hfb, hrs⟩, htie⟩ : ∃ a,
      start.put [98] [120] 1 = .ok a ∧ start.HasRoomFor 1 ∧ a.HasRoomFor (a.waiting + 3) ∧
      ∃ b, a.flush.2.put [98] [121] 1 = .ok b ∧
      (a.flush.2.HasRoomFor 1 ∧ b.HasRoomFor (b.waiting + 3) ∧ b.flush.2.HasRoomFor 1) ∧
      (b.flush.2.put [98] [122] 0).toOption.any fun s =>
        s.versionsOnDisk [98] = [.present 1 [120], .present 1 [121]] ∧
        (s.memory.get [98]).stamp? = some 0 := by
    cases hl
    exact ⟨_, rfl, by decide +kernel, by decide +kernel, exists_eq_ok_of_any (by decide +kernel)⟩
  obtain ⟨s, hs, hdisk, hage⟩ := exists_eq_ok_of_any htie
  have hfirst := ((Life.opened hfits hl).step hra (.put ha)).flush hfa
  have hlife := (hfirst.step hrb (.put hb)).flush hfb
  have hrep := (hlife.step hrs (.put hs)).represents (stores_ofEmpty "data")
  refine ⟨s, _, hlife.step hrs (.put hs), hdisk, ?_⟩
  refine ((hrep.coherent.isSound hrep.sound).readsAgree_iff [98]).mpr fun htie => ?_
  rw [newestOnDisk, hdisk, hage] at htie
  exact absurd htie (by decide)

/-- A key is put with the stamp that it has on disk: getting it gives the old data, the range the
new. -/
theorem not_readsAgree_of_tie : ∃ s writes, Life (.ofEmpty "data") writes s ∧
    s.get [98] = .ok (some [120]) ∧ s.rangeAnswers [] none = .ok [.ok ([98], [121])] ∧
    ¬ s.ReadsAgree [98] := by
  have hvalid : Settings.validate { layout := .plain, filterBits := 64 } = .ok () := rfl
  have hfits : Draft.FilterFits .plain 64 := nofun
  obtain ⟨start, hl⟩ := exists_load_ofEmpty hvalid
  obtain ⟨a, ha, hra, hfa, s, hs, hrs, hget, hrange⟩ : ∃ a,
      start.put [98] [120] 1 = .ok a ∧ start.HasRoomFor 1 ∧ a.HasRoomFor (a.waiting + 3) ∧
      ∃ s, a.flush.2.put [98] [121] 1 = .ok s ∧ a.flush.2.HasRoomFor 1 ∧
      (s.get [98]).toOption = some (some [120]) ∧
      (s.rangeAnswers [] none).toOption = some [.ok ([98], [121])] := by
    cases hl
    exact ⟨_, rfl, by decide +kernel, by decide +kernel, exists_eq_ok_of_any (by decide +kernel)⟩
  rw [toOption_eq_some] at hget hrange
  refine ⟨s, _, (((Life.opened hfits hl).step hra (.put ha)).flush hfa).step hrs (.put hs), hget,
    hrange, fun hagree => ?_⟩
  obtain ⟨answers, hrange', hsome, -⟩ := hagree [] none (within_all [98])
  obtain rfl := Except.ok.inj (hrange.symm.trans hrange')
  exact absurd ((hsome [120]).mp hget) (by simp)

end Store

end TableStore
