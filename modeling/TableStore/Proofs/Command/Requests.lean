import TableStore.Command.Run
import TableStore.Proofs.Store.Handover
import TableStore.Proofs.Text.Utf8

/-! What one request does to a store that shows a map. Texts are kept as their bytes, so the store
stands for a map of texts: a request that succeeds prints what that map says, a put or a deletion
changes the map at its key, and nothing else changes it. Until the store is closed the request has
handed out two generations at most. -/

namespace TableStore

namespace Command

open Text

/-! ### The map of texts -/

/-- The live values after a request. -/
def Request.update (map : String → Option String) : Request → String → Option String
  | .put key value, other => if other = key then some value else map other
  | .delete key, other => if other = key then none else map other
  | _, other => map other

/-- The live pairs from `start` on and below `limit`, in ascending order of the bytes of keys. -/
structure IsScanOf (map : String → Option String) (start : String) (limit : Option String)
    (pairs : List (String × String)) : Prop where
  ascending : pairs.Pairwise fun a b => utf8 a.1 < utf8 b.1
  mem_iff : ∀ key value, (key, value) ∈ pairs ↔
    ¬ utf8 key < utf8 start ∧ (∀ l ∈ limit, utf8 key < utf8 l) ∧ map key = some value

def printed (pair : String × String) : String := pair.1 ++ "\t" ++ pair.2 ++ "\n"

/-- What a request that succeeds prints, as far as the map decides. -/
def Answers (map : String → Option String) (output : String) : Request → Prop
  | .put _ _ => output = "OK\n"
  | .get key => output = (map key).getD "(not found)" ++ "\n"
  | .delete _ => output = "OK\n"
  | .scan start limit count => ∃ pairs, IsScanOf map start limit pairs ∧
      output = String.join ((pairs.take (count.getD pairs.length)).map printed)
  | .compact => True
  | .stats => True

/-! ### Texts as bytes -/

/-- The cell that a request writes, if it writes one. -/
def Request.cell? (stamp : Stamp) : Request → Option Cell
  | .put key value => some ⟨utf8 key, .present stamp (utf8 value)⟩
  | .delete key => some ⟨utf8 key, .tombstone stamp⟩
  | _ => none

/-- The data of the versions are the values of a map, all as bytes of texts. -/
def Renders (versions : Bytes → Version) (map : String → Option String) : Prop :=
  ∀ key data, (versions key).data? = some data ↔
    ∃ k v, key = utf8 k ∧ data = utf8 v ∧ map k = some v

variable {versions : Bytes → Version} {map : String → Option String}

theorem renders_empty : Renders (finalMap .empty []) fun _ => none := by
  intro key data
  have habsent : finalMap .empty [] key = .absent := rfl
  simp [habsent, Version.data?]

theorem Renders.update (h : Renders versions map) (stamp : Stamp) (request : Request) :
    Renders ((request.cell? stamp).toList.foldl writeMap versions) (request.update map) := by
  intro key data
  cases request with
  | put own value =>
    show (writeMap versions _ key).data? = some data ↔
      ∃ k v, key = utf8 k ∧ data = utf8 v ∧ (if k = own then some value else map k) = some v
    by_cases hk : utf8 own = key
    · rw [writeMap, if_pos hk, Version.data?, Option.some.injEq]
      constructor
      · rintro rfl
        exact ⟨own, value, hk.symm, rfl, if_pos rfl⟩
      · rintro ⟨k, v, hkey, rfl, hv⟩
        rw [if_pos (utf8_injective (hkey.symm.trans hk.symm)), Option.some.injEq] at hv
        rw [hv]
    · rw [writeMap, if_neg hk, h]
      refine exists_congr fun k => exists_congr fun v => and_congr_right fun hkey => ?_
      rw [if_neg fun he : k = own => hk (he ▸ hkey.symm)]
  | delete own =>
    show (writeMap versions _ key).data? = some data ↔
      ∃ k v, key = utf8 k ∧ data = utf8 v ∧ (if k = own then none else map k) = some v
    by_cases hk : utf8 own = key
    · rw [writeMap, if_pos hk]
      refine iff_of_false (by simp [Version.data?]) ?_
      rintro ⟨k, v, hkey, -, hv⟩
      rw [if_pos (utf8_injective (hkey.symm.trans hk.symm))] at hv
      simp at hv
    · rw [writeMap, if_neg hk, h]
      refine exists_congr fun k => exists_congr fun v => and_congr_right fun hkey => ?_
      rw [if_neg fun he : k = own => hk (he ▸ hkey.symm)]
  | get | scan | compact | stats => exact h key data

theorem Renders.data?_utf8 (h : Renders versions map) (key : String) :
    (versions (utf8 key)).data? = (map key).map utf8 := by
  refine Option.ext fun data => ?_
  rw [h, Option.map_eq_some_iff]
  constructor
  · rintro ⟨k, v, hk, rfl, hv⟩
    exact ⟨v, utf8_injective hk ▸ hv, rfl⟩
  · rintro ⟨v, hv, rfl⟩
    exact ⟨key, v, rfl, rfl, hv⟩

/-- The live pairs of the versions are those of the map. -/
theorem Renders.isScanOf (h : Renders versions map) {start : String} {limit : Option String}
    {pairs : List (Bytes × Bytes)} (hp : IsRangeOf versions (utf8 start) (limit.map utf8) pairs) :
    IsScanOf map start limit (pairs.map fun p => (lossy p.1, lossy p.2)) := by
  have htext : ∀ p ∈ pairs, utf8 (lossy p.1) = p.1 := by
    rintro ⟨key, data⟩ hm
    obtain ⟨k, v, rfl, -⟩ := (h key data).mp ((hp.mem_iff key data).mp hm).2.2
    rw [lossy_utf8]
  constructor
  · refine List.pairwise_map.mpr (hp.ascending.imp_of_mem fun {p q} hp hq hlt => ?_)
    rw [htext p hp, htext q hq]
    exact hlt
  · intro key value
    have hlimit : (∀ l ∈ limit.map utf8, utf8 key < l) ↔ ∀ l ∈ limit, utf8 key < utf8 l := by
      cases limit <;> simp
    have hmem : (key, value) ∈ pairs.map (fun p => (lossy p.1, lossy p.2)) ↔
        (utf8 key, utf8 value) ∈ pairs := by
      rw [List.mem_map]
      constructor
      · rintro ⟨⟨bytes, data⟩, hm, he⟩
        obtain ⟨k, v, rfl, rfl, -⟩ := (h bytes data).mp ((hp.mem_iff bytes data).mp hm).2.2
        rw [lossy_utf8, lossy_utf8, Prod.mk.injEq] at he
        rwa [← he.1, ← he.2]
      · exact fun hm => ⟨_, hm, by rw [lossy_utf8, lossy_utf8]⟩
    have hvalue : (versions (utf8 key)).data? = some (utf8 value) ↔ map key = some value := by
      rw [h.data?_utf8, Option.map_eq_some_iff]
      exact ⟨fun ⟨v, hv, he⟩ => utf8_injective he ▸ hv, fun hv => ⟨value, hv, rfl⟩⟩
    rw [hmem, hp.mem_iff, hlimit, hvalue]

/-! ### Output -/

theorem printPairs_ok (pairs : List (Bytes × Bytes)) : printPairs (pairs.map .ok) =
    (String.join (pairs.map fun p => printed (lossy p.1, lossy p.2)), false) := by
  induction pairs with
  | nil => rfl
  | cons pair pairs ih =>
    rw [List.map_cons, printPairs, ih, List.map_cons, String.join_cons]
    rfl

variable {s s' : Store} {stamp : Stamp} {request : Request} {output : String}

/-- A request that succeeds prints what the map says. -/
theorem answers_of_perform (hs : s.Shows versions) (h : Renders versions map)
    (hp : perform s stamp request = (output, none, s')) : Answers map output request := by
  cases request with
  | put key value =>
    rw [perform] at hp
    split at hp
    · exact (Prod.mk.inj hp).1.symm
    · simp at hp
  | delete key =>
    rw [perform] at hp
    split at hp
    · exact (Prod.mk.inj hp).1.symm
    · simp at hp
  | get key =>
    rw [perform, hs.get, h.data?_utf8] at hp
    show output = (map key).getD "(not found)" ++ "\n"
    cases hm : map key with
    | none =>
      rw [hm] at hp
      exact (Prod.mk.inj hp).1.symm
    | some value =>
      rw [hm] at hp
      simp only [Option.map_some, lossy_utf8] at hp
      exact (Prod.mk.inj hp).1.symm
  | scan start limit count =>
    obtain ⟨cursor, pairs, hrange, hlist, hpairs⟩ := hs.range (utf8 start) (limit.map utf8)
    rw [perform, hrange] at hp
    dsimp only at hp
    rw [hlist, ← List.map_take, printPairs_ok, List.length_map] at hp
    refine ⟨_, h.isScanOf hpairs, ?_⟩
    rw [List.length_map, ← List.map_take, List.map_map]
    exact (Prod.mk.inj hp).1.symm
  | compact | stats => trivial

/-! ### Steps -/

/-- A write that is acknowledged leaves an open store; the table it rotates spends a generation
and waits to be flushed. -/
theorem spent_of_write {cell : Cell} (hw : s.write cell = .ok s') (hidle : s.waiting = 0)
    (hr : s.HasRoomFor 1) : s'.memory.closed = false ∧
      s'.memory.nextGeneration.toNat + s'.waiting ≤ s.memory.nextGeneration.toNat + 2 := by
  obtain ⟨memory, hm, rfl⟩ := Store.exists_memory_of_write hw
  obtain ⟨hopen, rfl | ⟨-, rfl⟩⟩ := Memory.write_cases hm
  · refine ⟨hopen, ?_⟩
    show s.memory.nextGeneration.toNat + s.waiting ≤ _
    omega
  · have hnext : ((s.memory.writeOnly cell).turn false).nextGeneration.toNat =
        s.memory.nextGeneration.toNat + 1 := Store.toNat_spend (m := s.memory) hr
    have hqueue : ((s.memory.writeOnly cell).turn false).queue.length =
        s.memory.queue.length + 1 := List.length_append
    refine ⟨rfl, ?_⟩
    unfold Store.waiting at *
    dsimp only
    omega

/-- A write and what the worker makes of it are a run of steps that leaves an open store. -/
theorem run_of_write {cell : Cell} (hc : s.IsCoherent) (hidle : s.waiting = 0)
    (hr : s.HasRoomFor 3) (hw : s.write cell = .ok s') (hs : Store.Step s [cell] s') :
    Store.Run s [cell] s'.settle ∧ s'.settle.memory.closed = false ∧
      s'.settle.memory.nextGeneration.toNat + s'.settle.waiting ≤
        s.memory.nextGeneration.toNat + 2 := by
  have hone : s.HasRoomFor 1 := hr.mono (by omega)
  obtain ⟨hopen, hspent⟩ := spent_of_write hw hidle hone
  have hrun : Store.Run s [cell] s' := Store.Run.refl.step hone hs
  have hroom : s'.HasRoomFor (s'.waiting + 1) := by
    unfold Store.HasRoomFor at *
    omega
  obtain ⟨hclosed, hsettled⟩ := ((hrun.moves hc.fits).coherent hc).settle hopen hroom
  have hall := hrun.trans (Store.run_settle hroom)
  rw [List.append_nil] at hall
  exact ⟨hall, hclosed, Nat.le_trans hsettled hspent⟩

/-- A request that succeeds is a run of steps that writes its cell and leaves an open store. -/
theorem run_of_perform (hc : s.IsCoherent) (hopen : s.memory.closed = false)
    (hidle : s.waiting = 0) (hr : s.HasRoomFor 3)
    (hp : perform s stamp request = (output, none, s')) :
    Store.Run s (request.cell? stamp).toList s' ∧ s'.memory.closed = false ∧
      s'.memory.nextGeneration.toNat + s'.waiting ≤ s.memory.nextGeneration.toNat + 2 := by
  have hstay : Store.Run s [] s ∧ s.memory.closed = false ∧
      s.memory.nextGeneration.toNat + s.waiting ≤ s.memory.nextGeneration.toNat + 2 :=
    ⟨.refl, hopen, by omega⟩
  cases request with
  | put key value =>
    rw [perform] at hp
    split at hp
    · rename_i written hw
      obtain rfl := (Prod.mk.inj (Prod.mk.inj hp).2).2
      exact run_of_write hc hidle hr hw (.put hw)
    · simp at hp
  | delete key =>
    rw [perform] at hp
    split at hp
    · rename_i written hw
      obtain rfl := (Prod.mk.inj (Prod.mk.inj hp).2).2
      exact run_of_write hc hidle hr hw (.delete hw)
    · simp at hp
  | get key =>
    rw [perform] at hp
    split at hp
    · obtain rfl := (Prod.mk.inj (Prod.mk.inj hp).2).2
      exact hstay
    · obtain rfl := (Prod.mk.inj (Prod.mk.inj hp).2).2
      exact hstay
    · simp at hp
  | scan start limit count =>
    rw [perform] at hp
    split at hp
    · simp at hp
    · obtain rfl := (Prod.mk.inj (Prod.mk.inj hp).2).2
      exact hstay
  | compact =>
    have hone : s.HasRoomFor 1 := hr.mono (by omega)
    have hs : s' = s.compact.2 := by
      rw [perform] at hp
      split at hp
      · simp at hp
      all_goals
        rename_i he
        rw [he]
        exact (Prod.mk.inj (Prod.mk.inj hp).2).2.symm
    have hsame := Store.sameTasks_compact s
    have hspent := hsame.spent hone
    rw [hs]
    refine ⟨Store.Run.refl.step hone (.work (.compact s)), hsame.closed.trans hopen, ?_⟩
    unfold Store.waiting at *
    rw [hsame.queue, hsame.backlog]
    omega
  | stats =>
    obtain rfl := (Prod.mk.inj (Prod.mk.inj hp).2).2
    exact hstay

end Command

end TableStore
