import TableStore.Proofs.Store.Agreement
import TableStore.Proofs.Store.Blind
import TableStore.Proofs.Store.Changes

/-! Range cursors in use. Between the calls of a cursor the store changes in any way, and the cursor
sees some of that and not the rest. The cells ahead of it carry the argument: each was the newest
version of its key at some moment since the cursor was opened, all of them lie behind the pairs
yielded, and a key that was not written is still there with the version that it had, or it has had
its turn. A write adds its cell behind another one or not at all, so a cursor at its end stays
there. -/

namespace TableStore

variable {contents : Generations (List Cell)} {before cells : List Cell} {opened s' : Store}
  {first key data : Bytes} {limit : Option Bytes}

/-- A range cursor in use. -/
structure Traversal where
  store : Store
  cursor : RangeCursor
  /-- The stores since the cursor was opened, that of the opening and the present one included. -/
  moments : List Store
  /-- The cells written since the cursor was opened. -/
  writes : List Cell
  /-- What the calls have answered. -/
  answers : List (Option (Except Fault (Bytes × Bytes)))

namespace Traversal

variable {t : Traversal} {cursor : RangeCursor}

def start (opened : Store) (cursor : RangeCursor) : Traversal := ⟨opened, cursor, [opened], [], []⟩

/-- The store becomes another one, and cells are written. -/
def turn (t : Traversal) (s' : Store) (cells : List Cell) : Traversal :=
  { t with store := s', moments := t.moments ++ [s'], writes := t.writes ++ cells }

/-- What the next call answers. -/
def answer (t : Traversal) : Option (Except Fault (Bytes × Bytes)) :=
  (t.cursor.next t.store.memory).1

/-- The next call. -/
def call (t : Traversal) : Traversal :=
  { t with cursor := (t.cursor.next t.store.memory).2, answers := t.answers ++ [t.answer] }

/-- The pairs that the calls have yielded. -/
def yielded (t : Traversal) : List (Bytes × Bytes) :=
  t.answers.filterMap fun answer => answer.bind Except.toOption

/-- Changes of the store and calls of a cursor opened on it, in any order. -/
inductive Uses (opened : Store) (cursor : RangeCursor) : Traversal → Prop
  | opening : Uses opened cursor (start opened cursor)
  | change {t : Traversal} {s' : Store} {cells : List Cell} :
    Uses opened cursor t → Store.Change t.store cells s' → Uses opened cursor (t.turn s' cells)
  | call {t : Traversal} : Uses opened cursor t → Uses opened cursor t.call

/-- What is asked of a cursor that was opened between two bounds. -/
structure IsFaithful (opened : Store) (first : Bytes) (limit : Option Bytes) (t : Traversal) :
    Prop where
  no_fault : ∀ fault, some (.error fault) ∉ t.answers
  /-- The keys yielded ascend, and so no key is yielded twice. -/
  ascending : t.yielded.Pairwise fun a b => a.1 < b.1
  within : ∀ pair ∈ t.yielded, Within first limit pair.1
  /-- A pair that the next call yields was live at some moment since the opening. -/
  lived : ∀ key data, t.answer = some (.ok (key, data)) → ∃ moment ∈ t.moments, ∃ stamp,
    moment.version key = .ok (.present stamp data)
  /-- A key that was not written is yielded with its value at the opening, -/
  unwritten : ∀ key, (∀ w ∈ t.writes, w.key ≠ key) → ∀ data, (key, data) ∈ t.yielded →
    opened.get key = .ok (some data)
  /-- and when the next call ends the cursor, each such key with a value has been yielded. -/
  complete : t.answer = none → ∀ key, Within first limit key → (∀ w ∈ t.writes, w.key ≠ key) →
    ∀ data, opened.get key = .ok (some data) → (key, data) ∈ t.yielded
  ended : none ∈ t.answers → t.answer = none

/-! ### The cells ahead -/

def ahead (t : Traversal) : List Cell := t.cursor.ahead t.store.memory

/-- What holds of a cursor in use and of the cells ahead of it. -/
structure Tracks (contents : Generations (List Cell)) (before : List Cell) (opened : Store)
    (first : Bytes) (limit : Option Bytes) (t : Traversal) : Prop where
  knows : t.store.Knows contents (before ++ t.writes)
  sound : t.cursor.IsSound t.store.memory
  limit_eq : t.cursor.limit = limit
  seen : ∀ c ∈ t.ahead, ∃ moment ∈ t.moments, moment.version c.key = .ok c.version
  known : ∀ c ∈ t.ahead, IsKnown contents (before ++ t.writes) c.key c.version
  from_first : ∀ c ∈ t.ahead, ¬ c.key < first
  behind : ∀ c ∈ t.ahead, ∀ pair ∈ t.yielded, pair.1 < c.key
  kept : ∀ key, Within first limit key → (∀ w ∈ t.writes, w.key ≠ key) → ∀ data,
    opened.get key = .ok (some data) ↔
      (key, data) ∈ t.yielded ∨ ∃ version, ⟨key, version⟩ ∈ t.ahead ∧ version.data? = some data
  ended : none ∈ t.answers → t.ahead = []
  no_fault : ∀ fault, some (.error fault) ∉ t.answers
  ascending : t.yielded.Pairwise fun a b => a.1 < b.1
  within : ∀ pair ∈ t.yielded, Within first limit pair.1

/-- A cursor that has just been opened has the newest versions ahead of it. -/
theorem tracks_start (hk : opened.Knows contents before) (ht : IsTimely contents before)
    (hs : cursor.IsSound opened.memory) (hl : cursor.limit = limit)
    (hlook : ∀ key, lookup key (cursor.ahead opened.memory) = if key < first then none else
      Version.newest? (opened.versionsOnDisk key ++
        (Version.newest? (opened.memory.versions key)).toList)) :
    (start opened cursor).Tracks contents before opened first limit := by
  have hahead : (start opened cursor).ahead = cursor.ahead opened.memory := rfl
  have hyielded : (start opened cursor).yielded = [] := rfl
  have hin : ∀ c ∈ cursor.ahead opened.memory, ¬ c.key < first ∧ Version.newest?
      (opened.versionsOnDisk c.key ++ (Version.newest? (opened.memory.versions c.key)).toList) =
        some c.version := by
    intro c hc
    have hfound := hs.ascending.lookup_of_mem hc
    rw [hlook] at hfound
    split at hfound
    · simp at hfound
    · exact ⟨by assumption, hfound⟩
  have hversion : ∀ key, opened.version key = .ok (Version.newest (opened.versionsOnDisk key ++
      (Version.newest? (opened.memory.versions key)).toList)) := by
    intro key
    rw [hk.version, Version.newest_append_newest?, hk.newest_comm ht]
  refine ⟨by simpa [start] using hk, hs, hl, fun c hc => ?_, fun c hc => ?_,
    fun c hc => (hin c hc).1, by simp [hyielded], fun key hkey _ data => ?_, by simp [start],
    by simp [start], by simp [hyielded], by simp [hyielded]⟩
  · refine ⟨opened, List.mem_singleton_self _, ?_⟩
    rw [hversion, Version.newest_of_newest?_eq_some (hin c hc).2]
  · have hm := Version.mem_of_newest?_eq_some (hin c hc).2
    rw [List.mem_append, Option.mem_toList] at hm
    have hwritten : (start opened cursor).writes = [] := rfl
    rw [hwritten, List.append_nil]
    rcases hm with hm | hm
    · exact hk.disk hm
    · exact Or.inl (hk.memory (Version.mem_of_newest?_eq_some hm))
  · have hget : opened.get key = .ok (some data) ↔ (Version.newest (opened.versionsOnDisk key ++
        (Version.newest? (opened.memory.versions key)).toList)).data? = some data := by
      rw [Store.get, hversion, ok_bind, pure_eq_ok, Except.ok.injEq]
    rw [hget, ← Version.exists_newest?_data, hyielded, hahead]
    simp only [List.not_mem_nil, false_or, ← hs.ascending.lookup_eq_some_iff, hlook,
      if_neg hkey.1]

/-- What a change of the store makes of the cells ahead. -/
theorem Tracks.grows (h : t.Tracks contents before opened first limit)
    (hc : Store.Change t.store cells s') (ht : IsTimely contents (before ++ t.writes ++ cells)) :
    (t.turn s' cells).cursor.IsSound s'.memory ∧
      Grows cells.head? t.ahead (t.turn s' cells).ahead := by
  obtain ⟨hsound, hgrows⟩ := h.sound.carried hc.carries
  refine ⟨hsound, hgrows fun w hw v hv => ?_⟩
  rcases hc.cells_cases h.knows.ordered with rfl | ⟨w', rfl, -⟩
  · simp at hw
  · obtain rfl : w' = w := Option.some.inj hw
    exact ht.older (h.known _ (mem_of_lookup hv))

/-- The cells ahead behind a change were there, or one of them was written, behind another one. -/
theorem Tracks.mem_turn (h : t.Tracks contents before opened first limit)
    (hc : Store.Change t.store cells s') (ht : IsTimely contents (before ++ t.writes ++ cells))
    {c : Cell} (hcell : c ∈ (t.turn s' cells).ahead) :
    c ∈ t.ahead ∨ cells = [c] ∧ c.version ∈ s'.memory.versions c.key ∧
      ∃ d ∈ t.ahead, d.key < c.key := by
  obtain ⟨hsound, hgrows⟩ := h.grows hc ht
  refine (hgrows.mem hsound.ascending hcell).imp id fun ⟨hw, hfront⟩ => ?_
  rcases hc.cells_cases h.knows.ordered with rfl | ⟨w, rfl, hin⟩
  · simp at hw
  · obtain rfl : w = c := Option.some.inj hw
    exact ⟨rfl, hin, hfront⟩

/-- The cells ahead under a key that is not written stay. -/
theorem Tracks.mem_turn_iff (h : t.Tracks contents before opened first limit)
    (hc : Store.Change t.store cells s') (ht : IsTimely contents (before ++ t.writes ++ cells))
    (hkey : ∀ w ∈ cells, w.key ≠ key) (version : Version) :
    ⟨key, version⟩ ∈ (t.turn s' cells).ahead ↔ ⟨key, version⟩ ∈ t.ahead := by
  obtain ⟨hsound, hgrows⟩ := h.grows hc ht
  have hasc : Ascending t.ahead := h.sound.ascending
  have hasc' : Ascending (t.turn s' cells).ahead := hsound.ascending
  rw [← hasc'.lookup_eq_some_iff, hgrows.lookup_eq fun w hw => hkey w (List.mem_of_mem_head? hw)]
  exact hasc.lookup_eq_some_iff

/-- The store changes. -/
theorem Tracks.turn (h : t.Tracks contents before opened first limit)
    (hc : Store.Change t.store cells s') (ht : IsTimely contents (before ++ t.writes ++ cells)) :
    (t.turn s' cells).Tracks contents before opened first limit := by
  have hwrites : before ++ (t.turn s' cells).writes = before ++ t.writes ++ cells :=
    (List.append_assoc _ _ _).symm
  have hknows := hc.knows h.knows
  refine ⟨hwrites ▸ hknows, (h.grows hc ht).1, h.limit_eq, fun c hcell => ?_, fun c hcell => ?_,
    fun c hcell => ?_, fun c hcell pair hp => ?_, fun key hkey hunwritten data => ?_, fun hn => ?_,
    h.no_fault, h.ascending, h.within⟩
  · rcases h.mem_turn hc ht hcell with hold | ⟨rfl, hin, -⟩
    · obtain ⟨moment, hm, hv⟩ := h.seen c hold
      exact ⟨moment, List.mem_append_left _ hm, hv⟩
    · refine ⟨s', List.mem_append_right _ (List.mem_singleton_self _), ?_⟩
      exact hknows.version_of_last ht (by rw [lastWrite?_concat, if_pos rfl]) hin
  · rw [hwrites]
    rcases h.mem_turn hc ht hcell with hold | ⟨rfl, -⟩
    · exact (h.known c hold).append cells
    · exact Or.inl (List.mem_append_right _ (List.mem_singleton_self _))
  · rcases h.mem_turn hc ht hcell with hold | ⟨-, -, d, hd, hlt⟩
    · exact h.from_first c hold
    · exact fun hbefore => h.from_first d hd (List.lt_trans hlt hbefore)
  · rcases h.mem_turn hc ht hcell with hold | ⟨-, -, d, hd, hlt⟩
    · exact h.behind c hold pair hp
    · exact List.lt_trans (h.behind d hd pair hp) hlt
  · simp only [h.mem_turn_iff hc ht fun w hw => hunwritten w (List.mem_append_right _ hw)]
    exact h.kept key hkey (fun w hw => hunwritten w (List.mem_append_left _ hw)) data
  · rw [List.eq_nil_iff_forall_not_mem]
    intro c hcell
    have hnil := h.ended hn
    rcases h.mem_turn hc ht hcell with hold | ⟨-, -, d, hd, -⟩
    · simp [hnil] at hold
    · simp [hnil] at hd

/-- What a call makes of the cells ahead. -/
theorem Tracks.steps (h : t.Tracks contents before opened first limit) :
    t.call.cursor.IsSound t.store.memory ∧ t.call.cursor.limit = limit ∧
      RangeCursor.StepsTo limit t.ahead t.answer t.call.ahead := by
  have hnext := h.sound.next
  rw [h.limit_eq] at hnext
  exact hnext

theorem yielded_call (t : Traversal) :
    t.call.yielded = t.yielded ++ (t.answer.bind Except.toOption).toList := by
  rw [yielded, call, List.filterMap_append, List.filterMap_cons]
  cases t.answer.bind Except.toOption <;> rfl

/-- Of cells of which the front ones are not live, the live ones are the next one and those behind
it. -/
theorem exists_live_iff {skipped rest : List Cell} {cell : Cell} {payload : Bytes}
    (hdead : ∀ c ∈ skipped, c.version.data? = none) (hlive : cell.version.data? = some payload) :
    (∃ version, ⟨key, version⟩ ∈ skipped ++ cell :: rest ∧ version.data? = some data) ↔
      (key, data) = (cell.key, payload) ∨
        ∃ version, ⟨key, version⟩ ∈ rest ∧ version.data? = some data := by
  constructor
  · rintro ⟨version, hm, hd⟩
    rw [List.mem_append, List.mem_cons] at hm
    rcases hm with hm | rfl | hm
    · simp [hdead _ hm] at hd
    · exact Or.inl (by rw [← Option.some.inj (hlive.symm.trans hd)])
    · exact Or.inr ⟨version, hm, hd⟩
  · rintro (he | ⟨version, hm, hd⟩)
    · rw [Prod.mk.injEq] at he
      obtain ⟨rfl, rfl⟩ := he
      exact ⟨cell.version, List.mem_append_right _ List.mem_cons_self, hlive⟩
    · exact ⟨version, List.mem_append_right _ (List.mem_cons_of_mem _ hm), hd⟩

/-- A call yields the first live cell ahead. -/
theorem Tracks.yields (h : t.Tracks contents before opened first limit)
    (hsound : t.call.cursor.IsSound t.store.memory) (hlimit : t.call.cursor.limit = limit)
    {skipped : List Cell} {cell : Cell} {payload : Bytes}
    (ha : t.answer = some (.ok (cell.key, payload)))
    (hs : t.ahead = skipped ++ cell :: t.call.ahead)
    (hdead : ∀ c ∈ skipped, c.version.data? = none) (hlt : ∀ l ∈ limit, cell.key < l)
    (hlive : cell.version.data? = some payload) :
    t.call.Tracks contents before opened first limit := by
  have hanswers : t.call.answers = t.answers ++ [some (.ok (cell.key, payload))] := ha ▸ rfl
  have hyielded : t.call.yielded = t.yielded ++ [(cell.key, payload)] := by
    rw [yielded_call, ha]
    rfl
  have hsub : ∀ c ∈ t.call.ahead, c ∈ t.ahead := by
    intro c hc
    rw [hs]
    exact List.mem_append_right _ (List.mem_cons_of_mem _ hc)
  have hcell : cell ∈ t.ahead := by
    rw [hs]
    exact List.mem_append_right _ List.mem_cons_self
  have hlater : ∀ c ∈ t.call.ahead, cell.key < c.key := by
    have hasc : Ascending t.ahead := h.sound.ascending
    rw [hs] at hasc
    exact fun c hc => List.rel_of_pairwise_cons (List.pairwise_append.mp hasc).2.1 hc
  have hpairs : ∀ pair ∈ t.call.yielded, pair ∈ t.yielded ∨ pair = (cell.key, payload) := by
    intro pair hp
    rwa [hyielded, List.mem_append, List.mem_singleton] at hp
  refine ⟨h.knows, hsound, hlimit, fun c hc => h.seen c (hsub c hc),
    fun c hc => h.known c (hsub c hc), fun c hc => h.from_first c (hsub c hc),
    fun c hc pair hp => ?_, fun key hkey hunwritten data => ?_, fun hn => ?_, fun fault hf => ?_,
    ?_, fun pair hp => ?_⟩
  · rcases hpairs pair hp with hp | rfl
    · exact h.behind c (hsub c hc) pair hp
    · exact hlater c hc
  · rw [h.kept key hkey hunwritten, hs, exists_live_iff hdead hlive, hyielded, List.mem_append,
      List.mem_singleton, or_assoc]
  · rw [hanswers, List.mem_append, List.mem_singleton] at hn
    have hnil := h.ended (hn.resolve_right (by simp))
    simp [hnil] at hcell
  · rw [hanswers, List.mem_append, List.mem_singleton] at hf
    exact h.no_fault fault (hf.resolve_right (by simp))
  · rw [hyielded]
    refine List.pairwise_append.mpr ⟨h.ascending, List.pairwise_singleton _ _, ?_⟩
    intro pair hp other ho
    rw [List.mem_singleton.mp ho]
    exact h.behind cell hcell pair hp
  · rcases hpairs pair hp with hp | rfl
    · exact h.within pair hp
    · exact ⟨h.from_first cell hcell, hlt⟩

/-- A call finds no live cell ahead. -/
theorem Tracks.ends (h : t.Tracks contents before opened first limit)
    (hsound : t.call.cursor.IsSound t.store.memory) (hlimit : t.call.cursor.limit = limit)
    (ha : t.answer = none) (hrest : t.call.ahead = [])
    (hall : ∀ c ∈ t.ahead, (∀ l ∈ limit, c.key < l) → c.version.data? = none) :
    t.call.Tracks contents before opened first limit := by
  have hanswers : t.call.answers = t.answers ++ [none] := ha ▸ rfl
  have hyielded : t.call.yielded = t.yielded := by
    rw [yielded_call, ha]
    exact List.append_nil _
  refine ⟨h.knows, hsound, hlimit, by simp [hrest], by simp [hrest], by simp [hrest],
    by simp [hrest], fun key hkey hunwritten data => ?_, fun _ => hrest, fun fault hf => ?_,
    hyielded ▸ h.ascending, hyielded ▸ h.within⟩
  · rw [h.kept key hkey hunwritten, hyielded, hrest]
    refine or_congr_right ⟨fun ⟨version, hm, hd⟩ => ?_, by simp⟩
    simp [hall _ hm hkey.2] at hd
  · rw [hanswers, List.mem_append, List.mem_singleton] at hf
    exact h.no_fault fault (hf.resolve_right (by simp))

/-- The cursor is called. -/
theorem Tracks.call (h : t.Tracks contents before opened first limit) :
    t.call.Tracks contents before opened first limit := by
  obtain ⟨hsound, hlimit, hsteps⟩ := h.steps
  generalize ha : t.answer = answer at hsteps
  generalize hrest : t.call.ahead = rest at hsteps
  cases hsteps with
  | yields hs hdead hlt hlive => exact h.yields hsound hlimit ha (hrest ▸ hs) hdead hlt hlive
  | ends hall => exact h.ends hsound hlimit ha hrest hall

/-! ### Whole traversals -/

/-- A run of steps is made of changes, and so are the calls of flush and of close, by which the
worker also ends when a store is dropped. -/
theorem Uses.run (hu : Uses opened cursor t) (hr : Store.Run t.store cells s') :
    ∃ moments, Uses opened cursor ⟨s', t.cursor, moments, t.writes ++ cells, t.answers⟩ := by
  induction hr with
  | refl => exact ⟨t.moments, by rwa [List.append_nil]⟩
  | @step s s' writes cells _ hroom hs ih =>
    obtain ⟨moments, hu⟩ := ih
    exact ⟨moments ++ [s'], List.append_assoc _ _ _ ▸ hu.change (.step hroom hs)⟩

theorem Uses.close (hu : Uses opened cursor t)
    (hr : t.store.HasRoomFor (t.store.waiting + 3)) :
    ∃ moments, Uses opened cursor ⟨t.store.close.2, t.cursor, moments, t.writes, t.answers⟩ := by
  simpa using hu.run (Store.run_close hr)

theorem Uses.tracks (hstart : (start opened cursor).Tracks contents before opened first limit)
    (hu : Uses opened cursor t) (ht : IsTimely contents (before ++ t.writes)) :
    t.Tracks contents before opened first limit := by
  induction hu with
  | opening => exact hstart
  | @change t s' cells _ hc ih =>
    have hwrites : before ++ (t.turn s' cells).writes = before ++ t.writes ++ cells :=
      (List.append_assoc _ _ _).symm
    rw [hwrites] at ht
    exact (ih ht.of_append).turn hc ht
  | call _ ih => exact (ih ht).call

theorem Tracks.isFaithful (h : t.Tracks contents before opened first limit) :
    t.IsFaithful opened first limit := by
  obtain ⟨-, -, hsteps⟩ := h.steps
  refine ⟨h.no_fault, h.ascending, h.within, fun key data ha => ?_,
    fun key hunwritten data hy => ?_, fun ha key hkey hunwritten data hg => ?_, fun hn => ?_⟩
  · rw [ha] at hsteps
    cases hsteps with
    | @yields skipped _ cell _ hs _ _ hlive =>
      have hcell : cell ∈ t.ahead := by
        rw [hs]
        exact List.mem_append_right _ List.mem_cons_self
      obtain ⟨moment, hm, hv⟩ := h.seen cell hcell
      refine ⟨moment, hm, ?_⟩
      cases hc : cell.version with
      | present stamp own =>
        rw [hc, Version.data?, Option.some.injEq] at hlive
        exact ⟨stamp, by rw [hv, hc, hlive]⟩
      | tombstone | absent => simp [hc, Version.data?] at hlive
  · exact (h.kept key (h.within _ hy) hunwritten data).mpr (Or.inl hy)
  · rw [ha] at hsteps
    generalize t.call.ahead = rest at hsteps
    cases hsteps with
    | ends hall =>
      refine ((h.kept key hkey hunwritten data).mp hg).resolve_right ?_
      rintro ⟨version, hm, hd⟩
      simp [hall _ hm hkey.2] at hd
  · rw [h.ended hn] at hsteps
    generalize t.answer = answer at hsteps
    generalize t.call.ahead = rest at hsteps
    cases hsteps with
    | yields hs => simp at hs
    | ends => rfl

end Traversal

/-- A cursor may be opened on a store in use at any time, and whatever happens to the store from
then on, the cursor is faithful, as long as the stamps increase. -/
theorem Store.Use.range_isFaithful {settings : Settings} {disk : Disk} {start s : Store}
    (hd : disk.IsUsable) (hf : Draft.FilterFits settings.layout settings.filterBits)
    (hl : Store.load settings disk = .ok start) (hs : ∀ t ∈ start.tables.values, t.IsSound)
    (hu : Store.Use start before s) (first : Bytes) (limit : Option Bytes) :
    ∃ cursor, s.range first limit = .ok cursor ∧ ∀ t, Traversal.Uses s cursor t →
      IsTimely start.contents (before ++ t.writes) → t.IsFaithful s first limit := by
  have hknows := hu.knows ((Store.opened_of_load hl).knows hd hf hs)
  obtain ⟨cursor, hrange, hlimit, hsound, hlook⟩ :=
    hknows.isSound.exists_cursor hknows.ordered first limit
  refine ⟨cursor, hrange, fun t ht htimely => ?_⟩
  exact (ht.tracks (Traversal.tracks_start hknows htimely.of_append hsound hlimit hlook)
    htimely).isFaithful

/-- A store is written behind a cursor that has been opened on it, the cursor is called, and the
store is closed. -/
theorem Store.range_isFaithful_over_close : ∃ s t, (∃ cursor, s.range [] none = .ok cursor ∧
    Traversal.Uses s cursor t) ∧ t.writes = [⟨[99], .present 2 [100]⟩] ∧
    t.yielded = [([97], [98])] ∧ t.store.memory.closed = true ∧ t.IsFaithful s [] none := by
  have hvalid : Settings.validate { layout := .plain, filterBits := 64 } = .ok () := rfl
  have hfits : Draft.FilterFits .plain 64 := nofun
  obtain ⟨start, hl⟩ := exists_load_ofEmpty hvalid
  obtain ⟨s, hput, hroom, hempty, hmore, hlater⟩ : ∃ s, start.put [97] [98] 1 = .ok s ∧
      start.HasRoomFor 1 ∧ start.tables.values = [] ∧ s.HasRoomFor 1 ∧
      (s.range [] none).toOption.any fun cursor =>
        (s.put [99] [100] 2).toOption.any fun later =>
          later.HasRoomFor (later.waiting + 3) ∧ later.close.2.memory.closed = true ∧
          (Traversal.call ⟨later, cursor, [s, later], [⟨[99], .present 2 [100]⟩], []⟩).yielded =
            [([97], [98])] := by
    cases hl
    exact ⟨_, rfl, by decide +kernel, rfl, by decide +kernel, by decide +kernel⟩
  obtain ⟨cursor, hrange, hlater⟩ := (Option.any_eq_true _ _).mp hlater
  rw [toOption_eq_some] at hrange
  obtain ⟨later, hlater, hrest, hclosed, hyielded⟩ := exists_eq_ok_of_any hlater
  have huse : Use start [⟨[97], .present 1 [98]⟩] s := Use.start.change (.step hroom (.put hput))
  have hcalled : Traversal.Uses s cursor
      (Traversal.call ⟨later, cursor, [s, later], [⟨[99], .present 2 [100]⟩], []⟩) :=
    (Traversal.Uses.opening.change (.step hmore (.put hlater))).call
  obtain ⟨moments, ht⟩ := hcalled.close hrest
  have htimely : IsTimely start.contents
      ([⟨[97], .present 1 [98]⟩] ++ [⟨[99], .present 2 [100]⟩]) := by
    refine ⟨List.pairwise_pair.mpr (by decide), fun cells hm => ?_⟩
    rw [contents, Generations.values_map, hempty] at hm
    simp at hm
  obtain ⟨cursor', hrange', hfaithful⟩ := Use.range_isFaithful (Disk.isUsable_ofEmpty "data") hfits
    hl (by simp [hempty]) huse [] none
  obtain rfl := Except.ok.inj (hrange.symm.trans hrange')
  exact ⟨s, _, ⟨cursor, hrange, ht⟩, rfl, hyielded, hclosed, hfaithful _ ht htimely⟩

/-- With a filter that is one word too wide, a cursor yields a pair that was at no moment found
under its key. -/
theorem Store.range_unfaithful_under_wide_filters : ∃ s cursor,
    Store.load wide (.ofEmpty "data") = .ok fresh ∧ Store.Use fresh [lone] s ∧
    s.range [] none = .ok cursor ∧
    (Traversal.start s cursor).answer = some (.ok ([97], [98])) ∧
    s.version [97] = .ok .absent ∧ ¬ (Traversal.start s cursor).IsFaithful s [] none := by
  obtain ⟨_, t, disk, -, hflush, -, hblind, hrows⟩ := exists_flushTable_received
  have hconceals : (flushed t disk).Conceals := conceals_flushed hblind hrows
  obtain ⟨cursor, hrange, hlist⟩ := hconceals.range
  have hanswer : (Traversal.start (flushed t disk) cursor).answer = some (.ok ([97], [98])) :=
    RangeCursor.next_of_toList hlist
  refine ⟨flushed t disk, cursor, load_wide, (run_flushed hflush).use, hrange, hanswer,
    hconceals.version [97], fun hfaithful => ?_⟩
  obtain ⟨moment, hm, stamp, hlive⟩ := hfaithful.lived _ _ hanswer
  rw [List.mem_singleton.mp hm, hconceals.version] at hlive
  simp at hlive

end TableStore
