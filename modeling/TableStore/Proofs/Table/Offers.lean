import Mathlib.Data.List.Induction
import TableStore.Proofs.Table.Filters
import TableStore.Proofs.Table.Storable

/-! What a draft makes of cells and filters that are offered to it in any order. A cell is accepted
when it can be stored and its key is greater than every key accepted before, a filter when its size
is that of the draft's own, and what is refused leaves no trace. So the draft is the one that the
accepted offers alone make, and since uniting filters and taking cells commute, it does not matter
when in between the filters came. -/

namespace TableStore

namespace Draft

/-- What can be offered to a draft: a cell to take, or a filter to unite with its own. -/
inductive Offer
  | cell (cell : Cell)
  | filter (filter : Filter)

namespace Offer

def cell? : Offer → Option Cell
  | cell c => some c
  | filter _ => none

def filter? : Offer → Option Filter
  | cell _ => none
  | filter f => some f

end Offer

/-- Takes one offer. -/
def accept (d : Draft) : Offer → Except Fault Draft
  | .cell cell => d.add cell
  | .filter filter => d.seed filter

/-- Takes offers one after another up to the first that is refused. -/
def acceptAll (d : Draft) (offers : List Offer) : Except Fault Draft := offers.foldlM accept d

/-- The draft after offers, be they accepted or refused. -/
def offerAll (d : Draft) (offers : List Offer) : Draft :=
  offers.foldl (fun d o => (d.accept o).toOption.getD d) d

theorem offerAll_concat (d : Draft) (offers : List Offer) (o : Offer) :
    d.offerAll (offers ++ [o]) =
      ((d.offerAll offers).accept o).toOption.getD (d.offerAll offers) := by simp [offerAll]

/-! ### Which offers are accepted -/

/-- The cells among offers. -/
def offeredCells (offers : List Offer) : List Cell := offers.filterMap Offer.cell?

/-- The filters among offers. -/
def offeredFilters (offers : List Offer) : List Filter := offers.filterMap Offer.filter?

@[simp] theorem offeredCells_concat_cell (offers : List Offer) (c : Cell) :
    offeredCells (offers ++ [.cell c]) = offeredCells offers ++ [c] := by
  simp [offeredCells, Offer.cell?]

@[simp] theorem offeredCells_concat_filter (offers : List Offer) (f : Filter) :
    offeredCells (offers ++ [.filter f]) = offeredCells offers := by
  rw [offeredCells, List.filterMap_append]
  exact List.append_nil _

@[simp] theorem offeredFilters_concat_cell (offers : List Offer) (c : Cell) :
    offeredFilters (offers ++ [.cell c]) = offeredFilters offers := by
  rw [offeredFilters, List.filterMap_append]
  exact List.append_nil _

@[simp] theorem offeredFilters_concat_filter (offers : List Offer) (f : Filter) :
    offeredFilters (offers ++ [.filter f]) = offeredFilters offers ++ [f] := by
  simp [offeredFilters, Offer.filter?]

/-- Whether an offer has to be accepted by a draft of this form that has accepted others before. -/
def Offer.IsDue (layout : Layout) (filterBits : Nat) (before : List Offer) : Offer → Prop
  | cell c => (∀ other ∈ offeredCells before, other.key < c.key) ∧ c.IsStorable
  | filter f => layout = .filtered → f.words.size = (Filter.empty filterBits).words.size

instance (layout : Layout) (filterBits : Nat) (before : List Offer) (o : Offer) :
    Decidable (o.IsDue layout filterBits before) :=
  match o with
  | .cell c =>
    inferInstanceAs (Decidable ((∀ other ∈ offeredCells before, other.key < c.key) ∧ c.IsStorable))
  | .filter f => inferInstanceAs
    (Decidable (layout = .filtered → f.words.size = (Filter.empty filterBits).words.size))

/-- The offers that are accepted among some, in order. -/
def accepted (layout : Layout) (filterBits : Nat) (offers : List Offer) : List Offer :=
  offers.foldl
    (fun before o => if o.IsDue layout filterBits before then before ++ [o] else before) []

theorem accepted_concat (layout : Layout) (filterBits : Nat) (offers : List Offer) (o : Offer) :
    accepted layout filterBits (offers ++ [o]) =
      if o.IsDue layout filterBits (accepted layout filterBits offers) then
        accepted layout filterBits offers ++ [o]
      else accepted layout filterBits offers := by
  rw [accepted, List.foldl_append]
  rfl

/-- A draft that has accepted these offers and no others. -/
structure IsMadeOf (d : Draft) (generation : UInt64) (layout : Layout) (filterBits : Nat)
    (taken : List Offer) : Prop where
  holds : d.Holds (offeredCells taken)
  form : (empty generation layout filterBits).SameForm d
  acceptAll : (empty generation layout filterBits).acceptAll taken = .ok d

variable {d d' : Draft} {generation : UInt64} {layout : Layout} {filterBits : Nat}
  {taken : List Offer}

theorem isMadeOf_nil (generation : UInt64) (layout : Layout) (filterBits : Nat) :
    (empty generation layout filterBits).IsMadeOf generation layout filterBits [] :=
  ⟨holds_empty generation layout filterBits, .refl _, rfl⟩

theorem acceptAll_append (d : Draft) (offers more : List Offer) :
    d.acceptAll (offers ++ more) = d.acceptAll offers >>= fun next => next.acceptAll more := by
  simp [Draft.acceptAll]

theorem acceptAll_concat (d : Draft) (offers : List Offer) (o : Offer) :
    d.acceptAll (offers ++ [o]) = d.acceptAll offers >>= fun next => next.accept o := by
  simp [Draft.acceptAll, -pure_eq_ok]

/-- What uniting a filter with that of a draft does. -/
theorem seed_eq_ok {f : Filter} (h : d.seed f = .ok d') :
    d.filter = none ∧ d' = d ∨ ∃ own both, d.filter = some own ∧ own.union f = .ok both ∧
      d' = { d with filter := some both } := by
  unfold seed at h
  cases hf : d.filter with
  | none =>
    simp only [hf, Except.ok.injEq] at h
    exact Or.inl ⟨rfl, h.symm⟩
  | some own =>
    simp only [hf, bind_pure_comp, map_eq_ok] at h
    obtain ⟨both, hu, rfl⟩ := h
    exact Or.inr ⟨own, both, rfl, hu, rfl⟩

theorem SameForm.seed {f : Filter} (h : d.seed f = .ok d') : d.SameForm d' := by
  rcases seed_eq_ok h with ⟨-, rfl⟩ | ⟨own, both, hf, hu, rfl⟩
  · exact .refl _
  · exact ⟨rfl, rfl, by simp [hf, Filter.size_union hu]⟩

theorem Holds.seed {cells : List Cell} (hd : d.Holds cells) {f : Filter}
    (h : d.seed f = .ok d') : d'.Holds cells := by
  rcases seed_eq_ok h with ⟨-, rfl⟩ | ⟨own, both, hf, hu, rfl⟩
  · exact hd
  · refine ⟨hd.ascending, hd.lastKey, hd.size, hd.records, fun g hg cell hc => ?_⟩
    obtain rfl : both = g := Option.some.inj hg
    exact Filter.mayContain_union hu (hd.filter own hf cell hc)

/-- The greatest key is below another one when all keys are. -/
theorem Holds.lastKey_lt_iff {cells : List Cell} (hd : d.Holds cells) {key : Bytes} :
    (∀ last ∈ d.lastKey, last < key) ↔ ∀ other ∈ cells, other.key < key := by
  rw [hd.lastKey]
  rcases List.eq_nil_or_concat cells with rfl | ⟨init, last, rfl⟩
  · simp
  · have hbelow : ∀ other ∈ init, other.key < last.key := fun other ho =>
      (List.pairwise_append.mp (List.concat_eq_append ▸ hd.ascending)).2.2 other ho last (by simp)
    simp only [List.concat_eq_append, List.getLast?_concat, Option.map_some, Option.mem_def,
      Option.some.injEq, forall_eq', List.mem_append, List.mem_singleton]
    constructor
    · rintro hlast other (ho | rfl)
      · exact List.lt_trans (hbelow other ho) hlast
      · exact hlast
    · exact fun hall => hall last (Or.inr rfl)

/-- An offer is accepted exactly when it has to be. -/
theorem IsMadeOf.accept_iff (h : d.IsMadeOf generation layout filterBits taken) (o : Offer) :
    (∃ d', d.accept o = .ok d') ↔ o.IsDue layout filterBits taken := by
  cases o with
  | cell c =>
    constructor
    · rintro ⟨d', hadd⟩
      obtain ⟨hlast, record, hr, -⟩ := add_eq_ok hadd
      exact ⟨h.holds.lastKey_lt_iff.mp hlast, Record.isStorable_of_encode hr⟩
    · rintro ⟨hkeys, hs⟩
      obtain ⟨d', hadd, -⟩ := exists_add (h.holds.lastKey_lt_iff.mpr hkeys) hs
      exact ⟨d', hadd⟩
  | filter f =>
    have hform := h.form.filter
    show (∃ d', d.seed f = .ok d') ↔ (layout = .filtered → _)
    unfold seed
    cases layout with
    | plain =>
      have hnone : d.filter = none := by simpa [empty] using hform
      simp [hnone]
    | filtered =>
      obtain ⟨own, hown, hsize⟩ := Option.map_eq_some_iff.mp (hform.trans rfl)
      simp only [hown, bind_pure_comp, map_eq_ok, true_imp_iff, ← hsize]
      constructor
      · rintro ⟨d', both, hu, -⟩
        exact (Filter.size_eq_of_union hu).symm
      · intro hs
        obtain ⟨both, hu⟩ := Filter.union_eq_ok hs.symm
        exact ⟨_, both, hu, rfl⟩

/-- What was accepted is one of the offers that the draft is made of. -/
theorem IsMadeOf.accept (h : d.IsMadeOf generation layout filterBits taken) {o : Offer}
    (ha : d.accept o = .ok d') : d'.IsMadeOf generation layout filterBits (taken ++ [o]) := by
  have hall : (empty generation layout filterBits).acceptAll (taken ++ [o]) = .ok d' := by
    rw [acceptAll_concat, h.acceptAll, ok_bind, ha]
  cases o with
  | cell c =>
    exact ⟨offeredCells_concat_cell taken c ▸ h.holds.add ha, h.form.trans (.add ha), hall⟩
  | filter f =>
    exact ⟨offeredCells_concat_filter taken f ▸ h.holds.seed ha, h.form.trans (.seed ha), hall⟩

/-- After any offers a draft is made of the accepted ones. -/
theorem offerAll_isMadeOf (generation : UInt64) (layout : Layout) (filterBits : Nat)
    (offers : List Offer) :
    ((empty generation layout filterBits).offerAll offers).IsMadeOf generation layout filterBits
      (accepted layout filterBits offers) := by
  induction offers using List.reverseRecOn with
  | nil => exact isMadeOf_nil generation layout filterBits
  | append_singleton offers o ih =>
    rw [accepted_concat, offerAll_concat]
    cases ha : (offerAll (empty generation layout filterBits) offers).accept o with
    | ok d' =>
      rw [if_pos ((ih.accept_iff o).mp ⟨d', ha⟩)]
      exact ih.accept ha
    | error fault =>
      have hnot : ¬ o.IsDue layout filterBits (accepted layout filterBits offers) := by
        intro hdue
        obtain ⟨d', hok⟩ := (ih.accept_iff o).mpr hdue
        simp [ha] at hok
      rw [if_neg hnot]
      exact ih

/-! ### Filters first, then cells -/

/-- A draft that takes a cell and then a filter becomes the same when it takes the filter first. -/
theorem seed_add_comm {e : Draft} {c : Cell} {f : Filter} (hadd : d.add c = .ok d')
    (hseed : d'.seed f = .ok e) : ∃ next, d.seed f = .ok next ∧ next.add c = .ok e := by
  obtain ⟨hl, record, hr, rfl⟩ := add_eq_ok hadd
  rcases seed_eq_ok hseed with ⟨hnone, rfl⟩ | ⟨own, both, hown, hu, rfl⟩
  · have hnone : d.filter = none := Option.map_eq_none_iff.mp hnone
    exact ⟨d, by rw [seed, hnone], hadd⟩
  · obtain ⟨base, hbase, rfl⟩ := Option.map_eq_some_iff.mp hown
    obtain ⟨united, hunited⟩ := Filter.union_eq_ok
      (f := base) (g := f) (by rw [← base.size_insert c.key, Filter.size_eq_of_union hu])
    refine ⟨{ d with filter := some united }, by rw [seed, hbase]; simp [hunited], ?_⟩
    rw [Filter.union_insert hunited, Except.ok.injEq] at hu
    rw [add_of_encode (by exact hl) hr, ← hu]
    rfl

theorem acceptAll_cells_seed_comm {cells : List Cell} {e : Draft} {f : Filter}
    (hall : d.acceptAll (cells.map .cell) = .ok d') (hseed : d'.seed f = .ok e) :
    ∃ next, d.seed f = .ok next ∧ next.acceptAll (cells.map .cell) = .ok e := by
  induction cells using List.reverseRecOn generalizing d' e with
  | nil =>
    obtain rfl : d = d' := Except.ok.inj hall
    exact ⟨e, hseed, rfl⟩
  | append_singleton cells c ih =>
    rw [List.map_append, List.map_singleton, acceptAll_concat, bind_eq_ok] at hall
    obtain ⟨middle, hmiddle, hadd⟩ := hall
    obtain ⟨seeded, hseeded, hlast⟩ := seed_add_comm hadd hseed
    obtain ⟨next, hnext, hcells⟩ := ih hmiddle hseeded
    refine ⟨next, hnext, ?_⟩
    rw [List.map_append, List.map_singleton, acceptAll_concat, hcells]
    exact hlast

/-- Offers that are all accepted make the same draft when the filters come first and then the
cells. -/
theorem acceptAll_sorted (h : d.acceptAll taken = .ok d') :
    d.acceptAll ((offeredFilters taken).map .filter ++ (offeredCells taken).map .cell) =
      .ok d' := by
  induction taken using List.reverseRecOn generalizing d' with
  | nil => exact h
  | append_singleton taken o ih =>
    rw [acceptAll_concat, bind_eq_ok] at h
    obtain ⟨middle, hmiddle, hlast⟩ := h
    have hsorted := ih hmiddle
    cases o with
    | cell c =>
      rw [offeredFilters_concat_cell, offeredCells_concat_cell, List.map_append, List.map_singleton,
        ← List.append_assoc, acceptAll_concat, hsorted]
      exact hlast
    | filter f =>
      -- a last filter moves in front of all cells, behind the filters before it
      rw [acceptAll_append, bind_eq_ok] at hsorted
      obtain ⟨seeded, hfilters, hcells⟩ := hsorted
      obtain ⟨next, hnext, hall⟩ := acceptAll_cells_seed_comm hcells hlast
      rw [offeredFilters_concat_filter, offeredCells_concat_filter, acceptAll_append,
        List.map_append, List.map_singleton, acceptAll_concat, hfilters, ok_bind]
      show (seeded.seed f >>= fun next => next.acceptAll _) = .ok d'
      rw [hnext, ok_bind, hall]

end Draft

end TableStore
