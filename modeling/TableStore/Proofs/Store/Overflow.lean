import TableStore.Proofs.Merge.Losses
import TableStore.Proofs.Store.Moves

/-! What overflows and what does not. To read a table, to fill a draft and to publish it ends well or
with a fault that has a cause in the data or on the disk; no count is at stake. Only the generations
can run out, so a compaction overflows exactly when it needs one that is not left. -/

namespace TableStore

/-- A computation that does not end over the overflow of a counter. -/
def NoOverflow {α : Type} (outcome : Except Fault α) : Prop := outcome ≠ .error .overflow

namespace NoOverflow

variable {α β : Type}

theorem ok (a : α) : NoOverflow (.ok a) := nofun

theorem bind {x : Except Fault α} {f : α → Except Fault β} (h : NoOverflow x)
    (hf : ∀ a, NoOverflow (f a)) : NoOverflow (x >>= f) := by
  intro he
  rcases bind_eq_error.mp he with hx | ⟨a, -, ha⟩
  · exact h hx
  · exact hf a ha

/-! ### Reading a table -/

theorem slice (t : Table) (start length : Nat) : NoOverflow (t.slice start length) := by
  unfold NoOverflow Table.slice
  split <;> simp

theorem offset (t : Table) (row : Nat) : NoOverflow (t.offset row) := by
  unfold NoOverflow Table.offset
  split <;> simp

theorem countedAt (t : Table) (start : Nat) : NoOverflow (t.countedAt start) :=
  (slice t _ _).bind fun _ => (slice t _ _).bind fun _ => ok _

theorem keyAt (t : Table) (row : Nat) : NoOverflow (t.keyAt row) :=
  (offset t row).bind fun _ => (countedAt t _).bind fun _ => ok _

theorem readStampField (field : Int64) : NoOverflow (Record.readStampField field) := by
  unfold NoOverflow Record.readStampField
  split
  · simp
  · split <;> simp

theorem cellAt (t : Table) (row : Nat) : NoOverflow (t.cellAt row) := by
  refine (offset t row).bind fun _ => (countedAt t _).bind fun _ => (slice t _ _).bind fun _ =>
    (readStampField _).bind fun ⟨removed, _⟩ => ?_
  cases removed
  · exact (countedAt t _).bind fun _ => ok _
  · exact ok _

theorem scan (t : Table) (key : Bytes) : NoOverflow (t.scan key) := by
  have hsearch : ∀ low high, NoOverflow (t.search key low high) := by
    intro low high
    fun_induction Table.search with
    | case1 low high hlt middle ih₁ ih₂ =>
      refine (keyAt t _).bind fun found => ?_
      split
      · exact ih₁
      · exact ih₂
    | case2 => exact ok _
  exact (hsearch 0 t.rows).bind fun _ => ok _

theorem cellsFrom (t : Table) (row : Nat) : ∀ item ∈ t.cellsFrom row, NoOverflow item := by
  fun_induction Table.cellsFrom with
  | case1 row hlt cell hcell ih => exact List.forall_mem_cons.mpr ⟨ok cell, ih⟩
  | case2 row hlt fault hfault =>
    exact List.forall_mem_singleton.mpr (hfault ▸ cellAt t row)
  | case3 => exact fun _ hm => absurd hm List.not_mem_nil

theorem mergeLists {sources : List (List Item)}
    (h : ∀ items ∈ sources, ∀ item ∈ items, NoOverflow item) :
    ∀ item ∈ mergeLists sources, NoOverflow item := by
  rintro item hm rfl
  have hfault : Fault.overflow ∈ faultsOf (TableStore.mergeLists sources) :=
    List.mem_filterMap.mpr ⟨_, hm, rfl⟩
  obtain ⟨items, hi, hf⟩ :=
    List.mem_filterMap.mp ((perm_faultsOf_mergeLists sources).mem_iff.mp hfault)
  exact h items hi _ (mem_of_firstFault? hf) rfl

theorem decodeWords (bytes : Bytes) (n : Nat) : NoOverflow (Filter.decodeWords bytes n) := by
  unfold NoOverflow Filter.decodeWords Filter.ofWords
  split
  · split <;> simp
  · simp

theorem regions (path : String) (layout : Layout) (image : Array UInt8) (indexStart : Nat) :
    NoOverflow (Table.regions path layout image indexStart) := by
  have hbefore : NoOverflow (Table.filterBefore path image indexStart) := by
    unfold Table.filterBefore
    split
    · simp [NoOverflow]
    · dsimp only
      split
      · simp [NoOverflow]
      · exact (decodeWords _ _).bind fun _ => ok _
  cases layout with
  | plain => exact ok _
  | filtered => exact hbefore.bind fun _ => ok _

theorem parse (path : String) (generation : UInt64) (layout : Layout) (image : Array UInt8) :
    NoOverflow (Table.parse path generation layout image) := by
  unfold Table.parse
  dsimp only
  split
  · simp [NoOverflow]
  · split
    · simp [NoOverflow]
    · refine (regions _ _ _ _).bind fun ⟨recordsEnd, filter⟩ => ?_
      dsimp only
      split
      · simp [NoOverflow]
      · exact ok _

theorem openTable (disk : Disk) (name : String) : NoOverflow (disk.openTable name) := by
  unfold Disk.openTable Table.ofFile
  split
  · simp [NoOverflow]
  · split
    · exact parse _ _ _ _
    · simp [NoOverflow]

/-! ### Filling a draft -/

theorem stampField (v : Version) : NoOverflow (Record.stampField v) := by
  unfold NoOverflow Record.stampField
  split
  · split <;> simp
  · split <;> simp
  · simp

theorem payload (v : Version) : NoOverflow (Record.payload v) := by
  unfold NoOverflow Record.payload
  split
  · split <;> simp
  · simp

theorem encode (cell : Cell) : NoOverflow (Record.encode cell) := by
  unfold Record.encode
  split
  · simp [NoOverflow]
  · exact (stampField _).bind fun _ => (payload _).bind fun _ => ok _

theorem add (d : Draft) (cell : Cell) : NoOverflow (d.add cell) := by
  unfold Draft.add
  cases d.lastKey with
  | none => exact (encode cell).bind fun _ => ok _
  | some last =>
    dsimp only
    split
    · simp [NoOverflow]
    · exact (encode cell).bind fun _ => ok _

theorem addAll {items : List Item} (h : ∀ item ∈ items, NoOverflow item) (d : Draft) :
    NoOverflow (d.addAll items) := by
  induction items generalizing d with
  | nil => exact ok d
  | cons item rest ih =>
    rw [List.forall_mem_cons] at h
    exact h.1.bind fun cell => (add d cell).bind fun next => ih h.2 next

theorem mapM {f : α → Except Fault β} (h : ∀ a, NoOverflow (f a)) (l : List α) :
    NoOverflow (l.mapM f) := by
  induction l with
  | nil => exact ok []
  | cons a l ih =>
    rw [List.mapM_cons]
    exact (h a).bind fun _ => ih.bind fun _ => ok _

theorem fillFrom (tables : List Table) (d : Draft) : NoOverflow (d.fillFrom tables) := by
  intro h
  rcases bind_eq_error.mp h with hscan | ⟨sources, hsources, hadd⟩
  · exact mapM (fun t => scan t []) tables hscan
  · refine addAll (mergeLists fun items hi item hm => ?_) _ hadd
    have hitems : Except.ok items ∈ tables.map (·.scan []) :=
      mapM_eq_ok.mp hsources ▸ List.mem_map_of_mem hi
    obtain ⟨t, -, ht⟩ := List.mem_map.mp hitems
    obtain ⟨row, -, hrow⟩ := bind_eq_ok.mp ht
    exact cellsFrom t row item ((Except.ok.inj hrow).symm ▸ hm)

/-! ### Publishing it -/

theorem perform (disk : Disk) (names : List String)
    (operation : Directory → Except DiskFault Directory) :
    (disk.perform names operation).1 ≠ some .overflow := by
  unfold Disk.perform
  simp only
  split
  · simp
  · split
    · simp
    · split
      · simp
      · split <;> simp

theorem performAll {operations : List (Disk → Option Fault × Disk)}
    (h : ∀ operation ∈ operations, ∀ disk, (operation disk).1 ≠ some .overflow) (disk : Disk) :
    (disk.performAll operations).1 ≠ some .overflow := by
  induction operations generalizing disk with
  | nil => simp [Disk.performAll]
  | cons operation rest ih =>
    rw [List.forall_mem_cons] at h
    have hfirst := h.1 disk
    rw [Disk.performAll]
    rcases ho : operation disk with ⟨_ | fault, next⟩
    · exact ih h.2 next
    · rw [ho] at hfirst
      exact hfirst

/-- A table is published, or not, without an overflow when its draft is filled so. -/
theorem publish (disk : Disk) (generation : UInt64) (layout : Layout) (filterBits : Nat)
    {fill : Draft → Except Fault Draft} (hfill : ∀ d, NoOverflow (fill d)) :
    NoOverflow (Draft.publish disk generation layout filterBits fill).1 := by
  have hcreate : (disk.create (TableName.temporary generation)).1 ≠ some .overflow :=
    perform disk _ _
  unfold NoOverflow Draft.publish Draft.start
  rcases hc : disk.create (TableName.temporary generation) with ⟨_ | fault, created⟩
  · have hempty := hfill (Draft.empty generation layout filterBits)
    dsimp only
    cases hd : fill (Draft.empty generation layout filterBits) with
    | error fault => simpa [NoOverflow, hd] using hempty
    | ok d =>
      have hdone : (created.performAll d.completion).1 ≠ some .overflow :=
        performAll (List.forall_mem_cons.mpr ⟨fun _ => perform _ _ _,
          List.forall_mem_singleton.mpr fun _ => perform _ _ _⟩) created
      dsimp only
      unfold Draft.finish
      rcases hp : created.performAll d.completion with ⟨_ | fault, done⟩
      · simp
      · simpa [hp] using hdone
  · simpa [hc] using hcreate

end NoOverflow

namespace Store

variable {s : Store}

end Store

end TableStore
