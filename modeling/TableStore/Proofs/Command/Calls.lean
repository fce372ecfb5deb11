import TableStore.Proofs.Clock
import TableStore.Proofs.Command.Requests
import TableStore.Proofs.Disk.Trees
import TableStore.Proofs.Store.Blind

/-! The command line as one map. Calls follow one another on a data directory that was empty or
missing at first, each a process of its own with settings of its own, and between them files outside
the directory may change. While the stamps of writes increase, every call that succeeds prints what
a plain map says to which the puts and deletions before it were applied, in their order;
compactions, whether asked for or not, and all that opening and closing does never show. -/

namespace TableStore

open Text.Path

/-! ### Data directories -/

namespace FileTree

/-- Two trees have the same folders and, in the folder of a path, the same entries. -/
structure SameAt (path : String) (t t' : FileTree) : Prop where
  folders : t'.folders = t.folders
  entries : ∃ folder, t.route? path = some folder ∧ t.isFolder folder = true ∧
    ∀ name, (t'.directory folder).find? name = (t.directory folder).find? name

/-- The disk that a process with a data path sees. -/
def diskAt (t : FileTree) (path : String) (folder : Route) : Disk :=
  { path, directory := some (t.directory folder) }

/-- When the folders of a path can be made, it leads to a directory that upholds some writes. -/
def Upholds (t : FileTree) (path : String) (writes : List Cell) : Prop :=
  ∀ folder made, t.makeFolders path = (some folder, made) →
    made.Leads path folder ∧ (made.diskAt path folder).Upholds writes

variable {t t' : FileTree} {path : String} {folder : Route} {writes : List Cell}

theorem IsFreshAt.upholds (h : t.IsFreshAt path) : t.Upholds path [] := by
  intro folder made hm
  have hv := h folder made hm
  exact ⟨leads_of_makeFolders hm hv, Disk.upholds_nil hv⟩

theorem Leads.upholds (h : t.Leads path folder) (hu : (t.diskAt path folder).Upholds writes) :
    t.Upholds path writes := by
  intro other made hm
  rw [h.makeFolders, Prod.mk.injEq, Option.some.injEq] at hm
  obtain ⟨rfl, rfl⟩ := hm
  exact ⟨h, hu⟩

/-- What changes elsewhere is no matter. -/
theorem SameAt.upholds (hs : t.SameAt path t') (h : t.Upholds path writes) :
    t'.Upholds path writes := by
  obtain ⟨folder, hroute, hfolder, hsame⟩ := hs.entries
  by_cases hempty : path.isEmpty = true
  · intro other made hm
    rw [makeFolders, if_pos (Or.inl hempty)] at hm
    simp at hm
  · have husable : ¬ (path.isEmpty = true ∨ isAbsolute path = true ∨ ¬ isUsable path = true) := by
      rintro (he | hn)
      · exact hempty he
      · rw [route?, if_pos hn] at hroute
        simp at hroute
    rw [route?_eq husable, toOption_eq_some] at hroute
    obtain ⟨hleads, hu⟩ := h _ _ (makeFolders_of_isFolder husable hroute hfolder)
    refine Leads.upholds (hleads.mono fun p _ hp => ?_) (hu.of_find? rfl hsame)
    rwa [isFolder_iff, hs.folders, ← isFolder_iff]

end FileTree

namespace Command

/-! ### One call -/

variable {tree next : FileTree} {path : String} {millis : Int64} {arguments : List String}
  {i : Invocation} {settings : Settings} {outcome : Outcome} {writes : List Cell}
  {map : String → Option String}

theorem Outcome.code_ne_zero {output : String} {stop : Stop} : (failure output stop).code ≠ 0 := by
  cases stop with
  | reason => exact show (1 : UInt32) ≠ 0 by decide
  | overflow => exact show (101 : UInt32) ≠ 0 by decide

theorem performAndClose_success {s : Store} {stamp : Stamp} {request : Request} {disk : Disk}
    (h : performAndClose s stamp request = (outcome, disk)) (hcode : outcome.code = 0) :
    ∃ used left, perform s stamp request = (outcome.output, none, used) ∧
      used.close = (none, left) ∧ disk = left.disk := by
  unfold performAndClose at h
  rcases hp : perform s stamp request with ⟨output, stop, used⟩
  rcases hc : used.close with ⟨fault, left⟩
  rw [hp] at h
  dsimp only at h
  rw [hc] at h
  dsimp only at h
  split at h <;> obtain ⟨rfl, rfl⟩ := Prod.mk.inj h
  · exact absurd hcode Outcome.code_ne_zero
  · exact absurd hcode Outcome.code_ne_zero
  · exact ⟨used, left, rfl, hc, rfl⟩

/-- A call that succeeds makes the folders of its data path, opens a store there, carries the
request out, closes the store and leaves its disk. -/
theorem run_success (hread : read arguments = .invocation i)
    (hs : Command.settings tree i = .ok settings)
    (hrun : run tree millis arguments = (outcome, next)) (hcode : outcome.code = 0) :
    ∃ folder made store used left, tree.makeFolders settings.dataPath = (some folder, made) ∧
      Store.load settings (made.diskAt settings.dataPath folder) = .ok store ∧
      perform store (Clock.first millis) i.request = (outcome.output, none, used) ∧
      used.close = (none, left) ∧
      next = made.putDirectory folder (left.disk.directory.getD .empty) := by
  rw [run, hread] at hrun
  dsimp only at hrun
  rw [invoke, hs] at hrun
  dsimp only at hrun
  rcases hm : tree.makeFolders settings.dataPath with ⟨_ | folder, made⟩ <;> rw [hm] at hrun <;>
    dsimp only at hrun
  · obtain rfl := (Prod.mk.inj hrun).1
    exact absurd hcode Outcome.code_ne_zero
  · split at hrun
    · obtain rfl := (Prod.mk.inj hrun).1
      exact absurd hcode Outcome.code_ne_zero
    · obtain rfl := (Prod.mk.inj hrun).1
      exact absurd hcode Outcome.code_ne_zero
    · rename_i store hload
      rcases hp : performAndClose store (Clock.draw {} millis).1 i.request with ⟨result, disk⟩
      rw [hp] at hrun
      obtain ⟨rfl, rfl⟩ := Prod.mk.inj hrun
      obtain ⟨used, left, hperform, hclose, rfl⟩ := performAndClose_success hp hcode
      exact ⟨folder, made, store, used, left, rfl, hload, hperform, hclose, rfl⟩

/-- A call that succeeds prints what the map says and leaves a directory that upholds its write
too. -/
theorem serves (h : tree.Upholds path writes) (hw : 16 * writes.length + 8 < UInt64.size)
    (ht : IsTimely .empty writes) (hr : Renders (finalMap .empty writes) map)
    (hread : read arguments = .invocation i) (hs : Command.settings tree i = .ok settings)
    (hpath : settings.dataPath = path)
    (hf : Draft.FilterFits settings.layout settings.filterBits)
    (hrun : run tree millis arguments = (outcome, next)) (hcode : outcome.code = 0) :
    next.Upholds path (writes ++ (i.request.cell? (Clock.first millis)).toList) ∧
      Answers map outcome.output i.request := by
  obtain ⟨folder, made, store, used, left, hm, hload, hperform, hclose, rfl⟩ :=
    run_success hread hs hrun hcode
  subst hpath
  obtain ⟨hleads, hu⟩ := h folder made hm
  have hopened := Store.opened_of_load hload
  have hbefore := hu.represents hf hopened
  obtain ⟨hopen, hidle⟩ := hopened.isIdle
  have hroom : store.HasRoomFor 3 := by
    have houtlay := hu.outlay hopened
    unfold Store.outlay at houtlay
    unfold Store.HasRoomFor
    omega
  obtain ⟨hsteps, hstill, hfew⟩ :=
    run_of_perform hbefore.coherent hopen hidle hroom hperform
  obtain ⟨hpath, hleft⟩ := hu.closed hw hf hopened hsteps hstill hfew hclose
  have hname : ∀ {name}, (left.disk.find? name).isSome → name.toList ≠ back :=
    fun hsome => (hleft.usable.names hsome).ne_back
  exact ⟨(hleads.putDirectory _).upholds
      (hleft.of_find? hpath.symm (FileTree.find?_putDirectory_disk hname)),
    answers_of_perform (hbefore.shows ht) hr hperform⟩

/-! ### Calls one after another -/

/-- A call that succeeded: the stamp that its process drew, its request and what it printed. -/
structure Call where
  stamp : Stamp
  request : Request
  output : String

/-- Calls that succeed, one after another, on the data directory at a path, which was missing or
empty at first. Each has its own settings, with the data path in common and a filter of a size that
a table can tell. Between calls the tree may change around the directory. -/
inductive Calls (path : String) : List Call → FileTree → Prop
  | fresh {tree : FileTree} : tree.IsFreshAt path → Calls path [] tree
  | call {tree next : FileTree} {calls : List Call} {millis : Int64} {arguments : List String}
    {i : Invocation} {settings : Settings} {outcome : Outcome} :
    Calls path calls tree → read arguments = .invocation i →
    Command.settings tree i = .ok settings → settings.dataPath = path →
    Draft.FilterFits settings.layout settings.filterBits →
    run tree millis arguments = (outcome, next) → outcome.code = 0 →
    Calls path (calls ++ [⟨Clock.first millis, i.request, outcome.output⟩]) next
  | elsewhere {tree next : FileTree} {calls : List Call} :
    Calls path calls tree → tree.SameAt path next → Calls path calls next

def Request.isWrite : Request → Bool
  | .put _ _ => true
  | .delete _ => true
  | _ => false

/-- The stamps of writes increase from call to call. -/
def IsIncreasing (calls : List Call) : Prop :=
  ((calls.filter (·.request.isWrite)).map Call.stamp).Pairwise (· < ·)

/-- The live values after some requests on an empty map. -/
def mapAfter (requests : List Request) : String → Option String :=
  requests.foldl Request.update fun _ => none

def Call.cell? (c : Call) : Option Cell := c.request.cell? c.stamp

/-- The cells that some calls wrote. -/
def writesOf (calls : List Call) : List Cell := calls.filterMap Call.cell?

variable {calls : List Call} {tree : FileTree}

theorem writesOf_concat (calls : List Call) (c : Call) :
    writesOf (calls ++ [c]) = writesOf calls ++ c.cell?.toList := by
  rw [writesOf, List.filterMap_append]
  cases hc : c.cell? <;> simp [writesOf, hc]

theorem renders_mapAfter (calls : List Call) :
    Renders (finalMap .empty (writesOf calls)) (mapAfter (calls.map Call.request)) := by
  induction calls using List.reverseRecOn with
  | nil => exact renders_empty
  | append_singleton calls c ih =>
    have hmap : mapAfter ((calls ++ [c]).map Call.request) =
        c.request.update (mapAfter (calls.map Call.request)) := by
      rw [mapAfter, List.map_append, List.foldl_append]
      rfl
    rw [hmap, writesOf_concat, finalMap, List.foldl_append]
    exact ih.update c.stamp c.request

theorem isWrite_of_cell? {stamp : Stamp} {request : Request} {cell : Cell}
    (h : request.cell? stamp = some cell) :
    request.isWrite = true ∧ cell.version.stamp? = some stamp := by
  cases request with
  | put | delete =>
    obtain rfl := Option.some.inj h
    exact ⟨rfl, rfl⟩
  | get | scan | compact | stats => simp [Request.cell?] at h

theorem IsIncreasing.isTimely (h : IsIncreasing calls) : IsTimely .empty (writesOf calls) where
  increasing := by
    rw [IsIncreasing, List.pairwise_map, List.pairwise_filter] at h
    refine List.pairwise_filterMap.mpr (h.imp fun {a b} hlt x hx y hy => ?_)
    obtain ⟨ha, hx⟩ := isWrite_of_cell? hx
    obtain ⟨hb, hy⟩ := isWrite_of_cell? hy
    rw [Version.Older, hx, hy]
    exact hlt ha hb
  later := by
    intro cells hm
    simp [Generations.values, Generations.empty] at hm

theorem length_writesOf_le (calls : List Call) :
    (writesOf calls).length ≤ (calls.filter (·.request.isWrite)).length := by
  induction calls with
  | nil => exact Nat.le_refl 0
  | cons c calls ih =>
    cases hc : c.cell? with
    | none =>
      rw [writesOf, List.filterMap_cons_none hc]
      exact Nat.le_trans ih ((List.sublist_cons_self c calls).filter _).length_le
    | some cell =>
      have hwrite : c.request.isWrite = true := (isWrite_of_cell? hc).1
      rw [writesOf, List.filterMap_cons_some hc, List.filter_cons, if_pos hwrite]
      exact Nat.succ_le_succ ih

theorem IsIncreasing.of_append {more : List Call} (h : IsIncreasing (calls ++ more)) :
    IsIncreasing calls := by
  rw [IsIncreasing, List.filter_append, List.map_append] at h
  exact (List.pairwise_append.mp h).1

/-- The stamps are those that clocks draw first. -/
theorem Calls.stamp_eq (h : Calls path calls tree) :
    ∀ c ∈ calls, ∃ millis, c.stamp = Clock.first millis := by
  induction h with
  | fresh => simp
  | call _ _ _ _ _ _ _ ih =>
    intro c hm
    rcases List.mem_append.mp hm with hm | hm
    · exact ih c hm
    · exact ⟨_, congrArg Call.stamp (List.mem_singleton.mp hm)⟩
  | elsewhere _ _ ih => exact ih

/-- There are never so many writes that generations could run out. -/
theorem Calls.room (h : Calls path calls tree) (hi : IsIncreasing calls) :
    16 * (writesOf calls).length + 8 < UInt64.size := by
  have hfirst : ∀ s ∈ (calls.filter (·.request.isWrite)).map Call.stamp,
      ∃ millis, s = Clock.first millis := by
    intro s hm
    obtain ⟨c, hc, rfl⟩ := List.mem_map.mp hm
    exact h.stamp_eq c (List.mem_filter.mp hc).1
  have hfew := Clock.length_le_of_increasing hfirst hi
  have hle := length_writesOf_le calls
  have hsize : UInt64.size = 18446744073709551616 := rfl
  rw [List.length_map] at hfew
  omega

theorem Calls.upholds (h : Calls path calls tree) (hi : IsIncreasing calls) :
    tree.Upholds path (writesOf calls) := by
  induction h with
  | fresh hfresh => exact hfresh.upholds
  | call hcalls hread hs hpath hf hrun hcode ih =>
    have hbefore := hi.of_append
    rw [writesOf_concat]
    exact (serves (ih hbefore) (hcalls.room hbefore) hbefore.isTimely (renders_mapAfter _) hread hs
      hpath hf hrun hcode).1
  | elsewhere _ hsame ih => exact hsame.upholds (ih hi)

/-! ### Three calls -/

end Command

end TableStore
