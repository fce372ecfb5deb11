import TableStore.Proofs.Store.Thrift

/-! What one store hands over to the next. A directory upholds a map when whoever opens it reads the
map and finds generations enough: an empty one upholds the empty map, and when a store that was
opened on it is used for a while and closed without a fault, what it leaves upholds the map with the
writes made meanwhile. Any number of stores may follow one another in this way, each with its own
settings. -/

namespace TableStore

namespace Store

variable {s s' : Store} {settings : Settings} {disk disk' : Disk}
  {cells writes : List Cell}

/-! ### The worker of an open store -/

/-- Without a final task the worker receives the whole queue and goes on. -/
theorem receive_of_not_final (tasks : List FlushTask) (s : Store) (hq : s.memory.queue = tasks)
    (hf : ∀ task ∈ tasks, task.final = false)
    (hr : s.HasRoomFor (s.backlog.length + tasks.length + 1)) :
    (s.receive tasks).2.memory.queue = [] ∧
      (s.receive tasks).2.memory.closed = s.memory.closed := by
  induction tasks generalizing s with
  | nil => exact ⟨hq, rfl⟩
  | cons task rest ih =>
    rw [List.forall_mem_cons] at hf
    have hall := HasRoomFor.taken hr
    have hpass := passedTo_drain (s.taken task rest) (hall.mono (by omega))
    have hspent := hpass.spent
    have hrest := ih (s.taken task rest).drain.2 hpass.queue hf.2 (by
      unfold HasRoomFor at *
      omega)
    have hstep : s.receive (task :: rest) = (s.taken task rest).drain.2.receive rest :=
      if_neg (by simp [hf.1])
    rw [hstep]
    exact ⟨hrest.1, hrest.2.trans hpass.closed⟩

/-- Letting the worker of an open store settle leaves it open, with nothing queued. -/
theorem IsCoherent.settle (h : s.IsCoherent) (hopen : s.memory.closed = false)
    (hr : s.HasRoomFor (s.waiting + 1)) :
    s.settle.memory.closed = false ∧ s.settle.memory.nextGeneration.toNat + s.settle.waiting ≤
      s.memory.nextGeneration.toNat + s.waiting := by
  have hfinal : ∀ task ∈ s.memory.queue, task.final = false := by
    intro task hm
    cases hf : task.final with
    | false => rfl
    | true =>
      obtain ⟨front, back, hs⟩ := List.append_of_mem hm
      have hall : s.backlog ++ s.memory.queue = (s.backlog ++ front) ++ task :: back := by
        rw [hs, List.append_assoc]
      rw [(h.final hall hf).1] at hopen
      simp at hopen
  obtain ⟨hqueue, hclosed⟩ := receive_of_not_final s.memory.queue s rfl hfinal hr
  have hspent := (receivedTo_receive s.memory.queue s rfl hr).spent
  have hpass := passedTo_drain s.work (by
    unfold HasRoomFor waiting at *
    show (s.receive s.memory.queue).2.memory.nextGeneration.toNat +
      ((s.receive s.memory.queue).2.backlog.length + 1) < _
    omega)
  have hleft := hpass.spent
  refine ⟨hpass.closed.trans (hclosed.trans hopen), ?_⟩
  have hnone : s.settle.memory.queue = [] := hpass.queue.trans hqueue
  unfold waiting
  rw [hnone, List.length_nil]
  exact Nat.le_trans hleft (Nat.add_assoc _ _ _ ▸ hspent)

theorem close_spent (hopen : s.memory.closed = false) (hr : s.HasRoomFor (s.waiting + 3)) :
    s.close.2.memory.nextGeneration.toNat ≤ s.memory.nextGeneration.toNat + s.waiting + 2 := by
  have hspent := (receivedTo_close hopen hr).spent
  have hnext : (s.memory.turn true).nextGeneration.toNat = s.memory.nextGeneration.toNat + 1 := by
    refine toNat_spend ?_
    unfold HasRoomFor at hr
    omega
  rw [List.length_append, List.length_singleton] at hspent
  dsimp only at hspent
  unfold waiting
  omega

/-! ### Opening -/

/-- What opening finds depends on the path and the entries of the disk alone. -/
theorem Opened.of_find? (h : Opened settings disk' s) (hp : disk'.path = disk.path)
    (hf : ∀ name, disk'.find? name = disk.find? name) : Opened settings disk s where
  settings_eq := h.settings_eq
  path := h.path.trans hp
  find? := fun name => by
    rw [← hf, ← Disk.pathOf_congr hp]
    exact h.find? name
  registered := by
    intro generation t ht
    obtain ⟨hg, name, ho⟩ := h.registered ht
    exact ⟨hg, name, (Disk.openTable_congr hp (hf name)).symm.trans ho⟩
  opened := fun {name _} ho => h.opened ((Disk.openTable_congr hp (hf name)).trans ho)
  memory := by
    obtain ⟨greatest, hmemory, hroom, hle, hgreatest⟩ := h.memory
    simp only [hf, Disk.pathOf_congr hp] at hle hgreatest
    exact ⟨greatest, hmemory, hroom, hle, hgreatest⟩
  backlog := h.backlog

/-- A store that has just been opened has no tasks. -/
theorem Opened.isIdle (h : Opened settings disk s) :
    s.memory.closed = false ∧ s.waiting = 0 := by
  obtain ⟨greatest, hmemory, -⟩ := h.memory
  rw [waiting, h.backlog, hmemory]
  exact ⟨rfl, rfl⟩

end Store

/-! ### Upholding a map -/

/-- Whoever opens the disk reads the map after some writes and finds generations enough; only these
writes have spent any. -/
structure Disk.Upholds (disk : Disk) (writes : List Cell) : Prop where
  usable : disk.IsUsable
  represents : ∀ {settings s}, Draft.FilterFits settings.layout settings.filterBits →
    Store.Opened settings disk s → s.Represents .empty writes
  outlay : ∀ {settings s}, Store.Opened settings disk s → s.outlay ≤ 2 + 16 * writes.length

namespace Disk

open Store

variable {s s' left : Store} {settings : Settings} {disk disk' : Disk} {cells writes : List Cell}

theorem Upholds.of_find? (h : disk.Upholds writes) (hp : disk'.path = disk.path)
    (hf : ∀ name, disk'.find? name = disk.find? name) : disk'.Upholds writes where
  usable := by
    refine ⟨fun hsome => h.usable.names (hf _ ▸ hsome), fun hsome hparse => ?_⟩
    exact h.usable.room (hf _ ▸ hsome) (pathOf_congr hp _ ▸ hparse)
  represents := fun hfits ho => h.represents hfits (ho.of_find? hp hf)
  outlay := fun ho => h.outlay (ho.of_find? hp hf)

/-- A disk with nothing on it upholds the empty map. -/
theorem upholds_nil (h : ∀ name, disk.find? name = none) : disk.Upholds [] := by
  have hclosed : ∀ {name t}, disk.openTable name ≠ .ok t := by
    intro name t ho
    have hsome := isSome_of_openTable ho
    rw [h] at hsome
    simp at hsome
  have husable : disk.IsUsable := ⟨fun {name} hs => by simp [h name] at hs,
    fun {name} _ _ hs => by simp [h name] at hs⟩
  have hstores : disk.Stores .empty :=
    ⟨husable, fun _ _ _ _ ho => absurd ho hclosed, by simp, fun ho => absurd ho hclosed⟩
  refine ⟨husable, fun hfits ho => ho.represents hstores hfits, fun {settings s} ho => ?_⟩
  obtain ⟨greatest, hnext, hgreatest, -⟩ := ho.next_cases
  have hzero : greatest = 0 := by
    refine hgreatest.resolve_right ?_
    rintro ⟨name, layout, hs, -⟩
    simp [h name] at hs
  have htables : s.tables = .empty := by
    refine Generations.ext_find? fun generation => ?_
    rw [Generations.find?_empty, Option.eq_none_iff_forall_not_mem]
    intro t ht
    obtain ⟨-, name, hopen⟩ := ho.registered ht
    exact hclosed hopen
  rw [Store.outlay, hnext, hzero, htables]
  exact Nat.le_refl 2

/-- A store that was opened, used and closed leaves a disk that upholds its writes too. -/
theorem Upholds.closed (h : disk.Upholds writes) (hw : 16 * writes.length + 8 < UInt64.size)
    (hf : Draft.FilterFits settings.layout settings.filterBits) (ho : Opened settings disk s)
    (hrun : Run s cells s') (hopen : s'.memory.closed = false)
    (hfew : s'.memory.nextGeneration.toNat + s'.waiting ≤ s.memory.nextGeneration.toNat + 2)
    (hclose : s'.close = (none, left)) :
    left.disk.path = disk.path ∧ left.disk.Upholds (writes ++ cells) := by
  have hbefore := h.represents hf ho
  have houtlay := h.outlay ho
  have hserved := hrun.moves hbefore.coherent.fits
  have hused := hbefore.moves hserved
  have hroom : s'.HasRoomFor (s'.waiting + 3) := by
    unfold Store.outlay HasRoomFor at *
    omega
  have hspent := close_spent hopen hroom
  have hclosing := hused.coherent.closing_close hroom
  rw [hclose] at hspent hclosing
  obtain ⟨hmoves, hshut⟩ := hclosing.moves hused.coherent (hroom.mono (by omega))
  have hafter := hused.moves hmoves
  rw [List.append_nil] at hafter
  have hpending : left.memory.pending.entries = [] := by
    cases hclosing with
    | ended _ hturn hworks hb hq =>
      obtain ⟨-, rfl⟩ := of_close_eq_ok hopen hturn
      exact hused.coherent.nothing_pending hopen hworks hb hq
    | again => exact absurd (hopen.symm.trans hshut) Bool.false_ne_true
  have hone : left.HasRoomFor 1 := by
    unfold Store.outlay HasRoomFor at *
    dsimp only at hspent
    omega
  have hthrifty : IsThrifty s cells left := by
    have hall := hrun.trans (hclosing.run (hroom.mono (by omega)))
    rw [List.append_nil] at hall
    exact hall.isThrifty hbefore.coherent ho
  refine ⟨hmoves.path_eq.trans (hserved.path_eq.trans ho.path), hafter.coherent.isUsable hone,
    fun hfits hreopen => ?_, fun hreopen => ?_⟩
  · exact hafter.reopened hshut hpending hone hfits hreopen
  · have hle := hreopen.outlay_le ho hafter.coherent hafter.mirrors hthrifty
      (by dsimp only at hspent; omega)
    rw [List.length_append]
    omega

end Disk

end TableStore
