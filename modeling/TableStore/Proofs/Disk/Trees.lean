import Mathlib.Data.List.Induction
import TableStore.Disk.FileTree
import TableStore.Proofs.Disk.Files

/-! Data directories in a file tree. Where a path leads is a matter of its components, and that it
leads anywhere a matter of the folders on its trail. Making the folders of a path leaves a tree in
which it leads to a folder, and there is nothing more to make; writing entries into that folder
keeps it so, since the trail does not pass through the folder itself, and what is written is what
the folder then has. -/

namespace TableStore

open Text.Path

/-! ### Directories made of lists -/

namespace Directory

theorem find?_ofList (entries : List (String × Entry)) (name : String) :
    (ofList entries).find? name = (entries.reverse.find? fun e => e.1 == name).map Prod.snd := by
  have hfold : ∀ (entries : List (String × Entry)) (d : Directory),
      (entries.foldl (fun d e => d.put e.1 e.2) d).find? name =
        ((entries.reverse.find? fun e => e.1 == name).map Prod.snd).or (d.find? name) := by
    intro entries
    induction entries with
    | nil => exact fun d => rfl
    | cons e entries ih =>
      intro d
      rw [List.foldl_cons, ih, find?_put, List.reverse_cons, List.find?_append]
      cases entries.reverse.find? fun e => e.1 == name with
      | some found => rfl
      | none =>
        by_cases he : e.1 = name
        · simp [he]
        · simp [he]
  rw [ofList, hfold]
  exact Option.or_none

/-- A name that comes up with one entry only has that entry. -/
theorem find?_ofList_eq_some {entries : List (String × Entry)} {name : String} {entry : Entry}
    (hm : (name, entry) ∈ entries) (hall : ∀ other, (name, other) ∈ entries → other = entry) :
    (ofList entries).find? name = some entry := by
  rw [find?_ofList]
  cases hf : entries.reverse.find? fun e => e.1 == name with
  | none =>
    rw [List.find?_eq_none] at hf
    exact absurd (beq_self_eq_true name) (hf _ (List.mem_reverse.mpr hm))
  | some found =>
    obtain ⟨other, value⟩ := found
    have hname : other = name := by simpa using List.find?_some hf
    have hin := List.mem_reverse.mp (List.mem_of_find?_eq_some hf)
    rw [hname] at hin
    exact congrArg some (hall value hin)

theorem find?_ofList_eq_none {entries : List (String × Entry)} {name : String} :
    (ofList entries).find? name = none ↔ ∀ entry, (name, entry) ∉ entries := by
  rw [find?_ofList, Option.map_eq_none_iff, List.find?_eq_none]
  constructor
  · intro h entry hm
    exact h _ (List.mem_reverse.mpr hm) (beq_self_eq_true name)
  · rintro h ⟨other, entry⟩ hm he
    have hname : other = name := by simpa using he
    exact h entry (hname ▸ List.mem_reverse.mp hm)

end Directory

namespace FileTree

variable {t t' : FileTree} {folder here route r : Route} {component : List Char}

/-! ### Walks -/

/-- Where one step leads if it can be taken. -/
def onward (here : Route) (component : List Char) : Route :=
  if component = stay then here
  else if component = back then before here
  else here ++ [component]

/-- The folders in which the steps of a walk are taken. -/
def trail (here : Route) : Route → List Route
  | [] => []
  | component :: rest => here :: trail (onward here component) rest

/-- A component that can be looked up. -/
def IsStep (component : List Char) : Prop :=
  component = stay ∨ component = back ∨ isName component = true

theorem stepTo_eq_ok : t.stepTo here component = .ok r ↔
    t.isFolder here = true ∧ IsStep component ∧ onward here component = r := by
  unfold stepTo IsStep onward
  by_cases hf : t.isFolder here = true
  · by_cases hs : component = stay
    · simp [hf, hs]
    · by_cases hb : component = back
      · subst hb
        simp [hf, hs]
      · by_cases hn : isName component = true <;> simp [hf, hs, hb, hn]
  · simp [hf]

/-- A walk succeeds when every step of it is taken in a folder. -/
theorem walk_eq_ok {path : Route} : t.walk here path = .ok r ↔
    (∀ p ∈ trail here path, t.isFolder p = true) ∧ (∀ c ∈ path, IsStep c) ∧
      path.foldl onward here = r := by
  induction path generalizing here with
  | nil => simp [walk, trail]
  | cons component rest ih =>
    have hstep : t.walk here (component :: rest) = .ok r ↔
        ∃ next, t.stepTo here component = .ok next ∧ t.walk next rest = .ok r := bind_eq_ok
    simp only [hstep, stepTo_eq_ok, ih, trail, List.mem_cons, forall_eq_or_imp, List.foldl_cons]
    constructor
    · rintro ⟨next, ⟨hf, hs, rfl⟩, hfolders, hsteps, hend⟩
      exact ⟨⟨hf, hfolders⟩, ⟨hs, hsteps⟩, hend⟩
    · rintro ⟨⟨hf, hfolders⟩, ⟨hs, hsteps⟩, hend⟩
      exact ⟨_, ⟨hf, hs, rfl⟩, hfolders, hsteps, hend⟩

/-- A tree with the folders on the trail of a walk can be walked as well. -/
theorem walk_mono {path : Route} (h : t.walk here path = .ok r)
    (hf : ∀ p ∈ trail here path, t.isFolder p = true → t'.isFolder p = true) :
    t'.walk here path = .ok r := by
  obtain ⟨hfolders, hsteps, hend⟩ := walk_eq_ok.mp h
  exact walk_eq_ok.mpr ⟨fun p hp => hf p hp (hfolders p hp), hsteps, hend⟩

/-! ### What lies in a folder -/

theorem isFolder_iff : t.isFolder route = true ↔ (∀ c ∈ route, c = back) ∨ route ∈ t.folders := by
  simp [isFolder]

/-- A route that goes on from a folder by an entry of it. -/
def IsInside (folder route : Route) : Prop :=
  ∃ first rest, route = folder ++ first :: rest ∧ first ≠ back

theorem entryToward?_eq_some {name : String} {isDeeper : Bool} :
    entryToward? folder route = some (name, isDeeper) ↔ ∃ first rest,
      route = folder ++ first :: rest ∧ first ≠ back ∧ name = String.ofList first ∧
        isDeeper = !rest.isEmpty := by
  unfold entryToward?
  by_cases hp : folder.isPrefixOf route = true
  · obtain ⟨tail, rfl⟩ := List.isPrefixOf_iff_prefix.mp hp
    rw [if_pos hp, List.drop_left]
    cases tail with
    | nil => simp
    | cons first rest =>
      simp only [List.append_cancel_left_eq, List.cons.injEq]
      by_cases hb : first = back
      · simp [hb]
      · simp only [if_neg hb, Option.some.injEq, Prod.mk.injEq]
        constructor
        · rintro ⟨hn, hd⟩
          exact ⟨first, rest, ⟨rfl, rfl⟩, hb, hn.symm, hd.symm⟩
        · rintro ⟨_, _, ⟨rfl, rfl⟩, -, hn, hd⟩
          exact ⟨hn.symm, hd.symm⟩
  · rw [if_neg hp]
    refine iff_of_false (by simp) ?_
    rintro ⟨first, rest, rfl, -⟩
    exact hp (List.isPrefixOf_iff_prefix.mpr (List.prefix_append _ _))

theorem entryToward?_eq_none : entryToward? folder route = none ↔ ¬ IsInside folder route := by
  rw [Option.eq_none_iff_forall_not_mem]
  constructor
  · rintro h ⟨first, rest, hr, hb⟩
    exact h (_, _) (entryToward?_eq_some.mpr ⟨first, rest, hr, hb, rfl, rfl⟩)
  · rintro h ⟨name, isDeeper⟩ hm
    obtain ⟨first, rest, hr, hb, -⟩ := entryToward?_eq_some.mp hm
    exact h ⟨first, rest, hr, hb⟩

theorem not_isInside_self (folder : Route) : ¬ IsInside folder folder := by
  rintro ⟨first, rest, hr, -⟩
  simpa using congrArg List.length hr

theorem nameIn?_eq_some {name : String} : nameIn? folder route = some name ↔
    ∃ first, route = folder ++ [first] ∧ first ≠ back ∧ name = String.ofList first := by
  have hname : nameIn? folder route = some name ↔
      entryToward? folder route = some (name, false) := by
    unfold nameIn?
    split
    · rename_i found hf
      rw [hf]
      simp
    · rename_i hnot
      exact iff_of_false (by simp) fun hf => hnot _ hf
  rw [hname, entryToward?_eq_some]
  constructor
  · rintro ⟨first, rest, hr, hb, hn, hd⟩
    have hnil : rest = [] := by simpa using hd.symm
    exact ⟨first, hnil ▸ hr, hb, hn⟩
  · rintro ⟨first, hr, hb, hn⟩
    exact ⟨first, [], hr, hb, hn, rfl⟩

/-- The entries of a folder, those of folders first. -/
def entriesOf (t : FileTree) (folder : Route) : List (String × Entry) :=
  (t.folders.filterMap fun r => (nameIn? folder r).map (·, .folder)) ++
    (t.files.filterMap fun f => (nameIn? folder f.1).map (·, .file f.2))

theorem mem_entriesOf {name : String} {entry : Entry} : (name, entry) ∈ t.entriesOf folder ↔
    (∃ r ∈ t.folders, nameIn? folder r = some name ∧ entry = .folder) ∨
      ∃ f ∈ t.files, nameIn? folder f.1 = some name ∧ entry = .file f.2 := by
  simp only [entriesOf, List.mem_append, List.mem_filterMap, Option.map_eq_some_iff,
    Prod.mk.injEq]
  constructor
  · rintro (⟨r, hr, n, hn, rfl, rfl⟩ | ⟨f, hf, n, hn, rfl, rfl⟩)
    · exact Or.inl ⟨r, hr, hn, rfl⟩
    · exact Or.inr ⟨f, hf, hn, rfl⟩
  · rintro (⟨r, hr, hn, rfl⟩ | ⟨f, hf, hn, rfl⟩)
    · exact Or.inl ⟨r, hr, name, hn, rfl, rfl⟩
    · exact Or.inr ⟨f, hf, name, hn, rfl, rfl⟩

/-- Nothing is in a folder. -/
def IsVacant (t : FileTree) (folder : Route) : Prop :=
  ∀ name, (t.directory folder).find? name = none

theorem IsVacant.not_mem_folders (h : t.IsVacant folder) (hb : component ≠ back) :
    folder ++ [component] ∉ t.folders := by
  intro hm
  have hnone := Directory.find?_ofList_eq_none.mp (h (String.ofList component))
  exact hnone .folder (mem_entriesOf.mpr
    (Or.inl ⟨_, hm, nameIn?_eq_some.mpr ⟨component, rfl, hb, rfl⟩, rfl⟩))

/-! ### The trail stays outside a vacant folder -/

theorem not_isInside_before (h : ¬ IsInside folder here) : ¬ IsInside folder (before here) := by
  rintro ⟨first, rest, hr, hb⟩
  unfold before at hr
  split at hr
  · rename_i hall
    have hm : first ∈ here ++ [back] := hr ▸ by simp
    rw [List.mem_append, List.mem_singleton] at hm
    rcases hm with hm | hm
    · exact hb (by simpa using List.all_eq_true.mp hall first hm)
    · exact hb hm
  · rename_i hnot
    have hne : here ≠ [] := by
      rintro rfl
      exact hnot rfl
    refine h ⟨first, rest ++ [here.getLast hne], ?_, hb⟩
    calc here = here.dropLast ++ [here.getLast hne] := (List.dropLast_concat_getLast hne).symm
      _ = folder ++ first :: (rest ++ [here.getLast hne]) := by rw [hr]; simp

theorem not_isInside_onward (hv : t.IsVacant folder) (h : ¬ IsInside folder here)
    (hf : t.isFolder (onward here component) = true) :
    ¬ IsInside folder (onward here component) := by
  unfold onward at hf ⊢
  split
  · exact h
  · split
    · exact not_isInside_before h
    · rename_i hs hb
      rw [if_neg hs, if_neg hb] at hf
      rintro ⟨first, rest, hr, hfirst⟩
      rcases List.eq_nil_or_concat rest with rfl | ⟨init, last, rfl⟩
      · -- The step leads to an entry of the folder, which has none.
        obtain ⟨rfl, hc⟩ := List.append_inj' hr rfl
        rcases isFolder_iff.mp hf with hall | hm
        · exact hb (hall component (by simp))
        · exact hv.not_mem_folders hb hm
      · rw [List.concat_eq_append, ← List.cons_append, ← List.append_assoc] at hr
        exact h ⟨first, init, (List.append_inj' hr rfl).1, hfirst⟩

theorem not_isInside_trail {path : Route} (hv : t.IsVacant folder) (h : ¬ IsInside folder here)
    (hf : ∀ p ∈ trail here path, t.isFolder p = true) :
    ∀ p ∈ trail here path, ¬ IsInside folder p := by
  induction path generalizing here with
  | nil => simp [trail]
  | cons component rest ih =>
    rw [trail, List.forall_mem_cons] at hf ⊢
    refine ⟨h, ?_⟩
    cases rest with
    | nil => simp [trail]
    | cons next rest =>
      have hnext := hf.2 _ (by rw [trail]; exact List.mem_cons_self)
      exact ih (not_isInside_onward hv h hnext) hf.2

/-! ### Making folders -/

theorem isFolder_addFolder (t : FileTree) (route : Route) :
    (t.addFolder route).isFolder route = true := by
  unfold addFolder
  split
  · assumption
  · exact isFolder_iff.mpr (Or.inr (by simp))

theorem isFolder_addFolder_of (h : t.isFolder r = true) :
    (t.addFolder route).isFolder r = true := by
  unfold addFolder
  split
  · exact h
  · rw [isFolder_iff] at h ⊢
    exact h.imp_right fun hm => List.mem_append_left _ hm

theorem of_makeFolder_eq_ok {path : Route} (h : t.makeFolder path = .ok t') :
    ∃ route, t'.walk [] path = .ok route ∧ t'.isFolder route = true := by
  obtain ⟨route, hwalk, h⟩ := bind_eq_ok.mp h
  split at h
  · simp at h
  · rw [pure_eq_ok, Except.ok.injEq] at h
    subst h
    exact ⟨route, walk_mono hwalk fun _ _ => isFolder_addFolder_of, isFolder_addFolder t route⟩

theorem of_makeAfter_eq_true {path : Route} {others : FileTree → Bool × FileTree}
    (h : t.makeAfter path others = (true, t')) :
    ∃ route, t'.walk [] path = .ok route ∧ t'.isFolder route = true := by
  have hthere : ∀ u : FileTree, (u.walk [] path).toOption.any u.isFolder = true →
      ∃ route, u.walk [] path = .ok route ∧ u.isFolder route = true := by
    intro u hu
    cases hw : u.walk [] path with
    | error obstacle =>
      rw [hw] at hu
      exact absurd hu Bool.false_ne_true
    | ok route =>
      rw [hw] at hu
      exact ⟨route, rfl, hu⟩
  unfold makeAfter at h
  dsimp only at h
  cases hm : t.makeFolder path with
  | ok made =>
    rw [hm] at h
    obtain rfl := (Prod.mk.inj h).2
    exact of_makeFolder_eq_ok hm
  | error obstacle =>
    rw [hm] at h
    cases obstacle with
    | barred =>
      obtain ⟨hany, rfl⟩ := Prod.mk.inj h
      exact hthere t hany
    | missing =>
      dsimp only at h
      rcases ho : others t with ⟨_ | _, u⟩ <;> rw [ho] at h
      · simp at h
      · dsimp only at h
        cases hu : u.makeFolder path with
        | ok made =>
          rw [hu] at h
          obtain rfl := (Prod.mk.inj h).2
          exact of_makeFolder_eq_ok hu
        | error obstacle =>
          rw [hu] at h
          obtain ⟨hany, rfl⟩ := Prod.mk.inj h
          exact hthere u hany

/-! ### The folder of a path -/

/-- The path leads to a folder of the tree, and its trail does not pass through entries of that
folder. -/
structure Leads (t : FileTree) (path : String) (folder : Route) : Prop where
  usable : ¬ (path.isEmpty = true ∨ isAbsolute path = true ∨ ¬ isUsable path = true)
  walk : t.walk [] (components path) = .ok folder
  isFolder : t.isFolder folder = true
  outside : ∀ p ∈ trail [] (components path), ¬ IsInside folder p

variable {path : String}

theorem route?_eq (h : ¬ (path.isEmpty = true ∨ isAbsolute path = true ∨ ¬ isUsable path = true)) :
    t.route? path = (t.walk [] (components path)).toOption :=
  if_neg fun hn => h (Or.inr hn)

/-- Making the folders of a path makes it lead to a folder. -/
theorem leads_of_makeFolders (h : t.makeFolders path = (some folder, t'))
    (hv : t'.IsVacant folder) : t'.Leads path folder := by
  unfold makeFolders at h
  split at h
  · simp at h
  · rename_i husable
    dsimp only at h
    split at h
    · rename_i made hm
      obtain ⟨hroute, rfl⟩ := Prod.mk.inj h
      rw [route?_eq husable, toOption_eq_some] at hroute
      obtain ⟨route, hwalk, hfolder⟩ := of_makeAfter_eq_true hm
      rw [hroute, Except.ok.injEq] at hwalk
      refine ⟨husable, hroute, hwalk ▸ hfolder,
        not_isInside_trail hv ?_ (walk_eq_ok.mp hroute).1⟩
      rintro ⟨first, rest, hr, -⟩
      simp at hr
    · simp at h

/-- Where a path leads to a folder there is nothing to make. -/
theorem makeFolders_of_isFolder
    (hu : ¬ (path.isEmpty = true ∨ isAbsolute path = true ∨ ¬ isUsable path = true))
    (hw : t.walk [] (components path) = .ok folder) (hf : t.isFolder folder = true) :
    t.makeFolders path = (some folder, t) := by
  have hbarred : t.makeFolder (components path) = .error .barred := by
    rw [makeFolder, hw]
    simp only [ok_bind]
    rw [if_pos (Or.inl hf)]
    rfl
  have hafter : ∀ others, t.makeAfter (components path) others = (true, t) := by
    intro others
    unfold makeAfter
    rw [hbarred]
    simp only [hw]
    exact congrArg (·, t) hf
  unfold makeFolders
  rw [if_neg hu]
  dsimp only
  rw [hafter]
  dsimp only
  rw [route?_eq hu, hw]
  rfl

theorem Leads.makeFolders (h : t.Leads path folder) : t.makeFolders path = (some folder, t) :=
  makeFolders_of_isFolder h.usable h.walk h.isFolder

/-- Only the folders outside the one that it leads to matter to a path. -/
theorem Leads.mono (h : t.Leads path folder)
    (hf : ∀ p, ¬ IsInside folder p → t.isFolder p = true → t'.isFolder p = true) :
    t'.Leads path folder where
  usable := h.usable
  walk := walk_mono h.walk fun p hp => hf p (h.outside p hp)
  isFolder := hf folder (not_isInside_self folder) h.isFolder
  outside := h.outside

/-! ### Folders that are missing or empty -/

/-- Nothing is in the folder of a path once it is made. -/
def IsFreshAt (t : FileTree) (path : String) : Prop :=
  ∀ folder made, t.makeFolders path = (some folder, made) → made.IsVacant folder

/-- A tree to which folders on some ways have been added. -/
structure Adds (ways : Route → Prop) (t t' : FileTree) : Prop where
  files : t'.files = t.files
  folders : ∀ r ∈ t'.folders, r ∈ t.folders ∨ ways r

variable {ways : Route → Prop}

theorem Adds.refl (ways : Route → Prop) (t : FileTree) : t.Adds ways t := ⟨rfl, fun _ => Or.inl⟩

theorem Adds.trans {t'' : FileTree} (h : t.Adds ways t') (h' : t'.Adds ways t'') :
    t.Adds ways t'' where
  files := h'.files.trans h.files
  folders := fun r hr => (h'.folders r hr).elim (h.folders r) Or.inr

/-- What is kept of a route when a folder gets the entries of a directory. -/
def keeps (folder : Route) (d : Directory) (route : Route) (isFile : Bool) : Bool :=
  match entryToward? folder route with
  | none => true
  | some (name, isDeeper) => (isDeeper || !isFile) && d.find? name = some .folder

theorem putDirectory_eq (t : FileTree) (folder : Route) (d : Directory) :
    t.putDirectory folder d =
      { folders := (t.addFolder folder).folders.filter (keeps folder d · false) ++
          d.entries.filterMap fun e =>
            if e.2 = .folder ∧ folder ++ [e.1.toList] ∉
              (t.addFolder folder).folders.filter (keeps folder d · false)
            then some (folder ++ [e.1.toList]) else none
        files := (t.addFolder folder).files.filter (keeps folder d ·.1 true) ++
          d.entries.filterMap fun e =>
            match e.2 with
            | .file bytes => some (folder ++ [e.1.toList], bytes)
            | .folder => none } := rfl

theorem keeps_of_not_isInside (d : Directory) (isFile : Bool) (h : ¬ IsInside folder route) :
    keeps folder d route isFile = true := by
  rw [keeps, entryToward?_eq_none.mpr h]

/-- An entry of the folder is kept when it is a folder there and in the directory. -/
theorem keeps_entry {d : Directory} {name : String} {isFile : Bool}
    (h : nameIn? folder route = some name) : keeps folder d route isFile = true ↔
      isFile = false ∧ d.find? name = some .folder := by
  obtain ⟨first, hr, hb, hn⟩ := nameIn?_eq_some.mp h
  have htoward := entryToward?_eq_some.mpr ⟨first, [], hr, hb, hn, rfl⟩
  rw [keeps, htoward]
  cases isFile <;> simp

theorem isFolder_putDirectory {d : Directory} (h : t.isFolder route = true)
    (hout : ¬ IsInside folder route) : (t.putDirectory folder d).isFolder route = true := by
  have hadded : (t.addFolder folder).isFolder route = true := isFolder_addFolder_of h
  rw [isFolder_iff] at hadded
  rw [putDirectory_eq, isFolder_iff]
  exact hadded.imp_right fun hm =>
    List.mem_append_left _ (List.mem_filter.mpr ⟨hm, keeps_of_not_isInside d false hout⟩)

theorem Leads.putDirectory (h : t.Leads path folder) (d : Directory) :
    (t.putDirectory folder d).Leads path folder :=
  h.mono fun _ hout hf => isFolder_putDirectory hf hout

/-- The folder has the entries that were written, and no others. -/
theorem mem_entriesOf_putDirectory {d : Directory}
    (hd : ∀ {name}, (d.find? name).isSome → name.toList ≠ back) {name : String} {entry : Entry} :
    (name, entry) ∈ (t.putDirectory folder d).entriesOf folder ↔ d.find? name = some entry := by
  have hplace : (d.find? name).isSome → nameIn? folder (folder ++ [name.toList]) = some name :=
    fun hs => nameIn?_eq_some.mpr ⟨_, rfl, hd hs, String.ofList_toList.symm⟩
  have hname : ∀ {e : String × Entry}, nameIn? folder (folder ++ [e.1.toList]) = some name →
      e.1 = name := by
    intro e he
    obtain ⟨first, hr, -, hn⟩ := nameIn?_eq_some.mp he
    have hfirst : e.1.toList = first := by simpa using hr
    rw [hn, ← hfirst, String.ofList_toList]
  rw [mem_entriesOf, putDirectory_eq]
  simp only [List.mem_append, List.mem_filter, List.mem_filterMap]
  constructor
  · rintro (⟨r, ⟨-, hk⟩ | ⟨e, he, hr⟩, hn, rfl⟩ | ⟨f, ⟨-, hk⟩ | ⟨e, he, hf⟩, hn, rfl⟩)
    · exact ((keeps_entry hn).mp hk).2
    · split at hr
      · rename_i hfolder
        obtain rfl := Option.some.inj hr
        obtain rfl := hname hn
        exact Directory.mem_entries_iff.mp (hfolder.1 ▸ he)
      · simp at hr
    · simp [keeps_entry hn] at hk
    · split at hf
      · rename_i bytes hbytes
        obtain rfl := Option.some.inj hf
        obtain rfl := hname hn
        exact Directory.mem_entries_iff.mp (hbytes ▸ he)
      · simp at hf
  · intro hfound
    have hn := hplace (by rw [hfound]; rfl)
    have hentry := Directory.mem_entries_iff.mpr hfound
    cases entry with
    | folder =>
      refine Or.inl ⟨folder ++ [name.toList], ?_, hn, rfl⟩
      by_cases hin : folder ++ [name.toList] ∈ (t.addFolder folder).folders ∧
          keeps folder d (folder ++ [name.toList]) false = true
      · exact Or.inl hin
      · exact Or.inr ⟨_, hentry, if_pos ⟨rfl, hin⟩⟩
    | file bytes =>
      exact Or.inr ⟨(folder ++ [name.toList], bytes), Or.inr ⟨_, hentry, rfl⟩, hn, rfl⟩

theorem find?_putDirectory {d : Directory}
    (hd : ∀ {name}, (d.find? name).isSome → name.toList ≠ back) (name : String) :
    ((t.putDirectory folder d).directory folder).find? name = d.find? name := by
  cases hf : d.find? name with
  | some entry =>
    refine Directory.find?_ofList_eq_some ((mem_entriesOf_putDirectory hd).mpr hf)
      fun other hm => ?_
    have hother := (mem_entriesOf_putDirectory hd).mp hm
    rw [hf, Option.some.injEq] at hother
    exact hother.symm
  | none =>
    refine Directory.find?_ofList_eq_none.mpr fun entry hm => ?_
    have hother := (mem_entriesOf_putDirectory hd).mp hm
    rw [hf] at hother
    simp at hother

/-- A disk whose directory was put back is found there again. -/
theorem find?_putDirectory_disk {disk : Disk}
    (hd : ∀ {name}, (disk.find? name).isSome → name.toList ≠ back) (name : String) :
    ((t.putDirectory folder (disk.directory.getD .empty)).directory folder).find? name =
      disk.find? name := by
  have hfind : ∀ name, (disk.directory.getD .empty).find? name = disk.find? name := by
    intro name
    unfold Disk.find?
    cases disk.directory <;> rfl
  exact (find?_putDirectory (fun hsome => hd (hfind _ ▸ hsome)) name).trans (hfind name)

end FileTree

end TableStore
