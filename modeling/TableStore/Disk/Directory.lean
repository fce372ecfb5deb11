import TableStore.Fault

/-! A directory: distinct names, each of a file with its bytes or of a folder, in the order in
which they are listed. Creating a file empties one that was there, no file grows beyond
what a position can tell, a name moves onto a file but never onto a folder, and only files are
removed. -/

namespace TableStore

inductive Entry
  | file (bytes : Array UInt8)
  | folder
  deriving DecidableEq, Inhabited

/-- Entries under distinct names. -/
structure Directory where
  entries : List (String × Entry)
  nodup : (entries.map Prod.fst).Nodup
  deriving DecidableEq

namespace Directory

def empty : Directory := ⟨[], by simp⟩

def find? (d : Directory) (name : String) : Option Entry :=
  (d.entries.find? fun e => e.1 == name).map Prod.snd

/-! ### Changing entries -/

/-- Replaces the entry under a name, or adds it at the end. -/
def putEntry (name : String) (entry : Entry) : List (String × Entry) → List (String × Entry)
  | [] => [(name, entry)]
  | e :: rest => if e.1 = name then (name, entry) :: rest else e :: putEntry name entry rest

theorem mem_names_putEntry {name other : String} {entry : Entry} {l : List (String × Entry)} :
    other ∈ (putEntry name entry l).map Prod.fst ↔ other = name ∨ other ∈ l.map Prod.fst := by
  induction l with
  | nil => simp [putEntry]
  | cons e rest ih =>
    unfold putEntry
    split
    · rename_i h
      simp [h]
    · simp only [List.map_cons, List.mem_cons, ih]
      exact or_left_comm

theorem nodup_putEntry {name : String} {entry : Entry} {l : List (String × Entry)}
    (h : (l.map Prod.fst).Nodup) : ((putEntry name entry l).map Prod.fst).Nodup := by
  induction l with
  | nil => simp [putEntry]
  | cons e rest ih =>
    rw [List.map_cons, List.nodup_cons] at h
    unfold putEntry
    split
    · rename_i he
      rw [List.map_cons, List.nodup_cons]
      exact ⟨he ▸ h.1, h.2⟩
    · rename_i he
      rw [List.map_cons, List.nodup_cons]
      refine ⟨fun hm => ?_, ih h.2⟩
      rcases mem_names_putEntry.mp hm with hm | hm
      · exact he hm
      · exact h.1 hm

def put (d : Directory) (name : String) (entry : Entry) : Directory :=
  ⟨putEntry name entry d.entries, nodup_putEntry d.nodup⟩

def erase (d : Directory) (name : String) : Directory :=
  ⟨d.entries.filter fun e => e.1 ≠ name,
    d.nodup.sublist (List.Sublist.map _ List.filter_sublist)⟩

@[simp] theorem find?_put (d : Directory) (name : String) (entry : Entry) (other : String) :
    (d.put name entry).find? other = if name = other then some entry else d.find? other := by
  unfold put find?
  simp only
  induction d.entries with
  | nil => by_cases h : name = other <;> simp [putEntry, h]
  | cons e rest ih =>
    unfold putEntry
    split
    · rename_i he
      by_cases h : name = other
      · simp [h]
      · rw [List.find?_cons_of_neg (by simpa using h), if_neg h,
          List.find?_cons_of_neg (by simpa using he ▸ h)]
    · rename_i he
      by_cases h : e.1 = other
      · have hn : name ≠ other := fun hn => he (h.trans hn.symm)
        simp [h, hn]
      · rw [List.find?_cons_of_neg (by simpa using h), ih,
          List.find?_cons_of_neg (by simpa using h)]

@[simp] theorem find?_erase (d : Directory) (name other : String) :
    (d.erase name).find? other = if name = other then none else d.find? other := by
  unfold erase find?
  rw [List.find?_filter]
  by_cases h : name = other
  · subst h
    rw [if_pos rfl, List.find?_eq_none.mpr (fun e _ => by simp)]
    rfl
  · rw [if_neg h]
    congr 1
    refine congrArg (List.find? · d.entries) (funext fun e => ?_)
    by_cases he : e.1 = other
    · simp [he, Ne.symm h]
    · simp [he]

/-- The directory with the given entries, the last one under each name. -/
def ofList (entries : List (String × Entry)) : Directory :=
  entries.foldl (fun d e => d.put e.1 e.2) empty

/-- The names in ascending order. -/
def names (d : Directory) : List String := (d.entries.map Prod.fst).mergeSort fun a b => ¬ b < a

/-! ### File operations -/

/-- The bytes of a file. -/
def read (d : Directory) (name : String) : Except DiskFault (Array UInt8) :=
  match d.find? name with
  | some (.file bytes) => .ok bytes
  | some .folder => .error .isFolder
  | none => .error .notFound

/-- Makes an empty file, or empties the one that is there. -/
def create (name : String) (d : Directory) : Except DiskFault Directory :=
  match d.find? name with
  | some .folder => .error .isFolder
  | _ => .ok (d.put name (.file #[]))

/-- The greatest size of a file: positions in files are 64-bit and signed. -/
def maxFileSize : Nat := 9223372036854775807

/-- Sets the bytes of a file that was created before. -/
def write (name : String) (bytes : Array UInt8) (d : Directory) : Except DiskFault Directory :=
  match d.find? name with
  | some (.file _) =>
    if maxFileSize < bytes.size then .error .tooLarge else .ok (d.put name (.file bytes))
  | some .folder => .error .isFolder
  | none => .error .notFound

/-- Moves a file to another name, over a file that may be there. -/
def rename (name target : String) (d : Directory) : Except DiskFault Directory :=
  match d.find? name, d.find? target with
  | none, _ => .error .notFound
  | some (.file _), some .folder => .error .isFolder
  | some .folder, some (.file _) => .error .notFolder
  | some entry, _ => .ok ((d.erase name).put target entry)

/-- Writes into a file from a position on; what is missing before it becomes zeros. -/
def writeAt (name : String) (position : Nat) (bytes : Array UInt8) (d : Directory) : Directory :=
  match d.find? name with
  | some (.file old) =>
    let front := old.extract 0 position
    let gap := Array.replicate (position - front.size) 0
    d.put name (.file (front ++ gap ++ bytes ++ old.extract (position + bytes.size) old.size))
  | _ => d

/-- Removes a file; what is not a file stays. -/
def removeFile (name : String) (d : Directory) : Directory :=
  match d.find? name with
  | some (.file _) => d.erase name
  | _ => d

end Directory

end TableStore
