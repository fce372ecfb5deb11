import TableStore.Bytes

/-! Versions of a value and the cells that hold them. A version is newer than another when
its stamp is greater, any stamped version is newer than an absent one, and between equals
the later one stands. The choice is associative with the absent version as its unit, so the
newest of a list does not depend on how the list is grouped. -/

namespace TableStore

/-- The moment of a write: milliseconds times a million, plus a tick. -/
abbrev Stamp := Int64

/-- What a key holds at some moment. -/
inductive Version
  | present (stamp : Stamp) (data : Bytes)
  | tombstone (stamp : Stamp)
  | absent
  deriving DecidableEq, Inhabited

namespace Version

def stamp? : Version → Option Stamp
  | present stamp _ => some stamp
  | tombstone stamp => some stamp
  | absent => none

def data? : Version → Option Bytes
  | present _ data => some data
  | _ => none

/-- The number of payload bytes; only a present version has a payload. -/
def payloadSize (v : Version) : Nat := (v.data?.map List.length).getD 0

def isTombstone : Version → Bool
  | tombstone _ => true
  | _ => false

def isAbsent : Version → Bool
  | absent => true
  | _ => false

/-- A smaller stamp is older, and no stamp at all is older than any. -/
def Older (a b : Version) : Prop :=
  match a.stamp?, b.stamp? with
  | some s, some t => s < t
  | none, some _ => True
  | _, none => False

instance (a b : Version) : Decidable (Older a b) := by
  unfold Older
  split <;> infer_instance

/-- The newer of two versions; `b` when neither is newer. -/
def later (a b : Version) : Version := if b.Older a then a else b

/-- The newest of a list of versions, the last one among equals. -/
def newest (versions : List Version) : Version := versions.foldl later absent

/-! ### The newest of several -/

@[simp] theorem later_absent_left (v : Version) : later absent v = v := by
  cases v <;> simp [later, Older, stamp?]

@[simp] theorem later_absent_right (v : Version) : later v absent = v := by
  cases v <;> simp [later, Older, stamp?]

theorem Older.trans {a b c : Version} (hab : a.Older b) (hbc : b.Older c) : a.Older c := by
  unfold Older at *
  revert hab hbc
  cases a.stamp? <;> cases b.stamp? <;> cases c.stamp? <;> simp
  exact Int64.lt_trans

theorem not_older_trans {a b c : Version} (hab : ¬ a.Older b) (hbc : ¬ b.Older c) :
    ¬ a.Older c := by
  unfold Older at *
  revert hab hbc
  cases a.stamp? <;> cases b.stamp? <;> cases c.stamp? <;> simp [Int64.not_lt]
  exact fun h k => Int64.le_trans k h

theorem later_assoc (a b c : Version) : later (later a b) c = later a (later b c) := by
  by_cases hba : b.Older a <;> by_cases hcb : c.Older b <;>
    simp only [later, hba, hcb, if_true, if_false]
  · rw [if_pos (hcb.trans hba)]
  · rw [if_neg (not_older_trans hcb hba)]

theorem foldl_later (v : Version) (versions : List Version) :
    versions.foldl later v = later v (newest versions) := by
  unfold newest
  induction versions generalizing v with
  | nil => simp
  | cons w versions ih =>
    rw [List.foldl_cons, ih, List.foldl_cons, ih (later absent w), later_absent_left, later_assoc]

theorem newest_append (front back : List Version) :
    newest (front ++ back) = later (newest front) (newest back) := by
  rw [newest, List.foldl_append, foldl_later]
  rfl

/-- One line about a version. -/
def describe : Version → String
  | present stamp data => s!"PRESENT, ts={stamp}, len={data.length}"
  | tombstone stamp => s!"REMOVED, ts={stamp}"
  | absent => "ABSENT"

end Version

/-- A key with one version of its value. -/
structure Cell where
  key : Bytes
  version : Version
  deriving DecidableEq, Inhabited

namespace Cell

/-- Cells come in ascending order of keys, and under one key the newest first. -/
def order (a b : Cell) : Ordering :=
  if a.key < b.key then .lt
  else if b.key < a.key then .gt
  else if b.version.Older a.version then .lt
  else if a.version.Older b.version then .gt
  else .eq

/-- A stable sort by `order`. -/
def sort (cells : List Cell) : List Cell := cells.mergeSort fun a b => a.order b != .gt

end Cell

/-- The version that a list of cells holds for a key: that of the first cell under it. -/
def lookup (key : Bytes) (cells : List Cell) : Option Version :=
  (cells.find? fun c => c.key == key).map Cell.version

theorem lookup_cons (key : Bytes) (c : Cell) (rest : List Cell) :
    lookup key (c :: rest) = if c.key = key then some c.version else lookup key rest := by
  unfold lookup
  rw [List.find?_cons]
  split
  · rename_i h
    rw [if_pos (eq_of_beq h)]
    rfl
  · rename_i h
    rw [if_neg (fun he => by simp [he] at h)]

/-- Keys strictly ascend: every key at most once, in order. -/
def Ascending (cells : List Cell) : Prop := cells.Pairwise fun a b => a.key < b.key

end TableStore
