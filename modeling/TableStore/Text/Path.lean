/-! Paths in their written form: components between slashes, of which empty ones do not count. A
dot is the folder it stands in and two dots are the folder before. -/

namespace TableStore

/-- Components one after another. -/
abbrev Route := List (List Char)

namespace Text.Path

/-- The pieces of a text between occurrences of `separator`. -/
def pieces (separator : Char) : List Char → List (List Char)
  | [] => [[]]
  | c :: cs =>
    if c = separator then [] :: pieces separator cs
    else
      match pieces separator cs with
      | [] => [[c]]
      | piece :: rest => (c :: piece) :: rest

/-- A text has a piece before each separator and one behind the last. -/
theorem length_pieces (separator : Char) (text : List Char) :
    (pieces separator text).length = text.count separator + 1 := by
  induction text with
  | nil => rfl
  | cons c cs ih =>
    simp only [pieces]
    split
    · next h => simp [h, ih]
    · next h =>
      rw [List.count_cons_of_ne h, ← ih]
      split
      · next hp => simp [hp] at ih
      · next hp => rw [hp, List.length_cons, List.length_cons]

/-- The component that stays in the folder. -/
def stay : List Char := ['.']

/-- The component that leads to the folder before. -/
def back : List Char := ['.', '.']

/-- The components of a path. -/
def components (path : String) : Route := (pieces '/' path.toList).filter (· ≠ [])

/-- Whether a path begins at the root of the file system. -/
def isAbsolute (path : String) : Bool := path.toList.head? = some '/'

/-- Whether a path ends in a slash, which only the path of a folder may. -/
def endsOpen (path : String) : Bool := path.toList.getLast? = some '/'

/-- The path of what `path` names from the folder `base`. -/
def join (base path : String) : String :=
  if isAbsolute path ∨ base.isEmpty then path
  else if endsOpen base then base ++ path
  else base ++ "/" ++ path

/-- The last component of a path, unless it leads back; dots that stay do not count. -/
def finalComponent? (path : String) : Option (List Char) :=
  match ((components path).filter (· ≠ stay)).getLast? with
  | some component => if component = back then none else some component
  | none => none

/-! ### Limits -/

/-- Whether a path is short enough to be opened. -/
def isShort (path : String) : Bool := path.utf8ByteSize < 4096

/-- Whether a path is short enough and free of the zero character, so that it can be opened. -/
def isUsable (path : String) : Bool := isShort path && !path.toList.contains '\x00'

/-- Whether a component is short enough for the name of an entry. -/
def isName (component : List Char) : Bool :=
  component ≠ stay && component ≠ back && (String.ofList component).utf8ByteSize ≤ 255

end Text.Path

end TableStore
