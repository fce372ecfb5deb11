import TableStore.Disk.Basic

/-! The files around a store: folders and files by their routes from a common root. A path is
walked component by component, and each component has to be found in a folder, also a dot that
stays there and two dots that lead back. What lies outside the root is kept apart from what lies
in it: steps back from the root begin with two dots, and nothing is made where a path begins at
the root of the file system. A disk is mounted at its path: the tree and the disk see the same
directory, and the tree has also what lies in its folders and around it. -/

namespace TableStore

open Text.Path

/-- The folders other than the root, and the files with their bytes. -/
structure FileTree where
  folders : List Route
  files : List (Route × Array UInt8)

namespace FileTree

def empty : FileTree := ⟨[], []⟩

def isFolder (t : FileTree) (route : Route) : Bool :=
  route.all (· = back) || route ∈ t.folders

def file? (t : FileTree) (route : Route) : Option (Array UInt8) :=
  (t.files.find? fun f => f.1 == route).map Prod.snd

/-! ### Walking -/

/-- Why a path leads nowhere: a folder on the way is missing, or something else is there. -/
inductive Obstacle
  | missing
  | barred
  deriving DecidableEq

/-- The folder before a folder. -/
def before (route : Route) : Route :=
  if route.all (· = back) then route ++ [back] else route.dropLast

/-- One step from `here` to `component`. -/
def stepTo (t : FileTree) (here : Route) (component : List Char) : Except Obstacle Route :=
  if ¬ t.isFolder here then
    .error (if (t.file? here).isSome then .barred else .missing)
  else if component = stay then .ok here
  else if component = back then .ok (before here)
  else if isName component then .ok (here ++ [component])
  else .error .barred

/-- Where some components lead from `here`; the last one need not be there. -/
def walk (t : FileTree) (here : Route) : Route → Except Obstacle Route
  | [] => .ok here
  | component :: rest => do t.walk (← t.stepTo here component) rest

/-- The route of a path, if it can be walked. -/
def route? (t : FileTree) (path : String) : Option Route :=
  if isAbsolute path ∨ ¬ isUsable path then none
  else (t.walk [] (components path)).toOption

/-- The bytes of the file that a path names. -/
def readFile? (t : FileTree) (path : String) : Option (Array UInt8) :=
  if endsOpen path then none else do t.file? (← t.route? path)

/-- Opens the table that a path names. -/
def openTable (t : FileTree) (path : String) : Except Fault Table :=
  Table.ofFile path <|
    match t.readFile? path with
    | some bytes => .ok bytes
    | none => .error .notFound

/-! ### Making folders -/

def addFolder (t : FileTree) (route : Route) : FileTree :=
  if t.isFolder route then t else { t with folders := t.folders ++ [route] }

/-- Makes the one folder that some components lead to. -/
def makeFolder (t : FileTree) (path : Route) : Except Obstacle FileTree := do
  let route ← t.walk [] path
  if t.isFolder route ∨ (t.file? route).isSome then throw .barred
  return t.addFolder route

/-- Makes a folder and, if one before it is missing, first those with `others`. The tree keeps
what was made also when the folder is not there in the end. -/
def makeAfter (t : FileTree) (path : Route) (others : FileTree → Bool × FileTree) :
    Bool × FileTree :=
  let isThere (t : FileTree) : Bool := (t.walk [] path).toOption.any t.isFolder
  match t.makeFolder path with
  | .ok t => (true, t)
  | .error .barred => (isThere t, t)
  | .error .missing =>
    match others t with
    | (false, t) => (false, t)
    | (true, t) =>
      match t.makeFolder path with
      | .ok t => (true, t)
      | .error _ => (isThere t, t)

/-- Makes the folder with the given components, the last one first, and those before it. -/
def makeChain : List (List Char) → FileTree → Bool × FileTree
  | [], t => (true, t)
  | last :: others, t => t.makeAfter (last :: others).reverse (makeChain others)

/-- Makes every folder of a path that is missing, and tells where the path leads. -/
def makeFolders (t : FileTree) (path : String) : Option Route × FileTree :=
  if path.isEmpty ∨ isAbsolute path ∨ ¬ isUsable path then (none, t)
  else
    let names := (components path).filter (· ≠ stay)
    match t.makeAfter (components path) (makeChain names.reverse.tail) with
    | (true, t) => (t.route? path, t)
    | (false, t) => (none, t)

/-! ### Changes -/

/-- Sets the bytes of a file. -/
def putFile (t : FileTree) (route : Route) (bytes : Array UInt8) : FileTree :=
  if (t.file? route).isSome then
    { t with files := t.files.map fun f => if f.1 = route then (route, bytes) else f }
  else { t with files := t.files ++ [(route, bytes)] }

/-- Writes a file into a folder that is there. -/
def writeFile? (t : FileTree) (path : String) (bytes : Array UInt8) : Option FileTree := do
  let route ← t.route? path
  if t.isFolder route ∨ endsOpen path then none
  return t.putFile route bytes

/-- Writes a file and makes the folders that it needs. -/
def writeDeep? (t : FileTree) (path : String) (bytes : Array UInt8) : Option FileTree := do
  let names := (components path).filter (· ≠ stay)
  let (true, t) := makeChain names.reverse.tail t | none
  t.writeFile? path bytes

/-- Makes one folder in a folder that is there. -/
def makeFolder? (t : FileTree) (path : String) : Option FileTree :=
  if isAbsolute path ∨ ¬ isUsable path then none else (t.makeFolder (components path)).toOption

def removeFile? (t : FileTree) (path : String) : Option FileTree := do
  let route ← t.route? path
  if (t.file? route).isNone ∨ endsOpen path then none
  return { t with files := t.files.filter (·.1 ≠ route) }

/-- Removes a folder that has nothing in it. -/
def removeFolder? (t : FileTree) (path : String) : Option FileTree := do
  let route ← t.route? path
  let inside (other : Route) : Bool := route.isPrefixOf other && other ≠ route
  if route ∉ t.folders ∨ t.folders.any inside ∨ t.files.any (inside ·.1) then none
  return { t with folders := t.folders.filter (· ≠ route) }

/-! ### Directories -/

/-- The name by which a folder has the entry on the way to `route`, and whether `route` goes on
behind that entry. -/
def entryToward? (folder route : Route) : Option (String × Bool) :=
  if folder.isPrefixOf route then
    match route.drop folder.length with
    | [] => none
    | name :: rest => if name = back then none else some (String.ofList name, !rest.isEmpty)
  else none

/-- The name of an entry at `route` if it lies directly in a folder. -/
def nameIn? (folder route : Route) : Option String :=
  match entryToward? folder route with
  | some (name, false) => some name
  | _ => none

/-- The entries of a folder. -/
def directory (t : FileTree) (folder : Route) : Directory :=
  Directory.ofList <|
    (t.folders.filterMap fun r => (nameIn? folder r).map (·, .folder)) ++
    (t.files.filterMap fun f => (nameIn? folder f.1).map (·, .file f.2))

/-- The entries of a folder, if it is there. -/
def directory? (t : FileTree) (folder : Route) : Option Directory :=
  if t.isFolder folder then some (t.directory folder) else none

/-- Gives a folder the entries of a directory in the place of its own. What lies deeper stays
as long as the directory has the folder on the way to it. -/
def putDirectory (t : FileTree) (folder : Route) (d : Directory) : FileTree :=
  let isKept (route : Route) (isFile : Bool) : Bool :=
    match entryToward? folder route with
    | none => true
    | some (name, isDeeper) => (isDeeper || !isFile) && d.find? name = some .folder
  let t := t.addFolder folder
  let folders := t.folders.filter (isKept · false)
  let routeOf (name : String) : Route := folder ++ [name.toList]
  { folders := folders ++ d.entries.filterMap fun e =>
      if e.2 = .folder ∧ routeOf e.1 ∉ folders then some (routeOf e.1) else none
    files := t.files.filter (isKept ·.1 true) ++ d.entries.filterMap fun e =>
      match e.2 with
      | .file bytes => some (routeOf e.1, bytes)
      | .folder => none }

/-- Removes a folder with all that lies in it. -/
def eraseFolder (t : FileTree) (folder : Route) : FileTree :=
  ⟨t.folders.filter (! folder.isPrefixOf ·), t.files.filter (! folder.isPrefixOf ·.1)⟩

/-- The names in the folder that a path names. -/
def names? (t : FileTree) (path : String) : Option (List String) := do
  let route ← t.route? path
  return (← t.directory? route).names

/-! ### Disks -/

/-- The tree with the directory of a disk at the disk's path. -/
def mount (t : FileTree) (disk : Disk) : FileTree :=
  match t.route? disk.path, disk.directory with
  | some folder, some d => t.putDirectory folder d
  | some folder, none => t.eraseFolder folder
  | none, _ => t

/-- Changes the tree around a disk and, with it, what the disk has at its path. -/
def changeAround? (t : FileTree) (disk : Disk) (change : FileTree → Option FileTree) :
    Option (Disk × FileTree) := do
  let t ← change (t.mount disk)
  let folder ← t.route? disk.path
  return ({ disk with directory := t.directory? folder }, t)

end FileTree

end TableStore
