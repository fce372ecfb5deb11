import TableStore.Disk.Directory
import TableStore.Table.Basic

/-! The disk as a store sees it: the directory of its files, if it exists, the directory's
path, and a plan of refusals. Each creation, write and renaming takes the next item of the
plan and fails when that item says so, with nothing changed; an exhausted plan refuses
nothing. A file whose path is too long is out of reach, be it there or not. -/

namespace TableStore

structure Disk where
  /-- The path of the directory. -/
  path : String
  /-- The directory, unless it is missing. -/
  directory : Option Directory
  /-- Whether each coming file operation is refused. -/
  refusals : List Bool := []
  deriving DecidableEq

namespace Disk

/-- The path of an entry of the directory. -/
def pathOf (disk : Disk) (name : String) : String := Text.Path.join disk.path name

/-- Whether the path of an entry is short enough to be opened. -/
def reaches (disk : Disk) (name : String) : Bool := Text.Path.isShort (disk.pathOf name)

/-- Why no directory can be found under the disk's path, whatever the files are. -/
def pathFault? (disk : Disk) : Option DiskFault :=
  if disk.path.isEmpty then some .notFound
  else if ¬ Text.Path.isShort disk.path then some .longPath
  else if ¬ Text.Path.isUsable disk.path then
    some (.other "file name contained an unexpected NUL byte")
  else none

/-- The disk with its directory, an empty one if it was missing. -/
def withDirectory (disk : Disk) : Disk :=
  { disk with directory := some (disk.directory.getD Directory.empty) }

/-- Makes the directory if it is missing. -/
def makeDirectory (disk : Disk) : Except Fault Disk :=
  match disk.pathFault? with
  | some cause => .error (.disk cause)
  | none => .ok disk.withDirectory

/-- The directory's entries in the order of the listing; none when it is missing. -/
def listing (disk : Disk) : List (String × Entry) :=
  (disk.directory.map Directory.entries).getD []

/-! ### File operations -/

/-- One operation on the named files: the fault that stopped it, if one did, and the disk
afterwards. -/
def perform (disk : Disk) (names : List String)
    (operation : Directory → Except DiskFault Directory) : Option Fault × Disk :=
  let rest := { disk with refusals := disk.refusals.tail }
  if disk.refusals.head? = some true then (some (.disk .refused), rest)
  else if ¬ names.all disk.reaches then (some (.disk .longPath), rest)
  else
    match disk.directory with
    | none => (some (.disk .notFound), rest)
    | some d =>
      match operation d with
      | .ok d => (none, { rest with directory := some d })
      | .error cause => (some (.disk cause), rest)

def create (disk : Disk) (name : String) : Option Fault × Disk :=
  disk.perform [name] (Directory.create name)

def write (disk : Disk) (name : String) (bytes : Array UInt8) : Option Fault × Disk :=
  disk.perform [name] (Directory.write name bytes)

def rename (disk : Disk) (name target : String) : Option Fault × Disk :=
  disk.perform [name, target] (Directory.rename name target)

/-- Operations one after another, up to the first that fails. -/
def performAll (disk : Disk) : List (Disk → Option Fault × Disk) → Option Fault × Disk
  | [] => (none, disk)
  | operation :: rest =>
    match operation disk with
    | (some fault, disk) => (some fault, disk)
    | (none, disk) => disk.performAll rest

/-- Removes a file. A failure to do so is of no consequence to a store and not reported. -/
def removeFile (disk : Disk) (name : String) : Disk :=
  if disk.reaches name then
    { disk with directory := disk.directory.map (Directory.removeFile name) }
  else disk

/-- Writes into a file from a position on; what is not a file stays as it is. -/
def writeAt (disk : Disk) (name : String) (position : Nat) (bytes : Array UInt8) : Disk :=
  { disk with directory := disk.directory.map (Directory.writeAt name position bytes) }

/-- The bytes of a file. -/
def read (disk : Disk) (name : String) : Except DiskFault (Array UInt8) :=
  if disk.reaches name then disk.directory.elim (.error .notFound) (·.read name)
  else .error .longPath

/-- Opens the table stored under a name. -/
def openTable (disk : Disk) (name : String) : Except Fault Table :=
  Table.ofFile (disk.pathOf name) (disk.read name)

end Disk

end TableStore
