import TableStore.Clock
import TableStore.Command.Arguments
import TableStore.Disk.FileTree
import TableStore.Settings.Reading
import TableStore.Store.Flush
import TableStore.Store.Read
import TableStore.Text.Utf8

/-! The command line: one request on the store in a directory, which is opened for it and closed
behind it. What a request prints before a fault stops it stays printed. -/

namespace TableStore.Command

open Text

def version : String := "0.1.0"

/-- What an invocation leaves: its exit code, its output, and its complaint. -/
structure Outcome where
  code : UInt32
  output : String
  complaint : Option String
  deriving DecidableEq

def Outcome.success (output : String) : Outcome := ⟨0, output, none⟩

/-- What stops a request: a reason to complain of, or an overflow, over which the process ends. -/
inductive Stop
  | reason (text : String)
  | overflow

/-- A fault stops a request for the reason that the request gives, unless it is an overflow. -/
def Stop.over (fault : Fault) (text : String) : Stop :=
  match fault with
  | .overflow => .overflow
  | _ => .reason text

/-- A failure after some output. -/
def Outcome.failure (output : String) : Stop → Outcome
  | .reason text => ⟨1, output, some text⟩
  | .overflow => ⟨101, output, none⟩

/-- Wrong usage. -/
def Outcome.misuse : Outcome := ⟨2, "", none⟩

/-! ### Settings -/

/-- The settings of an invocation, or why there are none. -/
def settings (tree : FileTree) (i : Invocation) : Except String Settings := do
  let base ←
    match i.settingsPath with
    | none => pure {}
    | some path =>
      match (tree.readFile? path).bind ofUtf8? with
      | none => throw s!"could not read config {quote path}"
      | some text =>
        match Settings.parse? text with
        | none => throw s!"invalid config {quote path}"
        | some s => pure s
  let s := { base with dataPath := i.dataPath.getD base.dataPath }
  match s.fault? with
  | some cause => throw (Fault.setting cause).message
  | none => return s

/-! ### Requests -/

/-- The printed form of a pair. -/
def pairLine (key value : Bytes) : String := lossy key ++ "\t" ++ lossy value ++ "\n"

/-- Prints pairs up to the first fault: the output, and whether there was one. -/
def printPairs : List (Except Fault (Bytes × Bytes)) → String × Bool
  | [] => ("", false)
  | .error _ :: _ => ("", true)
  | .ok (key, value) :: rest =>
    let (output, failed) := printPairs rest
    (pairLine key value ++ output, failed)

def statsLines (s : Store) : String :=
  let n := s.statistics
  let lines := [
    s!"version:           {version}",
    s!"data dir:          {quote s.settings.dataPath}",
    s!"disk tables:       {n.tables}",
    s!"disk rows:         {n.rows}",
    s!"disk bytes:        {n.bytes}",
    s!"pending tables:    {n.pending}",
    s!"memory bytes:      {n.memoryBytes}",
    s!"active generation: {n.activeGeneration}"]
  String.join (lines.map (· ++ "\n"))

/-- Carries a request out: the output, what stopped it, and the store. -/
def perform (s : Store) (stamp : Stamp) : Request → String × Option Stop × Store
  | .put key value =>
    match s.put (utf8 key) (utf8 value) stamp with
    | .ok s => ("OK\n", none, s.settle)
    | .error fault => ("", some (.over fault s!"failed to put key={key}"), s)
  | .get key =>
    match s.get (utf8 key) with
    | .ok (some value) => (lossy value ++ "\n", none, s)
    | .ok none => ("(not found)\n", none, s)
    | .error fault => ("", some (.over fault s!"failed to get key={key}"), s)
  | .delete key =>
    match s.delete (utf8 key) stamp with
    | .ok s => ("OK\n", none, s.settle)
    | .error fault => ("", some (.over fault s!"failed to delete key={key}"), s)
  | .scan start limit count =>
    match s.range (utf8 start) (limit.map utf8) with
    | .error fault => ("", some (.over fault "failed to scan"), s)
    | .ok cursor =>
      let pairs := cursor.toList s.memory
      let (output, failed) := printPairs (pairs.take (count.getD pairs.length))
      (output, if failed then some (.reason "failed to read table") else none, s)
  | .compact =>
    match s.compact with
    | (.error fault, s) => ("", some (.over fault "compaction failed"), s)
    | (.ok none, s) => ("Nothing to compact\n", none, s)
    | (.ok (some c), s) =>
      (s!"Compacted {c.inputs.length} tables into generation {c.output.generation} " ++
        s!"({c.output.rows} rows)\n", none, s)
  | .stats => (statsLines s, none, s)

/-- Carries a request out and closes the store. -/
def performAndClose (s : Store) (stamp : Stamp) (request : Request) : Outcome × Disk :=
  let (output, stop, s) := perform s stamp request
  let (fault, s) := s.close
  match stop, fault with
  | some stop, _ => (.failure output stop, s.disk)
  | none, some fault => (.failure output (.over fault "failed to flush on close"), s.disk)
  | none, none => (.success output, s.disk)

/-! ### Invocations -/

/-- One invocation on a file tree, with the wall clock at `millis`. -/
def invoke (tree : FileTree) (millis : Int64) (i : Invocation) : Outcome × FileTree :=
  match settings tree i with
  | .error text => (.failure "" (.reason text), tree)
  | .ok settings =>
    let unopened := .failure "" (.reason s!"could not open storage at {quote settings.dataPath}")
    match tree.makeFolders settings.dataPath with
    | (none, tree) => (unopened, tree)
    | (some folder, tree) =>
      let disk : Disk := { path := settings.dataPath, directory := some (tree.directory folder) }
      match Store.load settings disk with
      | .error .overflow =>
        -- The unfinished tables are gone by then.
        (.failure "" .overflow,
          tree.putDirectory folder ((Recovery.ofDisk disk).disk.directory.getD .empty))
      | .error _ => (unopened, tree)
      | .ok store =>
        let (stamp, _) := Clock.draw {} millis
        let (outcome, disk) := performAndClose store stamp i.request
        (outcome, tree.putDirectory folder (disk.directory.getD .empty))

/-- A short account of the commands. -/
def usage : String :=
  "Usage: emberkv [OPTIONS] <COMMAND>\n\nCommands: put, get, delete, scan, compact, stats\n"

/-- Runs the command line with the given arguments. -/
def run (tree : FileTree) (millis : Int64) (arguments : List String) : Outcome × FileTree :=
  match read arguments with
  | .misuse => (.misuse, tree)
  | .version => (.success s!"emberkv {version}\n", tree)
  | .help => (.success usage, tree)
  | .invocation i => invoke tree millis i

end TableStore.Command
