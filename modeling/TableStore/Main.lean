import TableStore.Command.Run

/-! The program. Its arguments are one invocation; without arguments, every line of standard
input is one, with its words separated by tabs. The files live in memory, so an invocation
sees what earlier lines stored and nothing remains when the program ends. -/

namespace TableStore.Command

/-- The files and the greatest clock reading so far, which the next reading has to pass. -/
structure Terminal where
  tree : FileTree := .empty
  millis : Int64 := 0

/-- Runs one invocation and shows what it leaves. -/
def Terminal.run (t : Terminal) (arguments : List String) : IO (UInt32 × Terminal) := do
  let millis := max (t.millis + 1) (Int64.ofNat (← IO.monoMsNow))
  let (outcome, tree) := Command.run t.tree millis arguments
  IO.print outcome.output
  if let some complaint := outcome.complaint then IO.eprintln s!"Error: {complaint}"
  return (outcome.code, { tree, millis })

/-- Runs the invocations on the lines of a stream. -/
partial def Terminal.serve (t : Terminal) (input : IO.FS.Stream) : IO Unit := do
  let line ← input.getLine
  if line.isEmpty then return
  let words := ((line.splitOn "\n").headD "").splitOn "\t"
  let (_, t) ← t.run words
  t.serve input

end TableStore.Command

def main (arguments : List String) : IO UInt32 := do
  if arguments.isEmpty then
    ({} : TableStore.Command.Terminal).serve (← IO.getStdin)
    return 0
  let (code, _) ← ({} : TableStore.Command.Terminal).run arguments
  return code
