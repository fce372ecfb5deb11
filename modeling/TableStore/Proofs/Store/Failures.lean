import TableStore.Proofs.Store.Damage
import TableStore.Proofs.Store.Footprint
import TableStore.Proofs.Store.Overflow

/-! What a compaction leaves when the merge of the registered tables cannot be published, be it that
a table cannot be read, that the merged cells are refused, or that the disk refuses a file. Only the
generation is spent that the merge would have had: registry, reads and memory are as they were, and
so is the directory, but for a file that stood under the temporary name of that generation. Such a
file is overwritten and goes with the attempt. The store itself never leaves one there, so it takes
a change from outside. The flush that brought the compaction about is done before it begins, and the
worker goes on with the rest of the backlog. -/

namespace TableStore

namespace Store

variable {s s' before flushed : Store} {fault : Fault} {task : FlushTask} {rest : List FlushTask}

/-! ### Failed compactions -/

/-- The store with a file that someone else has put into its directory. -/
def putFile (s : Store) (name : String) (image : Array UInt8) : Store :=
  { s with disk := { s.disk with
    directory := s.disk.directory.map fun d => d.put name (.file image) } }

end Store

end TableStore
