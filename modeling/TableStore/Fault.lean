import TableStore.Text.Quoted
import TableStore.Version

/-! What can go wrong, by cause. A fault has one of eight kinds; its message is the kind's
heading followed by the cause in words, with paths and keys quoted. Beside these stands the
overflow of a counter, which is nothing a caller can answer: the process ends over it. -/

namespace TableStore

open Text

/-- The directory or the device refused a file operation. -/
inductive DiskFault
  | notFound
  | isFolder
  | notFolder
  | longPath
  | tooLarge
  | refused
  | other (reason : String)
  deriving DecidableEq

/-- The bytes of a stored table are inconsistent. -/
inductive Damage
  | tooShort (path : String) (size : Nat)
  | rowCount (path : String) (rows size : Nat)
  | noFilter (path : String)
  | filterOverrun (path : String) (words : Nat)
  | indexOverrun (path : String)
  | recordOverrun (path : String) (position : Nat)
  | stampRange
  | emptyFilter
  | filterSize (expected found : Nat)
  | other (reason : String)
  deriving DecidableEq

/-- Data does not have the form that an operation asks for. -/
inductive Misfit
  | notAscending (key last : Bytes)
  | longKey
  | longValue
  | absentVersion
  | filterSizes (left right : Nat)
  | tableName (path : String)
  | other (reason : String)
  deriving DecidableEq

/-- A setting has a value that no store can run with. -/
inductive BadSetting
  | queueCapacity
  | maxTables
  | filterBits (bits : Nat)
  | retryInterval
  | other (reason : String)
  deriving DecidableEq

/-- A request that the caller should never have made. -/
inductive Misuse
  | rowRange (row rows : Nat)
  | other (reason : String)
  deriving DecidableEq

inductive Fault
  | disk (cause : DiskFault)
  | damage (cause : Damage)
  | misfit (cause : Misfit)
  | stamp (value : Stamp)
  | setting (cause : BadSetting)
  | closed
  | flushTimeout (generation : UInt64)
  | misuse (cause : Misuse)
  | overflow
  deriving DecidableEq

def DiskFault.message : DiskFault → String
  | notFound => "no such file or directory"
  | isFolder => "is a directory"
  | notFolder => "not a directory"
  | longPath => "file name too long"
  | tooLarge => "file too large"
  | refused => "input/output error"
  | other reason => reason

def Damage.message : Damage → String
  | tooShort path size => s!"{quote path} too short: {size} bytes"
  | rowCount path rows size => s!"{quote path} claims {rows} rows in {size} bytes"
  | noFilter path => s!"{quote path} missing bloom filter"
  | filterOverrun path words => s!"{quote path} bloom filter of {words} words overruns file"
  | indexOverrun path => s!"{quote path} offset index points past the cell region"
  | recordOverrun path position => s!"{quote path} record at {position} overruns the cell region"
  | stampRange => "Timestamp field out of range"
  | emptyFilter => "Bloom filter has no words"
  | filterSize expected found => s!"Bloom filter expects {expected} bytes, found {found}"
  | other reason => reason

def Misfit.message : Misfit → String
  | notAscending key last =>
    s!"Cells must be strictly ascending: {quoteBytes key} after {quoteBytes last}"
  | longKey => "Key longer than 4 GiB"
  | longValue => "Value longer than 4 GiB"
  | absentVersion => "Absent values are never persisted"
  | filterSizes left right => s!"Cannot merge bloom filters of {left} and {right} bits"
  | tableName path => s!"Not a table file name: {quote path}"
  | other reason => reason

def BadSetting.message : BadSetting → String
  | queueCapacity => "flush_queue_capacity must be at least 1"
  | maxTables => "max_disk_tables must be at least 1"
  | filterBits bits => s!"bloom_filter_bits must be a positive multiple of 64, got {bits}"
  | retryInterval => "flush_retry_interval_ms must be positive"
  | other reason => reason

def Misuse.message : Misuse → String
  | rowRange row rows => s!"Row {row} out of range for {rows} rows"
  | other reason => reason

namespace Fault

def message : Fault → String
  | disk cause => s!"IO error: {cause.message}"
  | damage cause => s!"Data corruption: {cause.message}"
  | misfit cause => s!"Invalid format: {cause.message}"
  | stamp value => s!"Invalid timestamp: {value}"
  | setting cause => s!"Configuration error: {cause.message}"
  | closed => "Storage engine is closed"
  | flushTimeout generation => s!"Flush of generation {generation} timed out"
  | misuse cause => s!"Internal error: {cause.message}"
  | overflow => "attempt to add with overflow"

/-- Only what the disk refused may succeed when tried again. -/
def isRetryable : Fault → Bool
  | disk _ => true
  | _ => false

def isDamage : Fault → Bool
  | damage _ => true
  | _ => false

end Fault

end TableStore
