import TableStore.Settings.Basic
import TableStore.Settings.Json
import TableStore.Text.Decimal

/-! Settings written in JSON: an object of named fields, or an array of the fields in their
order. Missing fields have their defaults and unknown ones are passed over, but a field given
twice, a value of the wrong kind and a number outside 64 bits are refused. -/

namespace TableStore

namespace Settings

/-- The fields in their order. -/
inductive Field
  | dataPath
  | flushThreshold
  | queueCapacity
  | maxTables
  | layout
  | filterBits
  | retryInterval
  | flushTimeout
  deriving DecidableEq

namespace Field

def all : List Field :=
  [dataPath, flushThreshold, queueCapacity, maxTables, layout, filterBits, retryInterval,
    flushTimeout]

def name : Field → String
  | dataPath => "data_dir"
  | flushThreshold => "flush_threshold_bytes"
  | queueCapacity => "flush_queue_capacity"
  | maxTables => "max_disk_tables"
  | layout => "table_format"
  | filterBits => "bloom_filter_bits"
  | retryInterval => "flush_retry_interval_ms"
  | flushTimeout => "flush_timeout_ms"

def ofName? (text : String) : Option Field := all.find? fun f => f.name == text

end Field

/-- A natural number of at most 64 bits. -/
def natural? : Json → Option Nat
  | .natural digits => Text.decimalBelow? UInt64.size digits
  | _ => none

def text? : Json → Option String
  | .string text => text
  | _ => none

/-- The word for a layout. -/
def layoutWord : Layout → String
  | .plain => "plain"
  | .filtered => "bloom"

def layoutOfWord? (word : String) : Option Layout :=
  [Layout.plain, .filtered].find? fun l => layoutWord l == word

/-- A layout is its word, or an object that gives null under its word. -/
def layout? : Json → Option Layout
  | .string (some word) => layoutOfWord? word
  | .object [(some word, .null)] => layoutOfWord? word
  | _ => none

/-- Sets one field. -/
def set? (s : Settings) (value : Json) : Field → Option Settings
  | .dataPath => (text? value).map fun v => { s with dataPath := v }
  | .flushThreshold => (natural? value).map fun v => { s with flushThreshold := v }
  | .queueCapacity => (natural? value).map fun v => { s with queueCapacity := v }
  | .maxTables => (natural? value).map fun v => { s with maxTables := v }
  | .layout => (layout? value).map fun v => { s with layout := v }
  | .filterBits => (natural? value).map fun v => { s with filterBits := v }
  | .retryInterval => (natural? value).map fun v => { s with retryInterval := v }
  | .flushTimeout => (natural? value).map fun v => { s with flushTimeout := v }

/-- Sets the fields of an object, of which `seen` were set before. -/
def ofMembers? (s : Settings) (seen : List Field) :
    List (Option String × Json) → Option Settings
  | [] => some s
  | (none, _) :: _ => none
  | (some key, value) :: rest =>
    match Field.ofName? key with
    | none => s.ofMembers? seen rest
    | some field =>
      if field ∈ seen then none
      else do (← s.set? value field).ofMembers? (field :: seen) rest

/-- Sets the leading fields to the items of an array. -/
def ofItems? (s : Settings) : List Json → List Field → Option Settings
  | [], _ => some s
  | _ :: _, [] => none
  | value :: items, field :: fields => do (← s.set? value field).ofItems? items fields

/-- The settings that a text gives. -/
def parse? (text : String) : Option Settings := do
  match ← Json.parse? text with
  | .object members => ofMembers? {} [] members
  | .array items => ofItems? {} items Field.all
  | _ => none

end Settings

end TableStore
