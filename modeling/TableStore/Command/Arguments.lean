import TableStore.Text.Decimal

/-! The arguments of the command line. Options for the settings file and the directory may
stand before or after the command, each at most once in either place, and behind the command
they win. A value follows its option as the next word or in the same one, a word that begins
with a hyphen is never taken for a value, and after a lone double hyphen every word is an
operand. -/

namespace TableStore.Command

inductive Request
  | put (key value : String)
  | get (key : String)
  | delete (key : String)
  | scan (start : String) (limit : Option String) (count : Option Nat)
  | compact
  | stats
  deriving DecidableEq

/-- A request with the places of settings and data. -/
structure Invocation where
  settingsPath : Option String
  dataPath : Option String
  request : Request
  deriving DecidableEq

/-- What some arguments ask for. -/
inductive Reading
  | invocation (i : Invocation)
  | version
  | help
  | misuse
  deriving DecidableEq

/-! ### Options -/

inductive Opt
  | settings
  | data
  | count
  deriving DecidableEq

/-- Values given to options, the latest first, and operands, the latest first. -/
structure Words where
  values : List (Opt × String) := []
  operands : List String := []

def Words.value? (w : Words) (o : Opt) : Option String :=
  (w.values.find? fun v => v.1 == o).map Prod.snd

/-- A natural number of at most 64 bits, with a plus sign or without. -/
def count? (text : String) : Option Nat :=
  let cs := text.toList
  Text.decimalBelow? UInt64.size (if cs.head? = some '+' then cs.tail else cs)

/-- Whether an option takes a text as its value. -/
def accepts (o : Opt) (value : String) : Bool :=
  match o with
  | .count => (count? value).isSome
  | _ => value ≠ ""

/-- Gives an option a value, unless it has one. -/
def Words.give? (w : Words) (o : Opt) (value : String) : Option Words :=
  if (w.value? o).isSome ∨ accepts o value = false then none
  else some { w with values := (o, value) :: w.values }

/-! ### Words -/

/-- What a word is by itself. -/
inductive Word
  | option (o : Opt) (value : Option String)
  | version
  | help
  | doubleHyphen
  | operand (text : String)
  | unknown

/-- Where a word stands: before the command, or behind one that takes a count or none. -/
inductive Place
  | front
  | behind (counted : Bool)
  deriving DecidableEq

def longOption? (place : Place) (name : List Char) : Option Opt :=
  if name = "config".toList then some .settings
  else if name = "data-dir".toList then some .data
  else if name = "limit".toList ∧ place = .behind true then some .count
  else none

def shortOption? (place : Place) (c : Char) : Option Opt :=
  if c = 'c' then some .settings
  else if c = 'd' then some .data
  else if c = 'l' ∧ place = .behind true then some .count
  else none

/-- A word that begins with two hyphens and goes on. -/
def longWord (place : Place) (name : List Char) (value : Option String) : Word :=
  match longOption? place name with
  | some o => .option o value
  | none =>
    if value.isSome then .unknown
    else if name = "version".toList ∧ place = .front then .version
    else if name = "help".toList then .help
    else .unknown

/-- A word that begins with one hyphen and goes on with `c`. -/
def shortWord (place : Place) (c : Char) (rest : List Char) : Word :=
  match shortOption? place c with
  | some o =>
    match rest with
    | [] => .option o none
    | '=' :: value => .option o (some (String.ofList value))
    | value => .option o (some (String.ofList value))
  | none =>
    if c = 'V' ∧ place = .front then .version
    else if c = 'h' then .help
    else .unknown

def classify (place : Place) (text : String) : Word :=
  match text.toList with
  | ['-', '-'] => .doubleHyphen
  | '-' :: '-' :: rest =>
    let name := rest.takeWhile (· ≠ '=')
    let value :=
      match rest.dropWhile (· ≠ '=') with
      | [] => none
      | _ :: value => some (String.ofList value)
    longWord place name value
  | '-' :: c :: rest => shortWord place c rest
  | _ => .operand text

/-- Whether a word may be the value of the option before it. -/
def isPlain (text : String) : Bool :=
  match text.toList with
  | '-' :: _ :: _ => false
  | _ => true

/-! ### Requests -/

/-- The commands by their names and short names. -/
inductive Name
  | put
  | get
  | delete
  | scan
  | compact
  | stats
  deriving DecidableEq

def name? (word : String) : Option Name :=
  if word = "put" ∨ word = "p" then some .put
  else if word = "get" ∨ word = "g" then some .get
  else if word = "delete" ∨ word = "rm" then some .delete
  else if word = "scan" then some .scan
  else if word = "compact" then some .compact
  else if word = "stats" then some .stats
  else none

/-- The most operands that a command takes. -/
def Name.capacity : Name → Nat
  | put => 2
  | get => 1
  | delete => 1
  | scan => 2
  | compact => 0
  | stats => 0

/-- The request of a command with the given operands. -/
def Name.request? : Name → List String → Option Nat → Option Request
  | put, [key, value], _ => some (.put key value)
  | get, [key], _ => some (.get key)
  | delete, [key], _ => some (.delete key)
  | scan, [], count => some (.scan "" none count)
  | scan, [start], count => some (.scan start none count)
  | scan, [start, limit], count => some (.scan start (some limit) count)
  | compact, [], _ => some .compact
  | stats, [], _ => some .stats
  | _, _, _ => none

/-- All arguments are read: the command with its own words and those before it. -/
def conclude (front : Words) (name : Name) (own : Words) : Reading :=
  match name.request? own.operands.reverse ((own.value? .count).bind count?) with
  | none => .misuse
  | some request => .invocation {
      settingsPath := (own.value? .settings).or (front.value? .settings)
      dataPath := (own.value? .data).or (front.value? .data)
      request }

/-- Adds an operand, if the command takes one more. -/
def Words.operand? (w : Words) (name : Name) (text : String) : Option Words :=
  if w.operands.length < name.capacity then some { w with operands := text :: w.operands }
  else none

/-- Reads operands to the end. -/
def readOperands (front : Words) (name : Name) (own : Words) : List String → Reading
  | [] => conclude front name own
  | text :: rest =>
    match own.operand? name text with
    | some own => readOperands front name own rest
    | none => .misuse

/-- Reads the words behind the command. -/
def readBehind (front : Words) (name : Name) (own : Words) : List String → Reading
  | [] => conclude front name own
  | text :: rest =>
    match classify (.behind (name = .scan)) text with
    | .option o (some value) =>
      match own.give? o value with
      | some own => readBehind front name own rest
      | none => .misuse
    | .option o none =>
      match rest with
      | [] => .misuse
      | value :: rest =>
        if isPlain value then
          match own.give? o value with
          | some own => readBehind front name own rest
          | none => .misuse
        else .misuse
    | .operand text =>
      match own.operand? name text with
      | some own => readBehind front name own rest
      | none => .misuse
    | .doubleHyphen => readOperands front name own rest
    | .version => .version
    | .help => .help
    | .unknown => .misuse

/-- Reads what help is asked for: all, or one command. -/
def readHelp : List String → Reading
  | [] => .help
  | [text] => if (name? text).isSome ∨ text = "help" then .help else .misuse
  | _ => .misuse

/-- Reads the words before the command, and then the rest. -/
def readFront (front : Words) : List String → Reading
  | [] => .misuse
  | text :: rest =>
    match classify .front text with
    | .option o (some value) =>
      match front.give? o value with
      | some front => readFront front rest
      | none => .misuse
    | .option o none =>
      match rest with
      | [] => .misuse
      | value :: rest =>
        if isPlain value then
          match front.give? o value with
          | some front => readFront front rest
          | none => .misuse
        else .misuse
    | .operand text =>
      match name? text with
      | some name => readBehind front name {} rest
      | none => if text = "help" then readHelp rest else .misuse
    | .version => .version
    | .help => .help
    | .doubleHyphen | .unknown => .misuse

/-- What the arguments of a command line ask for. -/
def read (arguments : List String) : Reading := readFront {} arguments

end TableStore.Command
