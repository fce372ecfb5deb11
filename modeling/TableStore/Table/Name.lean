import TableStore.Text.Decimal
import TableStore.Text.Path

/-! Names of table files. A name gives the table's generation in decimal and, by its
extension, its layout; a table that is still being written has an extension of its own.
Written names pad the generation to twenty digits, so that names of one layout sort as their
generations do, and any number of leading zeros is read. -/

namespace TableStore

/-- The two layouts of a stored table, without and with a filter. -/
inductive Layout
  | plain
  | filtered
  deriving DecidableEq, Inhabited

def Layout.extension : Layout → String
  | plain => "dat"
  | filtered => "bdat"

namespace TableName

/-- The beginning of every table file name. -/
def stem : String := "table_"

/-- Twenty decimal digits, or as many as it takes. -/
def digits (generation : UInt64) : List Char :=
  (Nat.toDigits 10 generation.toNat).leftpad 20 '0'

def named (generation : UInt64) (extension : String) : String :=
  String.ofList (stem.toList ++ digits generation ++ '.' :: extension.toList)

/-- The final name of a table. -/
def file (generation : UInt64) (layout : Layout) : String := named generation layout.extension

/-- The name under which a table is written. -/
def temporary (generation : UInt64) : String := named generation "tmp"

/-! ### Reading -/

/-- What follows `start` in a text that begins with it. -/
def after? : (start text : List Char) → Option (List Char)
  | [], text => some text
  | _ :: _, [] => none
  | s :: start, c :: text => if s = c then after? start text else none

/-- The parts before and after the last occurrence of `separator`. -/
def splitLast? (separator : Char) : List Char → Option (List Char × List Char)
  | [] => none
  | c :: cs =>
    match splitLast? separator cs with
    | some (before, behind) => some (c :: before, behind)
    | none => if c = separator then some ([], cs) else none

def layout? (extension : List Char) : Option Layout :=
  if extension = Layout.plain.extension.toList then some .plain
  else if extension = Layout.filtered.extension.toList then some .filtered
  else none

/-- Generation and layout of the table that a path names, if it names one. -/
def parse? (path : String) : Option (UInt64 × Layout) := do
  let name ← Text.Path.finalComponent? path
  let rest ← after? stem.toList name
  let (number, extension) ← splitLast? '.' rest
  let layout ← layout? extension
  let n ← Text.decimalBelow? UInt64.size number
  return (UInt64.ofNat n, layout)

/-- Whether a path names a table that was being written. -/
def isTemporary (path : String) : Bool :=
  match Text.Path.finalComponent? path with
  | some name => stem.toList.isPrefixOf name && ".tmp".toList.isSuffixOf name
  | none => false

end TableName

end TableStore
