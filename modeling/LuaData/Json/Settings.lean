import LuaData.Json.Reader
import LuaData.Json.Writer
import LuaData.Options

/-!
# Options in JSON

Options are written as an object, and read from an object or from an array of the values in the
order of the fields. What is missing has its default, and fields with other names are ignored; a
field that is given twice, or a value of the wrong form, is refused.
-/

namespace LuaData.Options

open LuaData.Json (Tree)

/-- The fields. -/
inductive Field where
  | integerWidth
  | shortStringLimit
  | maxChain
  | arraySize
  | hashSize
  deriving DecidableEq

/-- The fields in order. -/
def Field.all : List Field :=
  [.integerWidth, .shortStringLimit, .maxChain, .arraySize, .hashSize]

/-- The name of a field. -/
def Field.key : Field → String
  | .integerWidth => "integer_width"
  | .shortStringLimit => "short_string_limit"
  | .maxChain => "max_tag_loop"
  | .arraySize => "default_array_size"
  | .hashSize => "default_hash_size"

/-- The options as the text of an object. -/
def jsonText (o : Options) : List Char :=
  let pair (f : Field) (value : List Char) : List Char :=
    Json.stringText f.key.toList ++ ':' :: value
  Json.brackets '\x7b' '\x7d' none
    [pair .integerWidth (Json.stringText (widthName o.integerWidth).toList),
      pair .shortStringLimit (decimalDigits o.shortStringLimit),
      pair .maxChain (decimalDigits o.maxChain),
      pair .arraySize (decimalDigits o.arraySize),
      pair .hashSize (decimalDigits o.hashSize)]

/-- The width with a name. -/
def widthOfName? (name : List Char) : Option Width :=
  [Width.bits32, Width.bits64].find? fun w ↦ (widthName w).toList == name

/-- A width: its name, or an object that gives null under its name. -/
def width? : Tree → Option Width
  | .string (some name) => widthOfName? name
  | .object [(some name, .null)] => widthOfName? name
  | _ => none

/-- A natural of at most 64 bits. -/
def size? : Tree → Option Nat
  | .number n =>
    match n.value? with
    | some (.int i) => if 0 ≤ i then some i.toNat else none
    | _ => none
  | _ => none

/-- Set a field from its JSON form. -/
def setField (f : Field) (value : Tree) (o : Options) : Option Options :=
  match f with
  | .integerWidth => (width? value).map fun integerWidth ↦ { o with integerWidth }
  | .shortStringLimit => (size? value).map fun shortStringLimit ↦ { o with shortStringLimit }
  | .maxChain => (size? value).map fun maxChain ↦ { o with maxChain }
  | .arraySize => (size? value).map fun arraySize ↦ { o with arraySize }
  | .hashSize => (size? value).map fun hashSize ↦ { o with hashSize }

/-- Set the fields in order from the items of an array, which may be fewer. -/
def setItems : List Field → List Tree → Options → Option Options
  | _, [], o => some o
  | [], _ :: _, _ => none
  | f :: fields, item :: items, o => (o.setField f item).bind (setItems fields items)

/-- Set fields from the members of an object. `seen` are the fields that were given before. -/
def setMembers (seen : List Field) : List (Option (List Char) × Tree) → Options → Option Options
  | [], o => some o
  | (none, _) :: _, _ => none
  | (some key, value) :: members, o =>
    match Field.all.find? fun f ↦ f.key.toList == key with
    | none => setMembers seen members o
    | some f =>
      if f ∈ seen then none else (o.setField f value).bind (setMembers (f :: seen) members)

/-- The options that a JSON text gives. -/
def parse? (text : List Char) : Option Options :=
  match Tree.parse? text with
  | some (.array items) => setItems Field.all items default
  | some (.object members) => setMembers [] members default
  | _ => none

end LuaData.Options
