import AreaReplication.Ascending
import AreaReplication.Decimal.Shortest

/-!
# JSON values and their text

Objects keep their fields as they come. `sorted` puts the fields of every object in ascending order
of their names, the last of several fields of one name winning.
-/
namespace AreaReplication

/-- A JSON value; a number is whole or a double. -/
inductive Json where
  | null
  | bool (value : Bool)
  | int (value : Int)
  | float (value : Binary64)
  | string (value : String)
  | array (items : List Json)
  | object (fields : List (String × Json))
  deriving Repr

namespace Json

def ofNat (value : Nat) : Json := .int value

def ofOption {α : Type} (toJson : α → Json) : Option α → Json
  | none => .null
  | some value => toJson value

/-- The last field of the given name in an object. -/
def field? (name : String) : Json → Option Json
  | object fields => (fields.reverse.find? fun entry => entry.1 = name).map (·.2)
  | _ => none

/-- A field, or `null` if it is missing or the value is no object. -/
def field (json : Json) (name : String) : Json := (json.field? name).getD .null

/-- The items of an array; none for any other value. -/
def items : Json → List Json
  | array items => items
  | _ => []

mutual

def sorted : Json → Json
  | array items => array (sortedItems items)
  | object fields => object (sortedFields fields [])
  | other => other

def sortedItems : List Json → List Json
  | [] => []
  | item :: rest => sorted item :: sortedItems rest

def sortedFields : List (String × Json) → List (String × Json) → List (String × Json)
  | [], done => done
  | (name, value) :: rest, done =>
    sortedFields rest (Ascending.insert (fun entry => entry.1) (name, sorted value) done)

end

mutual

def depth : Json → Nat
  | array items => itemsDepth items + 1
  | object fields => fieldsDepth fields + 1
  | _ => 0

def itemsDepth : List Json → Nat
  | [] => 0
  | item :: rest => max (depth item) (itemsDepth rest)

def fieldsDepth : List (String × Json) → Nat
  | [] => 0
  | (_, value) :: rest => max (depth value) (fieldsDepth rest)

end

/-- A double in JSON text: positional with a point from `1e-5` below `1e16`, else with a signed
exponent; what is not finite has no number. -/
def floatText (value : Binary64) : String :=
  if !value.isFinite then
    "null"
  else
    let number := Decimal.shortest .toEven value
    let size := number.exponent + (toString number.digits).length
    Decimal.signText value ++
      (if number.digits = 0 ∨ (-5 < size ∧ size ≤ 16) then
        number.positional true
      else
        number.exponential)

def hexPair (value : Nat) : String :=
  String.ofList [Nat.digitChar (value / 16 % 16), Nat.digitChar (value % 16)]

def escape (c : Char) : String :=
  if c = '"' then "\\\""
  else if c = '\\' then "\\\\"
  else if c = '\n' then "\\n"
  else if c = '\r' then "\\r"
  else if c = '\t' then "\\t"
  else if c.toNat = 8 then "\\b"
  else if c.toNat = 12 then "\\f"
  else if c.toNat < 32 then "\\u00" ++ hexPair c.toNat
  else String.singleton c

def quote (text : String) : String :=
  "\"" ++ String.join (text.toList.map escape) ++ "\""

def leafText : Json → String
  | null => "null"
  | bool true => "true"
  | bool false => "false"
  | int value => toString value
  | float value => floatText value
  | string value => quote value
  | array _ => "[]"
  | object _ => "\x7b\x7d"

mutual

def compact : Json → String
  | array items => "[" ++ String.intercalate "," (compactItems items) ++ "]"
  | object fields => "\x7b" ++ String.intercalate "," (compactFields fields) ++ "\x7d"
  | null => leafText null
  | bool value => leafText (bool value)
  | int value => leafText (int value)
  | float value => leafText (float value)
  | string value => leafText (string value)

def compactItems : List Json → List String
  | [] => []
  | item :: rest => compact item :: compactItems rest

def compactFields : List (String × Json) → List String
  | [] => []
  | (name, value) :: rest => (quote name ++ ":" ++ compact value) :: compactFields rest

end

def lineBreak (level : Nat) : String := "\n" ++ String.ofList (List.replicate (2 * level) ' ')

/-- Parts on lines of their own between two brackets; empty brackets stay together. -/
def bracketed (opening closing : String) (level : Nat) (parts : List String) : String :=
  if parts.isEmpty then
    opening ++ closing
  else
    opening ++ lineBreak (level + 1) ++
      String.intercalate ("," ++ lineBreak (level + 1)) parts ++ lineBreak level ++ closing

mutual

def indented (level : Nat) : Json → String
  | array items => bracketed "[" "]" level (indentedItems (level + 1) items)
  | object fields => bracketed "\x7b" "\x7d" level (indentedFields (level + 1) fields)
  | null => leafText null
  | bool value => leafText (bool value)
  | int value => leafText (int value)
  | float value => leafText (float value)
  | string value => leafText (string value)

def indentedItems (level : Nat) : List Json → List String
  | [] => []
  | item :: rest => indented level item :: indentedItems level rest

def indentedFields (level : Nat) : List (String × Json) → List String
  | [] => []
  | (name, value) :: rest =>
    (quote name ++ ": " ++ indented level value) :: indentedFields level rest

end

end Json

end AreaReplication
