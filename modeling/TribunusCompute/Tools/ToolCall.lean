import TribunusCompute.Grammar.JsonSchema

/-!
# Repair of tool calls

A call that a model generated is repaired without generating again: its function's name is
corrected, the wrapper of `tool_calls` is taken off, arguments in a string are parsed, missing
ones are filled in and values are converted to the types of the schema, one after another on the
same value. How JSON and numbers are read and displayed is a parameter.
-/
namespace TribunusCompute.Tools

open Gbnf (Json Number schemaProperties)

abbrev Text := List Char

/-- What the standard library and the JSON library do with texts. -/
structure Std where
  fromStr : Text → Option (Json Number)
  toText : Json Number → Text
  numberText : Number → Text
  /-- A double by its bits. -/
  parseF64 : Text → Option UInt64

/-- A tool; the members of a map have distinct keys. -/
structure ToolDefinition where
  name : Text
  description : Text
  parameters : Json Number
  required : List Text
  distinct : (((schemaProperties parameters).getD []).map Prod.fst).Nodup

structure FunctionCall where
  name : Text
  arguments : Json Number
  raw : Text

inductive ToolCallResult
  | valid (call : FunctionCall)
  | repaired (call : FunctionCall) (fixes : List Text)
  | unrepairable (reason : Text)

def ToolCallResult.call? : ToolCallResult → Option FunctionCall
  | valid call | repaired call _ => some call
  | unrepairable _ => none

/-! ## The name of the function -/

def min3 (a b c : ℕ) : ℕ := min (min a b) c

/-- The rest of a row, from the entry on its left and the row above. -/
def levenshteinRow (c : Char) (left : ℕ) : List Char → List ℕ → List ℕ
  | d :: ds, diagonal :: above :: prev =>
    let entry := min3 (above + 1) (left + 1) (diagonal + if c = d then 0 else 1)
    entry :: levenshteinRow c entry ds (above :: prev)
  | _, _ => []

/-- Two rows at a time: row `i` for the first `i` characters of `a`. -/
def levenshteinRows (b : List Char) : ℕ → List Char → List ℕ → List ℕ
  | _, [], prev => prev
  | i, c :: a, prev => levenshteinRows b (i + 1) a (i :: levenshteinRow c i b prev)

def levenshteinDistance (a b : List Char) : ℕ :=
  if a.length = 0 then b.length
  else if b.length = 0 then a.length
  else (levenshteinRows b 1 a (List.range (b.length + 1))).getD b.length 0

/-- Two fifths of the bytes of the name, rounded up: the double `0.4 * len` is exact where it is
a whole number. -/
def typoThreshold (tool : ToolDefinition) : ℕ :=
  max 1 ((2 * (String.ofList tool.name).utf8ByteSize + 4) / 5)

def fuzzyMatchFunctionName (name : Text) (tool : ToolDefinition) : Option Text :=
  let dist := levenshteinDistance name tool.name
  if dist ≤ typoThreshold tool ∧ dist > 0 then some tool.name else none

/-- The name at the top level, of whatever type, else that of the inner function. -/
def currentName (val : Json Number) : Text :=
  let nameVal := (val.get "name".toList).or
    ((val.get "function".toList).bind fun func => func.get "name".toList)
  (nameVal.bind Json.asStr).getD []

def insertMember (key : Text) (value : Json Number) : Json Number → Json Number
  | .object members => .object (Members.insert key value members)
  | val => val

def correctName (tool : ToolDefinition) (val : Json Number) : Json Number × List Text :=
  let current := currentName val
  if current ≠ [] ∧ current ≠ tool.name then
    match fuzzyMatchFunctionName current tool, val with
    | some corrected, .object members =>
      (.object (Members.insert "name".toList (.string corrected) members),
        ["corrected function name '".toList ++ current ++ "' -> '".toList ++ corrected ++
          "'".toList])
    | _, _ => (val, [])
  else (val, [])

/-! ## The wrapper -/

def reparse (std : Std) (val : Json Number) : Option (Json Number) :=
  val.asStr.bind std.fromStr

/-- The function in the wrapper of a `tool_calls` entry. -/
def wrapped? (val : Json Number) : Option (Json Number) :=
  if (val.get "type".toList).bind Json.asStr = some "function".toList then
    val.get "function".toList
  else none

/-- The members of the wrapper with those of its function. -/
def unwrap (std : Std) (func : Json Number) (members : List (Text × Json Number)) :
    List (Text × Json Number) :=
  let named := match (func.get "name".toList).bind Json.asStr with
    | some name => Members.insert "name".toList (.string name) members
    | none => members
  let called := match func.get "arguments".toList with
    | some args => Members.insert "arguments".toList ((reparse std args).getD args) named
    | none => named
  Members.remove "id".toList
    (Members.remove "type".toList (Members.remove "function".toList called))

def normalizeWrapper (std : Std) (val : Json Number) : Json Number × List Text :=
  match wrapped? val, val with
  | some func, .object members =>
    (.object (unwrap std func members), ["normalized tool_calls wrapper format".toList])
  | _, _ => (val, [])

/-! ## Arguments -/

def reparseArguments (std : Std) (val : Json Number) : Json Number × List Text :=
  match (val.get "arguments".toList).bind (reparse std), val with
  | some parsed, .object members =>
    (.object (Members.insert "arguments".toList parsed members),
      ["re-parsed string arguments as JSON".toList])
  | _, _ => (val, [])

def isNull : Json Number → Bool
  | .null => true
  | _ => false

def getDefaultFor (schema : Json Number) (field : Text) : Option (Json Number) :=
  ((schema.get "properties".toList).bind fun properties => properties.get field).bind fun prop =>
    match (prop.get "default".toList).filter fun default => !isNull default with
    | some default => some default
    | none =>
      -- Inferred from the type.
      match (prop.get "type".toList).bind Json.asStr with
      | some type =>
        if type = "string".toList then some (.string [])
        else if type = "number".toList ∨ type = "integer".toList then some (.number (.posInt 0))
        else if type = "boolean".toList then some (.bool false)
        else if type = "array".toList then some (.array [])
        else if type = "object".toList then some (.object [])
        else none
      | none => none

def hasValue (args : List (Text × Json Number)) (field : Text) : Bool :=
  ((args.lookup field).map fun value => !isNull value).getD false

def fillField (schema : Json Number) (filled : List (Text × Json Number) × List Text)
    (field : Text) : List (Text × Json Number) × List Text :=
  if hasValue filled.1 field then filled
  else match getDefaultFor schema field with
    | some default => (Members.insert field default filled.1,
        filled.2 ++ ["filled missing required field '".toList ++ field ++ "'".toList])
    | none => filled

def fillRequired (tool : ToolDefinition) (args : List (Text × Json Number)) :
    List (Text × Json Number) × List Text :=
  tool.required.foldl (fillField tool.parameters) (args, [])

/-! ## Types -/

/-- The double is neither infinite nor not a number. -/
def IsFinite (bits : UInt64) : Prop := bits.toNat / 2 ^ 52 % 2 ^ 11 ≠ 2 ^ 11 - 1

instance (bits : UInt64) : Decidable (IsFinite bits) := inferInstanceAs (Decidable (_ ≠ _))

/-- A double as JSON, where there are only finite ones. -/
def jsonOfF64 (bits : UInt64) : Json Number :=
  if IsFinite bits then .number (.float bits) else .null

def jsonOfI64 (n : Int64) : Json Number :=
  .number (if n < 0 then .negInt n else .posInt n.toUInt64)

/-- `as i64`, which saturates. -/
def toI64 (bits : UInt64) : Int64 := (Float.ofBits bits).toInt64

def expectedType (propSchema : Json Number) : Text :=
  ((propSchema.get "type".toList).bind Json.asStr).getD "string".toList

/-- No letter but those of ASCII becomes one of these words in lower case. -/
def parseBool (s : Text) : Option Bool :=
  let lower := s.map Char.toLower
  if lower = "true".toList ∨ lower = "1".toList then some true
  else if lower = "false".toList ∨ lower = "0".toList then some false
  else none

def fixSingleValue (std : Std) (val propSchema : Json Number) : Option (Json Number) :=
  let expected := expectedType propSchema
  match val with
  | .string s =>
    if expected = "number".toList then (std.parseF64 s).map jsonOfF64
    else if expected = "integer".toList then (std.parseF64 s).map fun n => jsonOfI64 (toI64 n)
    else if expected = "boolean".toList then (parseBool s).map .bool
    else none
  | .number n =>
    if expected = "string".toList then some (.string (std.numberText n)) else none
  | .bool b =>
    if expected = "string".toList then
      some (.string (if b then "true".toList else "false".toList))
    else if expected = "number".toList ∨ expected = "integer".toList then
      some (.number (.posInt (if b then 1 else 0)))
    else none
  | _ => none

def fixField (std : Std) (fixed : List (Text × Json Number) × List Text)
    (property : Text × Json Number) : List (Text × Json Number) × List Text :=
  match (fixed.1.lookup property.1).bind fun value => fixSingleValue std value property.2 with
  | some value => (Members.insert property.1 value fixed.1,
      fixed.2 ++ ["fixed type mismatch for field '".toList ++ property.1 ++ "'".toList])
  | none => fixed

def fixTypeMismatchesInObject (std : Std) (args : List (Text × Json Number))
    (schema : Json Number) : List (Text × Json Number) × List Text :=
  ((schemaProperties schema).getD []).foldl (fixField std) (args, [])

/-! ## The whole repair -/

def argumentsObject (val : Json Number) : List (Text × Json Number) :=
  ((val.get "arguments".toList).bind Json.asObject).getD []

def validateAndFix (std : Std) (val : Json Number) (tool : ToolDefinition) : ToolCallResult :=
  let (val, nameFixes) := correctName tool val
  let (val, wrapperFixes) := normalizeWrapper std val
  let (val, parseFixes) := reparseArguments std val
  let (args, fillFixes) := fillRequired tool (argumentsObject val)
  let (args, typeFixes) := fixTypeMismatchesInObject std args tool.parameters
  let val := insertMember "arguments".toList (.object args) val
  let call : FunctionCall := { name := tool.name, arguments := val, raw := std.toText val }
  let fixes := nameFixes ++ wrapperFixes ++ parseFixes ++ fillFixes ++ typeFixes
  if fixes.isEmpty then .valid call else .repaired call fixes

end TribunusCompute.Tools
