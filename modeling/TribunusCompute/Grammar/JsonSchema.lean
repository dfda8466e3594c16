import TribunusCompute.Grammar.Syntax

/-!
# Grammar text for a JSON schema

`json_schema_to_gbnf`: one rule for each part of a schema, written behind the rules of
its own parts, and helper rules that are written once.
-/
namespace TribunusCompute.Gbnf

/-- A JSON value, with the members of an object in the order of the map that holds them. -/
inductive Json (Num : Type)
  | null
  | bool (b : Bool)
  | number (n : Num)
  | string (s : List Char)
  | array (items : List (Json Num))
  | object (members : List (List Char × Json Num))

/-- A number as `serde_json` keeps it; a float by its bits. -/
inductive Number
  | posInt (n : UInt64)
  | negInt (n : Int64)
  | float (bits : UInt64)
  deriving DecidableEq, Repr

namespace Json
variable {Num : Type}

def get (key : List Char) : Json Num → Option (Json Num)
  | .object members => members.lookup key
  | _ => none

def asStr : Json Num → Option (List Char)
  | .string s => some s
  | _ => none

def asArray : Json Num → Option (List (Json Num))
  | .array items => some items
  | _ => none

def asObject : Json Num → Option (List (List Char × Json Num))
  | .object members => some members
  | _ => none

end Json

/-! ## What is read of a schema -/

inductive SchemaType
  | object
  | array
  | string
  | integer
  | number
  | boolean
  | null
  | other
  deriving DecidableEq, Repr

def SchemaType.ofName (name : List Char) : SchemaType :=
  if name = "object".toList then .object
  else if name = "array".toList then .array
  else if name = "string".toList then .string
  else if name = "integer".toList then .integer
  else if name = "number".toList then .number
  else if name = "boolean".toList then .boolean
  else if name = "null".toList then .null
  else .other

section
variable {Num : Type}

def schemaType (schema : Json Num) : SchemaType :=
  .ofName (((schema.get "type".toList).bind Json.asStr).getD [])

def schemaProperties (schema : Json Num) : Option (List (List Char × Json Num)) :=
  (schema.get "properties".toList).bind Json.asObject

def schemaRequired (schema : Json Num) : List (List Char) :=
  (((schema.get "required".toList).bind Json.asArray).getD []).filterMap Json.asStr

def schemaItems (schema : Json Num) : Option (Json Num) := schema.get "items".toList

def schemaEnum (schema : Json Num) : Option (List (Json Num)) :=
  (schema.get "enum".toList).bind Json.asArray

def schemaRef (schema : Json Num) : Option (List Char) :=
  (schema.get "$ref".toList).bind Json.asStr

end

/-! ## Text -/

def escapeJsonChar : Char → List Char
  | '"' => ['\\', '"']
  | '\\' => ['\\', '\\']
  | '\n' => ['\\', 'n']
  | '\t' => ['\\', 't']
  | '\r' => ['\\', 'r']
  | ch => [ch]

def escapeJsonString (s : List Char) : List Char := s.flatMap escapeJsonChar

def ruleText (name body : List Char) : List Char := name ++ " ::= ".toList ++ body ++ ['\n']

/-- What `out.contains` looks for before a helper rule is written. -/
def definesText (helper : List Char) : List Char := helper ++ " ::=".toList

/-- A helper rule, unless the text holds its name and `::=` already. -/
def addHelper (helper body out : List Char) : List Char :=
  if definesText helper <:+: out then out else out ++ ruleText helper body

def wsBody : List Char := "[ \\t\\n]*".toList
def stringBody : List Char := "\"\\\"\" ([^\"]*) \"\\\"\"".toList
def integerBody : List Char := "(\"-\" | \"\") [0-9]+".toList
def numberBody : List Char := "(\"-\" | \"\") [0-9]+ (\".\" [0-9]+)?".toList
def anyBody : List Char :=
  "string | number | \"true\" | \"false\" | \"null\" | \"[\" ws \"]\" | \"\x7b\" ws \"\x7d\"".toList
def anyObjectBody : List Char := "\"\x7b\" ws \"\x7d\"".toList
def emptyObjectBody : List Char := "\"\x7b\x7d\"".toList
def anyArrayBody : List Char := "\"[\" ws \"]\"".toList
def booleanBody : List Char := "\"true\" | \"false\"".toList
def nullBody : List Char := "\"null\"".toList

def arrayBody (itemRule : List Char) : List Char :=
  "\"[\" ws (".toList ++ itemRule ++ " (\",\" ws ".toList ++ itemRule ++ ")*) ws \"]\"".toList

/-- One member of an object. Its name is a literal of the grammar: the quotes around it are the
grammar's own. -/
def memberPair (propName subRuleName : List Char) : List Char :=
  " \"".toList ++ escapeJsonString propName ++ "\" ws \":\" ws ".toList ++ subRuleName ++ [' ']

def optionalBody (pair : List Char) : List Char := pair ++ " | \"\"".toList

def objectBody (addedPropNames : List (List Char)) : List Char :=
  if addedPropNames.isEmpty then emptyObjectBody
  else
    "\"\x7b\" ws ".toList ++ List.intercalate " \",\" ws ".toList addedPropNames ++
      " \"\x7d\"".toList

def itemRuleName (name : List Char) : List Char := name ++ "_item".toList
def subRuleName (name propName : List Char) : List Char :=
  '_' :: (name ++ '_' :: propName ++ "_value".toList)
def optRuleName (name propName : List Char) : List Char :=
  '_' :: (name ++ '_' :: propName ++ "_opt".toList)

section
variable (toString : Json Number → Option (List Char))

def enumBody (values : List (Json Number)) : List Char :=
  List.intercalate " | ".toList (values.map fun v =>
    '"' :: (escapeJsonString ((toString v).getD "null".toList) ++ ['"']))

/-- The rules of the properties, in the order of the map; with what the rule of the object
holds for each. -/
def emitProperties (emit : List Char → Json Number → List Char → Except String (List Char))
    (name : List Char) (required : List (List Char)) :
    List (List Char × Json Number) → List Char → Except String (List Char × List (List Char))
  | [], out => .ok (out, [])
  | (propName, propSchema) :: properties, out => do
    let out ← emit (subRuleName name propName) propSchema out
    let pair := memberPair propName (subRuleName name propName)
    if propName ∈ required then
      let (out, added) ← emitProperties emit name required properties out
      return (out, pair :: added)
    else
      let optName := optRuleName name propName
      let (out, added) ← emitProperties emit name required properties
        (out ++ ruleText optName (optionalBody pair))
      return (out, optName :: added)

/-- `levels` is what is left of the depth, `21 - depth`. -/
def jsonSchemaEmitRule : ℕ → List Char → Json Number → List Char → Except String (List Char)
  | 0, _, _, _ => .error "json schema nesting too deep (>20)"
  | levels + 1, name, schema, out =>
    match schemaType schema with
    | .object =>
      match schemaProperties schema with
      | none => .ok (out ++ ruleText name anyObjectBody) -- no `ws` rule
      | some properties => do
        let (out, added) ← emitProperties (jsonSchemaEmitRule levels) name (schemaRequired schema)
          properties out
        return addHelper "ws".toList wsBody (out ++ ruleText name (objectBody added))
    | .array =>
      match schemaItems schema with
      | some itemSchema => do
        let out ← jsonSchemaEmitRule levels (itemRuleName name) itemSchema out
        return addHelper "ws".toList wsBody
          (out ++ ruleText name (arrayBody (itemRuleName name)))
      | none => .ok (addHelper "ws".toList wsBody (out ++ ruleText name anyArrayBody))
    | .string =>
      .ok (addHelper "ws".toList wsBody
        (addHelper "string".toList stringBody (out ++ ruleText name "string".toList)))
    | .integer =>
      .ok (addHelper "ws".toList wsBody
        (addHelper "integer".toList integerBody (out ++ ruleText name "integer".toList)))
    | .number =>
      .ok (addHelper "ws".toList wsBody
        (addHelper "number".toList numberBody (out ++ ruleText name "number".toList)))
    | .boolean => .ok (addHelper "ws".toList wsBody (out ++ ruleText name booleanBody))
    | .null => .ok (addHelper "ws".toList wsBody (out ++ ruleText name nullBody))
    | .other =>
      match schemaEnum schema, schemaRef schema with
      | some values, _ =>
        .ok (addHelper "ws".toList wsBody (out ++ ruleText name (enumBody toString values)))
      | none, some _ => .ok (addHelper "ws".toList wsBody (out ++ ruleText name "string".toList))
      | none, none =>
        .ok (addHelper "ws".toList wsBody
          (addHelper "any".toList anyBody (out ++ ruleText name "any".toList)))

def jsonSchemaToGbnf (name : List Char) (schema : Json Number) : Except String (List Char) :=
  jsonSchemaEmitRule toString 21 name schema (ruleText "root".toList name)

end

end TribunusCompute.Gbnf
