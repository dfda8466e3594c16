import TribunusCompute.Grammar.JsonSchema

/-!
# The rules for a JSON schema

The text of `json_schema_to_gbnf`, line by line, with what each line says. What a class
stands for is left to who reads the text.
-/
namespace TribunusCompute.Gbnf

open Failures

structure Line where
  name : List Char
  body : List Char
  node : GrammarNode

def Line.text (line : Line) : List Char := ruleText line.name line.body

def linesText (lines : List Line) : List Char := lines.flatMap Line.text

def Line.rule (line : Line) : String × GrammarNode := (String.ofList line.name, line.node)

theorem linesText_append (before after : List Line) :
    linesText (before ++ after) = linesText before ++ linesText after := List.flatMap_append

theorem linesText_concat (lines : List Line) (line : Line) :
    linesText (lines ++ [line]) = linesText lines ++ ruleText line.name line.body := by
  rw [linesText_append]
  exact congrArg (linesText lines ++ ·) (List.append_nil _)

/-- The nodes of the classes in the helper rules. -/
structure Classes where
  /-- `[ \t\n]` -/
  blank : GrammarNode
  /-- `[0-9]` -/
  digit : GrammarNode
  /-- `[^"]` -/
  unquoted : GrammarNode

structure Member where
  text : List Char
  nodes : List GrammarNode

def refNode (name : List Char) : GrammarNode := .ref (String.ofList name)

def anyObjectNode : GrammarNode := .seq [.lit "\x7b", .ref "ws", .lit "\x7d"]
def anyArrayNode : GrammarNode := .seq [.lit "[", .ref "ws", .lit "]"]
def booleanNode : GrammarNode := .alt [.lit "true", .lit "false"]

def arrayNode (itemRule : List Char) : GrammarNode :=
  .seq [.lit "[", .ref "ws",
    .seq [refNode itemRule, .star (.seq [.lit ",", .ref "ws", refNode itemRule])],
    .ref "ws", .lit "]"]

def memberNodes (propName subRuleName : List Char) : List GrammarNode :=
  [.lit (String.ofList propName), .ref "ws", .lit ":", .ref "ws", refNode subRuleName]

def optionalNode (propName subRuleName : List Char) : GrammarNode :=
  .alt [.seq (memberNodes propName subRuleName), .lit ""]

/-- The members, with a comma and `ws` between one and the next. -/
def joinMembers : List Member → List GrammarNode
  | [] => []
  | [member] => member.nodes
  | member :: members => member.nodes ++ .lit "," :: .ref "ws" :: joinMembers members

def objectNode (members : List Member) : GrammarNode :=
  if members.isEmpty then .lit "\x7b\x7d"
  else .seq (.lit "\x7b" :: .ref "ws" :: (joinMembers members ++ [.lit "\x7d"]))

section
variable (classes : Classes)

def wsLine : Line := ⟨"ws".toList, wsBody, .star classes.blank⟩

def stringLine : Line :=
  ⟨"string".toList, stringBody, .seq [.lit "\"", .star classes.unquoted, .lit "\""]⟩

def signNode : GrammarNode := .alt [.lit "-", .lit ""]

def integerLine : Line :=
  ⟨"integer".toList, integerBody, .seq [signNode, .plus classes.digit]⟩

def numberLine : Line :=
  ⟨"number".toList, numberBody,
    .seq [signNode, .plus classes.digit, .opt (.seq [.lit ".", .plus classes.digit])]⟩

def anyLine : Line :=
  ⟨"any".toList, anyBody,
    .alt [.ref "string", .ref "number", .lit "true", .lit "false", .lit "null", anyArrayNode,
      anyObjectNode]⟩

def addHelperLine (helper : Line) (lines : List Line) : List Line :=
  if definesText helper.name <:+: linesText lines then lines else lines ++ [helper]

theorem linesText_addHelperLine (helper : Line) (lines : List Line) :
    linesText (addHelperLine helper lines) =
      addHelper helper.name helper.body (linesText lines) := by
  unfold addHelperLine addHelper
  split
  next => rfl
  next => exact linesText_concat lines helper

variable (toString : Json Number → Option (List Char))

def enumText (v : Json Number) : List Char := (toString v).getD "null".toList

/-- The rule of a schema without parts, and the helper rule that it refers to. -/
def leafOf (schema : Json Number) : List Char × GrammarNode × Option Line :=
  match schemaType schema with
  | .string => ("string".toList, .ref "string", some (stringLine classes))
  | .integer => ("integer".toList, .ref "integer", some (integerLine classes))
  | .number => ("number".toList, .ref "number", some (numberLine classes))
  | .boolean => (booleanBody, booleanNode, none)
  | .null => (nullBody, .lit "null", none)
  | _ =>
    match schemaEnum schema, schemaRef schema with
    | some values, _ =>
      (enumBody toString values,
        altNode (values.map fun v => .lit (String.ofList (enumText toString v))), none)
    | none, some _ => ("string".toList, .ref "string", none)
    | none, none => ("any".toList, .ref "any", some anyLine)

def addHelperLine? : Option Line → List Line → List Line
  | none, lines => lines
  | some helper, lines => addHelperLine helper lines

def memberOf (name propName : List Char) (isRequired : Bool) : Member :=
  if isRequired then
    ⟨memberPair propName (subRuleName name propName), memberNodes propName (subRuleName name propName)⟩
  else ⟨optRuleName name propName, [refNode (optRuleName name propName)]⟩

def optLine (name propName : List Char) : Line :=
  ⟨optRuleName name propName, optionalBody (memberPair propName (subRuleName name propName)),
    optionalNode propName (subRuleName name propName)⟩

def optLines (name propName : List Char) (isRequired : Bool) : List Line :=
  if isRequired then [] else [optLine name propName]

def propertyLines (emit : List Char → Json Number → List Line → Except String (List Line))
    (name : List Char) (required : List (List Char)) :
    List (List Char × Json Number) → List Line → Except String (List Line)
  | [], lines => .ok lines
  | (propName, propSchema) :: properties, lines => do
    let lines ← emit (subRuleName name propName) propSchema lines
    propertyLines emit name required properties
      (lines ++ optLines name propName (propName ∈ required))

def membersOf (name : List Char) (required : List (List Char))
    (properties : List (List Char × Json Number)) : List Member :=
  properties.map fun property => memberOf name property.1 (property.1 ∈ required)

def objectLine (name : List Char) (members : List Member) : Line :=
  ⟨name, objectBody (members.map Member.text), objectNode members⟩

def arrayLine (name : List Char) : Line :=
  ⟨name, arrayBody (itemRuleName name), arrayNode (itemRuleName name)⟩

/-- The lines of `json_schema_emit_rule`, behind those that are there. -/
def schemaLines : ℕ → List Char → Json Number → List Line → Except String (List Line)
  | 0, _, _, _ => .error "json schema nesting too deep (>20)"
  | levels + 1, name, schema, lines =>
    match schemaType schema with
    | .object =>
      match schemaProperties schema with
      | none => .ok (lines ++ [⟨name, anyObjectBody, anyObjectNode⟩])
      | some properties => do
        let lines ← propertyLines (schemaLines levels) name (schemaRequired schema) properties lines
        return addHelperLine (wsLine classes)
          (lines ++ [objectLine name (membersOf name (schemaRequired schema) properties)])
    | .array =>
      match schemaItems schema with
      | some itemSchema => do
        let lines ← schemaLines levels (itemRuleName name) itemSchema lines
        return addHelperLine (wsLine classes) (lines ++ [arrayLine name])
      | none =>
        .ok (addHelperLine (wsLine classes) (lines ++ [⟨name, anyArrayBody, anyArrayNode⟩]))
    | _ =>
      let (body, node, helper) := leafOf classes toString schema
      .ok (addHelperLine (wsLine classes) (addHelperLine? helper (lines ++ [⟨name, body, node⟩])))

def rootLine (name : List Char) : Line := ⟨"root".toList, name, refNode name⟩

/-! ## The lines make the text -/

theorem emitProperties_lines
    {emit : List Char → Json Number → List Line → Except String (List Line)}
    {emitText : List Char → Json Number → List Char → Except String (List Char)}
    (same : ∀ name schema lines,
      emitText name schema (linesText lines) = (emit name schema lines).map linesText)
    (name : List Char) (required : List (List Char)) (properties : List (List Char × Json Number))
    (lines : List Line) :
    emitProperties emitText name required properties (linesText lines) =
      (propertyLines emit name required properties lines).map fun lines =>
        (linesText lines, (membersOf name required properties).map Member.text) := by
  induction properties generalizing lines with
  | nil => rfl
  | cons property properties ih =>
    obtain ⟨propName, propSchema⟩ := property
    rw [emitProperties, propertyLines, same]
    cases emit (subRuleName name propName) propSchema lines with
    | error message => rfl
    | ok lines =>
      simp only [Except.map, bind, Except.bind]
      by_cases isRequired : propName ∈ required
      · simp only [isRequired, decide_true, optLines, if_true, List.append_nil, ih]
        cases propertyLines emit name required properties lines with
        | error message => rfl
        | ok lines => simp [Except.map, membersOf, memberOf, isRequired, pure, Except.pure]
      · have line : linesText lines ++ ruleText (optRuleName name propName)
            (optionalBody (memberPair propName (subRuleName name propName))) =
              linesText (lines ++ [optLine name propName]) :=
          (linesText_concat lines (optLine name propName)).symm
        simp only [isRequired, decide_false, optLines, if_false, line, ih, Bool.false_eq_true]
        cases propertyLines emit name required properties (lines ++ [optLine name propName]) with
        | error message => rfl
        | ok lines => simp [Except.map, membersOf, memberOf, isRequired, pure, Except.pure]

theorem jsonSchemaEmitRule_lines (levels : ℕ) (name : List Char) (schema : Json Number)
    (lines : List Line) :
    jsonSchemaEmitRule toString levels name schema (linesText lines) =
      (schemaLines classes toString levels name schema lines).map linesText := by
  induction levels generalizing name schema lines with
  | zero => rfl
  | succ levels ih =>
    have line (lines : List Line) (body : List Char) (node : GrammarNode) :
        linesText (lines ++ [⟨name, body, node⟩]) = linesText lines ++ ruleText name body :=
      linesText_concat lines ⟨name, body, node⟩
    -- every branch ends with its own line, and then a helper line that is not there yet
    unfold jsonSchemaEmitRule schemaLines
    cases type : schemaType schema with
    | object =>
      cases schemaProperties schema with
      | none => exact congrArg Except.ok (line ..).symm
      | some properties =>
        simp only [emitProperties_lines ih]
        cases propertyLines (schemaLines classes toString levels) name (schemaRequired schema)
          properties lines with
        | error message => rfl
        | ok lines =>
          refine congrArg Except.ok ?_
          rw [linesText_addHelperLine]
          exact congrArg (addHelper _ _) (line ..).symm
    | array =>
      cases schemaItems schema with
      | none =>
        refine congrArg Except.ok ?_
        rw [linesText_addHelperLine]
        exact congrArg (addHelper _ _) (line ..).symm
      | some itemSchema =>
        simp only [ih]
        cases schemaLines classes toString levels (itemRuleName name) itemSchema lines with
        | error message => rfl
        | ok lines =>
          refine congrArg Except.ok ?_
          rw [linesText_addHelperLine]
          exact congrArg (addHelper _ _) (line ..).symm
    | other =>
      simp only [leafOf, type]
      cases schemaEnum schema with
      | some values => simp only [Except.map, linesText_addHelperLine, addHelperLine?, line]; rfl
      | none =>
        cases schemaRef schema with
        | some ref => simp only [Except.map, linesText_addHelperLine, addHelperLine?, line]; rfl
        | none => simp only [Except.map, linesText_addHelperLine, addHelperLine?, line]; rfl
    | _ => simp only [leafOf, type, Except.map, linesText_addHelperLine, addHelperLine?, line]; rfl

theorem jsonSchemaToGbnf_lines {name : List Char} {schema : Json Number} {text : List Char}
    (done : jsonSchemaToGbnf toString name schema = .ok text) :
    ∃ lines, schemaLines classes toString 21 name schema [rootLine name] = .ok lines ∧
      text = linesText lines := by
  have root : ruleText "root".toList name = linesText [rootLine name] := (List.append_nil _).symm
  rw [jsonSchemaToGbnf, root, jsonSchemaEmitRule_lines classes] at done
  cases emitted : schemaLines classes toString 21 name schema [rootLine name] with
  | error message =>
    rw [emitted] at done
    cases done
  | ok lines =>
    rw [emitted] at done
    exact ⟨lines, rfl, (Except.ok.inj done).symm⟩

/-! ## What a call writes -/

/-- The ways a call can go, with what its calls for the parts are left to `emit`. -/
inductive Emitted (emit : List Char → Json Number → List Line → Except String (List Line))
    (name : List Char) (schema : Json Number) (lines : List Line) : List Line → Prop
  | anyObject (type : schemaType schema = .object) (none_ : schemaProperties schema = none) :
      Emitted emit name schema lines (lines ++ [⟨name, anyObjectBody, anyObjectNode⟩])
  | object {properties : List (List Char × Json Number)} {lines' : List Line}
      (type : schemaType schema = .object) (some_ : schemaProperties schema = some properties)
      (members : propertyLines emit name (schemaRequired schema) properties lines = .ok lines') :
      Emitted emit name schema lines (addHelperLine (wsLine classes)
        (lines' ++ [objectLine name (membersOf name (schemaRequired schema) properties)]))
  | anyArray (type : schemaType schema = .array) (none_ : schemaItems schema = none) :
      Emitted emit name schema lines
        (addHelperLine (wsLine classes) (lines ++ [⟨name, anyArrayBody, anyArrayNode⟩]))
  | array {itemSchema : Json Number} {lines' : List Line} (type : schemaType schema = .array)
      (some_ : schemaItems schema = some itemSchema)
      (item : emit (itemRuleName name) itemSchema lines = .ok lines') :
      Emitted emit name schema lines
        (addHelperLine (wsLine classes) (lines' ++ [arrayLine name]))
  | leaf {body : List Char} {node : GrammarNode} {helper : Option Line}
      (noObject : schemaType schema ≠ .object) (noArray : schemaType schema ≠ .array)
      (leaf : leafOf classes toString schema = (body, node, helper)) :
      Emitted emit name schema lines
        (addHelperLine (wsLine classes) (addHelperLine? helper (lines ++ [⟨name, body, node⟩])))

theorem schemaLines_cases {levels : ℕ} {name : List Char} {schema : Json Number}
    {lines lines' : List Line}
    (done : schemaLines classes toString (levels + 1) name schema lines = .ok lines') :
    Emitted classes toString (schemaLines classes toString levels) name schema lines lines' := by
  rw [schemaLines] at done
  split at done
  next type =>
    split at done
    next none_ =>
      cases done
      exact .anyObject type none_
    next properties some_ =>
      obtain ⟨lines'', members, last⟩ := bind_ok done
      cases last
      exact .object type some_ members
  next type =>
    split at done
    next itemSchema some_ =>
      obtain ⟨lines'', item, last⟩ := bind_ok done
      cases last
      exact .array type some_ item
    next none_ =>
      cases done
      exact .anyArray type none_
  next noObject noArray =>
    cases done
    exact .leaf noObject noArray rfl

variable {classes toString}

theorem prefix_addHelperLine (helper : Line) (lines : List Line) :
    lines <+: addHelperLine helper lines := by
  unfold addHelperLine
  split
  next => exact List.prefix_refl _
  next => exact List.prefix_append _ _

theorem prefix_addHelperLine? (helper : Option Line) (lines : List Line) :
    lines <+: addHelperLine? helper lines := by
  cases helper with
  | none => exact List.prefix_refl _
  | some helper => exact prefix_addHelperLine helper lines

/-- The properties one after the other, each as `step` goes. -/
inductive PropertyRun (step : List Char → Json Number → List Line → List Line → Prop)
    (name : List Char) (required : List (List Char)) :
    List (List Char × Json Number) → List Line → List Line → Prop
  | nil {lines : List Line} : PropertyRun step name required [] lines lines
  | cons {propName : List Char} {propSchema : Json Number}
      {properties : List (List Char × Json Number)} {lines lines' lines'' : List Line}
      (value : step (subRuleName name propName) propSchema lines lines')
      (rest : PropertyRun step name required properties
        (lines' ++ optLines name propName (propName ∈ required)) lines'') :
      PropertyRun step name required ((propName, propSchema) :: properties) lines lines''

theorem propertyLines_run
    {emit : List Char → Json Number → List Line → Except String (List Line)} {name : List Char}
    {required : List (List Char)} {properties : List (List Char × Json Number)}
    {lines lines' : List Line}
    (done : propertyLines emit name required properties lines = .ok lines') :
    PropertyRun (fun name schema lines lines' => emit name schema lines = .ok lines') name required
      properties lines lines' := by
  induction properties generalizing lines with
  | nil =>
    cases done
    exact .nil
  | cons property properties ih =>
    obtain ⟨lines'', value, rest⟩ := bind_ok done
    exact .cons value (ih rest)

end

/-! ## The schemas that are written -/

def PlainName (propName : List Char) : Prop := ∀ ch ∈ propName, identifierChar ch = true

theorem PlainName.ends {propName : List Char} (plain : PlainName propName) :
    propName.getLast? ≠ some '\\' := by
  intro last
  have := plain _ (List.mem_of_mem_getLast? last)
  cases this

/-- A schema of the known types, whose property names can stand in rule names; with strings, and
with which enumerations. -/
inductive Written (strings : Prop) (enums : List (Json Number) → Prop) : Json Number → Prop
  | string {schema : Json Number} (type : schemaType schema = .string) (allowed : strings) :
      Written strings enums schema
  | integer {schema : Json Number} (type : schemaType schema = .integer) :
      Written strings enums schema
  | number {schema : Json Number} (type : schemaType schema = .number) :
      Written strings enums schema
  | boolean {schema : Json Number} (type : schemaType schema = .boolean) :
      Written strings enums schema
  | null {schema : Json Number} (type : schemaType schema = .null) : Written strings enums schema
  | enumeration {schema : Json Number} {values : List (Json Number)}
      (type : schemaType schema = .other) (some_ : schemaEnum schema = some values)
      (allowed : enums values) : Written strings enums schema
  | anyArray {schema : Json Number} (type : schemaType schema = .array)
      (none_ : schemaItems schema = none) : Written strings enums schema
  | array {schema itemSchema : Json Number} (type : schemaType schema = .array)
      (some_ : schemaItems schema = some itemSchema) (item : Written strings enums itemSchema) :
      Written strings enums schema
  | anyObject {schema : Json Number} (type : schemaType schema = .object)
      (none_ : schemaProperties schema = none) : Written strings enums schema
  | object {schema : Json Number} {properties : List (List Char × Json Number)}
      (type : schemaType schema = .object) (some_ : schemaProperties schema = some properties)
      (plain : ∀ property ∈ properties, PlainName property.1)
      (values : ∀ property ∈ properties, Written strings enums property.2) :
      Written strings enums schema

section
variable {strings : Prop} {enums : List (Json Number) → Prop} {schema : Json Number}

theorem Written.item (written : Written strings enums schema)
    (type : schemaType schema = .array) {itemSchema : Json Number}
    (some_ : schemaItems schema = some itemSchema) : Written strings enums itemSchema := by
  cases written with
  | array _ some' item =>
    cases some_.symm.trans some'
    exact item
  | anyArray _ none_ => cases some_.symm.trans none_
  | _ type' => cases type.symm.trans type'

theorem Written.property (written : Written strings enums schema)
    (type : schemaType schema = .object) {properties : List (List Char × Json Number)}
    (some_ : schemaProperties schema = some properties) :
    ∀ property ∈ properties, PlainName property.1 ∧ Written strings enums property.2 := by
  cases written with
  | object _ some' plain values =>
    cases some_.symm.trans some'
    exact fun property member => ⟨plain property member, values property member⟩
  | anyObject _ none_ => cases some_.symm.trans none_
  | _ type' => cases type.symm.trans type'

end

/-! ## Names -/

theorem isIdentifier_append {name more : List Char} (identifier : isIdentifier name = true)
    (plain : PlainName more) : isIdentifier (name ++ more) = true := by
  cases name with
  | nil => cases identifier
  | cons first rest =>
    simp only [List.cons_append, isIdentifier, List.all_append, Bool.and_eq_true] at identifier ⊢
    exact ⟨identifier.1, identifier.2, List.all_eq_true.mpr plain⟩

theorem isIdentifier_underscore {more : List Char} (plain : PlainName more) :
    isIdentifier ('_' :: more) = true := by
  simp only [isIdentifier, Bool.and_eq_true]
  exact ⟨rfl, List.all_eq_true.mpr plain⟩

section
variable {name propName : List Char} (identifier : isIdentifier name = true)
include identifier

theorem isIdentifier_itemRuleName : isIdentifier (itemRuleName name) = true :=
  isIdentifier_append identifier (forall_chars (by decide))

theorem plainName_property (plain : PlainName propName) {suffix : List Char}
    (plain' : PlainName suffix) : PlainName (name ++ '_' :: propName ++ suffix) := by
  intro ch member
  simp only [List.mem_append, List.mem_cons] at member
  rcases member with (inName | rfl | inProp) | inSuffix
  · exact identifierChar_of_isIdentifier identifier ch inName
  · rfl
  · exact plain ch inProp
  · exact plain' ch inSuffix

theorem isIdentifier_subRuleName (plain : PlainName propName) :
    isIdentifier (subRuleName name propName) = true :=
  isIdentifier_underscore (plainName_property identifier plain (forall_chars (by decide)))

theorem isIdentifier_optRuleName (plain : PlainName propName) :
    isIdentifier (optRuleName name propName) = true :=
  isIdentifier_underscore (plainName_property identifier plain (forall_chars (by decide)))

end

/-! ## Every line -/

def Adds (P : Line → Prop) (lines lines' : List Line) : Prop :=
  ∃ new, lines' = lines ++ new ∧ ∀ line ∈ new, P line

section
variable {P Q : Line → Prop} {lines lines' lines'' : List Line}

theorem adds_none : Adds P lines lines := ⟨[], by simp, by simp⟩

theorem adds_line {line : Line} (new : P line) : Adds P lines (lines ++ [line]) :=
  ⟨[line], rfl, by simpa using new⟩

theorem adds_helper {helper : Line} (new : P helper) :
    Adds P lines (addHelperLine helper lines) := by
  unfold addHelperLine
  split
  next => exact adds_none
  next => exact adds_line new

theorem adds_helper? {helper : Option Line} (new : ∀ line ∈ helper, P line) :
    Adds P lines (addHelperLine? helper lines) := by
  cases helper with
  | none => exact adds_none
  | some helper => exact adds_helper (new helper rfl)

theorem adds_optLines {name propName : List Char} {isRequired : Bool}
    (new : P (optLine name propName)) : Adds P lines (lines ++ optLines name propName isRequired) := by
  cases isRequired with
  | true => exact ⟨[], rfl, by simp⟩
  | false => exact adds_line new

theorem Adds.trans (first : Adds P lines lines') (rest : Adds P lines' lines'') :
    Adds P lines lines'' := by
  obtain ⟨new, rfl, all⟩ := first
  obtain ⟨new', rfl, all'⟩ := rest
  refine ⟨new ++ new', List.append_assoc .., fun line member => ?_⟩
  rcases List.mem_append.mp member with member | member
  · exact all line member
  · exact all' line member

theorem Adds.mono (adds : Adds P lines lines') (weaken : ∀ line, P line → Q line) :
    Adds Q lines lines' := by
  obtain ⟨new, same, all⟩ := adds
  exact ⟨new, same, fun line member => weaken line (all line member)⟩

theorem Adds.kept (adds : Adds P lines lines') : lines <+: lines' := by
  obtain ⟨new, rfl, -⟩ := adds
  exact List.prefix_append _ _

theorem Adds.forall (adds : Adds P lines lines') (known : ∀ line ∈ lines, P line) :
    ∀ line ∈ lines', P line := by
  obtain ⟨new, rfl, all⟩ := adds
  intro line member
  rcases List.mem_append.mp member with member | member
  · exact known line member
  · exact all line member

end

/-- What holds of each kind of line, whatever the schema, where it is written for such a name. -/
structure LineInvariant (classes : Classes) (toString : Json Number → Option (List Char))
    (strings : Prop) (enums : List (Json Number) → Prop) (names : List Char → Prop)
    (P : Line → Prop) : Prop where
  item : ∀ {name}, names name → names (itemRuleName name)
  value : ∀ {name propName}, names name → PlainName propName → names (subRuleName name propName)
  ws : P (wsLine classes)
  anyObject : ∀ {name}, names name → P ⟨name, anyObjectBody, anyObjectNode⟩
  anyArray : ∀ {name}, names name → P ⟨name, anyArrayBody, anyArrayNode⟩
  array : ∀ {name}, names name → P (arrayLine name)
  opt : ∀ {name propName}, names name → PlainName propName → P (optLine name propName)
  object : ∀ {name} (required : List (List Char)) {properties : List (List Char × Json Number)},
    names name → (∀ property ∈ properties, PlainName property.1) →
    P (objectLine name (membersOf name required properties))
  leaf : ∀ {name schema body node helper}, names name →
    Written strings enums schema → schemaType schema ≠ .object → schemaType schema ≠ .array →
    leafOf classes toString schema = (body, node, helper) →
    P ⟨name, body, node⟩ ∧ ∀ line ∈ helper, P line

section
variable {classes : Classes} {toString : Json Number → Option (List Char)} {strings : Prop}
  {enums : List (Json Number) → Prop} {names : List Char → Prop} {P : Line → Prop} {levels : ℕ}
  {name : List Char} {schema : Json Number} {lines lines' : List Line}

theorem LineInvariant.adds (inv : LineInvariant classes toString strings enums names P)
    (named : names name) (written : Written strings enums schema)
    (done : schemaLines classes toString levels name schema lines = .ok lines') :
    Adds P lines lines' := by
  induction levels generalizing name schema lines lines' with
  | zero => cases done
  | succ levels ih =>
    cases schemaLines_cases classes toString done with
    | anyObject => exact adds_line (inv.anyObject named)
    | @object properties lines' type some_ members =>
      have each := written.property type some_
      have run := propertyLines_run members
      have inside : Adds P lines lines' := by
        clear members some_ done
        generalize schemaRequired schema = required at run
        induction run with
        | nil => exact adds_none
        | @cons propName propSchema properties lines lines' lines'' value _ ih' =>
          obtain ⟨plain, written'⟩ := each _ List.mem_cons_self
          have values := ih (inv.value named plain) written' value
          have rest := ih' fun property member => each property (List.mem_cons_of_mem _ member)
          exact values.trans ((adds_optLines (inv.opt named plain)).trans rest)
      have own := inv.object (schemaRequired schema) named
        fun property member => (each property member).1
      exact inside.trans ((adds_line own).trans (adds_helper inv.ws))
    | anyArray => exact (adds_line (inv.anyArray named)).trans (adds_helper inv.ws)
    | array type some_ item =>
      have inside := ih (inv.item named) (written.item type some_) item
      exact inside.trans ((adds_line (inv.array named)).trans (adds_helper inv.ws))
    | @leaf body node helper noObject noArray leaf =>
      obtain ⟨line, helper_⟩ := inv.leaf named written noObject noArray leaf
      exact (adds_line line).trans ((adds_helper? helper_).trans (adds_helper inv.ws))

theorem LineInvariant.all (inv : LineInvariant classes toString strings enums names P)
    (named : names name) (written : Written strings enums schema)
    (done : schemaLines classes toString levels name schema lines = .ok lines')
    (known : ∀ line ∈ lines, P line) : ∀ line ∈ lines', P line :=
  (inv.adds named written done).forall known

theorem prefix_schemaLines (written : Written strings enums schema)
    (done : schemaLines classes toString levels name schema lines = .ok lines') :
    lines <+: lines' := by
  have any : LineInvariant classes toString strings enums (fun _ => True) (fun _ => True) := by
    constructor <;> simp
  exact (any.adds trivial written done).kept

end

end TribunusCompute.Gbnf
