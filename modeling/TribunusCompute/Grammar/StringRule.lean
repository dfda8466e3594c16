import TribunusCompute.Grammar.SchemaHelpers

/-!
# The helper rule for strings

The scanner of alternations takes the quote in `[^"]` for the beginning of a string, so
that it never sees the parenthesis closed. No text with this rule on a line parses.
-/
namespace TribunusCompute.Gbnf

/-! ## A line that does not parse -/

theorem linesFrom_append (line before after : List Char) :
    linesFrom line (before ++ '\n' :: after) =
      linesFrom line (before ++ ['\n']) ++ linesFrom [] after := by
  induction before generalizing line with
  | nil => simp [linesFrom]
  | cons ch before ih =>
    by_cases ends : ch = '\n'
    · simp [linesFrom, ends, ih]
    · simp [linesFrom, ends, ih]

def AtLineStart (before : List Char) : Prop := before = [] ∨ ∃ front, before = front ++ ['\n']

theorem lines_split {before : List Char} (start : AtLineStart before) (text : List Char) :
    lines (before ++ text) = lines before ++ lines text := by
  rcases start with rfl | ⟨front, rfl⟩
  · rfl
  · rw [List.append_assoc]
    exact linesFrom_append [] front text

theorem parseGbnf_stops {before after : List (List Char)} {line : List Char} {text : List Char}
    {stop : Stop} (split : lines text = before ++ line :: after)
    (bad : ∀ state, parseLine state line = .error stop) : ∃ stop, parseGbnf text = .error stop := by
  rw [parseGbnf, split, List.foldlM_append]
  cases before.foldlM parseLine (∅, none) with
  | error stop => exact ⟨stop, rfl⟩
  | ok state =>
    have stopped : (line :: after).foldlM parseLine state = .error stop := by
      rw [List.foldlM_cons, bad]
      rfl
    refine ⟨stop, ?_⟩
    simp only [bind, Except.bind, stopped]

theorem parseLine_string (state : Rules × Option String) :
    parseLine state ("string ::= ".toList ++ stringBody) = .error (.err "unbalanced '('") := by
  have unbalanced : parseExpression (stringBody.length + 1) stringBody =
      .error (.err "unbalanced '('") := by
    have scan : splitAlternation stringBody = .error (.err "unbalanced '('") := rfl
    have trimmed : trim stringBody = stringBody := rfl
    rw [parseExpression, trimmed, scan]
    rfl
  have trimmed : trim ("string ::= ".toList ++ stringBody) = "string ::= ".toList ++ stringBody := rfl
  have split : splitOnce "::=".toList ("string ::= ".toList ++ stringBody) =
      some ("string ".toList, ' ' :: stringBody) := rfl
  have body : trim (' ' :: stringBody) = stringBody := rfl
  rw [parseLine]
  simp only [trimmed, split, body, unbalanced]
  rfl

theorem atLineStart_linesText (lines : List Line) : AtLineStart (linesText lines) := by
  rcases lines.eq_nil_or_concat' with rfl | ⟨front, last, rfl⟩
  · exact .inl rfl
  · refine .inr ⟨linesText front ++ (last.name ++ " ::= ".toList ++ last.body), ?_⟩
    simp [linesText_concat, ruleText]

/-- The rule for strings stops the parser, wherever it stands. -/
theorem parseGbnf_string_stops {all : List Line} {line : Line} (member : line ∈ all)
    (name : line.name = "string".toList) (body : line.body = stringBody) :
    ∃ stop, parseGbnf (linesText all) = .error stop := by
  obtain ⟨before, after, rfl⟩ := List.append_of_mem member
  have text : linesText (before ++ line :: after) =
      linesText before ++ ("string ::= ".toList ++ stringBody ++ '\n' :: linesText after) := by
    simp [linesText, Line.text, ruleText, name, body]
  have oneLine : '\n' ∉ "string ::= ".toList ++ stringBody := by decide
  have split := lines_split (atLineStart_linesText before)
    ("string ::= ".toList ++ stringBody ++ '\n' :: linesText after)
  have first : lines ("string ::= ".toList ++ stringBody ++ '\n' :: linesText after) =
      ("string ::= ".toList ++ stringBody) :: lines (linesText after) :=
    linesFrom_line oneLine (by decide) [] _ (by simp)
  rw [first, ← text] at split
  exact parseGbnf_stops split parseLine_string

/-! ## Schemas with strings -/

inductive HasString : Json Number → Prop
  | here {schema : Json Number} (type : schemaType schema = .string) : HasString schema
  | part {schema inside : Json Number} (isPart : Part inside schema) (has : HasString inside) :
      HasString schema

/-- The values of an enumeration that do not look like the rule for strings. -/
def NoStringRule (toString : Json Number → Option (List Char)) (values : List (Json Number)) : Prop :=
  ∀ v ∈ values, ¬definesText "string".toList <:+: escapeJsonString (enumText toString v)

/-- No line but the rule for strings defines `string`. -/
structure StringAside (line : Line) : Prop where
  silent : Silent (· = "string".toList) line
  own : "string".toList <:+ line.name → line.name = "string".toList ∧ line.body = stringBody

section
variable {classes : Classes} {toString : Json Number → Option (List Char)} {name : List Char}
  {schema : Json Number} {lines lines' : List Line} {levels : ℕ}

theorem not_string_suffix {made : List Char} (suffixed : Suffixed made) :
    ¬"string".toList <:+ made :=
  suffixed.not_suffix (by decide)

theorem stringAside_of_scripted {line : Line} (identifier : isIdentifier line.name = true)
    (scripted : Scripted line.body) (apart : ¬"string".toList <:+ line.name) : StringAside line :=
  ⟨silent_of_scripted identifier scripted, fun suffix => absurd suffix apart⟩

theorem stringAside_lineInvariant :
    LineInvariant classes toString True (NoStringRule toString)
      (fun name => isIdentifier name = true ∧ ¬"string".toList <:+ name) StringAside where
  item named := ⟨isIdentifier_itemRuleName named.1, not_string_suffix (suffixed_itemRuleName _)⟩
  value named plain :=
    ⟨isIdentifier_subRuleName named.1 plain, not_string_suffix (suffixed_subRuleName _ _)⟩
  ws := stringAside_of_scripted rfl (scripted_closed rfl)
    (show ¬"string".toList <:+ "ws".toList by decide)
  anyObject named := stringAside_of_scripted named.1 (scripted_closed rfl) named.2
  anyArray named := stringAside_of_scripted named.1 (scripted_closed rfl) named.2
  array named := stringAside_of_scripted named.1
    (scripted_arrayBody (isIdentifier_itemRuleName named.1)) named.2
  opt {name propName} named plain := stringAside_of_scripted (isIdentifier_optRuleName named.1 plain)
    ((scripted_memberPair (isIdentifier_subRuleName named.1 plain) plain).append
      (scripted_closed rfl)) (not_string_suffix (suffixed_optRuleName name propName))
  object required properties named plain := by
    refine stringAside_of_scripted named.1 (scripted_objectBody fun member there => ?_) named.2
    obtain ⟨property, inProperties, rfl⟩ := List.mem_map.mp there
    exact scripted_memberOf named.1 (plain property inProperties) _
  leaf {name schema body node helper} named written noObject noArray leaf := by
    have aside (s : List Char) (script : s.all scriptChar = true) (node : GrammarNode) :
        StringAside ⟨name, s, node⟩ :=
      stringAside_of_scripted named.1 (scripted_closed script) named.2
    cases written with
    | string type =>
      simp only [leafOf, type, Prod.mk.injEq] at leaf
      obtain ⟨rfl, rfl, rfl⟩ := leaf
      refine ⟨aside _ rfl _, ?_⟩
      rintro _ ⟨⟩
      exact ⟨silent_of_scripted rfl (scripted_closed rfl), fun _ => ⟨rfl, rfl⟩⟩
    | integer type =>
      simp only [leafOf, type, Prod.mk.injEq] at leaf
      obtain ⟨rfl, rfl, rfl⟩ := leaf
      refine ⟨aside _ rfl _, ?_⟩
      rintro _ ⟨⟩
      exact stringAside_of_scripted rfl (scripted_closed rfl)
        (show ¬"string".toList <:+ "integer".toList by decide)
    | number type =>
      simp only [leafOf, type, Prod.mk.injEq] at leaf
      obtain ⟨rfl, rfl, rfl⟩ := leaf
      refine ⟨aside _ rfl _, ?_⟩
      rintro _ ⟨⟩
      exact stringAside_of_scripted rfl (scripted_closed rfl)
        (show ¬"string".toList <:+ "number".toList by decide)
    | boolean type | null type =>
      simp only [leafOf, type, Prod.mk.injEq] at leaf
      obtain ⟨rfl, rfl, rfl⟩ := leaf
      exact ⟨aside _ rfl _, by simp⟩
    | enumeration type some_ apart =>
      simp only [leafOf, type, some_, Prod.mk.injEq] at leaf
      obtain ⟨rfl, rfl, rfl⟩ := leaf
      -- the literals may hold any character, but not what would read as a rule for strings
      refine ⟨⟨⟨fun member => ?_, fun helper known isString => ?_⟩,
        fun suffix => absurd suffix named.2⟩,
        by simp⟩
      · exact absurd (identifierChar_of_isIdentifier named.1 _ member) (by decide)
      · subst isString
        exact not_defines_enumBody known apart
    | anyArray type => exact absurd type noArray
    | array type => exact absurd type noArray
    | anyObject type => exact absurd type noObject
    | object type => exact absurd type noObject

section
variable {step : List Char → Json Number → List Line → List Line → Prop}
  {required : List (List Char)} {properties : List (List Char × Json Number)}

theorem PropertyRun.kept (run : PropertyRun step name required properties lines lines')
    (kept : ∀ property ∈ properties, ∀ lines lines',
      step (subRuleName name property.1) property.2 lines lines' → lines <+: lines') :
    lines <+: lines' := by
  induction run with
  | nil => exact List.prefix_refl _
  | cons value _ ih =>
    refine (kept _ List.mem_cons_self _ _ value).trans ((List.prefix_append _ _).trans (ih ?_))
    exact fun property member => kept property (List.mem_cons_of_mem _ member)

theorem PropertyRun.value (run : PropertyRun step name required properties lines lines')
    (kept : ∀ property ∈ properties, ∀ lines lines',
      step (subRuleName name property.1) property.2 lines lines' → lines <+: lines')
    {property : List Char × Json Number} (member : property ∈ properties) :
    ∃ before after, step (subRuleName name property.1) property.2 before after ∧
      after <+: lines' := by
  induction run with
  | nil => cases member
  | @cons propName propSchema properties lines lines₁ lines₂ value rest ih =>
    have kept' : ∀ property ∈ properties, ∀ lines lines',
        step (subRuleName name property.1) property.2 lines lines' → lines <+: lines' :=
      fun property member => kept property (List.mem_cons_of_mem _ member)
    rcases List.mem_cons.mp member with rfl | later
    · exact ⟨lines, lines₁, value, (List.prefix_append _ _).trans (rest.kept kept')⟩
    · exact ih kept' later

end

theorem defines_more {helper : List Char} (kept : lines <+: lines')
    (found : definesText helper <:+: linesText lines) : definesText helper <:+: linesText lines' := by
  obtain ⟨more, rfl⟩ := kept
  rw [linesText_append]
  exact found.trans (List.prefix_append _ _).isInfix

theorem defines_addHelperLine (helper : Line) (lines : List Line) :
    definesText helper.name <:+: linesText (addHelperLine helper lines) := by
  unfold addHelperLine
  split
  next found => exact found
  next =>
    rw [linesText_concat]
    exact ⟨linesText lines, ' ' :: (helper.body ++ ['\n']), by simp [definesText, ruleText]⟩

/-- Where some part is a string, the rule for strings is written, or taken to be. -/
theorem HasString.defines (has : HasString schema)
    (written : Written True (NoStringRule toString) schema)
    (done : schemaLines classes toString levels name schema lines = .ok lines') :
    definesText "string".toList <:+: linesText lines' := by
  induction has generalizing levels name lines lines' with
  | here type =>
    cases levels with
    | zero => cases done
    | succ levels =>
      cases schemaLines_cases classes toString done with
      | anyObject type' => cases type.symm.trans type'
      | object type' => cases type.symm.trans type'
      | anyArray type' => cases type.symm.trans type'
      | array type' => cases type.symm.trans type'
      | leaf noObject noArray leaf =>
        simp only [leafOf, type, Prod.mk.injEq] at leaf
        obtain ⟨rfl, rfl, rfl⟩ := leaf
        exact defines_more (prefix_addHelperLine _ _)
          (defines_addHelperLine (stringLine classes) _)
  | part isPart has ih =>
    cases levels with
    | zero => cases done
    | succ levels =>
      cases schemaLines_cases classes toString done with
      | anyObject type none_ =>
        cases isPart with
        | item type' => cases type.symm.trans type'
        | property _ some_ => cases none_.symm.trans some_
      | @object properties lines₁ type some_ members =>
        cases isPart with
        | item type' => cases type.symm.trans type'
        | @property _ _ property _ some' member =>
          cases some_.symm.trans some'
          -- The rules of the property are among those of the object, which only adds to them.
          have each := written.property type some_
          obtain ⟨before, after, value, kept⟩ := (propertyLines_run members).value
            (fun property member _ _ => prefix_schemaLines (each property member).2) member
          exact defines_more (kept.trans ((List.prefix_append _ _).trans
            (prefix_addHelperLine _ _))) (ih (each property member).2 value)
      | anyArray type none_ =>
        cases isPart with
        | item _ some_ => cases none_.symm.trans some_
        | property type' => cases type.symm.trans type'
      | array type some_ item =>
        cases isPart with
        | item _ some' =>
          cases some_.symm.trans some'
          exact defines_more ((List.prefix_append _ _).trans (prefix_addHelperLine _ _))
            (ih (written.item type some_) item)
        | property type' => cases type.symm.trans type'
      | leaf noObject noArray =>
        cases isPart with
        | item type => exact absurd type noArray
        | property type => exact absurd type noObject

/-- A schema with a string in it never gives a text that parses. -/
theorem HasString.stops {text : List Char} (has : HasString schema)
    (identifier : isIdentifier name = true) (apart : ¬"string".toList <:+ name)
    (written : Written True (NoStringRule toString) schema)
    (done : jsonSchemaToGbnf toString name schema = .ok text) :
    ∃ stop, parseGbnf text = .error stop := by
  obtain ⟨lines, emitted, rfl⟩ := jsonSchemaToGbnf_lines scannedClasses toString done
  have root : StringAside (rootLine name) :=
    stringAside_of_scripted rfl (scripted_name identifier)
      (show ¬"string".toList <:+ "root".toList by decide)
  have aside := stringAside_lineInvariant.all ⟨identifier, apart⟩ written emitted (by simpa using root)
  obtain ⟨line, member, suffix⟩ := exists_of_defines (fun line member => (aside line member).silent)
    List.mem_cons_self rfl (has.defines written emitted)
  obtain ⟨same, body⟩ := (aside line member).own suffix
  exact parseGbnf_string_stops member same body

end

end TribunusCompute.Gbnf
