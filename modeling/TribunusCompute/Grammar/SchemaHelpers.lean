import TribunusCompute.Grammar.References
import TribunusCompute.Grammar.Scanners
import TribunusCompute.Grammar.SchemaReading

/-!
# The helper rules of a JSON schema

A helper rule is written unless its name and `::=` are found in the text. Which rules
the lines for a schema refer to, and that those are there where no name is taken for a
helper rule's.
-/
namespace TribunusCompute.Gbnf

/-! ## Where a pattern occurs -/

section
variable {α : Type} {pattern a b : List α} {c : α}

theorem prefix_of_append_cons (absent : c ∉ pattern) (found : pattern <+: a ++ c :: b) :
    pattern <+: a := by
  induction a generalizing pattern with
  | nil =>
    cases pattern with
    | nil => exact List.nil_prefix
    | cons first pattern =>
      obtain ⟨rfl, -⟩ := List.cons_prefix_cons.mp found
      exact absurd List.mem_cons_self absent
  | cons x a ih =>
    cases pattern with
    | nil => exact List.nil_prefix
    | cons first pattern =>
      obtain ⟨rfl, rest⟩ := List.cons_prefix_cons.mp found
      exact List.cons_prefix_cons.mpr ⟨rfl, ih (fun member => absent (List.mem_cons_of_mem _ member)) rest⟩

/-- A pattern without the separator lies on one side of it. -/
theorem infix_of_append_cons (absent : c ∉ pattern) (found : pattern <:+: a ++ c :: b) :
    pattern <:+: a ∨ pattern <:+: b := by
  induction a with
  | nil =>
    rcases List.infix_cons_iff.mp found with front | later
    · exact .inl (prefix_of_append_cons absent front).isInfix
    · exact .inr later
  | cons x a ih =>
    rcases List.infix_cons_iff.mp found with front | later
    · exact .inl (prefix_of_append_cons absent front).isInfix
    · rcases ih later with left | right
      · exact .inl (List.infix_cons_iff.mpr (.inr left))
      · exact .inr right

theorem append_cons_inj {a' b' : List α} (absent : c ∉ a) (absent' : c ∉ a')
    (same : a ++ c :: b = a' ++ c :: b') : a = a' ∧ b = b' := by
  induction a generalizing a' with
  | nil =>
    cases a' with
    | nil => exact ⟨rfl, (List.cons.inj same).2⟩
    | cons x a' =>
      obtain ⟨rfl, -⟩ := List.cons.inj same
      exact absurd List.mem_cons_self absent'
  | cons x a ih =>
    cases a' with
    | nil =>
      obtain ⟨rfl, -⟩ := List.cons.inj same
      exact absurd List.mem_cons_self absent
    | cons y a' =>
      obtain ⟨rfl, rest⟩ := List.cons.inj same
      obtain ⟨rfl, rfl⟩ := ih (fun member => absent (List.mem_cons_of_mem _ member))
        (fun member => absent' (List.mem_cons_of_mem _ member)) rest
      exact ⟨rfl, rfl⟩

end

theorem definesText_split {helper name rest : List Char} (plain : ' ' ∉ helper)
    (plain' : ' ' ∉ name) (found : definesText helper <:+: name ++ ' ' :: rest) :
    helper <:+ name ∨ definesText helper <:+: rest := by
  obtain ⟨before, after, same⟩ := found
  by_cases inBefore : ' ' ∈ before
  · obtain ⟨front, more, rfl, absent⟩ := List.eq_append_cons_of_mem inBefore
    rw [List.append_assoc, List.append_assoc, List.cons_append] at same
    obtain ⟨-, rfl⟩ := append_cons_inj absent plain' same
    exact .inr ⟨more, after, by simp⟩
  · have absent : ' ' ∉ before ++ helper := by simp [inBefore, plain]
    have same' : before ++ helper ++ ' ' :: ("::=".toList ++ after) = name ++ ' ' :: rest := by
      simpa [definesText] using same
    obtain ⟨rfl, -⟩ := append_cons_inj absent plain' same'
    exact .inl (List.suffix_append _ _)

/-! ## Helper rules -/

def helperNames : List (List Char) := ["ws".toList, "integer".toList, "number".toList]

/-- A line that defines a helper rule that is used in its name only. -/
structure Silent (used : List Char → Prop) (line : Line) : Prop where
  name : ' ' ∉ line.name
  body : ∀ helper ∈ "string".toList :: helperNames, used helper →
    ¬definesText helper <:+: line.body

theorem exists_of_defines {used : List Char → Prop} {lines : List Line}
    (silent : ∀ line ∈ lines, Silent used line) {helper : List Char}
    (known : helper ∈ "string".toList :: helperNames) (isUsed : used helper)
    (found : definesText helper <:+: linesText lines) : ∃ line ∈ lines, helper <:+ line.name := by
  have plain : ∀ helper ∈ "string".toList :: helperNames,
      ' ' ∉ helper ∧ '\n' ∉ definesText helper ∧ ¬helper <:+ "::=".toList := by decide
  obtain ⟨noSpace, oneLine, noSign⟩ := plain helper known
  induction lines with
  | nil =>
    have empty := List.eq_nil_of_infix_nil found
    rw [definesText] at empty
    simp at empty
  | cons line lines ih =>
    have text : linesText (line :: lines) =
        (line.name ++ ' ' :: ("::=".toList ++ ' ' :: line.body)) ++ '\n' :: linesText lines := by
      simp [linesText, Line.text, ruleText]
    rw [text] at found
    rcases infix_of_append_cons oneLine found with here | later
    · refine ⟨line, List.mem_cons_self, ?_⟩
      rcases definesText_split noSpace (silent line List.mem_cons_self).name here with suffix | inBody
      · exact suffix
      · rcases definesText_split noSpace (by decide) inBody with suffix | inBody
        · exact absurd suffix noSign
        · exact absurd inBody ((silent line List.mem_cons_self).body helper known isUsed)
    · obtain ⟨other, member, suffix⟩ :=
        ih (fun other member => silent other (List.mem_cons_of_mem _ member)) later
      exact ⟨other, List.mem_cons_of_mem _ member, suffix⟩

/-! ## Which schemas compile -/

/-- A schema that a rule for another one refers to. -/
inductive Part : Json Number → Json Number → Prop
  | item {schema itemSchema : Json Number} (type : schemaType schema = .array)
      (some_ : schemaItems schema = some itemSchema) : Part itemSchema schema
  | property {schema : Json Number} {properties : List (List Char × Json Number)}
      {property : List Char × Json Number} (type : schemaType schema = .object)
      (some_ : schemaProperties schema = some properties) (member : property ∈ properties) :
      Part property.2 schema

/-- The helper rules that the rule of a schema itself refers to. -/
def ownUses (schema : Json Number) : List (List Char) :=
  match schemaType schema with
  | .integer => ["integer".toList]
  | .number => ["number".toList]
  | .array => ["ws".toList]
  | .object =>
    match schemaProperties schema with
    | some [] => []
    | _ => ["ws".toList]
  | _ => []

/-- A helper rule that the schema or a part of it refers to. -/
inductive Uses (helper : List Char) : Json Number → Prop
  | own {schema : Json Number} (here : helper ∈ ownUses schema) : Uses helper schema
  | part {schema inside : Json Number} (isPart : Part inside schema) (uses : Uses helper inside) :
      Uses helper schema

/-- An object without properties: the rule is written without the `ws` rule that it refers to. -/
def Early (schema : Json Number) : Prop :=
  schemaType schema = .object ∧ schemaProperties schema = none

/-- Some part is written together with the `ws` rule. -/
def BlankBelow (schema : Json Number) : Prop := ∃ inside, Part inside schema ∧ ¬Early inside

/-- Values whose text is ASCII and does not look like the definition of a helper rule that is
used. -/
structure CleanEnum (toString : Json Number → Option (List Char)) (used : List Char → Prop)
    (values : List (Json Number)) : Prop where
  some_ : values ≠ []
  ascii : ∀ v ∈ values, Ascii (enumText toString v)
  apart : ∀ v ∈ values, ∀ helper ∈ "string".toList :: helperNames, used helper →
    ¬definesText helper <:+: escapeJsonString (enumText toString v)

/-- The name of the whole schema does not get in the way of a helper rule. -/
structure NameFits (name : List Char) (schema : Json Number) : Prop where
  /-- Its own rule is not the one that is looked up as the helper's. -/
  apart : ∀ helper ∈ helperNames, name = helper → ¬Uses helper schema
  /-- Its own line is not taken for the helper rule that it refers to. -/
  leaf : ∀ helper ∈ ownUses schema, helper ≠ "ws".toList → ¬helper <:+ name
  /-- The `ws` rule is written with the schema, or was with a part. -/
  blank : "ws".toList ∈ ownUses schema →
    (¬Early schema ∧ ¬"ws".toList <:+ name) ∨ BlankBelow schema

/-! ## What the lines refer to -/

def suffixes : List (List Char) := ["_item".toList, "_value".toList, "_opt".toList]

def Suffixed (name : List Char) : Prop := ∃ suffix ∈ suffixes, suffix <:+ name

theorem Suffixed.not_suffix {name other : List Char} (suffixed : Suffixed name)
    (apart : ∀ suffix ∈ suffixes, ¬suffix <:+ other ∧ ¬other <:+ suffix) : ¬other <:+ name := by
  obtain ⟨suffix, member, ends⟩ := suffixed
  intro ends'
  rcases List.suffix_or_suffix_of_suffix ends ends' with nested | nested
  · exact (apart suffix member).1 nested
  · exact (apart suffix member).2 nested

theorem Suffixed.noHelper {name : List Char} (suffixed : Suffixed name) :
    ∀ helper ∈ helperNames, ¬helper <:+ name := by
  have apart : ∀ helper ∈ helperNames, ∀ suffix ∈ suffixes,
      ¬suffix <:+ helper ∧ ¬helper <:+ suffix := by decide
  exact fun helper member => suffixed.not_suffix (apart helper member)

theorem Suffixed.ne_root {name : List Char} (suffixed : Suffixed name) : name ≠ "root".toList := by
  have apart : ∀ suffix ∈ suffixes, ¬suffix <:+ "root".toList ∧ ¬"root".toList <:+ suffix := by
    decide
  rintro rfl
  exact suffixed.not_suffix apart (List.suffix_refl _)

def lineNames (lines : List Line) : List (List Char) := lines.map Line.name

/-- What a rule refers to: helper rules, and rules with longer names that the generator made. The
`ws` rule may still be to come. -/
def Resolved (known : List (List Char)) (schema : Json Number) (line : Line) : Prop :=
  ∀ ref, line.node.Mentions ref →
    (∃ helper ∈ helperNames, ref = String.ofList helper ∧ Uses helper schema ∧
      (helper = "ws".toList ∨ helper ∈ known)) ∨
    ∃ made ∈ known, ref = String.ofList made ∧ Suffixed made ∧ line.name.length < made.length

inductive NewLine (known : List (List Char)) (name : List Char) (schema : Json Number)
    (line : Line) : Prop
  | helper (isHelper : line.name ∈ helperNames) (none_ : ∀ ref, ¬line.node.Mentions ref)
  | made (named : line.name = name ∨ Suffixed line.name) (resolved : Resolved known schema line)

theorem Resolved.mono {known known' : List (List Char)} {schema schema' : Json Number} {line : Line}
    (resolved : Resolved known schema line) (more : known ⊆ known')
    (uses : ∀ helper, Uses helper schema → Uses helper schema') :
    Resolved known' schema' line := by
  intro ref inside
  rcases resolved ref inside with ⟨helper, isHelper, same, used, there⟩ | ⟨made, there, rest⟩
  · exact .inl ⟨helper, isHelper, same, uses helper used, there.imp_right fun h => more h⟩
  · exact .inr ⟨made, more there, rest⟩

theorem NewLine.whole {known known' : List (List Char)} {name name' : List Char}
    {schema schema' : Json Number} {line : Line} (new : NewLine known name schema line)
    (more : known ⊆ known') (suffixed : Suffixed name) (part : Part schema schema') :
    NewLine known' name' schema' line := by
  cases new with
  | helper isHelper none_ => exact .helper isHelper none_
  | made named resolved =>
    refine .made (.inr ?_) (resolved.mono more fun helper => .part part)
    rcases named with same | other
    · rwa [same]
    · exact other

theorem NewLine.mono {known known' : List (List Char)} {name : List Char} {schema : Json Number}
    {line : Line} (new : NewLine known name schema line) (more : known ⊆ known') :
    NewLine known' name schema line := by
  cases new with
  | helper isHelper none_ => exact .helper isHelper none_
  | made named resolved => exact .made named (resolved.mono more fun _ uses => uses)

theorem lineNames_subset {lines lines' : List Line} (kept : lines <+: lines') :
    lineNames lines ⊆ lineNames lines' := (kept.map Line.name).subset

theorem mem_lineNames_concat (lines : List Line) (line : Line) :
    line.name ∈ lineNames (lines ++ [line]) := by
  rw [lineNames, List.map_append]
  exact List.mem_append_right _ List.mem_cons_self

/-- No line ends in a helper rule's name, but the helper's own. -/
def Tidy (lines : List Line) : Prop :=
  ∀ line ∈ lines, ∀ helper ∈ helperNames, helper <:+ line.name → line.name = helper

/-- After the check for a helper rule there is one, unless a name was taken for it. -/
theorem mem_addHelperLine_name {used : List Char → Prop} {helper : Line}
    (isHelper : helper.name ∈ helperNames) (isUsed : used helper.name) {lines : List Line}
    (silent : ∀ line ∈ lines, Silent used line)
    (tidy : ∀ line ∈ lines, helper.name <:+ line.name → line.name = helper.name) :
    helper.name ∈ lineNames (addHelperLine helper lines) := by
  unfold addHelperLine
  split
  next found =>
    obtain ⟨line, member, suffix⟩ := exists_of_defines silent
      (List.mem_cons_of_mem _ isHelper) isUsed found
    exact List.mem_map.mpr ⟨line, member, tidy line member suffix⟩
  next => exact mem_lineNames_concat lines helper

/-! ## The characters of the text -/

/-- The classes as `parse_gbnf` reads them: the blank in front of `[ \t\n]` is trimmed. -/
def scannedClasses : Classes where
  blank := .charClass [('\t', '\t'), ('\n', '\n')] false
  digit := .charClass [('0', '9')] false
  unquoted := .charClass [('"', '"')] true

/-- A line of ASCII that defines a helper rule in its name only. -/
structure Sober (used : List Char → Prop) (line : Line) : Prop extends Silent used line where
  ascii : Ascii line.text

theorem utf8Size_of_scriptChar {ch : Char} (script : scriptChar ch = true) : ch.utf8Size = 1 := by
  have small : ch.toNat ≤ 127 := by
    rcases Bool.or_eq_true _ _ ▸ script with name | other
    · have := identifierChar_range name
      omega
    · have all : ∀ ch ∈ " \"()[]|*+?,:.^\\\x7b\x7d".toList, ch.toNat ≤ 127 :=
        forall_chars (by decide)
      exact all ch (List.contains_iff_mem.mp other)
  have : ch.val.toNat ≤ 127 := small
  rw [Char.utf8Size, if_pos (UInt32.le_iff_toNat_le.mpr this)]

theorem Scripted.ascii {s : List Char} (scripted : Scripted s) : Ascii s :=
  fun ch member => utf8Size_of_scriptChar (scripted ch member)

theorem ascii_text {line : Line} (identifier : isIdentifier line.name = true)
    (body : Ascii line.body) : Ascii line.text := by
  have sign : Ascii " ::= ".toList := forall_chars (by decide)
  have ends : Ascii ['\n'] := forall_chars (by decide)
  intro ch member
  simp only [Line.text, ruleText, List.mem_append] at member
  rcases member with ((member | member) | member) | member
  · exact (scripted_name identifier).ascii ch member
  · exact sign ch member
  · exact body ch member
  · exact ends ch member

theorem silent_of_scripted {used : List Char → Prop} {line : Line}
    (identifier : isIdentifier line.name = true) (scripted : Scripted line.body) :
    Silent used line where
  name member := absurd (identifierChar_of_isIdentifier identifier _ member) (by decide)
  body helper _ _ found := by
    have noSign : '=' ∉ line.body := scripted.not_mem rfl
    exact noSign (found.subset (List.mem_append_right _ (by decide)))

theorem sober_of_scripted {used : List Char → Prop} {line : Line}
    (identifier : isIdentifier line.name = true) (scripted : Scripted line.body) :
    Sober used line where
  toSilent := silent_of_scripted identifier scripted
  ascii := ascii_text identifier scripted.ascii

theorem sober_optLine {used : List Char → Prop} {name propName : List Char}
    (identifier : isIdentifier name = true) (plain : PlainName propName) :
    Sober used (optLine name propName) :=
  sober_of_scripted (isIdentifier_optRuleName identifier plain)
    ((scripted_memberPair (isIdentifier_subRuleName identifier plain) plain).append
      (scripted_closed rfl))

theorem ascii_escape {s : List Char} (ascii : Ascii s) : Ascii (escapeJsonString s) := by
  intro ch member
  obtain ⟨source, there, made⟩ := List.mem_flatMap.mp member
  unfold escapeJsonChar at made
  split at made
  case h_6 => rw [List.mem_singleton.mp made]; exact ascii source there
  all_goals
    simp only [List.mem_cons, List.not_mem_nil, or_false] at made
    rcases made with rfl | rfl <;> rfl

section
variable {toString : Json Number → Option (List Char)} {used : List Char → Prop}

/-- Where no value looks like the helper rule, no two side by side do. -/
theorem not_defines_enumBody {values : List (Json Number)} {helper : List Char}
    (known : helper ∈ "string".toList :: helperNames)
    (apart : ∀ v ∈ values, ¬definesText helper <:+: escapeJsonString (enumText toString v)) :
    ¬definesText helper <:+: enumBody toString values := by
  have plain : ∀ helper ∈ "string".toList :: helperNames, '"' ∉ definesText helper ∧ '|' ∉ definesText helper ∧
      ¬definesText helper <:+: [] ∧ ¬definesText helper <:+: [' '] ∧
      (definesText helper).head? ≠ some ' ' := by decide
  obtain ⟨noQuote, noBar, nonempty, noSpace, letter⟩ := plain helper known
  have inside (v : Json Number) (rest : List Char)
      (apart : ¬definesText helper <:+: escapeJsonString (enumText toString v))
      (found : definesText helper <:+: '"' :: (escapeJsonString (enumText toString v) ++ '"' :: rest)) :
      definesText helper <:+: rest := by
    rcases infix_of_append_cons (a := []) noQuote found with none_ | found
    · exact absurd none_ nonempty
    · exact (infix_of_append_cons noQuote found).resolve_left apart
  intro found
  induction values with
  | nil => exact nonempty found
  | cons v values ih =>
    have here := apart v List.mem_cons_self
    cases values with
    | nil => exact nonempty (inside v [] here (by simpa [enumBody, enumText] using found))
    | cons next values =>
      have text : enumBody toString (v :: next :: values) =
          '"' :: (escapeJsonString (enumText toString v) ++
            '"' :: ([' '] ++ '|' :: ' ' :: enumBody toString (next :: values))) := by
        simp [enumBody, enumText, List.intercalate_cons_cons]
      rw [text] at found
      rcases infix_of_append_cons noBar (inside v _ here found) with space | later
      · exact noSpace space
      · rcases List.infix_cons_iff.mp later with front | later
        · obtain ⟨rest, same⟩ := front
          cases definition : definesText helper with
          | nil => exact nonempty (definition ▸ List.nil_infix)
          | cons first more =>
            rw [definition] at same letter
            exact letter (congrArg some (List.cons.inj same).1)
        · exact ih (fun other there => apart other (List.mem_cons_of_mem _ there)) later

theorem CleanEnum.sober {values : List (Json Number)} (clean : CleanEnum toString used values)
    {name : List Char} (identifier : isIdentifier name = true) (node : GrammarNode) :
    Sober used ⟨name, enumBody toString values, node⟩ where
  name member := absurd (identifierChar_of_isIdentifier identifier _ member) (by decide)
  body helper known isUsed := not_defines_enumBody known fun v there =>
    clean.apart v there helper known isUsed
  ascii := by
    refine ascii_text identifier (forall_mem_intercalate (forall_chars (by decide)) fun part there => ?_)
    obtain ⟨v, inValues, rfl⟩ := List.mem_map.mp there
    have inner := ascii_escape (clean.ascii v inValues)
    intro ch member
    simp only [List.mem_cons, List.mem_append, List.not_mem_nil, or_false] at member
    rcases member with rfl | member | rfl
    · rfl
    · exact inner ch member
    · rfl

theorem sober_lineInvariant :
    LineInvariant scannedClasses toString False (CleanEnum toString used) (isIdentifier · = true)
      (Sober used) where
  item := isIdentifier_itemRuleName
  value := isIdentifier_subRuleName
  ws := sober_of_scripted rfl (scripted_closed rfl)
  anyObject identifier := sober_of_scripted identifier (scripted_closed rfl)
  anyArray identifier := sober_of_scripted identifier (scripted_closed rfl)
  array identifier := sober_of_scripted identifier
    (scripted_arrayBody (isIdentifier_itemRuleName identifier))
  opt identifier plain := sober_optLine identifier plain
  object required properties identifier plain := by
    refine sober_of_scripted identifier (scripted_objectBody fun member there => ?_)
    obtain ⟨property, inProperties, rfl⟩ := List.mem_map.mp there
    exact scripted_memberOf identifier (plain property inProperties) _
  leaf {name schema body node helper} identifier written noObject noArray leaf := by
    have sober (s : List Char) (script : s.all scriptChar = true) (node : GrammarNode) :
        Sober used ⟨name, s, node⟩ := sober_of_scripted identifier (scripted_closed script)
    cases written with
    | string _ allowed => exact allowed.elim
    -- an integer and a number bring the line of their helper with them
    | integer type | number type =>
      simp only [leafOf, type, Prod.mk.injEq] at leaf
      obtain ⟨rfl, rfl, rfl⟩ := leaf
      refine ⟨sober _ rfl _, ?_⟩
      rintro _ ⟨⟩
      exact sober_of_scripted rfl (scripted_closed rfl)
    | boolean type | null type =>
      simp only [leafOf, type, Prod.mk.injEq] at leaf
      obtain ⟨rfl, rfl, rfl⟩ := leaf
      exact ⟨sober _ rfl _, by simp⟩
    | enumeration type some_ clean =>
      simp only [leafOf, type, some_, Prod.mk.injEq] at leaf
      obtain ⟨rfl, rfl, rfl⟩ := leaf
      exact ⟨clean.sober identifier _, by simp⟩
    | anyArray type => exact absurd type noArray
    | array type => exact absurd type noArray
    | anyObject type => exact absurd type noObject
    | object type => exact absurd type noObject

/-! ## What a call leaves behind -/

/-- What a call leaves behind, in terms of names and references. -/
structure Left (used : List Char → Prop) (name : List Char) (schema : Json Number)
    (lines lines' : List Line) : Prop where
  own : name ∈ lineNames (lines'.drop lines.length)
  fresh : Adds (NewLine (lineNames lines') name schema) lines lines'
  tidy : (∀ helper ∈ helperNames, ¬helper <:+ name) → Tidy lines'
  blank : used "ws".toList → ¬Early schema → ¬"ws".toList <:+ name → "ws".toList ∈ lineNames lines'
  below : used "ws".toList → BlankBelow schema → "ws".toList ∈ lineNames lines'

theorem Left.mem {name : List Char} {schema : Json Number} {lines lines' : List Line}
    (left : Left used name schema lines lines') : name ∈ lineNames lines' := by
  obtain ⟨line, member, rfl⟩ := List.mem_map.mp left.own
  exact List.mem_map_of_mem (List.mem_of_mem_drop member)

theorem mem_lineNames_new {lines before lines' : List Line} {own : Line}
    (known : lines <+: before) (behind : before ++ [own] <+: lines') :
    own.name ∈ lineNames (lines'.drop lines.length) := by
  obtain ⟨new, rfl⟩ := known
  obtain ⟨after, rfl⟩ := behind
  rw [List.append_assoc, List.append_assoc, List.drop_left]
  simp [lineNames]

theorem helperNames_apart {helper other : List Char} (isHelper : helper ∈ helperNames)
    (isHelper' : other ∈ helperNames) (suffix : helper <:+ other) : other = helper := by
  have apart : ∀ helper ∈ helperNames, ∀ other ∈ helperNames, helper <:+ other → other = helper := by
    decide
  exact apart helper isHelper other isHelper' suffix

/-- The rule of the schema itself, behind what its parts left: then its helper rule and `ws`. -/
theorem left_of_own {name : List Char} {schema : Json Number} {lines lines' : List Line}
    {own : Line} {helper : Option Line} (named : own.name = name) (tidy : Tidy lines')
    (fresh : Adds (NewLine (lineNames lines') name schema) lines lines')
    (below : used "ws".toList → BlankBelow schema → "ws".toList ∈ lineNames lines')
    (refs : ∀ known, lineNames lines' ⊆ known → (∀ line ∈ helper, line.name ∈ known) →
      Resolved known schema own)
    (helper_ : ∀ line ∈ helper, (line.name ∈ helperNames ∧ used line.name) ∧ ¬line.name <:+ name ∧
      ∀ ref, ¬line.node.Mentions ref)
    (silent : ∀ line ∈ addHelperLine? helper (lines' ++ [own]), Silent used line) :
    Left used name schema lines
      (addHelperLine (wsLine scannedClasses) (addHelperLine? helper (lines' ++ [own]))) := by
  have isWs : (wsLine scannedClasses).name ∈ helperNames := by decide
  have toOwn := List.prefix_append lines' [own]
  have toHelper := prefix_addHelperLine? helper (lines' ++ [own])
  have toWs := prefix_addHelperLine (wsLine scannedClasses)
    (addHelperLine? helper (lines' ++ [own]))
  have all := lineNames_subset (toOwn.trans (toHelper.trans toWs))
  -- the helper rule is there: its name is not taken for the schema's
  have helperThere : ∀ line ∈ helper, line.name ∈ lineNames
      (addHelperLine? helper (lines' ++ [own])) := by
    rintro line ⟨⟩
    obtain ⟨⟨isHelper, isUsed⟩, apart, -⟩ := helper_ line rfl
    refine mem_addHelperLine_name isHelper isUsed (fun other member => silent other
      ((prefix_addHelperLine line _).subset member)) fun other member suffix => ?_
    rcases List.mem_append.mp member with before | last
    · exact tidy other before _ isHelper suffix
    · rw [List.mem_singleton.mp last, named] at suffix
      exact absurd suffix apart
  -- the names behind the parts' lines are the schema's own and helpers'
  have own_ : Adds (fun line => line.name = name ∨ line.name ∈ helperNames) lines'
      (addHelperLine? helper (lines' ++ [own])) :=
    (adds_line (.inl named)).trans
      (adds_helper? fun line member => .inr (helper_ line member).1.1)
  refine ⟨?_, ?_, ?_, ?_, ?_⟩
  · rw [← named]
    exact mem_lineNames_new fresh.kept (toHelper.trans toWs)
  · refine (fresh.mono fun line new => new.mono all).trans ((adds_line ?_).trans
      ((adds_helper? fun line member => ?_).trans (adds_helper ?_)))
    · exact .made (.inl named) (refs _ all fun line there =>
        lineNames_subset toWs (helperThere line there))
    · exact .helper (helper_ line member).1.1 (helper_ line member).2.2
    · exact .helper isWs (by simp [wsLine, scannedClasses])
  · intro apart
    refine ((own_.trans (adds_helper (.inr isWs))).mono fun line new helper' isHelper' suffix => ?_).forall
      tidy
    rcases new with same | isHelper
    · exact absurd (same ▸ suffix) (apart helper' isHelper')
    · exact helperNames_apart isHelper' isHelper suffix
  · intro isUsed _ apart
    refine mem_addHelperLine_name isWs isUsed silent ((own_.mono fun line new suffix => ?_).forall
      fun line member => tidy line member _ isWs)
    rcases new with same | isHelper
    · exact absurd (same ▸ suffix) apart
    · exact helperNames_apart isWs isHelper suffix
  · exact fun isUsed there => all (below isUsed there)

theorem left_of_rule {name : List Char} {schema : Json Number} {lines lines' : List Line}
    {own : Line} (named : own.name = name) (tidy : Tidy lines')
    (fresh : Adds (NewLine (lineNames lines') name schema) lines lines')
    (below : used "ws".toList → BlankBelow schema → "ws".toList ∈ lineNames lines')
    (refs : ∀ known, lineNames lines' ⊆ known → Resolved known schema own)
    (sober : ∀ line ∈ addHelperLine (wsLine scannedClasses) (lines' ++ [own]), Sober used line) :
    Left used name schema lines (addHelperLine (wsLine scannedClasses) (lines' ++ [own])) :=
  @left_of_own used name schema lines lines' own none named tidy fresh below
    (fun known more _ => refs known more) (by simp)
    fun line member => (sober line ((prefix_addHelperLine _ _).subset member)).toSilent

/-! ### Properties -/

theorem suffixed_subRuleName (name propName : List Char) : Suffixed (subRuleName name propName) :=
  ⟨"_value".toList, by decide, '_' :: (name ++ '_' :: propName), rfl⟩

theorem suffixed_optRuleName (name propName : List Char) : Suffixed (optRuleName name propName) :=
  ⟨"_opt".toList, by decide, '_' :: (name ++ '_' :: propName), rfl⟩

theorem suffixed_itemRuleName (name : List Char) : Suffixed (itemRuleName name) :=
  ⟨"_item".toList, by decide, name, rfl⟩

theorem length_subRuleName (name propName : List Char) :
    name.length < (subRuleName name propName).length ∧
      (optRuleName name propName).length < (subRuleName name propName).length ∧
      name.length < (optRuleName name propName).length := by
  simp only [subRuleName, optRuleName, List.length_cons, List.length_append]
  have value : "_value".toList.length = 6 := rfl
  have opt : "_opt".toList.length = 4 := rfl
  omega

structure RunLeft (used : List Char → Prop) (name : List Char) (required : List (List Char)) (schema : Json Number)
    (properties : List (List Char × Json Number)) (lines lines' : List Line) : Prop where
  values : ∀ property ∈ properties, subRuleName name property.1 ∈ lineNames lines'
  options : ∀ property ∈ properties, property.1 ∉ required →
    optRuleName name property.1 ∈ lineNames lines'
  fresh : Adds (NewLine (lineNames lines') name schema) lines lines'
  tidy : Tidy lines'
  sober : ∀ line ∈ lines', Sober used line
  below : used "ws".toList → (∃ property ∈ properties, ¬Early property.2) → "ws".toList ∈ lineNames lines'

theorem resolved_optLine {name propName : List Char} {schema : Json Number}
    {known : List (List Char)} (uses : Uses "ws".toList schema)
    (there : subRuleName name propName ∈ known) :
    Resolved known schema (optLine name propName) := by
  intro ref inside
  have : ref = "ws" ∨ ref = String.ofList (subRuleName name propName) := by
    simpa [optLine, optionalNode, memberNodes, refNode] using inside
  rcases this with rfl | rfl
  · exact .inl ⟨"ws".toList, by decide, rfl, uses, .inl rfl⟩
  · exact .inr ⟨_, there, rfl, suffixed_subRuleName name propName,
      (length_subRuleName name propName).2.1⟩

theorem runLeft_nil {name : List Char} {required : List (List Char)} {schema : Json Number}
    {lines : List Line} (tidy : Tidy lines) (sober : ∀ line ∈ lines, Sober used line) :
    RunLeft used name required schema [] lines lines :=
  ⟨by simp, by simp, adds_none, tidy, sober, by simp⟩

theorem PropertyRun.left {step : List Char → Json Number → List Line → List Line → Prop}
    {name : List Char} {required : List (List Char)} {schema : Json Number}
    {properties : List (List Char × Json Number)} {lines lines' : List Line}
    (run : PropertyRun step name required properties lines lines')
    (identifier : isIdentifier name = true) (uses : Uses "ws".toList schema)
    (value : ∀ property ∈ properties, ∀ lines lines',
      step (subRuleName name property.1) property.2 lines lines' → Tidy lines →
      (∀ line ∈ lines, Sober used line) →
      Left used (subRuleName name property.1) property.2 lines lines' ∧
        ∀ line ∈ lines', Sober used line)
    (each : ∀ property ∈ properties, PlainName property.1 ∧ Part property.2 schema)
    (tidy : Tidy lines) (sober : ∀ line ∈ lines, Sober used line) :
    RunLeft used name required schema properties lines lines' := by
  induction run with
  | nil => exact runLeft_nil tidy sober
  | @cons propName propSchema properties lines lines₁ lines₂ first _ ih =>
    obtain ⟨plain, part⟩ := each _ List.mem_cons_self
    obtain ⟨left, sober₁⟩ := value _ List.mem_cons_self lines lines₁ first tidy sober
    have suffixed := suffixed_subRuleName name propName
    -- the value's lines, then the line that makes it optional, then the other properties
    have tidy₁ := left.tidy suffixed.noHelper
    have suffixedOpt := suffixed_optRuleName name propName
    have tidyOpt : Tidy (lines₁ ++ optLines name propName (propName ∈ required)) :=
      (adds_optLines fun helper isHelper suffix =>
        absurd suffix (suffixedOpt.noHelper helper isHelper)).forall tidy₁
    have soberOpt : ∀ line ∈ lines₁ ++ optLines name propName (propName ∈ required),
        Sober used line :=
      (adds_optLines (sober_optLine identifier plain)).forall sober₁
    have rest := ih (fun property member => value property (List.mem_cons_of_mem _ member))
      (fun property member => each property (List.mem_cons_of_mem _ member)) tidyOpt soberOpt
    -- all that the first two have written is still there in the end
    have toOpt := List.prefix_append lines₁ (optLines name propName (propName ∈ required))
    have all := lineNames_subset (toOpt.trans rest.fresh.kept)
    refine ⟨?_, ?_, ?_, rest.tidy, rest.sober, ?_⟩
    · intro property member
      rcases List.mem_cons.mp member with rfl | later
      · exact all left.mem
      · exact rest.values property later
    · intro property member optional
      rcases List.mem_cons.mp member with rfl | later
      · refine lineNames_subset rest.fresh.kept (List.mem_map.mpr ⟨optLine name propName, ?_, rfl⟩)
        have notRequired : decide (propName ∈ required) = false := decide_eq_false optional
        simp [optLines, notRequired]
      · exact rest.options property later optional
    · have fromPart : Adds (NewLine (lineNames lines₂) name schema) lines lines₁ :=
        left.fresh.mono fun line new => new.whole all suffixed part
      refine fromPart.trans ((adds_optLines ?_).trans rest.fresh)
      exact .made (.inr suffixedOpt) (resolved_optLine uses (all left.mem))
    · rintro isUsed ⟨property, member, late⟩
      rcases List.mem_cons.mp member with rfl | later
      · exact all (left.blank isUsed late (suffixed.noHelper _ (by decide)))
      · exact rest.below isUsed ⟨property, later, late⟩

/-! ### Schemas -/

theorem ownUses_helper {schema : Json Number} {helper : List Char}
    (own : helper ∈ ownUses schema) : helper ∈ helperNames := by
  have among : ∀ names : List (List Char), (∀ name ∈ names, name ∈ helperNames) →
      helper ∈ names → helper ∈ helperNames := fun names known member => known helper member
  unfold ownUses at own
  repeat' split at own
  all_goals exact among _ (by decide) own

theorem uses_blank_of_array {schema : Json Number} (type : schemaType schema = .array) :
    "ws".toList ∈ ownUses schema := by
  simp [ownUses, type]

theorem uses_blank_of_object {schema : Json Number} {properties : List (List Char × Json Number)}
    (type : schemaType schema = .object) (some_ : schemaProperties schema = some properties)
    (nonempty : properties ≠ []) : "ws".toList ∈ ownUses schema := by
  cases properties with
  | nil => exact absurd rfl nonempty
  | cons => simp [ownUses, type, some_]

theorem uses_blank_of_early {schema : Json Number} (early : Early schema) :
    "ws".toList ∈ ownUses schema := by
  simp [ownUses, early.1, early.2]

theorem resolved_blank {schema : Json Number} {known : List (List Char)} {line : Line}
    (uses : "ws".toList ∈ ownUses schema) (only : ∀ ref, line.node.Mentions ref → ref = "ws") :
    Resolved known schema line := fun ref inside =>
  .inl ⟨"ws".toList, by decide, only ref inside, .own uses, .inl rfl⟩

theorem resolved_arrayLine {name : List Char} {schema : Json Number} {known : List (List Char)}
    (type : schemaType schema = .array) (there : itemRuleName name ∈ known) :
    Resolved known schema (arrayLine name) := by
  intro ref inside
  have : ref = "ws" ∨ ref = String.ofList (itemRuleName name) := by
    have := by simpa [arrayLine, arrayNode, refNode] using inside
    tauto
  rcases this with rfl | rfl
  · exact .inl ⟨"ws".toList, by decide, rfl, .own (uses_blank_of_array type), .inl rfl⟩
  · refine .inr ⟨_, there, rfl, suffixed_itemRuleName name, ?_⟩
    simp [arrayLine, itemRuleName]

theorem mentions_joinMembers {members : List Member} {ref : String}
    (inside : ∃ node ∈ joinMembers members, node.Mentions ref) :
    ref = "ws" ∨ ∃ member ∈ members, ∃ node ∈ member.nodes, node.Mentions ref := by
  fun_induction joinMembers members with
  | case1 => simp at inside
  | case2 member => exact .inr ⟨member, List.mem_cons_self, inside⟩
  | case3 member members _ ih =>
    obtain ⟨node, there, inside⟩ := inside
    rcases List.mem_append.mp there with here | later
    · exact .inr ⟨member, List.mem_cons_self, node, here, inside⟩
    · simp only [List.mem_cons] at later
      rcases later with rfl | rfl | later
      · cases inside
      · exact .inl (mentions_ref.mp inside)
      · exact (ih ⟨node, later, inside⟩).imp_right fun ⟨member, there, rest⟩ =>
          ⟨member, List.mem_cons_of_mem _ there, rest⟩

theorem resolved_objectLine {name : List Char} {required : List (List Char)} {schema : Json Number}
    {properties : List (List Char × Json Number)} {known : List (List Char)}
    (type : schemaType schema = .object) (some_ : schemaProperties schema = some properties)
    (values : ∀ property ∈ properties, subRuleName name property.1 ∈ known)
    (options : ∀ property ∈ properties, property.1 ∉ required →
      optRuleName name property.1 ∈ known) :
    Resolved known schema (objectLine name (membersOf name required properties)) := by
  intro ref inside
  by_cases none_ : properties = []
  · subst none_
    exact absurd inside (not_mentions_lit _)
  have nonempty : (membersOf name required properties).isEmpty = false := by
    simpa [membersOf] using none_
  have blank : Uses "ws".toList schema := .own (uses_blank_of_object type some_ none_)
  have : ref = "ws" ∨ ∃ node ∈ joinMembers (membersOf name required properties),
      node.Mentions ref := by
    simp only [objectLine, objectNode, nonempty, Bool.false_eq_true, if_false, mentions_seq,
      List.mem_cons, List.mem_append, List.not_mem_nil, or_false] at inside
    obtain ⟨node, rfl | rfl | there | rfl, inside⟩ := inside
    · cases inside
    · exact .inl (mentions_ref.mp inside)
    · exact .inr ⟨node, there, inside⟩
    · cases inside
  -- the body mentions blanks and the rules of the members, and nothing else
  rcases this.imp_right mentions_joinMembers with rfl | rfl | ⟨member, there, inside⟩
  · exact .inl ⟨"ws".toList, by decide, rfl, blank, .inl rfl⟩
  · exact .inl ⟨"ws".toList, by decide, rfl, blank, .inl rfl⟩
  · obtain ⟨property, inProperties, rfl⟩ := List.mem_map.mp there
    by_cases isRequired : property.1 ∈ required
    · have : ref = "ws" ∨ ref = String.ofList (subRuleName name property.1) := by
        simpa [memberOf, isRequired, memberNodes, refNode] using inside
      rcases this with rfl | rfl
      · exact .inl ⟨"ws".toList, by decide, rfl, blank, .inl rfl⟩
      · exact .inr ⟨_, values property inProperties, rfl, suffixed_subRuleName name _,
          (length_subRuleName name property.1).1⟩
    · have : ref = String.ofList (optRuleName name property.1) := by
        simpa [memberOf, isRequired, refNode] using inside
      subst this
      exact .inr ⟨_, options property inProperties isRequired, rfl, suffixed_optRuleName name _,
        (length_subRuleName name property.1).2.2⟩

theorem leaf_resolved {name : List Char} {schema : Json Number} {body : List Char}
    {node : GrammarNode} {helper : Option Line}
    (written : Written False (CleanEnum toString used) schema)
    (noObject : schemaType schema ≠ .object) (noArray : schemaType schema ≠ .array)
    (leaf : leafOf scannedClasses toString schema = (body, node, helper)) :
    (∀ line ∈ helper, line.name ∈ ownUses schema ∧ line.name ∈ helperNames ∧
      line.name ≠ "ws".toList ∧ ∀ ref, ¬line.node.Mentions ref) ∧
    ∀ known, (∀ line ∈ helper, line.name ∈ known) → Resolved known schema ⟨name, body, node⟩ := by
  cases written with
  | string _ allowed => exact allowed.elim
  | integer type =>
    have own : "integer".toList ∈ ownUses schema := by simp [ownUses, type]
    simp only [leafOf, type, Prod.mk.injEq] at leaf
    obtain ⟨rfl, rfl, rfl⟩ := leaf
    refine ⟨?_, fun known there ref inside => .inl ⟨_, by decide, mentions_ref.mp inside, .own own,
      .inr (there _ rfl)⟩⟩
    rintro _ ⟨⟩
    refine ⟨own, by decide, by decide, fun ref inside => ?_⟩
    have mentions : (GrammarNode.seq [signNode, .plus scannedClasses.digit]).Mentions ref := inside
    simp [signNode, scannedClasses] at mentions
  | number type =>
    have own : "number".toList ∈ ownUses schema := by simp [ownUses, type]
    simp only [leafOf, type, Prod.mk.injEq] at leaf
    obtain ⟨rfl, rfl, rfl⟩ := leaf
    refine ⟨?_, fun known there ref inside => .inl ⟨_, by decide, mentions_ref.mp inside, .own own,
      .inr (there _ rfl)⟩⟩
    rintro _ ⟨⟩
    refine ⟨own, by decide, by decide, fun ref inside => ?_⟩
    have mentions : (GrammarNode.seq [signNode, .plus scannedClasses.digit,
        .opt (.seq [.lit ".", .plus scannedClasses.digit])]).Mentions ref := inside
    simp [signNode, scannedClasses] at mentions
  | boolean type =>
    simp only [leafOf, type, Prod.mk.injEq] at leaf
    obtain ⟨rfl, rfl, rfl⟩ := leaf
    refine ⟨by simp, fun known there ref inside => ?_⟩
    simp [booleanNode] at inside
  | null type =>
    simp only [leafOf, type, Prod.mk.injEq] at leaf
    obtain ⟨rfl, rfl, rfl⟩ := leaf
    refine ⟨by simp, fun known there ref inside => ?_⟩
    simp at inside
  | @enumeration _ values type some_ clean =>
    simp only [leafOf, type, some_, Prod.mk.injEq] at leaf
    obtain ⟨rfl, rfl, rfl⟩ := leaf
    refine ⟨by simp, fun known there ref inside => ?_⟩
    -- an enumeration is an alternative of literals, and literals mention nothing
    have none_ : ∀ nodes : List GrammarNode, (∀ node ∈ nodes, ∃ s, node = .lit s) →
        ¬(altNode nodes).Mentions ref := by
      intro nodes literals
      unfold altNode
      split
      next node =>
        obtain ⟨s, rfl⟩ := literals _ List.mem_cons_self
        exact not_mentions_lit s
      next =>
        simp only [mentions_alt, not_exists, not_and]
        intro node there
        obtain ⟨s, rfl⟩ := literals node there
        exact not_mentions_lit s
    refine absurd inside (none_ _ fun node there => ?_)
    obtain ⟨v, -, rfl⟩ := List.mem_map.mp there
    exact ⟨_, rfl⟩
  | anyArray type => exact absurd type noArray
  | array type => exact absurd type noArray
  | anyObject type => exact absurd type noObject
  | object type => exact absurd type noObject

theorem schemaLines_left {levels : ℕ} {name : List Char} {schema : Json Number}
    {lines lines' : List Line} (identifier : isIdentifier name = true)
    (written : Written False (CleanEnum toString used) schema)
    (fits : ∀ helper ∈ ownUses schema, helper ≠ "ws".toList → ¬helper <:+ name)
    (done : schemaLines scannedClasses toString levels name schema lines = .ok lines')
    (tidy : Tidy lines) (sober : ∀ line ∈ lines, Sober used line)
    (uses : ∀ helper, Uses helper schema → used helper) : Left used name schema lines lines' := by
  induction levels generalizing name schema lines lines' with
  | zero => cases done
  | succ levels ih =>
    have sober' := sober_lineInvariant.all identifier written done sober
    cases schemaLines_cases scannedClasses toString done with
    | anyObject type none_ =>
      have early : Early schema := ⟨type, none_⟩
      refine ⟨mem_lineNames_new (List.prefix_refl _) (List.prefix_refl _), adds_line ?_, fun apart => ?_,
        fun _ late => absurd early late, ?_⟩
      · refine .made (.inl rfl) (resolved_blank (uses_blank_of_early early) fun ref inside => ?_)
        simpa [anyObjectNode] using inside
      · exact (adds_line fun helper isHelper suffix =>
          absurd suffix (apart helper isHelper)).forall tidy
      · rintro - ⟨inside, ⟨type', _⟩ | ⟨_, some_, _⟩, _⟩
        · cases type.symm.trans type'
        · cases none_.symm.trans some_
    | @object properties lines₁ type some_ members =>
      have each := written.property type some_
      have parts : ∀ property ∈ properties, PlainName property.1 ∧ Part property.2 schema :=
        fun property member => ⟨(each property member).1, .property type some_ member⟩
      have run : RunLeft used name (schemaRequired schema) schema properties lines lines₁ := by
        have run := propertyLines_run members
        by_cases none_ : properties = []
        · subst none_
          cases run
          exact runLeft_nil tidy sober
        · refine run.left identifier (.own (uses_blank_of_object type some_ none_))
            (fun property member lines lines' value tidy sober => ?_) parts tidy sober
          obtain ⟨plain, written'⟩ := each property member
          have identifier' := isIdentifier_subRuleName identifier plain
          exact ⟨ih identifier' written' (fun helper own notBlank =>
              (suffixed_subRuleName name property.1).noHelper helper (ownUses_helper own)) value tidy
              sober fun helper inside => uses helper (.part (parts property member).2 inside),
            sober_lineInvariant.all identifier' written' value sober⟩
      refine left_of_rule rfl run.tidy run.fresh ?_
        (fun known more => resolved_objectLine type some_
          (fun property member => more (run.values property member))
          fun property member optional => more (run.options property member optional)) sober'
      rintro isUsed ⟨inside, part, late⟩
      cases part with
      | item type' => cases type.symm.trans type'
      | property _ some' member =>
        cases some_.symm.trans some'
        exact run.below isUsed ⟨_, member, late⟩
    | anyArray type none_ =>
      refine left_of_rule rfl tidy adds_none ?_
        (fun known _ => resolved_blank (uses_blank_of_array type) fun ref inside => ?_) sober'
      · rintro - ⟨inside, ⟨_, some_⟩ | ⟨type', _⟩, _⟩
        · cases none_.symm.trans some_
        · cases type.symm.trans type'
      · simpa [anyArrayNode] using inside
    | @array itemSchema lines₁ type some_ item =>
      -- the rule of the items comes first, and its name is that of no helper
      have suffixed := suffixed_itemRuleName name
      have left := ih (isIdentifier_itemRuleName identifier) (written.item type some_)
        (fun helper own _ => suffixed.noHelper helper (ownUses_helper own)) item tidy sober
        fun helper inside => uses helper (.part (.item type some_) inside)
      refine left_of_rule rfl (left.tidy suffixed.noHelper)
        (left.fresh.mono fun line new =>
          new.whole (fun _ there => there) suffixed (.item type some_)) ?_
        (fun known more => resolved_arrayLine type (more left.mem)) sober'
      rintro isUsed ⟨inside, part, late⟩
      cases part with
      | item _ some' =>
        cases some_.symm.trans some'
        exact left.blank isUsed late (suffixed.noHelper _ (by decide))
      | property type' => cases type.symm.trans type'
    | @leaf body node helper noObject noArray leaf =>
      -- a leaf names at most the helpers of its own type and format
      obtain ⟨helper_, resolved⟩ := leaf_resolved written noObject noArray leaf
      refine left_of_own rfl tidy adds_none ?_
        (fun known _ there => resolved known there)
        (fun line member => ⟨⟨(helper_ line member).2.1, uses _ (.own (helper_ line member).1)⟩,
          fits _ (helper_ line member).1 (helper_ line member).2.2.1,
          (helper_ line member).2.2.2⟩) fun line member => (sober' line
          ((prefix_addHelperLine _ _).subset member)).toSilent
      rintro - ⟨inside, ⟨type, _⟩ | ⟨type, _⟩, _⟩
      · exact absurd type noArray
      · exact absurd type noObject

end

end TribunusCompute.Gbnf
