import TribunusCompute.Grammar.SchemaRules

/-!
# The lines for a JSON schema are grammar text

Each line of the text reads as its rule, for any reader of escaped strings and of the
classes in the helper rules.
-/
namespace TribunusCompute.Gbnf

/-! ## Elements and branches -/

section
variable {lexis : Lexis} {s t gap : List Char}

theorem Reads.append {nodes nodes' : List GrammarNode} (first : Reads lexis .terms s nodes)
    (blank : Blank gap) (some_ : gap ≠ []) (rest : Reads lexis .terms t nodes') :
    Reads lexis .terms (s ++ gap ++ t) (nodes ++ nodes') := by
  generalize isTerms : Level.terms = level at first
  induction first with
  | one only => exact .more only blank some_ rest
  | more first blank' some' _ _ ih =>
    have := Reads.more first blank' some' (ih isTerms)
    simpa using this
  | _ => cases isTerms

theorem blank_space : Blank [' '] := by
  intro ch member
  rw [List.mem_singleton.mp member]
  rfl

theorem Blank.append {s t : List Char} (left : Blank s) (right : Blank t) : Blank (s ++ t) := by
  intro ch member
  rcases List.mem_append.mp member with member | member
  · exact left ch member
  · exact right ch member

theorem Reads.cons {node : GrammarNode} {nodes : List GrammarNode}
    (first : Reads lexis .term s [node]) (rest : Reads lexis .terms t nodes) :
    Reads lexis .terms (s ++ [' '] ++ t) (node :: nodes) :=
  .more first blank_space (List.cons_ne_nil _ _) rest

theorem Reads.or {nodes branches : List GrammarNode} (first : Reads lexis .terms s nodes)
    (rest : Reads lexis .alts t branches) :
    Reads lexis .alts (s ++ [' '] ++ '|' :: ([' '] ++ t)) (seqNode nodes :: branches) :=
  .branch first blank_space blank_space rest

theorem Reads.groupTerm {nodes : List GrammarNode} (inside : Reads lexis .alts s nodes) :
    Reads lexis .atom ('(' :: (s ++ [')'])) [altNode nodes] := by
  simpa using Reads.group blank_nil inside blank_nil

theorem reads_ref {name : List Char} (identifier : isIdentifier name = true) :
    Reads lexis .term name [refNode name] := .plain (.ref identifier)

theorem reads_ws : Reads lexis .term "ws".toList [.ref "ws"] := @reads_ref lexis _ rfl

end

def ReadsBody (lexis : Lexis) (body : List Char) (node : GrammarNode) : Prop :=
  ∃ lead core trail nodes, body = lead ++ core ++ trail ∧ Spaces lead ∧ Spaces trail ∧
    Reads lexis .alts core nodes ∧ node = altNode nodes

theorem spaces_nil : Spaces [] := fun _ member => nomatch member

theorem spaces_space : Spaces [' '] := fun _ member => List.mem_singleton.mp member

theorem Reads.body {lexis : Lexis} {body : List Char} {nodes : List GrammarNode}
    (reads : Reads lexis .alts body nodes) : ReadsBody lexis body (altNode nodes) :=
  ⟨[], body, [], nodes, by simp, spaces_nil, spaces_nil, reads, rfl⟩

theorem ReadsBody.of_text {lexis : Lexis} {body body' : List Char} {node : GrammarNode}
    (reads : ReadsBody lexis body node) (same : body' = body) : ReadsBody lexis body' node :=
  same ▸ reads

/-- Escaped text reads as what was escaped, and the classes of the helper rules as theirs. -/
structure Reader (lexis : Lexis) (classes : Classes) : Prop where
  literal : ∀ s, s.getLast? ≠ some '\\' → lexis.literal (escapeJsonString s) s
  blank : lexis.charClass " \\t\\n".toList classes.blank
  digit : lexis.charClass "0-9".toList classes.digit

section
variable {lexis : Lexis} {classes : Classes} (reader : Reader lexis classes)
include reader

theorem Reader.lit (s : List Char) (ends : s.getLast? ≠ some '\\') :
    Reads lexis .term ('"' :: (escapeJsonString s ++ ['"'])) [.lit (String.ofList s)] :=
  .plain (.literal (reader.literal s ends))

theorem Reader.mark (ch : Char) (plain : escapeJsonChar ch = [ch]) (noEscape : ch ≠ '\\') :
    Reads lexis .term ['"', ch, '"'] [.lit (String.ofList [ch])] := by
  have := reader.lit [ch] (by simpa using noEscape)
  simpa [escapeJsonString, plain] using this

theorem Reader.ws : ReadsBody lexis wsBody (.star classes.blank) :=
  (Reads.single (.one (.star (.charClass reader.blank)))).body

theorem Reader.string (unquoted : lexis.charClass "^\"".toList classes.unquoted) :
    ReadsBody lexis stringBody (stringLine classes).node := by
  have quote := reader.lit ['"'] (by decide)
  have inside : Reads lexis .atom "([^\"]*)".toList [.star classes.unquoted] :=
    .groupTerm (.single (.one (.star (.charClass unquoted))))
  exact (Reads.single (.cons quote (.cons (.plain inside) (.one quote)))).body

theorem Reader.digits : Reads lexis .term "[0-9]+".toList [.plus classes.digit] :=
  .plus (.charClass reader.digit)

theorem Reader.sign : Reads lexis .term "(\"-\" | \"\")".toList [signNode] := by
  have inside : Reads lexis .alts "\"-\" | \"\"".toList [.lit "-", .lit ""] :=
    .or (.one (reader.mark '-' rfl (by decide))) (.single (.one (reader.lit [] (by decide))))
  exact .plain inside.groupTerm

theorem Reader.integer : ReadsBody lexis integerBody (integerLine classes).node :=
  (Reads.single (.cons reader.sign (.one reader.digits))).body

theorem Reader.number : ReadsBody lexis numberBody (numberLine classes).node := by
  have fraction : Reads lexis .alts "\".\" [0-9]+".toList [.seq [.lit ".", .plus classes.digit]] :=
    .single (.cons (reader.mark '.' rfl (by decide)) (.one reader.digits))
  exact (Reads.single (.cons reader.sign (.cons reader.digits (.one (.opt fraction.groupTerm))))).body

theorem Reader.anyObject : ReadsBody lexis anyObjectBody anyObjectNode := by
  have opens := reader.mark '\x7b' rfl (by decide)
  have closes := reader.mark '\x7d' rfl (by decide)
  exact (Reads.single (.cons opens (.cons reads_ws (.one closes)))).body

theorem Reader.anyArray : ReadsBody lexis anyArrayBody anyArrayNode := by
  have opens := reader.mark '[' rfl (by decide)
  have closes := reader.mark ']' rfl (by decide)
  exact (Reads.single (.cons opens (.cons reads_ws (.one closes)))).body

theorem Reader.boolean : ReadsBody lexis booleanBody booleanNode := by
  have yes := reader.lit "true".toList (by decide)
  have no := reader.lit "false".toList (by decide)
  exact (Reads.or (.one yes) (.single (.one no))).body

theorem Reader.null : ReadsBody lexis nullBody (.lit "null") :=
  (Reads.single (.one (reader.lit "null".toList (by decide)))).body

theorem Reader.array {item : List Char} (identifier : isIdentifier item = true) :
    ReadsBody lexis (arrayBody item) (arrayNode item) := by
  have opens := reader.mark '[' rfl (by decide)
  have closes := reader.mark ']' rfl (by decide)
  have comma := reader.mark ',' rfl (by decide)
  have ref : Reads lexis .term item [refNode item] := reads_ref identifier
  have more := Reads.groupTerm (.single (.cons comma (.cons reads_ws (.one ref))))
  have items := Reads.groupTerm (.single (.cons ref (.one (.star more))))
  have whole := (Reads.single (.cons opens (.cons reads_ws (.cons (.plain items)
    (.cons reads_ws (.one closes)))))).body
  refine whole.of_text ?_
  unfold arrayBody
  simp only [List.append_assoc, List.cons_append, List.nil_append]
  rfl

theorem Reader.member {propName subRule : List Char} (plain : PlainName propName)
    (identifier : isIdentifier subRule = true) :
    ∃ core, memberPair propName subRule = [' '] ++ core ++ [' '] ∧
      Reads lexis .terms core (memberNodes propName subRule) := by
  have key := reader.lit propName plain.ends
  have colon := reader.mark ':' rfl (by decide)
  have value : Reads lexis .term subRule [refNode subRule] := reads_ref identifier
  refine ⟨_, ?_, .cons key (.cons reads_ws (.cons colon (.cons reads_ws (.one value))))⟩
  simp [memberPair]

theorem Reader.optional {propName subRule : List Char} (plain : PlainName propName)
    (identifier : isIdentifier subRule = true) :
    ReadsBody lexis (optionalBody (memberPair propName subRule))
      (optionalNode propName subRule) := by
  obtain ⟨core, text, reads⟩ := reader.member plain identifier
  have none_ := reader.lit [] (by decide)
  have blank : Blank "  ".toList := by
    intro ch member
    simp at member
    rw [member]
    rfl
  refine ⟨[' '], _, [], _, ?_, spaces_space, spaces_nil,
    .branch reads blank blank_space (.single (.one none_)), rfl⟩
  simp [optionalBody, text, escapeJsonString]

def ReadsMember (lexis : Lexis) (member : Member) : Prop :=
  ∃ lead core trail, member.text = lead ++ core ++ trail ∧ Spaces lead ∧ Spaces trail ∧
    Reads lexis .terms core member.nodes

theorem Reader.joined {members : List Member} (each : ∀ member ∈ members, ReadsMember lexis member)
    (some_ : members ≠ []) :
    ReadsMember lexis ⟨List.intercalate " \",\" ws ".toList (members.map Member.text),
      joinMembers members⟩ := by
  have comma := reader.mark ',' rfl (by decide)
  induction members with
  | nil => exact absurd rfl some_
  | cons member members ih =>
    cases members with
    | nil => simpa [joinMembers] using each member List.mem_cons_self
    | cons next members =>
      obtain ⟨lead, core, trail, text, spaces, spaces', reads⟩ := each member List.mem_cons_self
      obtain ⟨lead', core', trail', text', before, after, reads'⟩ :=
        ih (fun other there => each other (List.mem_cons_of_mem _ there)) (List.cons_ne_nil _ _)
      have gap : Blank (trail ++ [' ']) := spaces'.blank.append blank_space
      have gap' : Blank ([' '] ++ lead') := blank_space.append before.blank
      have rest := Reads.cons comma (.append (.one reads_ws) gap' (by simp) reads')
      refine ⟨lead, _, trail', ?_, spaces, after, .append reads gap (by simp) rest⟩
      simp only [List.map_cons, List.intercalate_cons_cons] at text' ⊢
      rw [text', text]
      simp

theorem Reader.object {members : List Member}
    (each : ∀ member ∈ members, ReadsMember lexis member) :
    ReadsBody lexis (objectBody (members.map Member.text)) (objectNode members) := by
  have opens := reader.mark '\x7b' rfl (by decide)
  have closes := reader.mark '\x7d' rfl (by decide)
  by_cases none_ : members = []
  · subst none_
    exact (Reads.single (.one (reader.lit ['\x7b', '\x7d'] (by decide)))).body
  · obtain ⟨lead, core, trail, text, before, after, reads⟩ := reader.joined each none_
    have gap : Blank ([' '] ++ lead) := blank_space.append before.blank
    have gap' : Blank (trail ++ [' ']) := after.blank.append blank_space
    have whole := (Reads.single (.cons opens (.append (.one reads_ws) gap (by simp)
      (.append reads gap' (by simp) (.one closes))))).body
    have empty : members.isEmpty = false := List.isEmpty_eq_false_iff.mpr none_
    rw [objectNode, empty]
    refine whole.of_text ?_
    have text' : List.intercalate " \",\" ws ".toList (members.map Member.text) =
        lead ++ core ++ trail := text
    simp only [objectBody, List.isEmpty_map, empty, text', Bool.false_eq_true, if_false,
      List.append_assoc, List.cons_append, List.nil_append]
    rfl

theorem Reader.enumeration {toString : Json Number → Option (List Char)}
    {values : List (Json Number)} (some_ : values ≠ [])
    (ends : ∀ v ∈ values, (enumText toString v).getLast? ≠ some '\\') :
    ReadsBody lexis (enumBody toString values)
      (altNode (values.map fun v => .lit (String.ofList (enumText toString v)))) := by
  refine Reads.body ?_
  induction values with
  | nil => exact absurd rfl some_
  | cons v values ih =>
    have first := reader.lit (enumText toString v) (ends v List.mem_cons_self)
    cases values with
    | nil => simpa [enumBody, enumText, seqNode] using Reads.single (.one first)
    | cons next values =>
      have rest := ih (List.cons_ne_nil _ _) fun other there => ends other (List.mem_cons_of_mem _ there)
      have whole := Reads.or (.one first) rest
      have text : enumBody toString (v :: next :: values) =
          '"' :: (escapeJsonString (enumText toString v) ++ ['"']) ++ [' '] ++
            '|' :: ([' '] ++ enumBody toString (next :: values)) := by
        simp [enumBody, enumText, List.intercalate_cons_cons]
      rw [text]
      exact whole

end

/-! ### Lines -/

structure Readable (lexis : Lexis) (line : Line) : Prop where
  name : isIdentifier line.name = true
  body : ReadsBody lexis line.body line.node
  oneLine : '\n' ∉ line.body

theorem Readable.readsLine {lexis : Lexis} {line : Line} (readable : Readable lexis line) :
    ReadsLine lexis (line.name ++ " ::= ".toList ++ line.body) line.rule where
  oneLine := by
    have inName : '\n' ∉ line.name := fun member =>
      absurd (identifierChar_of_isIdentifier readable.name _ member) (by decide)
    simp [inName, readable.oneLine]
  read := by
    obtain ⟨lead, core, trail, nodes, text, before, after, reads, node⟩ := readable.body
    refine ⟨line.name, [' '], ' ' :: lead, core, trail, nodes, by simp [text], readable.name,
      spaces_space, ?_, after, reads, by rw [← node]; rfl⟩
    intro ch member
    rcases List.mem_cons.mp member with rfl | member
    · rfl
    · exact before ch member

theorem readsRules_lines {lexis : Lexis} {lines : List Line}
    (readable : ∀ line ∈ lines, Readable lexis line) :
    ReadsRules lexis (linesText lines) (lines.map Line.rule) := by
  induction lines with
  | nil => exact .nil
  | cons line lines ih =>
    have text : linesText (line :: lines) =
        line.name ++ " ::= ".toList ++ line.body ++ '\n' :: linesText lines := by
      simp [linesText, Line.text, ruleText]
    rw [text]
    exact .cons (readable line List.mem_cons_self).readsLine
      (ih fun other member => readable other (List.mem_cons_of_mem _ member))

theorem newline_not_mem_escape (s : List Char) : '\n' ∉ escapeJsonString s := by
  intro member
  obtain ⟨ch, -, there⟩ := List.mem_flatMap.mp member
  unfold escapeJsonChar at there
  split at there <;> simp at there
  subst there
  contradiction

/-- The characters of names and of what is written around them. -/
def scriptChar (ch : Char) : Bool :=
  identifierChar ch || " \"()[]|*+?,:.^\\\x7b\x7d".toList.contains ch

def Scripted (s : List Char) : Prop := ∀ ch ∈ s, scriptChar ch = true

theorem Scripted.append {s t : List Char} (left : Scripted s) (right : Scripted t) :
    Scripted (s ++ t) :=
  List.forall_mem_append.mpr ⟨left, right⟩

theorem scripted_closed {s : List Char} (all : s.all scriptChar = true) : Scripted s :=
  List.all_eq_true.mp all

theorem PlainName.scripted {s : List Char} (plain : PlainName s) : Scripted s :=
  fun ch member => by rw [scriptChar, plain ch member, Bool.true_or]

theorem scripted_name {name : List Char} (identifier : isIdentifier name = true) :
    Scripted name :=
  PlainName.scripted (identifierChar_of_isIdentifier identifier)

theorem Scripted.not_mem {s : List Char} (scripted : Scripted s) {ch : Char}
    (other : scriptChar ch = false) : ch ∉ s := by
  intro member
  rw [scripted ch member] at other
  cases other

theorem forall_mem_intercalate {P : Char → Prop} {sep : List Char} (between : ∀ ch ∈ sep, P ch)
    {parts : List (List Char)} (each : ∀ part ∈ parts, ∀ ch ∈ part, P ch) :
    ∀ ch ∈ List.intercalate sep parts, P ch := by
  induction parts with
  | nil => exact nofun
  | cons part parts ih =>
    obtain ⟨here, others⟩ := List.forall_mem_cons.mp each
    cases parts with
    | nil => rwa [List.intercalate_singleton]
    | cons next parts =>
      rw [List.intercalate_cons_cons]
      exact List.forall_mem_append.mpr ⟨List.forall_mem_append.mpr ⟨here, between⟩, ih others⟩

theorem escape_plain {propName : List Char} (plain : PlainName propName) :
    escapeJsonString propName = propName := by
  induction propName with
  | nil => rfl
  | cons ch propName ih =>
    have here : escapeJsonChar ch = [ch] := by
      have member := plain ch List.mem_cons_self
      unfold escapeJsonChar
      split
      all_goals first
        | rfl
        | cases member
    rw [escapeJsonString, List.flatMap_cons, here]
    exact congrArg (ch :: ·) (ih fun other there => plain other (List.mem_cons_of_mem _ there))

section
variable {name propName : List Char} (identifier : isIdentifier name = true)
include identifier

theorem scripted_arrayBody : Scripted (arrayBody name) := by
  have item := scripted_name identifier
  exact ((((scripted_closed rfl).append item).append (scripted_closed rfl)).append item).append (scripted_closed rfl)

theorem scripted_memberPair (plain : PlainName propName) : Scripted (memberPair propName name) := by
  have sub := scripted_name identifier
  rw [memberPair, escape_plain plain]
  exact ((((scripted_closed rfl).append plain.scripted).append (scripted_closed rfl)).append sub).append
    (scripted_closed rfl)

theorem scripted_memberOf (plain : PlainName propName) (isRequired : Bool) :
    Scripted (memberOf name propName isRequired).text := by
  unfold memberOf
  split
  next => exact scripted_memberPair (isIdentifier_subRuleName identifier plain) plain
  next => exact scripted_name (isIdentifier_optRuleName identifier plain)

end

theorem scripted_objectBody {members : List Member} (each : ∀ member ∈ members, Scripted member.text) :
    Scripted (objectBody (members.map Member.text)) := by
  unfold objectBody
  split
  next => exact scripted_closed rfl
  next =>
    refine ((scripted_closed rfl).append (forall_mem_intercalate (scripted_closed rfl) ?_)).append
      (scripted_closed rfl)
    intro part there
    obtain ⟨member, inMembers, rfl⟩ := List.mem_map.mp there
    exact each member inMembers

theorem newline_not_mem_enumBody (toString : Json Number → Option (List Char))
    (values : List (Json Number)) : '\n' ∉ enumBody toString values := by
  unfold enumBody
  induction values with
  | nil => exact fun member => nomatch member
  | cons v values ih =>
    cases values with
    | nil => simp [newline_not_mem_escape]
    | cons next values =>
      rw [List.map_cons, List.map_cons, List.intercalate_cons_cons]
      simp only [List.mem_append, not_or]
      exact ⟨⟨by simp [newline_not_mem_escape], by decide⟩, ih⟩

theorem readable_ref {lexis : Lexis} {name helper : List Char} (identifier : isIdentifier name = true)
    (identifier' : isIdentifier helper = true) : Readable lexis ⟨name, helper, refNode helper⟩ :=
  ⟨identifier, (Reads.single (.one (reads_ref identifier'))).body,
    (scripted_name identifier').not_mem rfl⟩

section
variable {lexis : Lexis} {classes : Classes} (reader : Reader lexis classes)
include reader

theorem Reader.wsLine : Readable lexis (wsLine classes) :=
  ⟨rfl, reader.ws, Scripted.not_mem (scripted_closed rfl) rfl⟩

theorem Reader.integerLine : Readable lexis (integerLine classes) :=
  ⟨rfl, reader.integer, Scripted.not_mem (scripted_closed rfl) rfl⟩

theorem Reader.numberLine : Readable lexis (numberLine classes) :=
  ⟨rfl, reader.number, Scripted.not_mem (scripted_closed rfl) rfl⟩

theorem Reader.stringLine (unquoted : lexis.charClass "^\"".toList classes.unquoted) :
    Readable lexis (stringLine classes) :=
  ⟨rfl, reader.string unquoted, Scripted.not_mem (scripted_closed rfl) rfl⟩

variable {name propName : List Char}

theorem Reader.arrayLine (identifier : isIdentifier name = true) :
    Readable lexis (arrayLine name) where
  name := identifier
  body := reader.array (isIdentifier_itemRuleName identifier)
  oneLine := (scripted_arrayBody (isIdentifier_itemRuleName identifier)).not_mem rfl

theorem Reader.optLine (identifier : isIdentifier name = true) (plain : PlainName propName) :
    Readable lexis (optLine name propName) where
  name := isIdentifier_optRuleName identifier plain
  body := reader.optional plain (isIdentifier_subRuleName identifier plain)
  oneLine := ((scripted_memberPair (isIdentifier_subRuleName identifier plain) plain).append
    (scripted_closed rfl)).not_mem rfl

theorem Reader.memberOf (identifier : isIdentifier name = true) (plain : PlainName propName)
    (isRequired : Bool) : ReadsMember lexis (memberOf name propName isRequired) := by
  unfold Gbnf.memberOf
  split
  next =>
    obtain ⟨core, text, reads⟩ := reader.member plain (isIdentifier_subRuleName identifier plain)
    exact ⟨[' '], core, [' '], text, spaces_space, spaces_space, reads⟩
  next =>
    exact ⟨[], _, [], (List.append_nil _).symm, spaces_nil, spaces_nil,
      .one (reads_ref (isIdentifier_optRuleName identifier plain))⟩

theorem Reader.objectLine (identifier : isIdentifier name = true) (required : List (List Char))
    {properties : List (List Char × Json Number)}
    (plain : ∀ property ∈ properties, PlainName property.1) :
    Readable lexis (objectLine name (membersOf name required properties)) where
  name := identifier
  body := by
    refine reader.object fun member there => ?_
    obtain ⟨property, inProperties, rfl⟩ := List.mem_map.mp there
    exact reader.memberOf identifier (plain property inProperties) _
  oneLine := by
    refine (scripted_objectBody fun member there => ?_).not_mem rfl
    obtain ⟨property, inProperties, rfl⟩ := List.mem_map.mp there
    exact scripted_memberOf identifier (plain property inProperties) _

end

/-- What an emission needs for its lines to be read: strings only where their class is, and
enumerations of at least one value. -/
structure Covers (lexis : Lexis) (classes : Classes) (toString : Json Number → Option (List Char))
    (strings : Prop) (enums : List (Json Number) → Prop) : Prop where
  reader : Reader lexis classes
  strings : strings → lexis.charClass "^\"".toList classes.unquoted
  enums : ∀ values, enums values →
    values ≠ [] ∧ ∀ v ∈ values, (enumText toString v).getLast? ≠ some '\\'

section
variable {lexis : Lexis} {classes : Classes} {toString : Json Number → Option (List Char)}
  {strings : Prop} {enums : List (Json Number) → Prop}
  (covers : Covers lexis classes toString strings enums)
include covers

theorem Covers.leaf {name : List Char} {schema : Json Number} {body : List Char}
    {node : GrammarNode} {helper : Option Line} (identifier : isIdentifier name = true)
    (written : Written strings enums schema) (noObject : schemaType schema ≠ .object)
    (noArray : schemaType schema ≠ .array)
    (leaf : leafOf classes toString schema = (body, node, helper)) :
    Readable lexis ⟨name, body, node⟩ ∧ ∀ line ∈ helper, Readable lexis line := by
  have reader := covers.reader
  cases written with
  | string type allowed =>
    simp only [leafOf, type, Prod.mk.injEq] at leaf
    obtain ⟨rfl, rfl, rfl⟩ := leaf
    refine ⟨readable_ref identifier rfl, ?_⟩
    rintro _ ⟨⟩
    exact reader.stringLine (covers.strings allowed)
  | integer type =>
    simp only [leafOf, type, Prod.mk.injEq] at leaf
    obtain ⟨rfl, rfl, rfl⟩ := leaf
    refine ⟨readable_ref identifier rfl, ?_⟩
    rintro _ ⟨⟩
    exact reader.integerLine
  | number type =>
    simp only [leafOf, type, Prod.mk.injEq] at leaf
    obtain ⟨rfl, rfl, rfl⟩ := leaf
    refine ⟨readable_ref identifier rfl, ?_⟩
    rintro _ ⟨⟩
    exact reader.numberLine
  -- the types above refer to a helper line, the ones below are written out
  | boolean type =>
    simp only [leafOf, type, Prod.mk.injEq] at leaf
    obtain ⟨rfl, rfl, rfl⟩ := leaf
    exact ⟨⟨identifier, reader.boolean, Scripted.not_mem (scripted_closed rfl) rfl⟩,
      by simp⟩
  | null type =>
    simp only [leafOf, type, Prod.mk.injEq] at leaf
    obtain ⟨rfl, rfl, rfl⟩ := leaf
    exact ⟨⟨identifier, reader.null, Scripted.not_mem (scripted_closed rfl) rfl⟩,
      by simp⟩
  | enumeration type some_ allowed =>
    simp only [leafOf, type, some_, Prod.mk.injEq] at leaf
    obtain ⟨rfl, rfl, rfl⟩ := leaf
    obtain ⟨nonempty, ends⟩ := covers.enums _ allowed
    exact ⟨⟨identifier, reader.enumeration nonempty ends, newline_not_mem_enumBody _ _⟩,
      by simp⟩
  | anyArray type => exact absurd type noArray
  | array type => exact absurd type noArray
  | anyObject type => exact absurd type noObject
  | object type => exact absurd type noObject

theorem Covers.lineInvariant :
    LineInvariant classes toString strings enums (isIdentifier · = true) (Readable lexis) where
  item := isIdentifier_itemRuleName
  value := isIdentifier_subRuleName
  ws := covers.reader.wsLine
  anyObject identifier :=
    ⟨identifier, covers.reader.anyObject, Scripted.not_mem (scripted_closed rfl) rfl⟩
  anyArray identifier :=
    ⟨identifier, covers.reader.anyArray, Scripted.not_mem (scripted_closed rfl) rfl⟩
  array identifier := covers.reader.arrayLine identifier
  opt identifier plain := covers.reader.optLine identifier plain
  object required _ identifier plain := covers.reader.objectLine identifier required plain
  leaf identifier written noObject noArray leaf :=
    covers.leaf identifier written noObject noArray leaf

theorem Covers.readsGrammar {levels : ℕ} {name : List Char} {schema : Json Number}
    {lines : List Line} (identifier : isIdentifier name = true)
    (written : Written strings enums schema)
    (done : schemaLines classes toString levels name schema [rootLine name] = .ok lines) :
    ReadsGrammar lexis (linesText lines) ⟨rulesOf (lines.map Line.rule), "root"⟩ := by
  have root : Readable lexis (rootLine name) := readable_ref rfl identifier
  obtain ⟨new, rfl, readable⟩ := covers.lineInvariant.adds identifier written done
  refine ⟨(rootLine name).rule, new.map Line.rule, ?_, rfl⟩
  exact @readsRules_lines lexis (rootLine name :: new) (List.forall_mem_cons.mpr ⟨root, readable⟩)

end

/-! ## Escaped strings -/

theorem literal_append {text text' s s' : List Char} (first : Literal text s)
    (rest : Literal text' s') : Literal (text ++ text') (s ++ s') := by
  induction first with
  | nil => exact rest
  | plain noQuote noEscape _ ih => exact .plain noQuote noEscape ih
  | escape noHex _ ih => exact .escape noHex ih

theorem literal_escaped {ch : Char} (noHex : ch ≠ 'x') : Literal ['\\', ch] [unescapeChar ch] :=
  .escape noHex .nil

theorem literal_escapeJsonChar (ch : Char) : Literal (escapeJsonChar ch) [ch] := by
  unfold escapeJsonChar
  split
  case h_1 => exact @literal_escaped '"' (by decide)
  case h_2 => exact @literal_escaped '\\' (by decide)
  case h_3 => exact @literal_escaped 'n' (by decide)
  case h_4 => exact @literal_escaped 't' (by decide)
  case h_5 => exact @literal_escaped 'r' (by decide)
  case h_6 noQuote noEscape _ _ _ => exact .plain noQuote noEscape .nil

theorem literal_escapeJsonString (s : List Char) : Literal (escapeJsonString s) s := by
  induction s with
  | nil => exact .nil
  | cons ch s ih => exact literal_append (literal_escapeJsonChar ch) ih

theorem escapeJsonString_ends {s : List Char} (ends : s.getLast? ≠ some '\\') :
    (escapeJsonString s).getLast? ≠ some '\\' := by
  rcases s.eq_nil_or_concat' with rfl | ⟨front, ch, rfl⟩
  · simp [escapeJsonString]
  · have other : ch ≠ '\\' := by simpa using ends
    have last : (escapeJsonChar ch).getLast? ≠ some '\\' ∧ escapeJsonChar ch ≠ [] := by
      unfold escapeJsonChar
      split <;> simp_all
    rw [escapeJsonString, List.flatMap_append, List.flatMap_singleton,
      List.getLast?_append_of_ne_nil _ last.2]
    exact last.1

end TribunusCompute.Gbnf
