import TribunusCompute.Grammar.Parse
import TribunusCompute.Library.Keyed

/-!
# The syntax of grammar text

What a text says, whatever reads it: the strings, classes, references, groups and
repetitions that `json_schema_to_gbnf` writes. The inside of a string and of a class
is left to a `Lexis`.
-/
namespace TribunusCompute.Gbnf

/-- How the inside of a string and of a class is read. -/
structure Lexis where
  literal : List Char → List Char → Prop
  charClass : List Char → GrammarNode → Prop

inductive Level
  | atom
  | term
  | terms
  | alts

def Blank (s : List Char) : Prop := ∀ ch ∈ s, isWhitespace ch = true

theorem blank_nil : Blank [] := fun _ member => nomatch member

def seqNode : List GrammarNode → GrammarNode
  | [node] => node
  | nodes => .seq nodes

def altNode : List GrammarNode → GrammarNode
  | [node] => node
  | nodes => .alt nodes

/-- The text says these nodes: one at the levels of an atom and a term, the elements of a
sequence, the branches of an alternation. -/
inductive Reads (lexis : Lexis) : Level → List Char → List GrammarNode → Prop
  | literal {text s : List Char} (means : lexis.literal text s) :
      Reads lexis .atom ('"' :: (text ++ ['"'])) [.lit (String.ofList s)]
  | charClass {body : List Char} {node : GrammarNode} (means : lexis.charClass body node) :
      Reads lexis .atom ('[' :: (body ++ [']'])) [node]
  | ref {name : List Char} (identifier : isIdentifier name = true) :
      Reads lexis .atom name [.ref (String.ofList name)]
  | group {lead s trail : List Char} {nodes : List GrammarNode} (before : Blank lead)
      (inside : Reads lexis .alts s nodes) (after : Blank trail) :
      Reads lexis .atom ('(' :: (lead ++ s ++ trail ++ [')'])) [altNode nodes]
  | plain {s : List Char} {node : GrammarNode} (base : Reads lexis .atom s [node]) :
      Reads lexis .term s [node]
  | star {s : List Char} {node : GrammarNode} (base : Reads lexis .atom s [node]) :
      Reads lexis .term (s ++ ['*']) [.star node]
  | plus {s : List Char} {node : GrammarNode} (base : Reads lexis .atom s [node]) :
      Reads lexis .term (s ++ ['+']) [.plus node]
  | opt {s : List Char} {node : GrammarNode} (base : Reads lexis .atom s [node]) :
      Reads lexis .term (s ++ ['?']) [.opt node]
  | one {s : List Char} {node : GrammarNode} (only : Reads lexis .term s [node]) :
      Reads lexis .terms s [node]
  | more {s gap t : List Char} {node : GrammarNode} {nodes : List GrammarNode}
      (first : Reads lexis .term s [node]) (blank : Blank gap) (some_ : gap ≠ [])
      (rest : Reads lexis .terms t nodes) : Reads lexis .terms (s ++ gap ++ t) (node :: nodes)
  | single {s : List Char} {nodes : List GrammarNode} (only : Reads lexis .terms s nodes) :
      Reads lexis .alts s [seqNode nodes]
  | branch {s gap gap' t : List Char} {nodes branches : List GrammarNode}
      (first : Reads lexis .terms s nodes) (before : Blank gap) (after : Blank gap')
      (rest : Reads lexis .alts t branches) :
      Reads lexis .alts (s ++ gap ++ '|' :: (gap' ++ t)) (seqNode nodes :: branches)

/-- The inside of a string, with its escapes. -/
inductive Literal : List Char → List Char → Prop
  | nil : Literal [] []
  | plain {ch : Char} {text s : List Char} (noQuote : ch ≠ '"') (noEscape : ch ≠ '\\')
      (rest : Literal text s) : Literal (ch :: text) (ch :: s)
  | escape {ch : Char} {text s : List Char} (noHex : ch ≠ 'x') (rest : Literal text s) :
      Literal ('\\' :: ch :: text) (unescapeChar ch :: s)

/-- The members of a class are read as they stand, a blank among them too. -/
structure OrdinaryClass (body : List Char) (node : GrammarNode) : Prop where
  closed : ']' ∉ body
  ranges : (classRanges (if body.head? = some '^' then body.tail else body)).map
    (GrammarNode.charClass · (body.head? = some '^')) = .ok node

/-- The usual reading of grammar text. -/
def ordinary : Lexis := ⟨Literal, OrdinaryClass⟩

/-- A class body that no scanner takes for anything else: the scanner of alternations looks for
quotes and brackets inside a class too. -/
structure Quiet (body : List Char) : Prop where
  plain : ∀ ch ∈ body, ch ∉ ['"', '(', ')', '[', ']', 'x']
  extent : ∀ rest, classExtent 1 (body ++ ']' :: rest) = body.length + 1

/-- What the scanners of `parse_gbnf` read as it stands. -/
def scanned : Lexis where
  literal text s := Literal text s ∧ text.getLast? ≠ some '\\'
  charClass body node := parseCharClass body = .ok node ∧ Quiet body

/-! ## Rules -/

def Spaces (s : List Char) : Prop := ∀ ch ∈ s, ch = ' '

theorem Spaces.blank {s : List Char} (spaces : Spaces s) : Blank s := by
  intro ch member
  rw [spaces ch member]
  rfl

structure ReadsLine (lexis : Lexis) (line : List Char) (rule : String × GrammarNode) : Prop where
  oneLine : '\n' ∉ line
  read : ∃ name gap lead body trail nodes, line = name ++ gap ++ "::=".toList ++ (lead ++ body ++ trail) ∧
    isIdentifier name = true ∧ Spaces gap ∧ Spaces lead ∧ Spaces trail ∧
    Reads lexis .alts body nodes ∧ rule = (String.ofList name, altNode nodes)

inductive ReadsRules (lexis : Lexis) : List Char → List (String × GrammarNode) → Prop
  | nil : ReadsRules lexis [] []
  | cons {line text : List Char} {rule : String × GrammarNode}
      {rules : List (String × GrammarNode)} (first : ReadsLine lexis line rule)
      (rest : ReadsRules lexis text rules) :
      ReadsRules lexis (line ++ '\n' :: text) (rule :: rules)

/-- The rules by name: a later one takes the place of an earlier one. -/
def rulesOf (rules : List (String × GrammarNode)) : Rules :=
  rules.foldl (fun known rule => known.insert rule.1 rule.2) ∅

theorem rulesOf_concat (rules : List (String × GrammarNode)) (rule : String × GrammarNode) :
    rulesOf (rules ++ [rule]) = (rulesOf rules).insert rule.1 rule.2 := by
  rw [rulesOf, List.foldl_append]
  rfl

theorem mem_rulesOf {rules : List (String × GrammarNode)} {name : String} :
    name ∈ rulesOf rules ↔ name ∈ rules.map (·.1) := by
  induction rules using List.reverseRecOn with
  | nil => simp [rulesOf]
  | append_singleton rules rule ih =>
    rw [rulesOf_concat, AList.mem_insert, ih, List.map_append, List.mem_append, or_comm]
    simp

/-- What is looked up is one of the rules, the last one of its name. -/
theorem mem_of_lookup_rulesOf {rules : List (String × GrammarNode)} {name : String}
    {node : GrammarNode} (found : (rulesOf rules).lookup name = some node) :
    (name, node) ∈ rules := by
  induction rules using List.reverseRecOn with
  | nil => simp [rulesOf] at found
  | append_singleton rules rule ih =>
    rw [rulesOf_concat] at found
    rcases Keyed.lookup_insert_eq_some_iff.mp found with ⟨rfl, rfl⟩ | ⟨-, found⟩
    · simp
    · exact List.mem_append_left _ (ih found)

theorem mem_later_of_lookup_rulesOf {before after : List (String × GrammarNode)} {name : String}
    {node : GrammarNode} (later : name ∈ after.map (·.1))
    (found : (rulesOf (before ++ after)).lookup name = some node) : (name, node) ∈ after := by
  induction after using List.reverseRecOn with
  | nil => cases later
  | append_singleton after rule ih =>
    rw [← List.append_assoc, rulesOf_concat] at found
    rcases Keyed.lookup_insert_eq_some_iff.mp found with ⟨rfl, rfl⟩ | ⟨same, found⟩
    · simp
    · have inAfter : name ∈ after.map (·.1) := by simpa [same] using later
      exact List.mem_append_left _ (ih inAfter found)

/-- The text is the text of a grammar, whose root is its first rule. -/
def ReadsGrammar (lexis : Lexis) (text : List Char) (g : Grammar) : Prop :=
  ∃ root rules, ReadsRules lexis text (root :: rules) ∧ g = ⟨rulesOf (root :: rules), root.1⟩

section
variable {lexis : Lexis}

/-! ## What a text begins and ends with -/

/-- No blank at either end, and no suffix at the front. -/
structure Edged (s : List Char) : Prop where
  first : ∃ ch rest, s = ch :: rest ∧ isWhitespace ch = false ∧ isSuffix ch = false
  last : ∃ front ch, s = front ++ [ch] ∧ isWhitespace ch = false

theorem Edged.ne_nil {s : List Char} (edged : Edged s) : s ≠ [] := by
  obtain ⟨ch, rest, rfl, -⟩ := edged.first
  exact List.cons_ne_nil _ _

theorem Edged.append {s t : List Char} (left : Edged s) (right : Edged t) (gap : List Char) :
    Edged (s ++ gap ++ t) where
  first := by
    obtain ⟨ch, rest, rfl, plain⟩ := left.first
    exact ⟨ch, rest ++ gap ++ t, rfl, plain⟩
  last := by
    obtain ⟨front, ch, rfl, plain⟩ := right.last
    exact ⟨s ++ gap ++ front, ch, by simp, plain⟩

theorem Edged.suffix {s : List Char} (edged : Edged s) {ch : Char} (dark : isWhitespace ch = false) :
    Edged (s ++ [ch]) where
  first := by
    obtain ⟨first, rest, rfl, plain⟩ := edged.first
    exact ⟨first, rest ++ [ch], rfl, plain⟩
  last := ⟨s, ch, rfl, dark⟩

theorem dropWhile_blank {lead rest : List Char} (blank : Blank lead)
    (dark : ∀ ch ∈ rest.head?, isWhitespace ch = false) :
    (lead ++ rest).dropWhile isWhitespace = rest := by
  rw [List.dropWhile_append_of_pos blank]
  cases rest with
  | nil => rfl
  | cons ch rest => simp [dark ch rfl]

theorem takeWhile_blank {lead rest : List Char} (blank : Blank lead)
    (dark : ∀ ch ∈ rest.head?, isWhitespace ch = false) :
    (lead ++ rest).takeWhile isWhitespace = lead := by
  rw [List.takeWhile_append_of_pos blank]
  cases rest with
  | nil => simp
  | cons ch rest => simp [dark ch rfl]

theorem Edged.trim {s : List Char} (edged : Edged s) {lead trail : List Char} (before : Blank lead)
    (after : Blank trail) : trim (lead ++ s ++ trail) = s := by
  obtain ⟨ch, rest, same, dark, -⟩ := edged.first
  obtain ⟨front, ch', same', dark'⟩ := edged.last
  have dropped : (lead ++ s ++ trail).dropWhile isWhitespace = s ++ trail := by
    rw [List.append_assoc]
    exact dropWhile_blank before (by simp [same, dark])
  have reversed : (s ++ trail).reverse = trail.reverse ++ s.reverse := List.reverse_append
  rw [Gbnf.trim, dropped, List.rdropWhile, reversed,
    dropWhile_blank (fun ch member => after ch (List.mem_reverse.mp member)) (by simp [same', dark']),
    List.reverse_reverse]

theorem Edged.trim_self {s : List Char} (edged : Edged s) : Gbnf.trim s = s := by
  simpa using edged.trim blank_nil blank_nil

/-! ## Identifiers -/

def identifierChar (ch : Char) : Bool := ch.isAlphanum || ch == '_' || ch == '-'

theorem identifierChar_of_isIdentifier {name : List Char} (identifier : isIdentifier name = true) :
    ∀ ch ∈ name, identifierChar ch = true := by
  cases name with
  | nil => simp
  | cons first rest =>
    simp only [isIdentifier, Bool.and_eq_true, List.all_eq_true] at identifier
    intro ch member
    rcases List.mem_cons.mp member with rfl | later
    · have := identifier.1
      simp only [identifierChar, Char.isAlphanum]
      grind
    · exact identifier.2 ch later

theorem identifierChar_range {ch : Char} (member : identifierChar ch = true) :
    45 ≤ ch.toNat ∧ ch.toNat ≤ 122 := by
  have upper : ch.isUpper = decide (ch.val ≥ 'A'.val ∧ ch.val ≤ 'Z'.val) := rfl
  have lower : ch.isLower = (decide (ch.val ≥ 'a'.val) && decide (ch.val ≤ 'z'.val)) := rfl
  have alpha : ch.isAlpha = (ch.isUpper || ch.isLower) := rfl
  simp only [identifierChar, Char.isAlphanum, alpha, upper, lower, Char.isDigit, Bool.or_eq_true,
    Bool.and_eq_true, decide_eq_true_eq, beq_iff_eq, UInt32.le_iff_toNat_le, ge_iff_le] at member
  change ((((65 ≤ ch.toNat ∧ ch.toNat ≤ 90) ∨ (97 ≤ ch.toNat ∧ ch.toNat ≤ 122)) ∨
    (48 ≤ ch.toNat ∧ ch.toNat ≤ 57)) ∨ ch = '_') ∨ ch = '-' at member
  rcases member with (letters | rfl) | rfl
  · omega
  · decide
  · decide

theorem dark_of_range {ch : Char} (low : 33 ≤ ch.toNat) (high : ch.toNat ≤ 127) :
    isWhitespace ch = false := by
  simp only [isWhitespace, Bool.or_eq_false_iff, Bool.and_eq_false_iff, decide_eq_false_iff_not,
    beq_eq_false_iff_ne]
  omega

theorem dark_of_identifierChar {ch : Char} (member : identifierChar ch = true) :
    isWhitespace ch = false := by
  have range := identifierChar_range member
  exact dark_of_range (by omega) (by omega)

theorem not_mem_of_identifierChar {ch : Char} (member : identifierChar ch = true) {others : List Char}
    (none_ : others.all (fun other => !identifierChar other) = true) : ch ∉ others := by
  intro there
  have other := List.all_eq_true.mp none_ ch there
  rw [member] at other
  cases other

theorem continues_of_identifierChar {ch : Char} (member : identifierChar ch = true) :
    continues ch = true := by
  have dark := dark_of_identifierChar member
  have other : ch ∉ ['|', '*', '+', '?', ')', ']'] :=
    not_mem_of_identifierChar member (by rfl)
  simp only [continues, dark, other, decide_false, Bool.not_false, Bool.and_true]

theorem edged_identifier {name : List Char} (identifier : isIdentifier name = true) :
    Edged name := by
  have chars := identifierChar_of_isIdentifier identifier
  have some_ : name ≠ [] := by
    rintro rfl
    cases identifier
  have noSuffix (ch : Char) (member : identifierChar ch = true) : isSuffix ch = false :=
    decide_eq_false (not_mem_of_identifierChar member (by rfl))
  obtain ⟨first, rest, rfl⟩ := List.exists_cons_of_ne_nil some_
  have member := chars first List.mem_cons_self
  have last := chars _ (List.getLast_mem some_)
  exact ⟨⟨first, rest, rfl, dark_of_identifierChar member, noSuffix first member⟩,
    ⟨_, _, (List.dropLast_append_getLast some_).symm, dark_of_identifierChar last⟩⟩

theorem Reads.edged {level : Level} {s : List Char} {nodes : List GrammarNode}
    (reads : Reads lexis level s nodes) : Edged s := by
  induction reads with
  | literal => exact ⟨⟨_, _, rfl, by decide, by decide⟩, ⟨_, _, List.cons_append.symm, by decide⟩⟩
  | charClass => exact ⟨⟨_, _, rfl, by decide, by decide⟩, ⟨_, _, List.cons_append.symm, by decide⟩⟩
  | ref identifier => exact edged_identifier identifier
  | group => exact ⟨⟨_, _, rfl, by decide, by decide⟩, ⟨_, _, List.cons_append.symm, by decide⟩⟩
  | plain _ ih => exact ih
  | star _ ih => exact ih.suffix (by decide)
  | plus _ ih => exact ih.suffix (by decide)
  | opt _ ih => exact ih.suffix (by decide)
  | one _ ih => exact ih
  | more _ _ _ _ first rest => exact first.append rest _
  | single _ ih => exact ih
  | @branch s gap gap' t _ _ _ _ _ _ first rest =>
    have := first.append rest (gap ++ '|' :: gap')
    simpa using this

end

end TribunusCompute.Gbnf
