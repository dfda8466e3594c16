import TribunusCompute.Grammar.StringRule

/-!
# Which schemas give grammars that compile

The text for a schema parses and compiles where no string is in it and no name is taken
for a helper rule's. With a string in it, it does not parse.
-/
namespace TribunusCompute.Gbnf

/-- The text of a JSON value does not end inside an escape. -/
def Serializes (toString : Json Number → Option (List Char)) : Prop :=
  ∀ v text, toString v = some text → text.getLast? ≠ some '\\'

section
variable {toString : Json Number → Option (List Char)} {used : List Char → Prop}

theorem covers_scanned (serializes : Serializes toString) :
    Covers scanned scannedClasses toString False (CleanEnum toString used) where
  reader := {
    literal := fun s ends => ⟨literal_escapeJsonString s, escapeJsonString_ends ends⟩
    blank := ⟨by rfl, forall_chars (by decide), fun rest => by simp [classExtent]⟩
    digit := ⟨by rfl, forall_chars (by decide), fun rest => by simp [classExtent]⟩ }
  strings := False.elim
  enums values clean := by
    refine ⟨clean.some_, fun v _ => ?_⟩
    cases text : toString v with
    | none => simp [enumText, text]
    | some text' => simpa [enumText, text] using serializes v text' text

/-! ## References lead upwards -/

/-- Names grow along references, and a helper rule is above all of them. -/
def nameRank (name : List Char) (ref : String) : WithTop ℕ :=
  if ref = "root" then 0
  else if ref.toList ∈ helperNames ∧ ref.toList ≠ name then ⊤
  else ((ref.toList.length + 1 : ℕ) : WithTop ℕ)

section
variable {name made : List Char}

theorem nameRank_root : nameRank name "root" = 0 := if_pos rfl

theorem nameRank_helper (isHelper : made ∈ helperNames) (other : made ≠ name) :
    nameRank name (String.ofList made) = ⊤ := by
  have noRoot : String.ofList made ≠ "root" := by
    intro same
    have plain : "root".toList ∉ helperNames := by decide
    rw [← same, String.toList_ofList] at plain
    exact plain isHelper
  rw [nameRank, if_neg noRoot, if_pos (by simpa using ⟨isHelper, other⟩)]

theorem nameRank_made (noRoot : made ≠ "root".toList) (plain : made ∈ helperNames → made = name) :
    nameRank name (String.ofList made) = ((made.length + 1 : ℕ) : WithTop ℕ) := by
  have noRoot' : String.ofList made ≠ "root" := fun same =>
    noRoot (by rw [← same, String.toList_ofList])
  have noHelper : ¬(made ∈ helperNames ∧ made ≠ name) := fun ⟨isHelper, other⟩ =>
    other (plain isHelper)
  rw [nameRank, if_neg noRoot', if_neg (by simpa using noHelper), String.toList_ofList]

/-- Every rank above the root's but for a name that is the root's own. -/
theorem nameRank_pos (noRoot : made ≠ "root".toList) : 0 < nameRank name (String.ofList made) := by
  by_cases plain : made ∈ helperNames → made = name
  · rw [nameRank_made noRoot plain]
    exact WithTop.coe_pos.mpr (Nat.succ_pos _)
  · obtain ⟨isHelper, other⟩ := Classical.not_imp.mp plain
    rw [nameRank_helper isHelper other]
    exact WithTop.top_pos

theorem Suffixed.nameRank (suffixed : Suffixed made) :
    nameRank name (String.ofList made) = ((made.length + 1 : ℕ) : WithTop ℕ) :=
  nameRank_made suffixed.ne_root fun isHelper =>
    absurd (List.suffix_refl made) (suffixed.noHelper made isHelper)

end

theorem uses_blank_of_part {schema inside : Json Number} (part : Part inside schema) :
    "ws".toList ∈ ownUses schema := by
  cases part with
  | item type => exact uses_blank_of_array type
  | property type some_ member => exact uses_blank_of_object type some_ (List.ne_nil_of_mem member)

theorem own_blank_of_uses {schema : Json Number} (uses : Uses "ws".toList schema) :
    "ws".toList ∈ ownUses schema := by
  cases uses with
  | own here => exact here
  | part isPart => exact uses_blank_of_part isPart

theorem NameFits.helper_mem {name : List Char} {schema : Json Number} {lines lines' : List Line}
    (fits : NameFits name schema) (left : Left used name schema lines lines') {helper : List Char}
    (uses : Uses helper schema) (more : ∀ helper, Uses helper schema → used helper)
    (known : helper = "ws".toList ∨ helper ∈ lineNames lines') :
    helper ∈ lineNames lines' := by
  rcases known with rfl | there
  · rcases fits.blank (own_blank_of_uses uses) with ⟨late, apart⟩ | below
    · exact left.blank (more _ uses) late apart
    · exact left.below (more _ uses) below
  · exact there

theorem tidy_root (name : List Char) : Tidy [rootLine name] := by
  have apart : ∀ helper ∈ helperNames, ¬helper <:+ "root".toList := by decide
  intro line member helper isHelper suffix
  rw [List.mem_singleton.mp member] at suffix
  exact absurd suffix (apart helper isHelper)

theorem sober_root {name : List Char} (identifier : isIdentifier name = true) :
    Sober used (rootLine name) :=
  sober_of_scripted rfl (scripted_name identifier)

/-- The rule of the root is the first line's, unless the schema's has its name. -/
theorem root_or_new {known : List (List Char)} {name : List Char} {schema : Json Number}
    {new : List Line} {rule : String} {node : GrammarNode} (own : name ∈ lineNames new)
    (fresh : ∀ line ∈ new, NewLine known name schema line)
    (found : (rulesOf ((rootLine name :: new).map Line.rule)).lookup rule = some node) :
    (rule = "root" ∧ node = refNode name ∧ name ≠ "root".toList) ∨
      ∃ line ∈ new, rule = String.ofList line.name ∧ node = line.node := by
  have ofNew (member : (rule, node) ∈ new.map Line.rule) :
      ∃ line ∈ new, rule = String.ofList line.name ∧ node = line.node := by
    obtain ⟨line, there, same⟩ := List.mem_map.mp member
    cases same
    exact ⟨line, there, rfl, rfl⟩
  rcases List.mem_cons.mp (mem_of_lookup_rulesOf found) with first | later
  · cases first
    by_cases same : name = "root".toList
    · subst same
      have later : "root" ∈ (new.map Line.rule).map (·.1) := by
        obtain ⟨line, member, named⟩ := List.mem_map.mp own
        exact List.mem_map.mpr ⟨line.rule, List.mem_map_of_mem member, congrArg String.ofList named⟩
      exact .inr (ofNew (@mem_later_of_lookup_rulesOf [_] _ _ _ later found))
    · exact .inl ⟨rfl, rfl, same⟩
  · exact .inr (ofNew later)

theorem ascending_lines {name : List Char} {schema : Json Number} {new : List Line}
    (fits : NameFits name schema) (more : ∀ helper, Uses helper schema → used helper)
    (left : Left used name schema [rootLine name] (rootLine name :: new)) :
    Ascending (rulesOf ((rootLine name :: new).map Line.rule)) (nameRank name) := by
  have defined {made : List Char} (known : made ∈ lineNames (rootLine name :: new)) :
      String.ofList made ∈ rulesOf ((rootLine name :: new).map Line.rule) := by
    obtain ⟨line, member, rfl⟩ := List.mem_map.mp known
    exact mem_rulesOf.mpr (List.mem_map.mpr ⟨line.rule, List.mem_map_of_mem member, rfl⟩)
  obtain ⟨new', same, fresh⟩ := left.fresh
  obtain rfl : new = new' := List.append_cancel_left (show [rootLine name] ++ new = [rootLine name] ++ new' from same)
  intro rule node found ref inside
  rcases root_or_new left.own fresh found with ⟨rfl, rfl, other⟩ | ⟨line, member, rfl, rfl⟩
  · rw [mentions_ref.mp inside, nameRank_root]
    exact ⟨defined left.mem, nameRank_pos other⟩
  cases fresh line member with
  | helper _ none_ => exact absurd inside (none_ ref)
  | made named resolved =>
    have rank : nameRank name (String.ofList line.name) ≤ ((line.name.length + 1 : ℕ) : WithTop ℕ) := by
      rcases named with same | suffixed
      · by_cases atRoot : line.name = "root".toList
        · rw [atRoot]
          exact nameRank_root.le.trans zero_le
        · exact (nameRank_made atRoot fun _ => same).le
      · exact suffixed.nameRank.le
    rcases resolved ref inside with ⟨helper, isHelper, rfl, uses, known⟩ | ⟨made, known, rfl, suffixed, longer⟩
    · have other : helper ≠ name := fun same => fits.apart helper isHelper same.symm uses
      rw [nameRank_helper isHelper other]
      exact ⟨defined (fits.helper_mem left uses more known), rank.trans_lt (WithTop.coe_lt_top _)⟩
    · rw [suffixed.nameRank]
      exact ⟨defined known, rank.trans_lt (by exact_mod_cast Nat.succ_lt_succ longer)⟩

/-- Every schema without strings, of known types and with names that can stand in a rule's name,
gives a text that parses and compiles, unless the schema's own name gets in the way. -/
theorem jsonSchemaToGbnf_compiles {name : List Char} {schema : Json Number} {text : List Char}
    (serializes : Serializes toString) (identifier : isIdentifier name = true)
    (done : jsonSchemaToGbnf toString name schema = .ok text)
    (written : Written False (CleanEnum toString (Uses · schema)) schema) (fits : NameFits name schema) :
    ∃ g fsm, parseGbnf text = .ok g ∧ g.compile = .ok fsm := by
  obtain ⟨lines, emitted, rfl⟩ := jsonSchemaToGbnf_lines scannedClasses toString done
  have root : ∀ line ∈ [rootLine name], Sober (Uses · schema) line := by
    simpa using sober_root identifier
  have left := schemaLines_left identifier written fits.leaf emitted (tidy_root name) root
    fun _ uses => uses
  have reads := (covers_scanned serializes).readsGrammar identifier written emitted
  have ascii : Ascii (linesText lines) := by
    intro ch member
    obtain ⟨line, there, inside⟩ := List.mem_flatMap.mp member
    exact (sober_lineInvariant.all identifier written emitted root line there).ascii ch inside
  obtain ⟨new, rfl⟩ := left.fresh.kept
  obtain ⟨fsm, compiled⟩ := exists_compile (ascending_lines fits (fun _ uses => uses) left)
    (g := ⟨rulesOf (([rootLine name] ++ new).map Line.rule), "root"⟩)
    (mem_rulesOf.mpr List.mem_cons_self)
  exact ⟨_, fsm, reads.parseGbnf ascii, compiled⟩

/-- What is written for a schema is accepted without strings and with names that fit, and not
with strings. -/
theorem jsonSchemaToGbnf_accepted {name : List Char} {schema : Json Number} {text : List Char}
    (serializes : Serializes toString) (identifier : isIdentifier name = true)
    (done : jsonSchemaToGbnf toString name schema = .ok text) :
    (Written False (CleanEnum toString (Uses · schema)) schema ∧ NameFits name schema →
      ∃ g fsm, parseGbnf text = .ok g ∧ g.compile = .ok fsm) ∧
    (Written True (NoStringRule toString) schema ∧ ¬"string".toList <:+ name ∧ HasString schema →
      ∃ stop, parseGbnf text = .error stop) :=
  ⟨fun ⟨written, fits⟩ => jsonSchemaToGbnf_compiles serializes identifier done written fits,
    fun ⟨written, apart, has⟩ => has.stops identifier apart written done⟩

end

/-- `serde_json::to_string` of the values that have no parts. -/
def atomToString : Json Number → Option (List Char)
  | .null => some "null".toList
  | .bool true => some "true".toList
  | .bool false => some "false".toList
  | _ => none

theorem serializes_atomToString : Serializes atomToString := by
  intro v text same
  unfold atomToString at same
  split at same <;> cases same <;> decide

/-- `{"type": "array", "items": {"enum": [true, null]}}` -/
def flagsSchema : Json Number :=
  .object [("items".toList, .object [("enum".toList, .array [.bool true, .null])]),
    ("type".toList, .string "array".toList)]

def flagsText : List Char :=
  ("root ::= flags\nflags_item ::= \"true\" | \"null\"\nws ::= [ \\t\\n]*\n" ++
    "flags ::= \"[\" ws (flags_item (\",\" ws flags_item)*) ws \"]\"\n").toList

theorem flags_text : jsonSchemaToGbnf atomToString "flags".toList flagsSchema = .ok flagsText := by
  decide +kernel

theorem flags_written : Written False (CleanEnum atomToString (Uses · flagsSchema)) flagsSchema := by
  refine .array rfl rfl (.enumeration rfl rfl ⟨by simp, ?_, ?_⟩)
  · have ascii : ∀ v ∈ [Json.bool true, .null],
        (enumText atomToString v).all (fun ch => decide (ch.utf8Size = 1)) = true := by decide
    exact fun v there => forall_chars (ascii v there)
  · have apart : ∀ v ∈ [Json.bool true, .null], ∀ helper ∈ "string".toList :: helperNames,
        ¬definesText helper <:+: escapeJsonString (enumText atomToString v) := by decide
    exact fun v there helper known _ => apart v there helper known

theorem flags_fits : NameFits "flags".toList flagsSchema where
  apart helper isHelper same := by
    have other : ∀ helper ∈ helperNames, "flags".toList ≠ helper := by decide
    exact absurd same (other helper isHelper)
  leaf helper own other := absurd (List.mem_singleton.mp own) other
  blank _ := .inl ⟨fun early => absurd early.1 (by decide), by decide⟩

theorem jsonSchemaToGbnf_accepted_flags :
    ∃ g fsm, parseGbnf flagsText = .ok g ∧ g.compile = .ok fsm :=
  (jsonSchemaToGbnf_accepted serializes_atomToString (by decide) flags_text).1
    ⟨flags_written, flags_fits⟩

/-- `{"type": "string"}` -/
def replySchema : Json Number := .object [("type".toList, .string "string".toList)]

/-- A text is written for a string, and it does not parse. -/
theorem string_schema_does_not_parse : ∃ text, isIdentifier "reply".toList = true ∧
    jsonSchemaToGbnf atomToString "reply".toList replySchema = .ok text ∧
    ¬∃ g fsm, parseGbnf text = .ok g ∧ g.compile = .ok fsm := by
  have written : Written True (NoStringRule atomToString) replySchema := .string rfl trivial
  have done : jsonSchemaToGbnf atomToString "reply".toList replySchema = .ok
      "root ::= reply\nreply ::= string\nstring ::= \"\\\"\" ([^\"]*) \"\\\"\"\nws ::= [ \\t\\n]*\n".toList := by
    decide +kernel
  obtain ⟨stop, stopped⟩ := (HasString.here rfl).stops (by decide) (by decide) written done
  refine ⟨_, by decide, done, ?_⟩
  rintro ⟨g, fsm, parsed, -⟩
  cases stopped.symm.trans parsed

end TribunusCompute.Gbnf
