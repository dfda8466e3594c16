import TribunusCompute.Library.JsonText
import TribunusCompute.Tools.ToolCall

/-!
# The first JSON object of a text

`extract_first_json_object` scans the bytes of a text for the brace that closes the first one, and
parses what is between. It keeps count of the braces outside string literals and skips what a
backslash escapes. A `str` is its bytes, and a slice of it from a brace to a brace is cut between
characters. The count of braces has 32 bits, more than any text that is parsed nests.
-/
namespace TribunusCompute.Tools

open Gbnf (Json Number)
open JsonText

structure ScanState where
  depth : ℤ
  inString : Bool
  escaped : Bool
  deriving DecidableEq, Repr

namespace ScanState

def next (s : ScanState) (byte : UInt8) : ScanState :=
  if s.escaped then { s with escaped := false }
  else if byte = backslash ∧ s.inString then { s with escaped := true }
  else if byte = quote then { s with inString := !s.inString }
  else if byte = openBrace ∧ ¬s.inString then { s with depth := s.depth + 1 }
  else if byte = closeBrace ∧ ¬s.inString then { s with depth := s.depth - 1 }
  else s

variable {byte : UInt8} (depth : ℤ)

theorem next_body (notQuote : byte ≠ quote) (notBackslash : byte ≠ backslash) :
    next ⟨depth, true, false⟩ byte = ⟨depth, true, false⟩ := by
  simp [next, notQuote, notBackslash]

theorem next_outside (outside : Outside byte) :
    next ⟨depth, false, false⟩ byte = ⟨depth, false, false⟩ := by
  simp [next, outside.notQuote, outside.notOpen, outside.notClose]

theorem next_enter : next ⟨depth, false, false⟩ quote = ⟨depth, true, false⟩ := rfl

theorem next_leave : next ⟨depth, true, false⟩ quote = ⟨depth, false, false⟩ := rfl

theorem next_openBrace : next ⟨depth, false, false⟩ openBrace = ⟨depth + 1, false, false⟩ := rfl

theorem next_closeBrace :
    next ⟨depth + 1, false, false⟩ closeBrace = ⟨depth, false, false⟩ := by
  simp [next, closeBrace, quote, openBrace, backslash]

def closes (s : ScanState) (byte : UInt8) : Bool :=
  !s.escaped && byte = closeBrace && !s.inString && s.depth - 1 = 0

end ScanState

def candidate : ScanState → List UInt8 → Option (List UInt8)
  | _, [] => none
  | s, byte :: rest =>
    if s.closes byte then some [byte] else (candidate (s.next byte) rest).map (byte :: ·)

def hexDigit (n : UInt8) : UInt8 := if n < 10 then 0x30 + n else 0x61 + (n - 10)

/-- `\u` and the number of a control character in four digits. -/
def unicodeEscape (b : UInt8) : List UInt8 :=
  [backslash, 0x75, 0x30, 0x30, hexDigit (b >>> 4), hexDigit (b &&& 15)]

/-- What is pushed for a byte: its escape, or the character whose code it is. -/
def repairByte (b : UInt8) : List UInt8 :=
  if b < 0x20 ∧ b ≠ 0x09 ∧ b ≠ 0x0A ∧ b ≠ 0x0D then unicodeEscape b
  else String.utf8EncodeChar (Char.ofNat b.toNat)

def repairControlChars (s : List UInt8) : List UInt8 := s.flatMap repairByte

/-- The first object of a text, by what `serde_json::from_str` reads. -/
def extractFirstJsonObject (fromStr : List UInt8 → Option (Json Number)) (text : List UInt8) :
    Option (Json Number) := do
  let start ← text.idxOf? openBrace
  let candidate ← candidate ⟨0, false, false⟩ (text.drop start)
  match fromStr candidate with
  | some val => some val
  | none => fromStr (repairControlChars candidate)

/-- What is documented of `serde_json::from_str`: it reads JSON texts only, it passes over white
space around them, and it reads an object where a brace begins one. -/
structure ReadsJson (fromStr : List UInt8 → Option (Json Number)) : Prop where
  grammatical : ∀ text v, fromStr text = some v → Derives .element text
  trimmed : ∀ front text back, Blank front → Blank back →
    fromStr (front ++ (text ++ back)) = fromStr text
  object : ∀ text members, fromStr text = some (.object members) →
    ∃ front rest, Blank front ∧ text = front ++ openBrace :: rest

/-! ## Where the scan ends -/

variable {fromStr : List UInt8 → Option (Json Number)} {text rest body : List UInt8} {depth : ℤ}

theorem candidate_cons {s : ScanState} {byte : UInt8} (goes_on : s.closes byte = false) :
    candidate s (byte :: rest) = (candidate (s.next byte) rest).map (byte :: ·) := by
  rw [candidate, goes_on]
  rfl

/-- Braces do not count inside a literal, nor do escaped quotes end it. -/
theorem candidate_body (inside : StringBody body) (depth : ℤ) (rest : List UInt8) :
    candidate ⟨depth, true, false⟩ (body ++ quote :: rest) =
      (candidate ⟨depth, false, false⟩ rest).map (body ++ quote :: ·) := by
  induction inside with
  | nil =>
    rw [List.nil_append, candidate_cons (by simp [ScanState.closes])]
    rfl
  | @plain byte more printable notQuote notBackslash _ ih =>
    rw [List.cons_append, candidate_cons (by simp [ScanState.closes]),
      ScanState.next_body depth notQuote notBackslash, ih, Option.map_map]
    rfl
  | @escape byte more known _ ih =>
    -- the escaped byte is passed over, whatever it is
    have first : ScanState.next ⟨depth, true, false⟩ backslash = ⟨depth, true, true⟩ := rfl
    have second : ScanState.next ⟨depth, true, true⟩ byte = ⟨depth, true, false⟩ := rfl
    rw [List.cons_append, List.cons_append, candidate_cons (by simp [ScanState.closes]), first,
      candidate_cons (by simp [ScanState.closes]), second, ih, Option.map_map, Option.map_map]
    rfl

theorem candidate_balanced (balanced : Balanced text) (inside : 0 < depth) (rest : List UInt8) :
    candidate ⟨depth, false, false⟩ (text ++ rest) =
      (candidate ⟨depth, false, false⟩ rest).map (text ++ ·) := by
  induction balanced generalizing depth rest with
  | nil => simp
  | @plain byte more outside _ ih =>
    rw [List.cons_append, candidate_cons (by simp [ScanState.closes, outside.notClose]),
      ScanState.next_outside depth outside, ih inside, Option.map_map]
    rfl
  | @literal body more literal _ ih =>
    rw [List.cons_append, List.append_assoc, List.cons_append,
      candidate_cons (by simp [ScanState.closes, quote, closeBrace]), ScanState.next_enter,
      candidate_body literal, ih inside, Option.map_map, Option.map_map]
    simp [Function.comp_def]
  | @braces inner more _ _ ih ih' =>
    rw [List.cons_append, List.append_assoc, List.cons_append,
      candidate_cons (by simp [ScanState.closes, openBrace, closeBrace]),
      ScanState.next_openBrace, ih (by omega),
      candidate_cons (by simp [ScanState.closes]; omega), ScanState.next_closeBrace, ih' inside,
      Option.map_map, Option.map_map, Option.map_map]
    simp [Function.comp_def]

/-- The scan of an object ends with the object, whatever comes after. -/
theorem candidate_object {inner : List UInt8} (balanced : Balanced inner) (rest : List UInt8) :
    candidate ⟨0, false, false⟩ (openBrace :: (inner ++ closeBrace :: rest)) =
      some (openBrace :: (inner ++ [closeBrace])) := by
  have last : candidate ⟨0 + 1, false, false⟩ (closeBrace :: rest) = some [closeBrace] := by
    rw [candidate, if_pos (by decide)]
  rw [candidate_cons (by decide), ScanState.next_openBrace,
    candidate_balanced balanced (by decide), last]
  rfl

/-! ## What is extracted -/

theorem idxOf?_openBrace {front : List UInt8} (absent : openBrace ∉ front) (rest : List UInt8) :
    (front ++ openBrace :: rest).idxOf? openBrace = some front.length := by
  refine List.idxOf?_eq_some_iff.mpr ⟨by simp, by simp, fun j before same => absent ?_⟩
  rw [List.getElem_append_left before] at same
  exact same ▸ List.getElem_mem before

/-- After a prefix without a brace the first object is what the scan finds from there. -/
theorem extractFirstJsonObject_append {front : List UInt8} (absent : openBrace ∉ front)
    {found : List UInt8} (scanned : candidate ⟨0, false, false⟩ (openBrace :: rest) = some found) :
    extractFirstJsonObject fromStr (front ++ openBrace :: rest) =
      (fromStr found).or (fromStr (repairControlChars found)) := by
  rw [extractFirstJsonObject, idxOf?_openBrace absent, Option.bind_eq_bind, Option.bind_some,
    List.drop_left, scanned]
  simp only [Option.bind_eq_bind, Option.bind_some]
  cases fromStr found <;> rfl

theorem nil_of_blank {front : List UInt8} (value : Derives .value (front ++ openBrace :: rest))
    (blank : Blank front) : front = [] := by
  cases front with
  | nil => rfl
  | cons byte front => exact absurd (blank byte List.mem_cons_self) value.notMem_white

/-- A JSON object is extracted from any text in which no brace comes before it. -/
theorem extractFirstJsonObject_of_object (reads : ReadsJson fromStr) {front text back : List UInt8}
    {members : List (Text × Json Number)} (absent : openBrace ∉ front)
    (parsed : fromStr text = some (.object members)) :
    extractFirstJsonObject fromStr (front ++ (text ++ back)) = some (.object members) := by
  have derives := reads.grammatical text _ parsed
  generalize shape : Part.element = part at derives
  cases derives with
  | @element before body after blank value blank' =>
    rw [reads.trimmed before body after blank blank'] at parsed
    -- the value itself begins with the brace, since no value begins with white space
    obtain ⟨none_, rest, blank'', rfl⟩ := reads.object body members parsed
    obtain rfl := nil_of_blank value blank''
    rw [List.nil_append] at parsed value
    obtain ⟨inner, rfl, balanced⟩ := value.exists_inner
    -- white space before the object belongs to what is passed over
    have absent' : openBrace ∉ front ++ before := by
      intro member
      rcases List.mem_append.mp member with there | there
      · exact absent there
      · exact (outside_of_mem_white (blank _ there)).notOpen rfl
    have split :
        front ++ (before ++ ([] ++ openBrace :: (inner ++ [closeBrace]) ++ after) ++ back) =
          front ++ before ++ openBrace :: (inner ++ closeBrace :: (after ++ back)) := by
      simp
    rw [split, extractFirstJsonObject_append absent' (candidate_object balanced _), parsed]
    rfl
  | scalar | string | emptyArray | array | emptyObject | object | lastElement | moreElements
  | member | lastMember | moreMembers => cases shape

/-- A reader of one JSON text alone. -/
def readOnly (body : List UInt8) (v : Json Number) (text : List UInt8) : Option (Json Number) :=
  if trim text = body then some v else none

theorem readsJson_readOnly {body : List UInt8} {v : Json Number} (value : Derives .value body)
    (object : ∀ members, v = .object members → ∃ rest, body = openBrace :: rest) :
    ReadsJson (readOnly body v) where
  grammatical text v' parsed := by
    obtain ⟨front, back, before, after, parts⟩ := exists_trim text
    rw [readOnly, Option.ite_none_right_eq_some] at parsed
    rw [parts, parsed.1]
    exact .element before value after
  trimmed front text back before after := by rw [readOnly, trim_append before after, readOnly]
  object text members parsed := by
    obtain ⟨front, back, before, after, parts⟩ := exists_trim text
    rw [readOnly, Option.ite_none_right_eq_some, Option.some.injEq] at parsed
    obtain ⟨rest, begins⟩ := object members parsed.2
    refine ⟨front, rest ++ back, before, ?_⟩
    rw [parts, parsed.1, begins, List.cons_append]

def ascii (s : String) : List UInt8 := s.toList.map Char.toUInt8

theorem blank_nil : Blank [] := List.forall_mem_nil _

theorem derives_oneMember {key value : List UInt8} (key_body : StringBody key)
    (value_body : StringBody value) :
    Derives .value
      (openBrace :: (quote :: (key ++ quote :: colon :: quote :: (value ++ [quote])) ++
        [closeBrace])) := by
  have text : Derives .element ([] ++ ((quote :: (value ++ [quote])) ++ [])) :=
    .element blank_nil (.string value_body) blank_nil
  have member := Derives.member blank_nil key_body blank_nil text
  rw [List.nil_append, List.nil_append, List.nil_append, List.append_nil] at member
  exact .object (.lastMember member)

/-- The string of the object has a brace and an escaped quote, and another brace comes after. -/
theorem extractFirstJsonObject_brace_in_string :
    extractFirstJsonObject
        (readOnly (ascii "\x7b\"k\":\"\x7d\\\"\"\x7d")
          (.object [("k".toList, .string "\x7d\"".toList)]))
        (ascii "call " ++ (ascii "\x7b\"k\":\"\x7d\\\"\"\x7d" ++ ascii " \x7d")) =
      some (.object [("k".toList, .string "\x7d\"".toList)]) := by
  have key : StringBody (ascii "k") := .plain (by decide) (by decide) (by decide) .nil
  have value : StringBody (ascii "\x7d\\\"") :=
    .plain (by decide) (by decide) (by decide) (.escape (by decide) .nil)
  refine extractFirstJsonObject_of_object (readsJson_readOnly (derives_oneMember key value) ?_)
    (by decide) ?_
  · exact fun _ _ => ⟨_, rfl⟩
  · rw [readOnly, if_pos (by decide)]

end TribunusCompute.Tools
