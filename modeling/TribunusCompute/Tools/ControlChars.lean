import TribunusCompute.Tools.FirstObject

/-!
# The repair of control characters

`repair_control_chars` rewrites a candidate byte by byte, inside its string literals and outside.
Tabs, line feeds and carriage returns stay as they are, since they may stand between tokens. The
scan moves over what is written for a byte as it does over the byte.
-/
namespace TribunusCompute.Tools

open Gbnf (Json Number)
open JsonText

/-! ## What is in a literal -/

/-- Each byte of a text with whether the scan is inside a string literal before it. -/
def marked : ScanState → List UInt8 → List (Bool × UInt8)
  | _, [] => []
  | s, byte :: rest => (s.inString, byte) :: marked (s.next byte) rest

def firstCandidate (text : List UInt8) : Option (List UInt8) :=
  (text.idxOf? openBrace).bind fun start => candidate ⟨0, false, false⟩ (text.drop start)

/-- A control character of a literal is escaped. -/
def escapeMarked (mark : Bool × UInt8) : List UInt8 :=
  if mark.1 ∧ mark.2 < 0x20 then unicodeEscape mark.2 else [mark.2]

/-- The text with each control character of its string literals escaped. -/
def escapeLiterals (text : List UInt8) : List UInt8 :=
  (marked ⟨0, false, false⟩ text).flatMap escapeMarked

variable {s : ScanState} {text : List UInt8} {depth : ℤ} {mark : Bool × UInt8}

theorem marked_append (s : ScanState) (first second : List UInt8) :
    marked s (first ++ second) = marked s first ++ marked (first.foldl .next s) second := by
  induction first generalizing s with
  | nil => rfl
  | cons byte rest ih =>
    rw [List.cons_append, marked, ih, marked, List.cons_append, List.foldl_cons]

theorem map_snd_marked (s : ScanState) (text : List UInt8) :
    (marked s text).map Prod.snd = text := by
  induction text generalizing s with
  | nil => rfl
  | cons byte rest ih => rw [marked, List.map_cons, ih]

theorem foldl_body (inside : StringBody text) (depth : ℤ) :
    text.foldl .next (ScanState.mk depth true false) = ⟨depth, true, false⟩ := by
  induction inside with
  | nil => rfl
  | plain printable notQuote notBackslash _ ih =>
    rw [List.foldl_cons, ScanState.next_body depth notQuote notBackslash, ih]
  | escape _ _ ih => exact ih

theorem foldl_balanced (balanced : Balanced text) (depth : ℤ) :
    text.foldl .next (ScanState.mk depth false false) = ⟨depth, false, false⟩ := by
  induction balanced generalizing depth with
  | nil => rfl
  | plain outside _ ih => rw [List.foldl_cons, ScanState.next_outside depth outside, ih]
  | literal inside _ ih =>
    rw [List.foldl_cons, List.foldl_append, ScanState.next_enter, foldl_body inside,
      List.foldl_cons, ScanState.next_leave, ih]
  | braces _ _ ih ih' =>
    rw [List.foldl_cons, List.foldl_append, ScanState.next_openBrace, ih, List.foldl_cons,
      ScanState.next_closeBrace, ih']

/-- The mark of a byte that may stand there in a JSON text: a control character is white space
outside the literals. -/
def Lawful (mark : Bool × UInt8) : Prop := mark.2 < 0x20 → mark.1 = false ∧ mark.2 ∈ white

theorem lawful_of_printable {inside : Bool} {byte : UInt8} (printable : 0x20 ≤ byte) :
    Lawful (inside, byte) :=
  fun control => absurd printable (UInt8.not_le.mpr control)

theorem printable_of_mem_escapes {byte : UInt8} (known : byte ∈ escapes) : 0x20 ≤ byte := by
  have each : ∀ byte ∈ escapes, 0x20 ≤ byte := forall_mem_of_all (by decide)
  exact each byte known

theorem lawful_body (inside : StringBody text) (depth : ℤ) :
    ∀ mark ∈ marked ⟨depth, true, false⟩ text, Lawful mark := by
  induction inside with
  | nil => exact List.forall_mem_nil _
  | plain printable notQuote notBackslash _ ih =>
    rw [marked, ScanState.next_body depth notQuote notBackslash, List.forall_mem_cons]
    exact ⟨lawful_of_printable printable, ih⟩
  | escape known _ ih =>
    have printable : 0x20 ≤ backslash := by decide
    refine List.forall_mem_cons.mpr ⟨lawful_of_printable printable, ?_⟩
    exact List.forall_mem_cons.mpr ⟨lawful_of_printable (printable_of_mem_escapes known), ih⟩

theorem lawful_balanced (balanced : Balanced text) (depth : ℤ) :
    ∀ mark ∈ marked ⟨depth, false, false⟩ text, Lawful mark := by
  have printable : 0x20 ≤ quote ∧ 0x20 ≤ openBrace ∧ 0x20 ≤ closeBrace := by decide
  induction balanced generalizing depth with
  | nil => exact List.forall_mem_nil _
  | plain outside _ ih =>
    rw [marked, ScanState.next_outside depth outside, List.forall_mem_cons]
    exact ⟨fun control => ⟨rfl, outside.control control⟩, ih depth⟩
  | literal inside _ ih =>
    rw [marked, marked_append, ScanState.next_enter, foldl_body inside, marked,
      ScanState.next_leave, List.forall_mem_cons, List.forall_mem_append, List.forall_mem_cons]
    exact ⟨lawful_of_printable printable.1, lawful_body inside depth,
      lawful_of_printable printable.1, ih depth⟩
  | braces _ _ ih ih' =>
    rw [marked, marked_append, ScanState.next_openBrace, foldl_balanced ‹_›, marked,
      ScanState.next_closeBrace, List.forall_mem_cons, List.forall_mem_append,
      List.forall_mem_cons]
    exact ⟨lawful_of_printable printable.2.1, ih _, lawful_of_printable printable.2.2, ih' depth⟩

/-! ## What is written for a byte -/

theorem forall_byte {P : UInt8 → Prop} (each : ∀ i : Fin 256, P (UInt8.ofFin i)) (b : UInt8) :
    P b :=
  each b.toFin

/-- A byte that has no meaning of its own for the scan. -/
structure Neutral (byte : UInt8) : Prop where
  notQuote : byte ≠ quote
  notBackslash : byte ≠ backslash
  notOpen : byte ≠ openBrace
  notClose : byte ≠ closeBrace

theorem neutral_iff {byte : UInt8} : Neutral byte ↔
    byte ≠ quote ∧ byte ≠ backslash ∧ byte ≠ openBrace ∧ byte ≠ closeBrace :=
  ⟨fun neutral => ⟨neutral.notQuote, neutral.notBackslash, neutral.notOpen, neutral.notClose⟩,
    fun ⟨notQuote, notBackslash, notOpen, notClose⟩ =>
      ⟨notQuote, notBackslash, notOpen, notClose⟩⟩

instance (byte : UInt8) : Decidable (Neutral byte) := decidable_of_iff' _ neutral_iff

theorem next_neutral {byte : UInt8} (neutral : Neutral byte) (s : ScanState) :
    s.next byte = { s with escaped := false } := by
  obtain ⟨depth, inString, escaped⟩ := s
  cases escaped <;> simp [ScanState.next, neutral.notQuote, neutral.notBackslash, neutral.notOpen,
    neutral.notClose]

theorem foldl_neutral {bytes : List UInt8} (neutral : ∀ byte ∈ bytes, Neutral byte) (depth : ℤ)
    (inString : Bool) : bytes.foldl .next (ScanState.mk depth inString false) =
      ⟨depth, inString, false⟩ := by
  induction bytes with
  | nil => rfl
  | cons byte rest ih =>
    rw [List.forall_mem_cons] at neutral
    rw [List.foldl_cons, next_neutral neutral.1, ih neutral.2]

theorem neutral_of_control {b : UInt8} (control : b < 0x20) : Neutral b := by
  refine ⟨?_, ?_, ?_, ?_⟩ <;>
    · rintro rfl
      exact absurd control (by decide)

theorem neutral_hexDigit (b : UInt8) :
    Neutral (hexDigit (b >>> 4)) ∧ Neutral (hexDigit (b &&& 15)) := by
  revert b
  refine forall_byte ?_
  decide +kernel

theorem foldl_unicodeEscape (b : UInt8) (s : ScanState) :
    (unicodeEscape b).foldl .next s = { s with escaped := false } := by
  have letter : Neutral 0x75 := by decide
  have zero : Neutral 0x30 := by decide
  obtain ⟨high, low⟩ := neutral_hexDigit b
  have digits : ∀ byte ∈ [0x30, 0x30, hexDigit (b >>> 4), hexDigit (b &&& 15)], Neutral byte := by
    simp only [List.forall_mem_cons]
    exact ⟨zero, zero, high, low, List.forall_mem_nil _⟩
  obtain ⟨depth, inString, escaped⟩ := s
  -- inside a literal the backslash escapes the letter, outside it means nothing
  have slash : (ScanState.next ⟨depth, inString, escaped⟩ backslash).next 0x75 =
      ⟨depth, inString, false⟩ := by
    rw [next_neutral letter]
    cases escaped <;> cases inString <;> rfl
  rw [unicodeEscape, List.foldl_cons, List.foldl_cons, slash]
  exact foldl_neutral digits depth inString

/-- A character is written as it is, as an escape, or as two bytes that are not ASCII. -/
theorem repairByte_cases (b : UInt8) :
    repairByte b = [b] ∧ b < 0x80 ∧ (b < 0x20 → b = 0x09 ∨ b = 0x0A ∨ b = 0x0D) ∨
      repairByte b = unicodeEscape b ∧ b < 0x20 ∧ ¬(b = 0x09 ∨ b = 0x0A ∨ b = 0x0D) ∨
      0x80 ≤ b ∧ (repairByte b).length = 2 ∧
        (repairByte b).all (fun byte => 0x80 ≤ byte) = true := by
  revert b
  refine forall_byte ?_
  decide +kernel

theorem neutral_of_not_ascii {b : UInt8} (large : 0x80 ≤ b) : Neutral b := by
  refine ⟨?_, ?_, ?_, ?_⟩ <;>
    · rintro rfl
      exact absurd large (by decide)

/-- The scan moves over what the repair writes for a byte as over the byte. -/
theorem foldl_repairByte (b : UInt8) (s : ScanState) : (repairByte b).foldl .next s = s.next b := by
  rcases repairByte_cases b with ⟨same, -⟩ | ⟨escape, control, -⟩ | ⟨large, two, others⟩
  · rw [same]
    rfl
  · rw [escape, foldl_unicodeEscape, next_neutral (neutral_of_control control)]
  · obtain ⟨x, y, pair⟩ := List.length_eq_two.mp two
    rw [pair, List.all_cons, List.all_cons] at others
    simp only [List.all_nil, Bool.and_true, Bool.and_eq_true, decide_eq_true_eq] at others
    have first := neutral_of_not_ascii others.1
    have second := neutral_of_not_ascii others.2
    rw [pair]
    rw [List.foldl_cons, List.foldl_cons, List.foldl_nil, next_neutral first,
      next_neutral second, next_neutral (neutral_of_not_ascii large)]

theorem foldl_escapeMarked (b : UInt8) (s : ScanState) :
    (escapeMarked (s.inString, b)).foldl .next s = s.next b := by
  unfold escapeMarked
  split
  next control => rw [foldl_unicodeEscape, next_neutral (neutral_of_control control.2)]
  next => rfl

/-- A rewriting that moves the scan as the bytes do keeps the marks of the bytes it keeps. -/
theorem mem_marked_flatMap {f : Bool × UInt8 → List UInt8}
    (moves : ∀ b (s : ScanState), (f (s.inString, b)).foldl .next s = s.next b)
    (kept : f mark = [mark.2]) (member : mark ∈ marked s text) :
    mark ∈ marked s ((marked s text).flatMap f) := by
  induction text generalizing s with
  | nil => cases member
  | cons byte rest ih =>
    rw [marked, List.flatMap_cons, marked_append, moves]
    rcases List.mem_cons.mp member with rfl | later
    · rw [kept]
      exact List.mem_append_left _ List.mem_cons_self
    · exact List.mem_append_right _ (ih later)

theorem repairControlChars_eq (s : ScanState) (text : List UInt8) :
    repairControlChars text = (marked s text).flatMap fun mark => repairByte mark.2 := by
  conv_lhs => rw [repairControlChars, ← map_snd_marked s text, List.flatMap_map]

/-! ## What is extracted after a repair -/

/-- The byte stands in a string literal of the text. -/
def InLiteral (text : List UInt8) (byte : UInt8) : Prop :=
  (true, byte) ∈ marked ⟨0, false, false⟩ text

variable {fromStr : List UInt8 → Option (Json Number)} {found : List UInt8} {v : Json Number}

theorem extractFirstJsonObject_of_candidate (scanned : firstCandidate text = some found) :
    extractFirstJsonObject fromStr text =
      (fromStr found).or (fromStr (repairControlChars found)) := by
  obtain ⟨start, brace, rest⟩ := Option.bind_eq_some_iff.mp scanned
  rw [extractFirstJsonObject, brace]
  simp only [Option.bind_eq_bind, Option.bind_some, rest]
  cases fromStr found <;> rfl

/-- A text that is read has no control character in its literals, and outside them white space
alone. -/
theorem lawful_of_read (reads : ReadsJson fromStr) (parsed : fromStr text = some v) :
    ∀ mark ∈ marked ⟨0, false, false⟩ text, Lawful mark :=
  lawful_balanced (reads.grammatical text v parsed).balanced 0

theorem escapeLiterals_eq_self (printable : ∀ byte, InLiteral text byte → 0x20 ≤ byte) :
    escapeLiterals text = text := by
  have single : ∀ mark ∈ marked ⟨0, false, false⟩ text, escapeMarked mark = [mark.2] := by
    intro mark member
    refine if_neg fun ⟨inside, control⟩ => ?_
    have literal : InLiteral text mark.2 := by
      rw [InLiteral, ← inside]
      exact member
    exact UInt8.not_le.mpr control (printable mark.2 literal)
  rw [escapeLiterals, List.flatMap_congr single]
  exact (List.flatMap_pure_eq_map Prod.snd _).trans (map_snd_marked _ text)

theorem escapeLiterals_of_read (reads : ReadsJson fromStr) (parsed : fromStr text = some v) :
    escapeLiterals text = text := by
  refine escapeLiterals_eq_self fun byte inside => ?_
  by_contra control
  have outside := (lawful_of_read reads parsed _ inside (UInt8.not_le.mp control)).1
  cases outside

/-- A tab, a line feed or a carriage return of a literal stays, so that the text is not read. -/
theorem fromStr_eq_none_of_raw (reads : ReadsJson fromStr) {byte : UInt8}
    (raw : byte ∈ [0x09, 0x0A, 0x0D]) (inside : InLiteral text byte) : fromStr text = none := by
  cases parsed : fromStr text with
  | none => rfl
  | some v =>
    have control : ∀ byte ∈ [(0x09 : UInt8), 0x0A, 0x0D], byte < 0x20 :=
      forall_mem_of_all (by decide)
    have outside := (lawful_of_read reads parsed _ inside (control byte raw)).1
    cases outside

theorem inLiteral_repairControlChars {byte : UInt8} (raw : byte ∈ [0x09, 0x0A, 0x0D])
    (inside : InLiteral text byte) : InLiteral (repairControlChars text) byte := by
  have same : ∀ byte ∈ [(0x09 : UInt8), 0x0A, 0x0D], repairByte byte = [byte] :=
    forall_mem_of_all (by decide)
  rw [InLiteral, repairControlChars_eq ⟨0, false, false⟩ text]
  exact mem_marked_flatMap (fun b s => foldl_repairByte b s) (same byte raw) inside

/-- In a candidate of ASCII bytes, the repair escapes the control characters of the literals and
nothing else. -/
theorem repairControlChars_eq_escapeLiterals (reads : ReadsJson fromStr)
    (parsed : fromStr (escapeLiterals text) = some v) (plain : ∀ byte ∈ text, byte < 0x80)
    (escaped : ∀ byte, InLiteral text byte → byte ∉ [0x09, 0x0A, 0x0D]) :
    repairControlChars text = escapeLiterals text := by
  rw [repairControlChars_eq ⟨0, false, false⟩ text, escapeLiterals]
  refine List.flatMap_congr fun mark member => ?_
  have ascii : mark.2 < 0x80 := by
    refine plain mark.2 ?_
    rw [← map_snd_marked ⟨0, false, false⟩ text]
    exact List.mem_map_of_mem member
  rcases repairByte_cases mark.2 with ⟨same, -, kept⟩ | ⟨escape, control, other⟩ | ⟨large, -⟩
  · -- what is written as it is, is no control character of a literal
    rw [same, escapeMarked, if_neg]
    rintro ⟨inside, control⟩
    have literal : InLiteral text mark.2 := by
      rw [InLiteral, ← inside]
      exact member
    exact escaped mark.2 literal (by simpa using kept control)
  · -- outside the literals a control character would be left to the parser, which refuses it
    cases inside : mark.1 with
    | true => rw [escape, escapeMarked, if_pos ⟨inside, control⟩]
    | false =>
      have kept : escapeMarked mark = [mark.2] := if_neg fun both => by simp [inside] at both
      have there := mem_marked_flatMap foldl_escapeMarked kept member
      have blank := (lawful_of_read reads parsed mark there control).2
      have notSpace : mark.2 ≠ 0x20 := (UInt8.ne_of_lt control)
      simp only [white, List.mem_cons, List.not_mem_nil, or_false] at blank
      tauto
  · exact absurd ascii (UInt8.not_lt.mpr large)

/-- Let the candidate be read as `v` once the control characters of its literals are escaped.
Without such characters it is read as it is. With a tab, a line feed or a carriage return among
them nothing is extracted. With others only, and no bytes but ASCII, the repair escapes them and
changes nothing else, and `v` is extracted. -/
theorem extract_of_escaped (reads : ReadsJson fromStr) (scanned : firstCandidate text = some found)
    (parsed : fromStr (escapeLiterals found) = some v) :
    ((∀ byte, InLiteral found byte → 0x20 ≤ byte) →
        extractFirstJsonObject fromStr text = some v) ∧
      ((∃ byte ∈ [0x09, 0x0A, 0x0D], InLiteral found byte) →
        extractFirstJsonObject fromStr text = none) ∧
      ((∀ byte ∈ found, byte < 0x80) →
        (∀ byte, InLiteral found byte → byte ∉ [0x09, 0x0A, 0x0D]) →
        repairControlChars found = escapeLiterals found ∧
          extractFirstJsonObject fromStr text = some v) := by
  rw [extractFirstJsonObject_of_candidate scanned]
  refine ⟨fun printable => ?_, ?_, fun plain escaped => ?_⟩
  · rw [escapeLiterals_eq_self printable] at parsed
    rw [parsed, Option.some_or]
  · rintro ⟨byte, raw, inside⟩
    rw [fromStr_eq_none_of_raw reads raw inside, Option.none_or]
    exact fromStr_eq_none_of_raw reads raw (inLiteral_repairControlChars raw inside)
  · have repaired := repairControlChars_eq_escapeLiterals reads parsed plain escaped
    refine ⟨repaired, ?_⟩
    cases direct : fromStr found with
    | none => rw [Option.none_or, repaired, parsed]
    | some w =>
      -- a candidate that is read at once has nothing to escape, so that the values agree
      rw [escapeLiterals_of_read reads direct, direct] at parsed
      rw [Option.some_or, parsed]

theorem stringBody_escaped (digit : UInt8) (hex : digit ∈ ascii "0123456789abcdef") :
    StringBody (ascii "a\\u000" ++ [digit]) := by
  have each : ∀ digit ∈ ascii "0123456789abcdef",
      0x20 ≤ digit ∧ digit ≠ quote ∧ digit ≠ backslash := forall_mem_of_all (by decide)
  obtain ⟨printable, notQuote, notBackslash⟩ := each digit hex
  have zero {rest : List UInt8} (more : StringBody rest) : StringBody (0x30 :: rest) :=
    .plain (by decide) (by decide) (by decide) more
  have last : StringBody [digit] := .plain printable notQuote notBackslash .nil
  exact .plain (by decide) (by decide) (by decide) (.escape (by decide) (zero (zero (zero last))))

/-- A string with the control character 1 is repaired and extracted. -/
theorem extract_of_control_one :
    let found := ascii "\x7b\"k\":\"a\x01\"\x7d"
    let v := Json.object [("k".toList, .string "a\x01".toList)]
    let fromStr := readOnly (ascii "\x7b\"k\":\"a\\u0001\"\x7d") v
    repairControlChars found = escapeLiterals found ∧
      extractFirstJsonObject fromStr (ascii "call " ++ found) = some v := by
  intro found v fromStr
  have key : StringBody (ascii "k") := .plain (by decide) (by decide) (by decide) .nil
  have reads : ReadsJson fromStr := by
    refine readsJson_readOnly (derives_oneMember key (stringBody_escaped 0x31 ?_)) ?_
    · decide
    · exact fun _ _ => ⟨_, rfl⟩
  have scanned : firstCandidate (ascii "call " ++ found) = some found := by decide
  have parsed : fromStr (escapeLiterals found) = some v := if_pos (by decide)
  have plain : ∀ byte ∈ found, byte < 0x80 := forall_mem_of_all (by decide)
  have escaped : ∀ byte, InLiteral found byte → byte ∉ [0x09, 0x0A, 0x0D] := by
    have none_ : ∀ mark ∈ marked ⟨0, false, false⟩ found, mark.2 ∉ [0x09, 0x0A, 0x0D] :=
      forall_mem_of_all (by decide)
    exact fun byte inside => none_ _ inside
  exact (extract_of_escaped reads scanned parsed).2.2 plain escaped

/-- A string with a tab: it is read once the tab is escaped, but nothing is extracted. -/
theorem tab_not_repaired :
    ¬∀ fromStr, ReadsJson fromStr → ∀ text found v, firstCandidate text = some found →
      fromStr (escapeLiterals found) = some v → extractFirstJsonObject fromStr text = some v := by
  intro claim
  have key : StringBody (ascii "k") := .plain (by decide) (by decide) (by decide) .nil
  have value : StringBody (ascii "a\\u000" ++ [0x39]) := stringBody_escaped 0x39 (by decide)
  have reads (v : Json Number) : ReadsJson (readOnly (ascii "\x7b\"k\":\"a\\u0009\"\x7d") v) :=
    readsJson_readOnly (derives_oneMember key value) fun _ _ => ⟨_, rfl⟩
  have scanned : firstCandidate (ascii "\x7b\"k\":\"a\t\"\x7d") =
      some (ascii "\x7b\"k\":\"a\t\"\x7d") := by decide
  have extracted := claim _ (reads (.object [("k".toList, .string "a\t".toList)])) _ _ _ scanned
    (if_pos (by decide))
  rw [extractFirstJsonObject_of_candidate scanned, readOnly, if_neg (by decide), Option.none_or,
    readOnly, if_neg (by decide)] at extracted
  cases extracted

end TribunusCompute.Tools
