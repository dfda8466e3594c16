import Mathlib.Data.List.DropRight
import TribunusCompute.Grammar.WellFormed

/-!
# Reading grammar text

`parse_gbnf`, over the characters of its text. The scanners count characters and cut
the text at bytes, so that beyond ASCII a cut is misplaced or panics.
-/
namespace TribunusCompute.Gbnf

open Failures

inductive Stop
  | err (message : String)
  /-- A slice past the end or inside a character. -/
  | panic
  /-- A loop that no longer advances. -/
  | hang
  deriving DecidableEq, Repr

/-! ## Strings -/

instance lawfulText : LawfulBEq (List Char) := inferInstance

/-- A closed text is gone through, not all the characters there are. -/
theorem forall_chars {s : List Char} {p : Char → Prop} [DecidablePred p]
    (all : s.all (fun ch => decide (p ch)) = true) : ∀ ch ∈ s, p ch :=
  fun ch member => of_decide_eq_true (List.all_eq_true.mp all ch member)

/-- `char::is_whitespace`. -/
def isWhitespace (ch : Char) : Bool :=
  let n := ch.toNat
  (9 ≤ n && n ≤ 13) || n == 0x20 || n == 0x85 || n == 0xA0 || n == 0x1680 ||
    (0x2000 ≤ n && n ≤ 0x200A) || n == 0x2028 || n == 0x2029 || n == 0x202F || n == 0x205F ||
    n == 0x3000

def trim (s : List Char) : List Char := (s.dropWhile isWhitespace).rdropWhile isWhitespace

def splitOnce (pattern : List Char) : List Char → Option (List Char × List Char)
  | [] => none
  | ch :: rest =>
    if pattern.isPrefixOf (ch :: rest) then some ([], (ch :: rest).drop pattern.length)
    else (splitOnce pattern rest).map fun (before, after) => (ch :: before, after)

/-- `str::lines`, with what is read of the current line. -/
def linesFrom (line : List Char) : List Char → List (List Char)
  | [] => if line.isEmpty then [] else [line]
  | ch :: rest =>
    if ch = '\n' then
      (if line.getLast? = some '\r' then line.dropLast else line) :: linesFrom [] rest
    else linesFrom (line ++ [ch]) rest

def lines (text : List Char) : List (List Char) := linesFrom [] text

def byteLength (s : List Char) : ℕ := s.foldl (fun n ch => n + ch.utf8Size) 0

/-- `&s[n..]`, in bytes. -/
def sliceFrom : ℕ → List Char → Except Stop (List Char)
  | 0, s => .ok s
  | _ + 1, [] => .error .panic
  | n + 1, ch :: s =>
    if ch.utf8Size ≤ n + 1 then sliceFrom (n + 1 - ch.utf8Size) s else .error .panic

/-- `&s[..n]`, in bytes. -/
def sliceTo : ℕ → List Char → Except Stop (List Char)
  | 0, _ => .ok []
  | _ + 1, [] => .error .panic
  | n + 1, ch :: s =>
    if ch.utf8Size ≤ n + 1 then do return ch :: (← sliceTo (n + 1 - ch.utf8Size) s)
    else .error .panic

/-- `&s[start..stop]`, in bytes. -/
def slice (s : List Char) (start stop : ℕ) : Except Stop (List Char) :=
  if start ≤ stop then do sliceTo (stop - start) (← sliceFrom start s) else .error .panic

def inner (s : List Char) : List Char := s.tail.dropLast

/-! ## Atoms -/

def hexDigit (ch : Char) : Option ℕ :=
  if '0' ≤ ch ∧ ch ≤ '9' then some (ch.toNat - '0'.toNat)
  else if 'a' ≤ ch ∧ ch ≤ 'f' then some (ch.toNat - 'a'.toNat + 10)
  else if 'A' ≤ ch ∧ ch ≤ 'F' then some (ch.toNat - 'A'.toNat + 10)
  else none

/-- `u8::from_str_radix(_, 16)` of two bytes: a sign is a digit's place. -/
def fromHex (s : List Char) : Option ℕ :=
  let digits := if s.head? = some '+' then s.tail else s
  if digits.isEmpty then none
  else digits.foldlM (fun value ch => (hexDigit ch).map (value * 16 + ·)) 0

def unescapeChar : Char → Char
  | 'n' => '\n'
  | 't' => '\t'
  | 'r' => '\r'
  | ch => ch

/-- `unescape_string` from the character at `i` on. -/
def unescapeFrom (s : List Char) (i : ℕ) : List Char → Except Stop (List Char)
  | '\\' :: 'x' :: _ :: _ :: rest => do
    let hex ← slice s (i + 2) (i + 4)
    match fromHex hex with
    | some byte => return Char.ofNat byte :: (← unescapeFrom s (i + 4) rest)
    | none =>
      .error (.err ("invalid hex escape '\\x" ++ String.ofList hex ++
        "': invalid digit found in string"))
  | '\\' :: 'x' :: _ => .error (.err "incomplete hex escape")
  | '\\' :: ch :: rest => do return unescapeChar ch :: (← unescapeFrom s (i + 2) rest)
  | ch :: rest => do return ch :: (← unescapeFrom s (i + 1) rest)
  | [] => .ok []

def unescapeString (s : List Char) : Except Stop (List Char) := unescapeFrom s 0 s

def isIdentifier : List Char → Bool
  | [] => false
  | first :: rest =>
    (first.isAlpha || first == '_') && rest.all fun c => c.isAlphanum || c == '_' || c == '-'

def classRanges : List Char → Except Stop (List (Char × Char))
  | start :: '-' :: stop :: rest =>
    if stop < start then
      .error (.err ("invalid char range '" ++ String.singleton start ++ "-" ++
        String.singleton stop ++ "'"))
    else do return (start, stop) :: (← classRanges rest)
  | '\\' :: ch :: rest => do return (unescapeChar ch, unescapeChar ch) :: (← classRanges rest)
  | ch :: rest => do return (ch, ch) :: (← classRanges rest)
  | [] => .ok []

/-- A class body without its brackets; `trim` takes a blank at either end away. -/
def parseCharClass (body : List Char) : Except Stop GrammarNode := do
  let body := trim body
  let negated := body.head? = some '^'
  let ranges ← classRanges (if negated then body.tail else body)
  if ranges.isEmpty then .error (.err "empty character class") else return .charClass ranges negated

/-! ## Alternation -/

/-- The loop of `split_alternation` at a character. -/
structure AltScan where
  inString : Bool
  /-- Characters of a `\xNN` left to skip. -/
  inHex : ℕ
  depthParen : ℕ
  depthBracket : ℕ
  start : ℕ
  i : ℕ
  /-- The character before. -/
  prev : Option Char
  parts : List (List Char)

def AltScan.init : AltScan := ⟨false, 0, 0, 0, 0, 0, none, []⟩

def AltScan.step (s : List Char) (scan : AltScan) (ch : Char) (next : Option Char) :
    Except Stop AltScan :=
  let moved := { scan with i := scan.i + 1, prev := some ch }
  if scan.inString then
    -- an escaped backslash before the quote counts as its escape too
    .ok { moved with inString := !(ch = '"' && scan.prev ≠ some '\\') }
  else if 0 < scan.inHex then .ok { moved with inHex := scan.inHex - 1 }
  else if ch = '"' then .ok { moved with inString := true }
  else if ch = '(' then .ok { moved with depthParen := scan.depthParen + 1 }
  else if ch = ')' then
    if scan.depthParen = 0 then .error (.err "unbalanced ')'")
    else .ok { moved with depthParen := scan.depthParen - 1 }
  else if ch = '[' then .ok { moved with depthBracket := scan.depthBracket + 1 }
  else if ch = ']' then
    if scan.depthBracket = 0 then .error (.err "unbalanced ']'")
    else .ok { moved with depthBracket := scan.depthBracket - 1 }
  else if ch = '\\' ∧ next = some 'x' then .ok { moved with inHex := 3 }
  else if ch = '|' ∧ scan.depthParen = 0 ∧ scan.depthBracket = 0 then do
    let part ← slice s scan.start scan.i
    return { moved with parts := scan.parts ++ [part], start := scan.i + 1 }
  else .ok moved

def splitAlternationFrom (s : List Char) (scan : AltScan) :
    List Char → Except Stop (List (List Char))
  | [] =>
    if scan.depthParen ≠ 0 then .error (.err "unbalanced '('")
    else if scan.depthBracket ≠ 0 then .error (.err "unbalanced '['")
    else if scan.inString then .error (.err "unclosed string literal")
    else do return scan.parts ++ [← sliceFrom scan.start s]
  | ch :: rest => do splitAlternationFrom s (← scan.step s ch rest.head?) rest

def splitAlternation (s : List Char) : Except Stop (List (List Char)) :=
  splitAlternationFrom s .init s

/-! ## Sequences -/

def stringInner : List Char → ℕ
  | '\\' :: _ :: rest => stringInner rest + 2
  | '"' :: _ => 0
  | _ :: rest => stringInner rest + 1
  | [] => 0

def stringExtent (rest : List Char) : ℕ := min (stringInner rest + 1) rest.length

/-- What is left of a class that is `depth` brackets deep. -/
def classExtent : ℕ → List Char → ℕ
  | _ + 1, [] => 0
  | depth + 1, '[' :: rest => classExtent (depth + 2) rest + 1
  | depth + 1, ']' :: rest => classExtent depth rest + 1
  | depth + 1, '\\' :: _ :: rest => classExtent (depth + 1) rest + 2
  | depth + 1, _ :: rest => classExtent (depth + 1) rest + 1
  | 0, _ => 0

/-- What is left of a group that is `depth` parentheses deep. A string that is not closed ends
one past the text. -/
def groupExtent : Bool → ℕ → List Char → ℕ
  | false, _ + 1, [] => 0
  | false, depth + 1, '(' :: rest => groupExtent false (depth + 2) rest + 1
  | false, depth + 1, ')' :: rest => groupExtent false depth rest + 1
  | false, depth + 1, '"' :: rest => groupExtent true (depth + 1) rest + 1
  | false, depth + 1, _ :: rest => groupExtent false (depth + 1) rest + 1
  | true, _ + 1, [] => 1
  | true, depth + 1, '\\' :: _ :: rest => groupExtent true (depth + 1) rest + 2
  | true, depth + 1, '"' :: rest => groupExtent false (depth + 1) rest + 1
  | true, depth + 1, _ :: rest => groupExtent true (depth + 1) rest + 1
  | _, 0, _ => 0

/-- A character that an identifier, or anything unknown, goes on with. -/
def continues (ch : Char) : Bool :=
  !isWhitespace ch && !(ch ∈ ['|', '*', '+', '?', ')', ']'])

def isSuffix (ch : Char) : Bool := ch ∈ ['*', '+', '?']

/-- The length of the term at the head of a text, its suffixes apart. -/
def termExtent : List Char → ℕ
  | '"' :: rest => stringExtent rest + 1
  | '[' :: rest => classExtent 1 rest + 1
  | '(' :: rest => groupExtent false 1 rest + 1
  | '\\' :: 'x' :: _ => 4
  | '.' :: _ => 1
  | s => (s.takeWhile continues).length

theorem length_after_term_lt {rest : List Char} {extent : ℕ}
    (some_ : rest.dropWhile isWhitespace ≠ []) (moved : extent ≠ 0) :
    ((rest.dropWhile isWhitespace).drop extent).length < rest.length := by
  have shorter := (List.dropWhile_suffix isWhitespace : _ <:+ rest).length_le
  have pos := List.length_pos_iff.mpr some_
  rw [List.length_drop]
  omega

/-- The terms from the character at `i` on. -/
def splitTermsFrom (s : List Char) (i : ℕ) (rest : List Char) : Except Stop (List (List Char)) :=
  let start := i + (rest.takeWhile isWhitespace).length
  let tail := rest.dropWhile isWhitespace
  if _finished : tail = [] then .ok []
  else
    let extent := termExtent tail
    let extent := extent + ((tail.drop extent).takeWhile isSuffix).length
    do
      let term ← slice s start (start + extent)
      -- a `|`, `)` or `]` here is no term and is never passed
      if _stuck : extent = 0 then .error .hang
      else
        let terms ← splitTermsFrom s (start + extent) (tail.drop extent)
        return if (trim term).isEmpty then terms else trim term :: terms
termination_by rest.length
decreasing_by exact length_after_term_lt _finished _stuck

def splitSequenceTerms (s : List Char) : Except Stop (List (List Char)) := do
  let terms ← splitTermsFrom s 0 s
  match terms.find? (· ∈ [['*'], ['+'], ['?']]) with
  | some t =>
    .error (.err ("suffix operator '" ++ String.ofList t ++ "' without preceding term"))
  | none => return terms

/-! ## Expressions -/

section
variable (parseGroup : List Char → Except Stop GrammarNode)

def parseAtom (s : List Char) : Except Stop GrammarNode :=
  let s := trim s
  if s.isEmpty then .error (.err "empty atom")
  else if s.head? = some '"' ∧ s.getLast? = some '"' ∧ 2 ≤ s.length then do
    return .lit (String.ofList (← unescapeString (inner s)))
  else if s.head? = some '[' ∧ s.getLast? = some ']' then parseCharClass (inner s)
  else if s = ['.'] then .ok .any
  else if ['\\', 'x'].isPrefixOf s ∧ byteLength s = 4 then
    match fromHex (s.drop 2) with
    | some byte => .ok (.hexByte (UInt8.ofNat byte))
    | none =>
      .error (.err ("invalid hex byte '" ++ String.ofList s ++
        "': invalid digit found in string"))
  else if s.head? = some '(' ∧ s.getLast? = some ')' then parseGroup (inner s)
  else if isIdentifier s then .ok (.ref (String.ofList s))
  else .error (.err ("unrecognized grammar term '" ++ String.ofList s ++ "'"))

def parseTerm (s : List Char) : Except Stop GrammarNode :=
  let s := trim s
  if s.isEmpty then .error (.err "empty term")
  else if s.getLast? = some '*' then do return .star (← parseAtom parseGroup (trim s.dropLast))
  else if s.getLast? = some '+' then do return .plus (← parseAtom parseGroup (trim s.dropLast))
  else if s.getLast? = some '?' then do return .opt (← parseAtom parseGroup (trim s.dropLast))
  else parseAtom parseGroup s

def parseSequence (s : List Char) : Except Stop GrammarNode := do
  let terms ← splitSequenceTerms s
  match terms with
  | [] => .error (.err "empty sequence")
  | [term] => parseTerm parseGroup term
  | terms => return .seq (← terms.mapM (parseTerm parseGroup))

end

/-- `depth` bounds the groups inside one another. Each is shorter than the one around it, so
that the length of the text is enough. -/
def parseExpression : ℕ → List Char → Except Stop GrammarNode
  | 0, _ => .error .hang
  | depth + 1, s => do
    let s := trim s
    if s.isEmpty then .error (.err "empty expression")
    else
      let parts ← splitAlternation s
      if 1 < parts.length then return .alt (← parts.mapM (parseSequence (parseExpression depth)))
      else parseSequence (parseExpression depth) s

/-! ## Rules -/

/-- One line of the text, with the rules so far and the first rule's name. -/
def parseLine (state : Rules × Option String) (line : List Char) :
    Except Stop (Rules × Option String) :=
  let line := trim line
  if line.isEmpty ∨ line.head? = some '#' then .ok state
  else
    match splitOnce "::=".toList line with
    | none =>
      .error (.err ("expected '::=' in grammar line: '" ++ String.ofList line ++ "'"))
    | some (name, body) =>
      let name := String.ofList (trim name)
      let body := trim body
      if name.isEmpty then .error (.err "empty rule name")
      else if body.isEmpty then .error (.err ("empty body in rule '" ++ name ++ "'"))
      else do
        let node ← parseExpression (body.length + 1) body
        return (state.1.insert name node, some (state.2.getD name))

def parseGbnf (text : List Char) : Except Stop Grammar := do
  let (rules, root) ← (lines text).foldlM parseLine (∅, none)
  match root with
  | none => .error (.err "no rules defined")
  | some root =>
    if root ∈ rules then return { rules := rules, root := root }
    else
      .error (.err ("root rule '" ++ root ++ "' is defined but no rule body was found"))

/-! ## One step of the alternation scan -/

/-- The character is a `|` that the scan splits at. -/
def AltScan.AtBar (scan : AltScan) (ch : Char) : Prop :=
  ch = '|' ∧ scan.inString = false ∧ scan.inHex = 0 ∧ scan.depthParen = 0 ∧ scan.depthBracket = 0

instance (scan : AltScan) (ch : Char) : Decidable (scan.AtBar ch) :=
  inferInstanceAs (Decidable (_ ∧ _))

/-- The scan behind a `|`, with nothing kept of what it has cut. -/
def AltScan.behindBar (scan : AltScan) (ch : Char) : AltScan :=
  { scan with i := scan.i + 1, prev := some ch, start := scan.i + 1 }

def AltScan.withParts (scan : AltScan) (parts : List (List Char)) : AltScan :=
  { scan with parts := parts }

theorem AltScan.step_bar {s : List Char} {scan : AltScan} {ch : Char} {next : Option Char}
    (bar : scan.AtBar ch) : scan.step s ch next =
      (fun part => (scan.behindBar ch).withParts (scan.parts ++ [part])) <$>
        slice s scan.start scan.i := by
  obtain ⟨rfl, noString, noHex, noParen, noBracket⟩ := bar
  unfold AltScan.step
  simp [noString, noHex, noParen, noBracket, AltScan.behindBar, AltScan.withParts]

theorem AltScan.not_bar {scan : AltScan} {ch : Char} (other : ¬ scan.AtBar ch) :
    ¬ (ch = '|' ∧ scan.depthParen = 0 ∧ scan.depthBracket = 0) ∨ scan.inString = true ∨
      0 < scan.inHex := by
  rw [AltScan.AtBar] at other
  grind

theorem AltScan.step_other {s : List Char} {scan : AltScan} {ch : Char} {next : Option Char}
    (parts : List (List Char)) (other : ¬ scan.AtBar ch) :
    (scan.withParts parts).step s ch next = (·.withParts parts) <$> scan.step [] ch next := by
  have push (c : Prop) [Decidable c] (a b : Except Stop AltScan) :
      (·.withParts parts) <$> (if c then a else b) =
        if c then (·.withParts parts) <$> a else (·.withParts parts) <$> b := by
    split
    next => rfl
    next => rfl
  unfold AltScan.step
  rcases not_bar other with noBar | string | hex
  · have noBar' : ¬ (ch = '|' ∧ (scan.withParts parts).depthParen = 0 ∧
        (scan.withParts parts).depthBracket = 0) := noBar
    simp only [push, if_neg noBar, if_neg noBar']
    rfl
  · rw [if_pos string, if_pos (show (scan.withParts parts).inString = true from string)]
    rfl
  · have hex' : 0 < (scan.withParts parts).inHex := hex
    simp only [push, if_pos hex, if_pos hex']
    rfl

/-- The scan goes on behind the character, or refuses it with a message. -/
def AltScan.Passes (scan : AltScan) (result : Except Stop AltScan) : Prop :=
  (∃ message, result = .error (.err message)) ∨
    ∃ scan', result = .ok scan' ∧ scan'.start = scan.start ∧ scan'.i = scan.i + 1

theorem AltScan.step_passes (s : List Char) {scan : AltScan} {ch : Char} (next : Option Char)
    (other : ¬ scan.AtBar ch) : scan.Passes (scan.step s ch next) := by
  have branch (c : Prop) [Decidable c] {a b : Except Stop AltScan} (yes : scan.Passes a)
      (no : scan.Passes b) : scan.Passes (if c then a else b) := by
    split
    next => exact yes
    next => exact no
  have refused (message : String) : scan.Passes (.error (.err message)) := .inl ⟨message, rfl⟩
  have passed (scan' : AltScan) (same : scan'.start = scan.start) (one : scan'.i = scan.i + 1) :
      scan.Passes (.ok scan') := .inr ⟨scan', rfl, same, one⟩
  unfold AltScan.step
  rcases not_bar other with noBar | string | hex
  · simp only [if_neg noBar]
    repeat' apply branch
    all_goals first
      | exact passed _ rfl rfl
      | exact refused _
  · rw [if_pos string]
    exact passed _ rfl rfl
  · simp only [if_pos hex]
    exact branch _ (passed _ rfl rfl) (passed _ rfl rfl)

theorem AltScan.step_cases (s : List Char) {scan : AltScan} {ch : Char} (next : Option Char)
    (other : ¬ scan.AtBar ch) :
    (∃ message, scan.step [] ch next = .error (.err message) ∧
        scan.step s ch next = .error (.err message)) ∨
      ∃ scan', scan.step [] ch next = .ok scan' ∧
        scan.step s ch next = .ok (scan'.withParts scan.parts) ∧
        scan'.start = scan.start ∧ scan'.i = scan.i + 1 := by
  have same : scan.step s ch next = (·.withParts scan.parts) <$> scan.step [] ch next :=
    AltScan.step_other scan.parts other
  rcases AltScan.step_passes [] next other with
    ⟨message, refused⟩ | ⟨scan', passed, start, one⟩
  · exact .inl ⟨message, refused, by rw [same, refused]; rfl⟩
  · exact .inr ⟨scan', passed, by rw [same, passed]; rfl, start, one⟩

/-! ## The depth is enough -/

theorem length_trim_le (s : List Char) : (trim s).length ≤ s.length :=
  (List.rdropWhile_prefix _ _).length_le.trans (List.dropWhile_suffix _).length_le

theorem length_sliceFrom_le {n : ℕ} {s part : List Char} (cut : sliceFrom n s = .ok part) :
    part.length ≤ s.length := by
  induction s generalizing n with
  | nil =>
    cases n with
    | zero => cases cut; exact le_rfl
    | succ n => cases cut
  | cons ch s ih =>
    cases n with
    | zero => cases cut; exact le_rfl
    | succ n =>
      rw [sliceFrom] at cut
      split at cut
      next => exact (ih cut).trans (Nat.le_succ _)
      next => cases cut

theorem length_sliceTo_le {n : ℕ} {s part : List Char} (cut : sliceTo n s = .ok part) :
    part.length ≤ s.length := by
  induction s generalizing n part with
  | nil =>
    cases n with
    | zero => cases cut; exact le_rfl
    | succ n => cases cut
  | cons ch s ih =>
    cases n with
    | zero => cases cut; exact Nat.zero_le _
    | succ n =>
      rw [sliceTo] at cut
      split at cut
      next =>
        obtain ⟨more, cutMore, rest⟩ := bind_ok cut
        cases rest
        exact Nat.succ_le_succ (ih cutMore)
      next => cases cut

theorem length_slice_le {s part : List Char} {start stop : ℕ}
    (cut : slice s start stop = .ok part) : part.length ≤ s.length := by
  rw [slice] at cut
  split at cut
  next =>
    obtain ⟨tail, cutTail, rest⟩ := bind_ok cut
    exact (length_sliceTo_le rest).trans (length_sliceFrom_le cutTail)
  next => cases cut

theorem length_splitTermsFrom_le {s rest : List Char} {i : ℕ} {terms : List (List Char)}
    (done : splitTermsFrom s i rest = .ok terms) : ∀ term ∈ terms, term.length ≤ s.length := by
  induction size : rest.length using Nat.strong_induction_on generalizing rest i terms with
  | _ n ih =>
  subst size
  rw [splitTermsFrom] at done
  dsimp only at done
  split at done
  next =>
    cases done
    simp
  next some_ =>
    obtain ⟨term, cut, more⟩ := bind_ok done
    split at more
    next => cases more
    next moved =>
      obtain ⟨terms', done', last⟩ := bind_ok more
      have others := ih _ (length_after_term_lt some_ moved) done' rfl
      cases last
      split
      next => exact others
      next =>
        intro t member
        rcases List.mem_cons.mp member with rfl | later
        · exact (length_trim_le term).trans (length_slice_le cut)
        · exact others t later

theorem length_splitAlternationFrom_le {s rest : List Char} {scan : AltScan}
    {parts : List (List Char)} (known : ∀ part ∈ scan.parts, part.length ≤ s.length)
    (done : splitAlternationFrom s scan rest = .ok parts) :
    ∀ part ∈ parts, part.length ≤ s.length := by
  induction rest generalizing scan with
  | nil =>
    rw [splitAlternationFrom] at done
    split at done
    next => cases done
    split at done
    next => cases done
    split at done
    next => cases done
    obtain ⟨last, cut, finished⟩ := bind_ok done
    cases finished
    intro part member
    rcases List.mem_append.mp member with old | new
    · exact known part old
    · rw [List.mem_singleton.mp new]
      exact length_sliceFrom_le cut
  | cons ch rest ih =>
    rw [splitAlternationFrom] at done
    obtain ⟨scan', stepped, more⟩ := bind_ok done
    by_cases bar : scan.AtBar ch
    · -- only the cut at a `|` adds a part
      rw [AltScan.step_bar bar] at stepped
      obtain ⟨cutPart, cut, last⟩ := bind_ok stepped
      cases last
      refine ih ?_ more
      intro part member
      rcases List.mem_append.mp member with old | new
      · exact known part old
      · rw [List.mem_singleton.mp new]
        exact length_slice_le cut
    · rcases AltScan.step_cases s rest.head? bar with
        ⟨message, -, refused⟩ | ⟨scan'', -, passed, -⟩
      · cases refused.symm.trans stepped
      · cases passed.symm.trans stepped
        exact @ih (scan''.withParts scan.parts) known more

section
variable {f g : List Char → Except Stop GrammarNode} {s : List Char}

theorem parseAtom_congr (same : ∀ t, t.length < s.length → f t = g t) :
    parseAtom f s = parseAtom g s := by
  unfold parseAtom
  dsimp only
  split
  next => rfl
  next some_ =>
    have shorter : (inner (trim s)).length < s.length := by
      have bound := length_trim_le s
      have pos : 0 < (trim s).length := List.length_pos_iff.mpr (by simpa using some_)
      simp only [inner, List.length_dropLast, List.length_tail]
      omega
    rw [same _ shorter]

theorem parseTerm_congr (same : ∀ t, t.length < s.length → f t = g t) :
    parseTerm f s = parseTerm g s := by
  have atom (t : List Char) (short : t.length ≤ s.length) : parseAtom f t = parseAtom g t :=
    parseAtom_congr fun u shorter => same u (shorter.trans_le short)
  have whole := atom (trim s) (length_trim_le s)
  have base := atom (trim (trim s).dropLast) (by
    have bound := length_trim_le (trim s).dropLast
    have bound' := length_trim_le s
    rw [List.length_dropLast] at bound
    omega)
  unfold parseTerm
  dsimp only
  rw [whole, base]

theorem parseSequence_congr (same : ∀ t, t.length < s.length → f t = g t) :
    parseSequence f s = parseSequence g s := by
  unfold parseSequence splitSequenceTerms
  cases done : splitTermsFrom s 0 s with
  | error stop => simp only [bind, Except.bind]
  | ok terms =>
    have short := length_splitTermsFrom_le done
    have each (term : List Char) (member : term ∈ terms) : parseTerm f term = parseTerm g term :=
      parseTerm_congr fun t shorter => same t (shorter.trans_le (short term member))
    simp only [bind, Except.bind]
    cases terms.find? (· ∈ [['*'], ['+'], ['?']]) with
    | some t => simp only
    | none =>
      match terms, each with
      | [], _ => simp only [pure, Except.pure]
      | [term], each => exact each term (List.mem_singleton_self _)
      | first :: second :: more, each => simp only [pure, Except.pure, mapM_congr each]

end

/-- A text needs no more depth than it has characters. -/
theorem parseExpression_depth {depth : ℕ} {s : List Char} (enough : s.length < depth) :
    parseExpression depth s = parseExpression (s.length + 1) s := by
  have general : ∀ depth depth' (s : List Char), s.length < depth → s.length < depth' →
      parseExpression depth s = parseExpression depth' s := by
    intro depth
    induction depth with
    | zero => intro _ _ few; exact absurd few (Nat.not_lt_zero _)
    | succ depth ih =>
      intro depth' s few few'
      obtain ⟨depth', rfl⟩ := Nat.exists_eq_succ_of_ne_zero (Nat.ne_zero_of_lt few')
      have sequence (t : List Char) (short : t.length ≤ s.length) :
          parseSequence (parseExpression depth) t = parseSequence (parseExpression depth') t :=
        parseSequence_congr fun u shorter => ih depth' u (by omega) (by omega)
      have trimmed := length_trim_le s
      simp only [parseExpression]
      split
      next => rfl
      next =>
        cases split_ : splitAlternation (trim s) with
        | error stop => simp only [bind, Except.bind]
        | ok parts =>
          have short := length_splitAlternationFrom_le (by simp [AltScan.init]) split_
          have mapped : parts.mapM (parseSequence (parseExpression depth)) =
              parts.mapM (parseSequence (parseExpression depth')) :=
            mapM_congr fun part member => sequence part ((short part member).trans trimmed)
          simp only [bind, Except.bind, mapped, sequence _ trimmed]
  exact general depth _ s enough (Nat.lt_succ_self _)

end TribunusCompute.Gbnf
