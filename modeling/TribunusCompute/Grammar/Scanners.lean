import TribunusCompute.Grammar.Boundaries
import TribunusCompute.Grammar.Syntax

/-!
# The scanners read the syntax

Text of the grammar syntax parses, as long as it is ASCII and its strings and classes
hold nothing that misleads a scanner. Each scanner is described by what it does with a
piece of text in front of any rest.
-/
namespace TribunusCompute.Gbnf

open Failures

/-! ## Slices of ASCII text -/

/-- Characters and bytes are the same positions. -/
def Ascii (s : List Char) : Prop := ∀ ch ∈ s, ch.utf8Size = 1

theorem Ascii.left {s t : List Char} (ascii : Ascii (s ++ t)) : Ascii s :=
  fun ch member => ascii ch (List.mem_append_left t member)

theorem Ascii.right {s t : List Char} (ascii : Ascii (s ++ t)) : Ascii t :=
  fun ch member => ascii ch (List.mem_append_right s member)

theorem Ascii.byteLength {s : List Char} (ascii : Ascii s) : byteLength s = s.length := by
  induction s with
  | nil => rfl
  | cons ch s ih =>
    have size := ascii ch List.mem_cons_self
    have rest := ih fun other member => ascii other (List.mem_cons_of_mem _ member)
    rw [byteLength_cons, size, rest, List.length_cons, Nat.add_comm]

theorem sliceFrom_ascii {pre : List Char} (ascii : Ascii pre) (rest : List Char) :
    sliceFrom pre.length (pre ++ rest) = .ok rest := by
  rw [← ascii.byteLength]
  exact sliceFrom_append pre rest

theorem slice_ascii {pre part : List Char} (ascii : Ascii (pre ++ part)) (rest : List Char) :
    slice (pre ++ (part ++ rest)) pre.length (pre.length + part.length) = .ok part := by
  have tail := sliceFrom_ascii ascii.left (part ++ rest)
  have cut := sliceTo_append part rest
  rw [ascii.right.byteLength] at cut
  simp [slice, tail, cut, bind, Except.bind]

/-! ## Pieces that are passed over -/

def AltScan.skip (scan : AltScan) (s : List Char) : AltScan :=
  { scan with i := scan.i + s.length, prev := s.foldl (fun _ ch => some ch) scan.prev }

/-- Between tokens. -/
structure AltScan.AtRest (scan : AltScan) : Prop where
  inString : scan.inString = false
  inHex : scan.inHex = 0

theorem AltScan.AtRest.skip {scan : AltScan} (rest : scan.AtRest) (s : List Char) :
    (scan.skip s).AtRest := ⟨rest.inString, rest.inHex⟩

theorem AltScan.skip_append (scan : AltScan) (s t : List Char) :
    scan.skip (s ++ t) = (scan.skip s).skip t := by
  simp [AltScan.skip, List.foldl_append, Nat.add_assoc]

/-- A piece that the scanners of alternations, inside at least `least` parentheses, and of groups
pass over. -/
structure Skipped (least : ℕ) (s : List Char) : Prop where
  alternation : ∀ (whole : List Char) (scan : AltScan) (rest : List Char), scan.AtRest →
    least ≤ scan.depthParen →
    splitAlternationFrom whole scan (s ++ rest) = splitAlternationFrom whole (scan.skip s) rest
  group : ∀ (depth : ℕ) (rest : List Char),
    groupExtent false (depth + 1) (s ++ rest) = groupExtent false (depth + 1) rest + s.length

theorem Skipped.mono {least least' : ℕ} {s : List Char} (skipped : Skipped least s)
    (deeper : least ≤ least') : Skipped least' s where
  alternation whole scan rest atRest deep :=
    skipped.alternation whole scan rest atRest (deeper.trans deep)
  group := skipped.group

theorem Skipped.append {least : ℕ} {s t : List Char} (left : Skipped least s)
    (right : Skipped least t) : Skipped least (s ++ t) where
  alternation whole scan rest atRest deep := by
    rw [List.append_assoc, left.alternation whole scan _ atRest deep,
      right.alternation whole (scan.skip s) rest (atRest.skip s) deep, ← AltScan.skip_append]
  group depth rest := by
    rw [List.append_assoc, left.group, right.group, List.length_append]
    omega

/-! ### Plain characters -/

theorem AltScan.AtRest.step_plain {scan : AltScan} (atRest : scan.AtRest) (whole : List Char) {ch : Char}
    {next : Option Char} (plain : ch ∉ ['"', '(', ')', '[', ']'])
    (noHex : ch = '\\' → next ≠ some 'x')
    (noCut : ch = '|' → 0 < scan.depthParen ∨ 0 < scan.depthBracket) :
    scan.step whole ch next = .ok (scan.skip [ch]) := by
  simp only [List.mem_cons, List.not_mem_nil, or_false, not_or] at plain
  obtain ⟨quote, opened, closed, bracket, unbracket⟩ := plain
  have hex : ¬(ch = '\\' ∧ next = some 'x') := fun h => noHex h.1 h.2
  have cut : ¬(ch = '|' ∧ scan.depthParen = 0 ∧ scan.depthBracket = 0) := by
    rintro ⟨bar, parens, brackets⟩
    have := noCut bar
    omega
  simp [AltScan.step, atRest.inString, atRest.inHex, quote, opened, closed, bracket, unbracket,
    hex, cut, AltScan.skip]

theorem groupExtent_plain {ch : Char} (plain : ch ∉ ['"', '(', ')']) (depth : ℕ)
    (rest : List Char) :
    groupExtent false (depth + 1) (ch :: rest) = groupExtent false (depth + 1) rest + 1 := by
  simp only [List.mem_cons, List.not_mem_nil, or_false, not_or] at plain
  obtain ⟨quote, opened, closed⟩ := plain
  rw [groupExtent] <;> assumption

/-- Characters that no scanner takes for anything else. -/
def Inert (s : List Char) : Prop := ∀ ch ∈ s, ch ∉ ['"', '(', ')', '[', ']', '\\', '|']

theorem skipped_inert {s : List Char} (inert : Inert s) : Skipped 0 s where
  alternation whole scan rest atRest _ := by
    induction s generalizing scan with
    | nil => rfl
    | cons ch s ih =>
      have plain := inert ch List.mem_cons_self
      simp only [List.mem_cons, List.not_mem_nil, or_false, not_or] at plain
      obtain ⟨quote, opened, closed, bracket, unbracket, escape, bar⟩ := plain
      have step : scan.step whole ch (s ++ rest).head? = .ok (scan.skip [ch]) :=
        atRest.step_plain whole (by simp [quote, opened, closed, bracket, unbracket])
          (fun same => absurd same escape) fun same => absurd same bar
      rw [List.cons_append, splitAlternationFrom, step]
      refine (ih (fun other member => inert other (List.mem_cons_of_mem _ member)) _
        (atRest.skip _) (Nat.zero_le _)).trans ?_
      rw [← AltScan.skip_append]
      rfl
  group depth rest := by
    induction s with
    | nil => rfl
    | cons ch s ih =>
      have plain := inert ch List.mem_cons_self
      have others := ih fun other member => inert other (List.mem_cons_of_mem _ member)
      rw [List.cons_append, groupExtent_plain (fun member => plain (by grind)), others]
      rfl

theorem inert_blank {s : List Char} (blank : Blank s) : Inert s := by
  intro ch member special
  have light := blank ch member
  simp only [List.mem_cons, List.not_mem_nil, or_false] at special
  rcases special with rfl | rfl | rfl | rfl | rfl | rfl | rfl <;> cases light

theorem inert_identifier {name : List Char} (identifier : isIdentifier name = true) :
    Inert name := fun ch member =>
  not_mem_of_identifierChar (identifierChar_of_isIdentifier identifier ch member) (by rfl)

theorem skipped_bar : Skipped 1 ['|'] where
  alternation whole scan rest atRest deep := by
    have step : scan.step whole '|' rest.head? = .ok (scan.skip ['|']) :=
      atRest.step_plain whole (by decide) (fun same => absurd same (by decide))
        fun _ => .inl deep
    rw [List.singleton_append, splitAlternationFrom, step]
    rfl
  group depth rest := groupExtent_plain (by decide) depth rest

/-! ### Strings -/

def AltScan.within (scan : AltScan) (s : List Char) : AltScan :=
  { scan.skip s with inString := true }

theorem AltScan.step_within (scan : AltScan) (whole s : List Char) (ch : Char)
    (next : Option Char) (stays : ch = '"' → (scan.within s).prev = some '\\') :
    (scan.within s).step whole ch next = .ok (scan.within (s ++ [ch])) := by
  have escaped : (ch = '"' && (scan.within s).prev ≠ some '\\') = false := by
    by_cases quote : ch = '"'
    · simp [stays quote]
    · simp [quote]
  simp only [AltScan.step, escaped]
  simp [AltScan.within, AltScan.skip, List.foldl_append, Nat.add_assoc]

theorem AltScan.step_close {scan : AltScan} (atRest : scan.AtRest) (whole s : List Char)
    (next : Option Char) (closes : (scan.within s).prev ≠ some '\\') :
    (scan.within s).step whole '"' next = .ok (scan.skip (s ++ ['"'])) := by
  have ends : ¬s.foldl (fun _ ch => some ch) scan.prev = some '\\' := closes
  simp [AltScan.step, AltScan.within, AltScan.skip, List.foldl_append, Nat.add_assoc,
    atRest.inString, ends]

theorem AltScan.prev_within (scan : AltScan) (s : List Char) (ch : Char) :
    (scan.within (s ++ [ch])).prev = some ch := by
  simp [AltScan.within, AltScan.skip, List.foldl_append]

theorem getLast?_of_tail (front : List Char) {s : List Char} {ch : Char}
    (last : s.getLast? = some ch) : (front ++ s).getLast? = some ch := by
  rw [List.getLast?_append, last]
  rfl

/-- A quote inside a string comes right after its backslash, and the closing one does not. -/
theorem Literal.alternation {text s : List Char} (literal : Literal text s)
    (whole rest : List Char) {scan : AltScan} (atRest : scan.AtRest) (before : List Char)
    (ready : text = [] → (scan.within before).prev ≠ some '\\')
    (closes : text.getLast? ≠ some '\\') :
    splitAlternationFrom whole (scan.within before) (text ++ '"' :: rest) =
      splitAlternationFrom whole (scan.skip (before ++ text ++ ['"'])) rest := by
  induction literal generalizing before with
  | nil =>
    rw [List.nil_append, splitAlternationFrom,
      AltScan.step_close atRest whole before _ (ready rfl), List.append_nil]
    rfl
  | @plain ch text s noQuote noEscape _ ih =>
    rw [List.cons_append, splitAlternationFrom,
      AltScan.step_within _ _ _ _ _ fun same => absurd same noQuote]
    refine (ih (before ++ [ch]) (fun _ => ?_) fun last => ?_).trans ?_
    · rw [AltScan.prev_within]
      simpa using noEscape
    · exact closes (getLast?_of_tail [ch] last)
    · simp
  | @escape ch text s _ _ ih =>
    rw [List.cons_append, splitAlternationFrom, AltScan.step_within _ _ _ _ _ fun same => absurd same (by decide)]
    change splitAlternationFrom whole (scan.within (before ++ ['\\'])) (ch :: text ++ '"' :: rest) = _
    rw [List.cons_append, splitAlternationFrom,
      AltScan.step_within _ _ _ _ _ fun _ => AltScan.prev_within ..]
    refine (ih (before ++ ['\\'] ++ [ch]) (fun empty => ?_) fun last => ?_).trans ?_
    · rw [AltScan.prev_within]
      simpa [empty] using closes
    · exact closes (getLast?_of_tail ['\\', ch] last)
    · simp

theorem Literal.stringInner {text s : List Char} (literal : Literal text s) (rest : List Char) :
    stringInner (text ++ '"' :: rest) = text.length := by
  induction literal with
  | nil => rfl
  | plain noQuote noEscape _ ih =>
    rw [List.cons_append, Gbnf.stringInner, ih]
    · rfl
    · exact fun _ _ same => absurd same noEscape
    · exact noQuote
  | escape _ _ ih =>
    rw [List.cons_append, List.cons_append, Gbnf.stringInner, ih]
    rfl

theorem Literal.groupExtent {text s : List Char} (literal : Literal text s) (depth : ℕ)
    (rest : List Char) :
    groupExtent true (depth + 1) (text ++ '"' :: rest) =
      groupExtent false (depth + 1) rest + (text.length + 1) := by
  induction literal with
  | nil => rfl
  | plain noQuote noEscape _ ih =>
    rw [List.cons_append, Gbnf.groupExtent, ih]
    · rfl
    · exact fun _ _ same => absurd same noEscape
    · exact noQuote
  | escape _ _ ih =>
    rw [List.cons_append, List.cons_append, Gbnf.groupExtent, ih]
    rfl

theorem Literal.unescape {text s : List Char} (literal : Literal text s) :
    unescapeString text = .ok s := by
  have general (whole : List Char) (i : ℕ) : unescapeFrom whole i text = .ok s := by
    induction literal generalizing i with
    | nil => rfl
    | plain noQuote noEscape _ ih =>
      rw [unescapeFrom, ih]
      · rfl
      all_goals simp [noEscape]
    | escape noHex _ ih =>
      rw [unescapeFrom, ih]
      · rfl
      all_goals simp [noHex]
  exact general text 0

theorem skipped_literal {text s : List Char} (literal : Literal text s)
    (closes : text.getLast? ≠ some '\\') : Skipped 0 ('"' :: (text ++ ['"'])) where
  alternation whole scan rest atRest _ := by
    have opens : scan.step whole '"' ((text ++ ['"']) ++ rest).head? = .ok (scan.within ['"']) := by
      simp [AltScan.step, AltScan.within, AltScan.skip, atRest.inString, atRest.inHex]
    have inside := literal.alternation whole rest atRest ['"']
      (fun _ => by simp [AltScan.within, AltScan.skip]) closes
    rw [List.cons_append, splitAlternationFrom, opens, List.append_assoc]
    exact inside
  group depth rest := by
    rw [List.cons_append, groupExtent, List.append_assoc]
    change groupExtent true (depth + 1) (text ++ '"' :: rest) + 1 = _
    rw [literal.groupExtent, List.length_cons, List.length_append]
    rfl

/-! ### Classes and groups -/

def AltScan.bracketed (scan : AltScan) (s : List Char) : AltScan :=
  { scan.skip s with depthBracket := scan.depthBracket + 1 }

theorem Quiet.alternation {body : List Char}
    (plain : ∀ ch ∈ body, ch ∉ ['"', '(', ')', '[', ']', 'x']) (whole rest : List Char)
    {scan : AltScan} (atRest : scan.AtRest) (before : List Char) :
    splitAlternationFrom whole (scan.bracketed before) (body ++ ']' :: rest) =
      splitAlternationFrom whole (scan.skip (before ++ body ++ [']'])) rest := by
  induction body generalizing before with
  | nil =>
    have closes : (scan.bracketed before).step whole ']' rest.head? =
        .ok (scan.skip (before ++ [']'])) := by
      simp [AltScan.step, AltScan.bracketed, AltScan.skip, List.foldl_append, Nat.add_assoc,
        atRest.inString, atRest.inHex]
    rw [List.nil_append, splitAlternationFrom, closes, List.append_nil]
    rfl
  | cons ch body ih =>
    have here := plain ch List.mem_cons_self
    -- the next character is in the body or its bracket, so no hex byte begins here
    have noHex : (body ++ ']' :: rest).head? ≠ some 'x' := by
      cases body with
      | nil => simp
      | cons next body =>
        have := plain next (List.mem_cons_of_mem _ List.mem_cons_self)
        rintro same
        cases same
        exact this (by decide)
    have step : (scan.bracketed before).step whole ch (body ++ ']' :: rest).head? =
        .ok ((scan.bracketed before).skip [ch]) := by
      have atRest' : (scan.bracketed before).AtRest := ⟨atRest.1, atRest.2⟩
      exact atRest'.step_plain whole (fun member => here (by grind)) (fun _ => noHex)
        fun _ => .inr (Nat.succ_pos _)
    rw [List.cons_append, splitAlternationFrom, step]
    have moved : (scan.bracketed before).skip [ch] = scan.bracketed (before ++ [ch]) := by
      simp [AltScan.bracketed, AltScan.skip, List.foldl_append, Nat.add_assoc]
    refine (congrArg (splitAlternationFrom whole · _) moved).trans
      ((ih (fun other member => plain other (List.mem_cons_of_mem _ member)) _).trans ?_)
    simp

theorem skipped_charClass {body : List Char} (quiet : Quiet body) :
    Skipped 0 ('[' :: (body ++ [']'])) where
  alternation whole scan rest atRest _ := by
    have opens : scan.step whole '[' ((body ++ [']']) ++ rest).head? =
        .ok (scan.bracketed ['[']) := by
      simp [AltScan.step, AltScan.bracketed, AltScan.skip, atRest.inString, atRest.inHex]
    rw [List.cons_append, splitAlternationFrom, opens, List.append_assoc]
    exact Quiet.alternation quiet.plain whole rest atRest ['[']
  group depth rest := by
    have general (s : List Char) (plain : ∀ ch ∈ s, ch ∉ ['"', '(', ')']) :
        groupExtent false (depth + 1) (s ++ rest) =
          groupExtent false (depth + 1) rest + s.length := by
      induction s with
      | nil => rfl
      | cons ch s ih =>
        rw [List.cons_append, groupExtent_plain (plain ch List.mem_cons_self),
          ih fun other member => plain other (List.mem_cons_of_mem _ member)]
        rfl
    refine general _ fun ch member => ?_
    rcases List.mem_cons.mp member with rfl | member
    · decide
    rcases List.mem_append.mp member with there | last
    · have := quiet.plain ch there
      grind
    · rw [List.mem_singleton.mp last]
      decide

def AltScan.grouped (scan : AltScan) (s : List Char) : AltScan :=
  { scan.skip s with depthParen := scan.depthParen + 1 }

theorem skipped_group {inside : List Char} (skipped : Skipped 1 inside) :
    Skipped 0 ('(' :: (inside ++ [')'])) where
  alternation whole scan rest atRest _ := by
    have opens : scan.step whole '(' ((inside ++ [')']) ++ rest).head? = .ok (scan.grouped ['(']) := by
      simp [AltScan.step, AltScan.grouped, AltScan.skip, atRest.inString, atRest.inHex]
    have moved : (scan.grouped ['(']).skip inside = scan.grouped ('(' :: inside) := by
      simp [AltScan.grouped, AltScan.skip]
      omega
    have closes : (scan.grouped ('(' :: inside)).step whole ')' rest.head? =
        .ok (scan.skip ('(' :: (inside ++ [')']))) := by
      simp [AltScan.step, AltScan.grouped, AltScan.skip, atRest.inString, atRest.inHex,
        List.foldl_append, Nat.add_assoc]
    rw [List.cons_append, splitAlternationFrom, opens, List.append_assoc]
    refine (skipped.alternation whole (scan.grouped ['(']) _ ⟨atRest.1, atRest.2⟩
      (Nat.le_add_left 1 _)).trans ?_
    rw [moved, List.singleton_append, splitAlternationFrom, closes]
    rfl
  group depth rest := by
    rw [List.cons_append, groupExtent, List.append_assoc, skipped.group, List.singleton_append,
      groupExtent, List.length_cons, List.length_append, List.length_singleton]
    omega

/-- Every text is passed over, the branches of an alternation inside a group. -/
theorem Reads.skipped {level : Level} {s : List Char} {nodes : List GrammarNode}
    (reads : Reads scanned level s nodes) :
    Skipped (match level with | .alts => 1 | _ => 0) s := by
  induction reads with
  | literal means => exact skipped_literal means.1 means.2
  | charClass means => exact skipped_charClass means.2
  | ref identifier => exact skipped_inert (inert_identifier identifier)
  | group before _ after ih =>
    have lead := (skipped_inert (inert_blank before)).mono (Nat.zero_le 1)
    have trail := (skipped_inert (inert_blank after)).mono (Nat.zero_le 1)
    exact skipped_group ((lead.append ih).append trail)
  | plain _ ih => exact ih
  | star _ ih => exact ih.append (skipped_inert (forall_chars (by decide)))
  | plus _ ih => exact ih.append (skipped_inert (forall_chars (by decide)))
  | opt _ ih => exact ih.append (skipped_inert (forall_chars (by decide)))
  | one _ ih => exact ih
  | more _ blank _ _ ih ih' => exact (ih.append (skipped_inert (inert_blank blank))).append ih'
  | single _ ih => exact ih.mono (Nat.zero_le 1)
  | branch _ before after _ ih ih' =>
    have gap := (skipped_inert (inert_blank before)).mono (Nat.zero_le 1)
    have gap' := (skipped_inert (inert_blank after)).mono (Nat.zero_le 1)
    exact ((ih.mono (Nat.zero_le 1)).append gap).append (skipped_bar.append (gap'.append ih'))

/-! ## The extent of a term -/

def Boundary (rest : List Char) : Prop := ∀ ch ∈ rest.head?, isWhitespace ch = true

theorem boundary_blank {gap : List Char} (blank : Blank gap) (some_ : gap ≠ []) (rest : List Char) :
    Boundary (gap ++ rest) := by
  obtain ⟨ch, gap, rfl⟩ := List.exists_cons_of_ne_nil some_
  rintro other ⟨⟩
  exact blank ch List.mem_cons_self

/-- An atom reaches to the first character that continues no identifier. -/
theorem Reads.atomExtent {s : List Char} {nodes : List GrammarNode}
    (reads : Reads scanned .atom s nodes) (rest : List Char)
    (stops : ∀ ch ∈ rest.head?, continues ch = false) : termExtent (s ++ rest) = s.length := by
  cases reads with
  | @literal text content means =>
    have inner := means.1.stringInner rest
    rw [List.cons_append, termExtent, List.append_assoc, List.singleton_append, stringExtent, inner]
    simp
  | charClass means =>
    rw [List.cons_append, termExtent, List.append_assoc, List.singleton_append, means.2.extent rest]
    simp
  | ref identifier =>
    have chars := identifierChar_of_isIdentifier identifier
    have all : (s ++ rest).takeWhile continues = s := by
      rw [List.takeWhile_append_of_pos fun ch member => continues_of_identifierChar (chars ch member)]
      cases rest with
      | nil => simp
      | cons ch rest => simp [stops ch rfl]
    -- none of the quotes and brackets begins an identifier
    have head (ch : Char) (other : identifierChar ch = false) (more : List Char) :
        s ++ rest = ch :: more → False := by
      intro same
      cases s with
      | nil => cases identifier
      | cons first s =>
        have := chars first List.mem_cons_self
        rw [(List.cons.inj same).1, other] at this
        cases this
    rw [termExtent.eq_def]
    split
    case h_1 same => exact (head _ rfl _ same).elim
    case h_2 same => exact (head _ rfl _ same).elim
    case h_3 same => exact (head _ rfl _ same).elim
    case h_4 same => exact (head _ rfl _ same).elim
    case h_5 same => exact (head _ rfl _ same).elim
    case h_6 => rw [all]
  | @group lead s trail nodes before inside after =>
    have lead_ := (skipped_inert (inert_blank before)).mono (Nat.zero_le 1)
    have trail_ := (skipped_inert (inert_blank after)).mono (Nat.zero_le 1)
    have group := ((lead_.append inside.skipped).append trail_).group 0 (')' :: rest)
    rw [List.cons_append, termExtent, List.append_assoc, List.singleton_append, group, groupExtent,
      groupExtent]
    simp
    omega

/-- With its suffix a term reaches to the next blank. -/
theorem Reads.termExtent {s : List Char} {nodes : List GrammarNode}
    (reads : Reads scanned .term s nodes) (rest : List Char) (boundary : Boundary rest) :
    termExtent (s ++ rest) +
      (((s ++ rest).drop (Gbnf.termExtent (s ++ rest))).takeWhile isSuffix).length = s.length := by
  have dark (ch : Char) (there : ch ∈ rest.head?) : isSuffix ch = false ∧ continues ch = false := by
    have blank := boundary ch there
    refine ⟨?_, by simp [continues, blank]⟩
    refine decide_eq_false fun special => ?_
    simp only [List.mem_cons, List.not_mem_nil, or_false] at special
    rcases special with rfl | rfl | rfl <;> cases blank
  have none_ : rest.takeWhile isSuffix = [] := by
    cases rest with
    | nil => rfl
    | cons ch rest => simp [(dark ch rfl).1]
  have suffixed {s : List Char} {nodes : List GrammarNode} (base : Reads scanned .atom s nodes)
      (op : Char) (isOp : isSuffix op = true) (stops : continues op = false) :
      Gbnf.termExtent (s ++ [op] ++ rest) + (((s ++ [op] ++ rest).drop
        (Gbnf.termExtent (s ++ [op] ++ rest))).takeWhile isSuffix).length = (s ++ [op]).length := by
    have extent := base.atomExtent (op :: rest) (by simp [stops])
    rw [List.append_assoc, List.singleton_append, extent, List.drop_left, List.takeWhile_cons,
      isOp, none_]
    simp
  cases reads with
  | plain base =>
    rw [base.atomExtent rest fun ch there => (dark ch there).2, List.drop_left, none_]
    rfl
  | star base => exact suffixed base '*' rfl rfl
  | plus base => exact suffixed base '+' rfl rfl
  | opt base => exact suffixed base '?' rfl rfl

/-! ## Terms -/

theorem splitTermsFrom_blank {trail : List Char} (blank : Blank trail) (whole : List Char) (i : ℕ) :
    splitTermsFrom whole i trail = .ok [] := by
  have none_ : trail.dropWhile isWhitespace = [] := by
    simpa using @dropWhile_blank trail [] blank (by simp)
  rw [splitTermsFrom]
  simp [none_]

theorem splitTermsFrom_term {s : List Char} {nodes : List GrammarNode}
    (reads : Reads scanned .term s nodes) {pre lead rest : List Char} (blank : Blank lead)
    (boundary : Boundary rest) (ascii : Ascii (pre ++ lead ++ s)) :
    splitTermsFrom (pre ++ (lead ++ (s ++ rest))) pre.length (lead ++ (s ++ rest)) = (do
      let terms ← splitTermsFrom (pre ++ (lead ++ (s ++ rest))) (pre ++ lead ++ s).length rest
      return s :: terms) := by
  have edged := reads.edged
  obtain ⟨first, more, same, dark, -⟩ := edged.first
  have dark' : ∀ ch ∈ (s ++ rest).head?, isWhitespace ch = false := by simp [same, dark]
  have extent := reads.termExtent rest boundary
  have some_ : s.length ≠ 0 := by simp [same]
  have some' : s ++ rest ≠ [] := by simp [same]
  have kept : s.isEmpty = false := by simp [same]
  have cut := slice_ascii ascii rest
  rw [List.append_assoc, List.length_append] at cut
  have after : (pre ++ lead ++ s).length = pre.length + lead.length + s.length := by
    rw [List.length_append, List.length_append]
  rw [splitTermsFrom]
  simp only [dropWhile_blank blank dark', takeWhile_blank blank dark', extent, cut, some', some_,
    dif_neg, not_false_eq_true, List.drop_left, edged.trim_self, kept, after, bind, Except.bind]
  rfl

/-- The elements of a sequence are cut and parsed one by one, wherever it stands in a text. -/
def TermsRead (depth : ℕ) (s : List Char) (nodes : List GrammarNode) : Prop :=
  ∀ pre lead trail : List Char, Blank lead → Blank trail → Ascii (pre ++ lead ++ s) →
    ∃ texts, splitTermsFrom (pre ++ (lead ++ (s ++ trail))) pre.length (lead ++ (s ++ trail)) =
        .ok texts ∧
      List.Forall₂ (fun text node => parseTerm (parseExpression depth) text = .ok node) texts nodes ∧
      ∀ text ∈ texts, Edged text

theorem TermsRead.sequence {depth : ℕ} {s : List Char} {nodes : List GrammarNode}
    (reads : TermsRead depth s nodes) (some_ : nodes ≠ []) {lead trail : List Char}
    (before : Blank lead) (after : Blank trail) (ascii : Ascii (lead ++ s)) :
    parseSequence (parseExpression depth) (lead ++ (s ++ trail)) = .ok (seqNode nodes) := by
  obtain ⟨texts, split, each, edged⟩ := reads [] lead trail before after ascii
  have noSuffix : texts.find? (· ∈ [['*'], ['+'], ['?']]) = none := by
    refine List.find?_eq_none.mpr fun text member => ?_
    obtain ⟨ch, rest, rfl, -, plain⟩ := (edged text member).first
    simp only [isSuffix, decide_eq_false_iff_not] at plain
    simp only [decide_eq_true_eq]
    grind
  rw [parseSequence, splitSequenceTerms]
  change (splitTermsFrom (lead ++ (s ++ trail)) 0 (lead ++ (s ++ trail))) = _ at split
  rw [split]
  simp only [bind, Except.bind, noSuffix, pure, Except.pure]
  cases each with
  | nil => exact absurd rfl some_
  | cons here rest =>
    cases rest with
    | nil => exact here
    | cons next rest =>
      simp only [mapM_ok (.cons here (.cons next rest))]
      rfl

theorem termsRead_one {depth : ℕ} {s : List Char} {node : GrammarNode}
    (reads : Reads scanned .term s [node])
    (parsed : parseTerm (parseExpression depth) s = .ok node) : TermsRead depth s [node] := by
  intro pre lead trail before after ascii
  have boundary : Boundary trail := fun ch there => after ch (List.mem_of_mem_head? there)
  refine ⟨[s], ?_, .cons parsed .nil, fun text member => ?_⟩
  · rw [splitTermsFrom_term reads before boundary ascii, splitTermsFrom_blank after]
    rfl
  · rw [List.mem_singleton.mp member]
    exact reads.edged

theorem TermsRead.more {depth : ℕ} {s gap t : List Char} {node : GrammarNode}
    {nodes : List GrammarNode} (reads : Reads scanned .term s [node])
    (parsed : parseTerm (parseExpression depth) s = .ok node) (blank : Blank gap)
    (some_ : gap ≠ []) (rest : TermsRead depth t nodes) :
    TermsRead depth (s ++ gap ++ t) (node :: nodes) := by
  intro pre lead trail before after ascii
  have same : s ++ gap ++ t ++ trail = s ++ (gap ++ (t ++ trail)) := by simp
  have ascii' : Ascii (pre ++ lead ++ s ++ gap ++ t) := by simpa using ascii
  obtain ⟨texts, split, each, edged⟩ := rest (pre ++ lead ++ s) gap trail blank after ascii'
  refine ⟨s :: texts, ?_, .cons parsed each, fun text member => ?_⟩
  · rw [same, splitTermsFrom_term reads before (boundary_blank blank some_ _) ascii'.left.left]
    have whole : pre ++ (lead ++ (s ++ (gap ++ (t ++ trail)))) =
        pre ++ lead ++ s ++ (gap ++ (t ++ trail)) := by simp
    rw [whole, split]
    rfl
  · rcases List.mem_cons.mp member with rfl | later
    · exact reads.edged
    · exact edged text later

/-! ## Branches -/

/-- The branches are cut and parsed one by one, from where the scanner of alternations is. -/
def AltsRead (depth : ℕ) (s : List Char) (nodes : List GrammarNode) : Prop :=
  ∀ (pre lead : List Char) (scan : AltScan), Blank lead → Ascii (pre ++ lead ++ s) →
    scan.AtRest → scan.depthParen = 0 → scan.depthBracket = 0 → scan.start = pre.length →
    scan.i = (pre ++ lead).length →
    ∃ parts, splitAlternationFrom (pre ++ (lead ++ s)) scan s = .ok (scan.parts ++ parts) ∧
      List.Forall₂ (fun part node => parseSequence (parseExpression depth) part = .ok node)
        parts nodes

theorem altsRead_single {depth : ℕ} {s : List Char} {nodes : List GrammarNode}
    (reads : Reads scanned .terms s nodes) (terms : TermsRead depth s nodes)
    (some_ : nodes ≠ []) : AltsRead depth s [seqNode nodes] := by
  intro pre lead scan blank ascii atRest parens brackets start _
  refine ⟨[lead ++ s], ?_, .cons ?_ .nil⟩
  · have passed := reads.skipped.alternation (pre ++ (lead ++ s)) scan [] atRest (Nat.zero_le _)
    rw [List.append_nil] at passed
    have tail := sliceFrom_ascii ascii.left.left (lead ++ s)
    rw [passed, splitAlternationFrom]
    simp only [AltScan.skip, parens, brackets, atRest.inString, start, tail]
    rfl
  · have parsed := terms.sequence some_ blank blank_nil (by rw [List.append_assoc] at ascii; exact ascii.right)
    rwa [List.append_nil] at parsed

def AltScan.cut (scan : AltScan) (part : List Char) : AltScan :=
  { scan.skip ['|'] with parts := scan.parts ++ [part], start := scan.i + 1 }

theorem AltScan.step_cut {scan : AltScan} (atRest : scan.AtRest) (parens : scan.depthParen = 0)
    (brackets : scan.depthBracket = 0) {whole part : List Char}
    (sliced : slice whole scan.start scan.i = .ok part) (next : Option Char) :
    scan.step whole '|' next = .ok (scan.cut part) := by
  rw [AltScan.step_bar ⟨rfl, atRest.inString, atRest.inHex, parens, brackets⟩, sliced]
  rfl

theorem AltsRead.branch {depth : ℕ} {s gap gap' t : List Char}
    {nodes branches : List GrammarNode} (reads : Reads scanned .terms s nodes)
    (terms : TermsRead depth s nodes) (some_ : nodes ≠ []) (before : Blank gap)
    (after : Blank gap') (rest : AltsRead depth t branches) :
    AltsRead depth (s ++ gap ++ '|' :: (gap' ++ t)) (seqNode nodes :: branches) := by
  intro pre lead scan blank ascii atRest parens brackets start i
  -- the text as it stands after the cut, and before it
  have whole : pre ++ (lead ++ (s ++ gap ++ '|' :: (gap' ++ t))) =
      pre ++ lead ++ s ++ gap ++ ['|'] ++ (gap' ++ t) := by simp
  have whole' : pre ++ lead ++ s ++ gap ++ ['|'] ++ (gap' ++ t) =
      pre ++ (lead ++ (s ++ gap) ++ '|' :: (gap' ++ t)) := by simp
  have ascii' : Ascii (pre ++ lead ++ s ++ gap ++ ['|'] ++ gap' ++ t) := by simpa using ascii
  have asciiPart : Ascii (pre ++ (lead ++ (s ++ gap))) := by simpa using ascii'.left.left.left
  have sliced : slice (pre ++ lead ++ s ++ gap ++ ['|'] ++ (gap' ++ t))
      (scan.skip (s ++ gap)).start (scan.skip (s ++ gap)).i = .ok (lead ++ (s ++ gap)) := by
    have ends : (scan.skip (s ++ gap)).i = pre.length + (lead ++ (s ++ gap)).length := by
      simp [AltScan.skip, i, Nat.add_assoc]
    rw [ends, whole']
    exact start ▸ slice_ascii asciiPart ('|' :: (gap' ++ t))
  have passed := (reads.skipped.append (skipped_inert (inert_blank before))).alternation
    (pre ++ lead ++ s ++ gap ++ ['|'] ++ (gap' ++ t)) scan ('|' :: (gap' ++ t)) atRest
    (Nat.zero_le _)
  have step := AltScan.step_cut (atRest.skip (s ++ gap)) parens brackets sliced (gap' ++ t).head?
  have passed' := (skipped_inert (inert_blank after)).alternation
    (pre ++ lead ++ s ++ gap ++ ['|'] ++ (gap' ++ t))
    ((scan.skip (s ++ gap)).cut (lead ++ (s ++ gap))) t ⟨atRest.1, atRest.2⟩ (Nat.zero_le _)
  have start' : (scan.skip (s ++ gap)).i + 1 = (pre ++ lead ++ s ++ gap ++ ['|']).length := by
    simp [AltScan.skip, i, Nat.add_assoc]
  obtain ⟨parts, split, each⟩ := rest (pre ++ lead ++ s ++ gap ++ ['|']) gap'
    (((scan.skip (s ++ gap)).cut (lead ++ (s ++ gap))).skip gap') after ascii'
    ⟨atRest.1, atRest.2⟩ parens brackets start' (by
      rw [List.length_append, ← start']
      rfl)
  refine ⟨(lead ++ (s ++ gap)) :: parts, ?_, .cons (terms.sequence some_ blank before ?_) each⟩
  · rw [whole, passed, splitAlternationFrom, step]
    change splitAlternationFrom _ ((scan.skip (s ++ gap)).cut (lead ++ (s ++ gap))) (gap' ++ t) = _
    rw [passed', split]
    simp [AltScan.cut, AltScan.skip]
  · rw [← List.append_assoc, ← List.append_assoc] at asciiPart
    exact (by simpa using asciiPart.left : Ascii (pre ++ (lead ++ s))).right

/-! ## Parsing -/

def Parses (depth : ℕ) : Level → List Char → List GrammarNode → Prop
  | .atom, s, nodes => ∀ node, nodes = [node] → parseAtom (parseExpression depth) s = .ok node
  | .term, s, nodes => ∀ node, nodes = [node] → parseTerm (parseExpression depth) s = .ok node
  | .terms, s, nodes => nodes ≠ [] ∧ TermsRead depth s nodes
  | .alts, s, nodes => nodes ≠ [] ∧ AltsRead depth s nodes ∧
      ∀ node, nodes = [node] → parseSequence (parseExpression depth) s = .ok node

theorem inner_wrap (opened closed : Char) (s : List Char) :
    inner (opened :: (s ++ [closed])) = s := by simp [inner]

theorem getLast?_wrap (opened closed : Char) (s : List Char) :
    (opened :: (s ++ [closed])).getLast? = some closed := by
  rw [← List.cons_append, List.getLast?_append]
  rfl

theorem parseExpression_ok {depth : ℕ} {lead s trail : List Char} {nodes : List GrammarNode}
    (edged : Edged s) (parses : Parses depth .alts s nodes) (ascii : Ascii s) (before : Blank lead)
    (after : Blank trail) :
    parseExpression (depth + 1) (lead ++ s ++ trail) = .ok (altNode nodes) := by
  obtain ⟨some_, branches, one⟩ := parses
  obtain ⟨parts, split, each⟩ := branches [] [] .init blank_nil ascii ⟨rfl, rfl⟩ rfl rfl
    rfl rfl
  have nonempty : s.isEmpty = false := List.isEmpty_eq_false_iff.mpr edged.ne_nil
  have split' : splitAlternation s = .ok parts := split
  rw [parseExpression]
  simp only [edged.trim before after, nonempty, split', bind, Except.bind, mapM_ok each, pure,
    Except.pure]
  cases each with
  | nil => exact absurd rfl some_
  | @cons part node parts nodes here rest =>
    cases rest with
    | nil => exact one node rfl
    | cons => rfl

theorem parseTerm_suffix {depth : ℕ} {s : List Char} {node : GrammarNode} (edged : Edged s)
    (parsed : parseAtom (parseExpression depth) s = .ok node) (op : Char)
    (dark : isWhitespace op = false) :
    parseTerm (parseExpression depth) (s ++ [op]) =
      if op = '*' then .ok (.star node) else if op = '+' then .ok (.plus node)
      else if op = '?' then .ok (.opt node) else parseAtom (parseExpression depth) (s ++ [op]) := by
  have trimmed := (edged.suffix dark).trim_self
  have last : (s ++ [op]).getLast? = some op := List.getLast?_concat
  have nonempty : (s ++ [op]).isEmpty = false := by simp
  rw [parseTerm]
  simp only [trimmed, last, nonempty, List.dropLast_concat, edged.trim_self, parsed, bind,
    Except.bind, pure, Except.pure, Option.some.injEq]
  rfl

theorem Reads.atom_last {s : List Char} {nodes : List GrammarNode}
    (reads : Reads scanned .atom s nodes) : ∀ ch ∈ s.getLast?, isSuffix ch = false := by
  cases reads with
  | literal => rw [getLast?_wrap]; rintro _ ⟨⟩; rfl
  | charClass => rw [getLast?_wrap]; rintro _ ⟨⟩; rfl
  | ref identifier =>
    intro ch last
    have member := identifierChar_of_isIdentifier identifier ch (List.mem_of_mem_getLast? last)
    exact decide_eq_false (not_mem_of_identifierChar member (by rfl))
  | group => rw [getLast?_wrap]; rintro _ ⟨⟩; rfl

theorem Reads.parseTerm_plain {f : List Char → Except Stop GrammarNode} {s : List Char}
    {nodes : List GrammarNode} (reads : Reads scanned .atom s nodes) :
    parseTerm f s = parseAtom f s := by
  have nonempty : s.isEmpty = false := List.isEmpty_eq_false_iff.mpr reads.edged.ne_nil
  have last (op : Char) (isOp : isSuffix op = true) : ¬s.getLast? = some op := by
    intro same
    rw [reads.atom_last op same] at isOp
    cases isOp
  rw [parseTerm]
  simp only [reads.edged.trim_self, nonempty, last '*' rfl, last '+' rfl, last '?' rfl]
  rfl

theorem parseAtom_literal {f : List Char → Except Stop GrammarNode} {text s : List Char}
    (literal : Literal text s) :
    parseAtom f ('"' :: (text ++ ['"'])) = .ok (.lit (String.ofList s)) := by
  have edged : Edged ('"' :: (text ++ ['"'])) :=
    ⟨⟨_, _, rfl, by decide, by decide⟩, ⟨_, _, List.cons_append.symm, by decide⟩⟩
  rw [parseAtom]
  simp only [edged.trim_self, getLast?_wrap, inner_wrap, literal.unescape]
  simp [bind, Except.bind, pure, Except.pure]

theorem parseAtom_charClass {f : List Char → Except Stop GrammarNode} (body : List Char) :
    parseAtom f ('[' :: (body ++ [']'])) = parseCharClass body := by
  have edged : Edged ('[' :: (body ++ [']'])) :=
    ⟨⟨_, _, rfl, by decide, by decide⟩, ⟨_, _, List.cons_append.symm, by decide⟩⟩
  rw [parseAtom]
  simp only [edged.trim_self, getLast?_wrap, inner_wrap]
  simp

theorem parseAtom_group {f : List Char → Except Stop GrammarNode} (inside : List Char) :
    parseAtom f ('(' :: (inside ++ [')'])) = f inside := by
  have edged : Edged ('(' :: (inside ++ [')'])) :=
    ⟨⟨_, _, rfl, by decide, by decide⟩, ⟨_, _, List.cons_append.symm, by decide⟩⟩
  rw [parseAtom]
  simp only [edged.trim_self, getLast?_wrap, inner_wrap]
  simp [List.isPrefixOf]

theorem parseAtom_ref {f : List Char → Except Stop GrammarNode} {name : List Char}
    (identifier : isIdentifier name = true) :
    parseAtom f name = .ok (.ref (String.ofList name)) := by
  have edged := edged_identifier identifier
  have nonempty : name.isEmpty = false := List.isEmpty_eq_false_iff.mpr edged.ne_nil
  have head (other : Char) (foreign : identifierChar other = false) : ¬name.head? = some other := by
    intro same
    have := identifierChar_of_isIdentifier identifier other (List.mem_of_mem_head? same)
    rw [foreign] at this
    cases this
  have noDot : name ≠ ['.'] := by
    rintro rfl
    cases identifier
  have noHex : ¬['\\', 'x'].isPrefixOf name = true := by
    intro prefix_
    obtain ⟨rest, rfl⟩ := List.isPrefixOf_iff_prefix.mp prefix_
    exact head '\\' rfl rfl
  rw [parseAtom]
  simp only [edged.trim_self, nonempty, head '"' rfl, head '[' rfl, head '(' rfl, noDot, noHex,
    identifier, false_and]
  rfl

/-- Whatever the syntax says of a text, the parser makes of it. -/
theorem Reads.parses {level : Level} {s : List Char} {nodes : List GrammarNode}
    (reads : Reads scanned level s nodes) {depth : ℕ} (ascii : Ascii s) (deep : s.length ≤ depth) :
    Parses depth level s nodes := by
  induction reads generalizing depth with
  | literal means =>
    rintro _ ⟨⟩
    exact parseAtom_literal means.1
  | charClass means =>
    rintro _ ⟨⟩
    exact (parseAtom_charClass _).trans means.1
  | ref identifier =>
    rintro _ ⟨⟩
    exact parseAtom_ref identifier
  | @group lead s trail nodes before inside after ih =>
    rintro _ ⟨⟩
    -- the parentheses leave a depth for what is inside
    simp only [List.length_cons, List.length_append] at deep
    obtain ⟨depth, rfl⟩ : ∃ depth', depth = depth' + 1 := ⟨depth - 1, by omega⟩
    have asciiInside : Ascii s :=
      (ascii.right (s := ['(']) : Ascii (lead ++ s ++ trail ++ [')'])).left.left.right
    rw [parseAtom_group]
    exact parseExpression_ok inside.edged (ih asciiInside (by omega)) asciiInside before after
  | plain base ih =>
    rintro _ ⟨⟩
    exact base.parseTerm_plain.trans (ih ascii deep _ rfl)
  | star base ih =>
    rintro _ ⟨⟩
    rw [List.length_append] at deep
    exact parseTerm_suffix base.edged (ih ascii.left (by omega) _ rfl) '*' rfl
  | plus base ih =>
    rintro _ ⟨⟩
    rw [List.length_append] at deep
    exact parseTerm_suffix base.edged (ih ascii.left (by omega) _ rfl) '+' rfl
  | opt base ih =>
    rintro _ ⟨⟩
    rw [List.length_append] at deep
    exact parseTerm_suffix base.edged (ih ascii.left (by omega) _ rfl) '?' rfl
  | one only ih =>
    exact ⟨List.cons_ne_nil _ _, termsRead_one only (ih ascii deep _ rfl)⟩
  | more first blank some_ _ ih ih' =>
    simp only [List.length_append] at deep
    exact ⟨List.cons_ne_nil _ _, .more first (ih ascii.left.left (by omega) _ rfl) blank some_
      (ih' ascii.right (by omega)).2⟩
  | single only ih =>
    obtain ⟨some_, terms⟩ := ih ascii deep
    refine ⟨List.cons_ne_nil _ _, altsRead_single only terms some_, ?_⟩
    rintro _ ⟨⟩
    simpa using terms.sequence some_ blank_nil blank_nil ascii
  | @branch s gap gap' t nodes branches first before after _ ih ih' =>
    simp only [List.length_append, List.length_cons] at deep
    have asciiRest : Ascii t := (ascii.right (s := s ++ gap) : Ascii ('|' :: (gap' ++ t))).right
      (s := '|' :: gap')
    have deepFirst : s.length ≤ depth := by omega
    have deepRest : t.length ≤ depth := by omega
    obtain ⟨some_, terms⟩ := ih ascii.left.left deepFirst
    obtain ⟨some', rest, -⟩ := ih' asciiRest deepRest
    refine ⟨List.cons_ne_nil _ _, .branch first terms some_ before after rest, ?_⟩
    rintro _ ⟨⟩
    exact absurd rfl some'

theorem Reads.parseExpression {s : List Char} {nodes : List GrammarNode}
    (reads : Reads scanned .alts s nodes) (ascii : Ascii s) :
    parseExpression (s.length + 1) s = .ok (altNode nodes) := by
  simpa using parseExpression_ok reads.edged (reads.parses ascii le_rfl) ascii blank_nil blank_nil

/-! ## Lines -/

theorem linesFrom_line {line : List Char} (oneLine : '\n' ∉ line)
    (noReturn : line.getLast? ≠ some '\r') (before text : List Char)
    (empty : line = [] → before.getLast? ≠ some '\r') :
    linesFrom before (line ++ '\n' :: text) = (before ++ line) :: linesFrom [] text := by
  induction line generalizing before with
  | nil => simp [linesFrom, empty rfl]
  | cons ch line ih =>
    have other : ch ≠ '\n' := fun same => oneLine (same ▸ List.mem_cons_self)
    rw [List.cons_append, linesFrom, if_neg other,
      ih (fun member => oneLine (List.mem_cons_of_mem _ member))]
    · simp
    · exact fun last => noReturn (getLast?_of_tail [ch] last)
    · rintro rfl
      simpa using noReturn

theorem splitOnce_definition {before : List Char} (plain : ':' ∉ before) (after : List Char) :
    splitOnce "::=".toList (before ++ "::=".toList ++ after) = some (before, after) := by
  induction before with
  | nil => rfl
  | cons ch before ih =>
    have other : ':' ≠ ch := fun same => plain (same ▸ List.mem_cons_self)
    have none_ : "::=".toList.isPrefixOf (ch :: (before ++ "::=".toList ++ after)) = false := by
      simp [List.isPrefixOf, other]
    simp only [List.cons_append, splitOnce, none_]
    rw [ih fun member => plain (List.mem_cons_of_mem _ member)]
    rfl

theorem ReadsLine.noReturn {lexis : Lexis} {line : List Char} {rule : String × GrammarNode}
    (reads : ReadsLine lexis line rule) : line.getLast? ≠ some '\r' := by
  obtain ⟨name, gap, lead, body, trail, nodes, rfl, -, -, -, after, expr, -⟩ := reads.read
  rcases trail.eq_nil_or_concat' with rfl | ⟨more, ch, rfl⟩
  · obtain ⟨front, ch, rfl, dark⟩ := expr.edged.last
    have last : (name ++ gap ++ "::=".toList ++ (lead ++ (front ++ [ch]) ++ [])).getLast? =
        some ch := getLast?_of_tail _ (by
          rw [List.append_nil]
          exact getLast?_of_tail _ (getLast?_of_tail _ rfl))
    rw [last]
    rintro ⟨⟩
    cases dark
  · have last : (name ++ gap ++ "::=".toList ++ (lead ++ body ++ (more ++ [ch]))).getLast? =
        some ch := getLast?_of_tail _ (getLast?_of_tail _ (by simp))
    rw [last, after ch (by simp)]
    decide

theorem ReadsLine.parse {line : List Char} {rule : String × GrammarNode}
    (reads : ReadsLine scanned line rule) (ascii : Ascii line) (rules : Rules)
    (root : Option String) :
    parseLine (rules, root) line = .ok (rules.insert rule.1 rule.2, some (root.getD rule.1)) := by
  obtain ⟨name, gap, lead, body, trail, nodes, rfl, identifier, spaces, before, after, expr, rfl⟩ :=
    reads.read
  have chars := identifierChar_of_isIdentifier identifier
  have edgedName := edged_identifier identifier
  have edgedBody := expr.edged
  -- the line without the spaces at its end
  have edged : Edged (name ++ (gap ++ "::=".toList ++ lead) ++ body) :=
    edgedName.append edgedBody _
  have trimmed : trim (name ++ gap ++ "::=".toList ++ (lead ++ body ++ trail)) =
      name ++ gap ++ "::=".toList ++ (lead ++ body) := by
    have := edged.trim blank_nil after.blank
    simpa using this
  have noColon : ':' ∉ name ++ gap := by
    intro member
    rcases List.mem_append.mp member with inName | inGap
    · exact absurd (chars _ inName) (by decide)
    · exact absurd (spaces _ inGap) (by decide)
  have parsed : parseExpression (body.length + 1) body = .ok (altNode nodes) :=
    expr.parseExpression (by
      rw [← List.append_assoc, ← List.append_assoc] at ascii
      exact ascii.left.right)
  have nameTrimmed : trim (name ++ gap) = name := by
    simpa using edgedName.trim blank_nil spaces.blank
  have bodyTrimmed : trim (lead ++ body) = body := by
    simpa using edgedBody.trim before.blank blank_nil
  obtain ⟨first, more, rfl⟩ := List.exists_cons_of_ne_nil edgedName.ne_nil
  have noComment : first ≠ '#' := by
    rintro rfl
    exact absurd (chars _ List.mem_cons_self) (by decide)
  have nonempty : body.isEmpty = false := List.isEmpty_eq_false_iff.mpr edgedBody.ne_nil
  have named : (String.ofList (first :: more)).isEmpty = false := by simp
  rw [parseLine]
  simp only [trimmed, splitOnce_definition noColon, nameTrimmed, bodyTrimmed, nonempty, parsed,
    named, bind, Except.bind, pure, Except.pure]
  simp [noComment]

theorem ReadsRules.parse {text : List Char} {rules : List (String × GrammarNode)}
    (reads : ReadsRules scanned text rules) (ascii : Ascii text) (known : Rules)
    (root : Option String) :
    (lines text).foldlM parseLine (known, root) =
      .ok (rules.foldl (fun known rule => known.insert rule.1 rule.2) known,
        rules.foldl (fun root rule => some (root.getD rule.1)) root) := by
  induction reads generalizing known root with
  | nil => rfl
  | @cons line text rule rules first _ ih =>
    have split : lines (line ++ '\n' :: text) = line :: lines text := by
      exact linesFrom_line first.oneLine first.noReturn [] text (by simp)
    have asciiText : Ascii text := fun ch member => ascii ch (by simp [member])
    rw [split, List.foldlM_cons, first.parse ascii.left]
    exact ih asciiText _ _

theorem ReadsGrammar.parseGbnf {text : List Char} {g : Grammar}
    (reads : ReadsGrammar scanned text g) (ascii : Ascii text) : parseGbnf text = .ok g := by
  obtain ⟨root, rules, reads, rfl⟩ := reads
  have first (root' : String) (rules : List (String × GrammarNode)) :
      rules.foldl (fun root rule => some (root.getD rule.1)) (some root') = some root' := by
    induction rules with
    | nil => rfl
    | cons rule rules ih => exact ih
  have parsed := reads.parse ascii ∅ none
  rw [List.foldl_cons, List.foldl_cons, Option.getD_none, first root.1] at parsed
  have there : root.1 ∈ rulesOf (root :: rules) := mem_rulesOf.mpr (by simp)
  rw [Gbnf.parseGbnf, parsed]
  simp only [bind, Except.bind]
  exact if_pos there

end TribunusCompute.Gbnf
