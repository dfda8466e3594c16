import TribunusCompute.Grammar.Scanners

/-!
# What the scanners cut

The positions at which `split_alternation`, `split_sequence_terms` and `unescape_string`
cut a text, read off its characters.
-/
namespace TribunusCompute.Gbnf

open Failures

/-! ## Sequences -/

/-- No blank at the head. -/
def Dark (tail : List Char) : Prop := ∃ ch rest, tail = ch :: rest ∧ isWhitespace ch = false

instance (tail : List Char) : Decidable (Dark tail) :=
  match tail with
  | [] => isFalse (by simp [Dark])
  | ch :: rest => decidable_of_iff (isWhitespace ch = false) (by simp [Dark])

/-- No term starts here, and the scan of a term ends where it begins. -/
def Stray (tail : List Char) : Prop := ∃ ch rest, tail = ch :: rest ∧ ch ∈ ['|', ')', ']']

instance (tail : List Char) : Decidable (Stray tail) :=
  match tail with
  | [] => isFalse (by simp [Stray])
  | ch :: rest => decidable_of_iff (ch ∈ ['|', ')', ']']) (by simp [Stray])

def wholeExtent (tail : List Char) : ℕ :=
  termExtent tail + ((tail.drop (termExtent tail)).takeWhile isSuffix).length

def CleanTerm (s : List Char) (p : ℕ) (tail : List Char) : Prop :=
  IsCharBoundary s p ∧ IsCharBoundary s (p + wholeExtent tail)

/-- The scan of `s`, at `i` with `rest` to come, gets to look for a term at `p`. -/
inductive ComesTo (s : List Char) : ℕ → List Char → ℕ → List Char → Prop
  | here {i : ℕ} {gap tail : List Char} (blank : Blank gap) (dark : Dark tail) :
      ComesTo s i (gap ++ tail) (i + gap.length) tail
  | later {i p : ℕ} {gap tail tail' : List Char} (blank : Blank gap) (dark : Dark tail)
      (clean : CleanTerm s (i + gap.length) tail) (term : ¬ Stray tail)
      (more : ComesTo s (i + gap.length + wholeExtent tail) (tail.drop (wholeExtent tail)) p
        tail') :
      ComesTo s i (gap ++ tail) p tail'

/-- The scan comes to a character that it does not get past. -/
def Strays (s : List Char) : Prop :=
  ∃ p tail, ComesTo s 0 s p tail ∧ Stray tail ∧ IsCharBoundary s p

theorem Dark.head {tail : List Char} (dark : Dark tail) :
    ∀ ch ∈ tail.head?, isWhitespace ch = false := by
  obtain ⟨first, rest, rfl, plain⟩ := dark
  simp [plain]

theorem blank_or_dark (rest : List Char) :
    Blank rest ∨ ∃ gap tail, rest = gap ++ tail ∧ Blank gap ∧ Dark tail := by
  induction rest with
  | nil => exact .inl blank_nil
  | cons ch rest ih =>
    cases white : isWhitespace ch with
    | false => exact .inr ⟨[], ch :: rest, rfl, blank_nil, ch, rest, rfl, white⟩
    | true =>
      have cons {s : List Char} (blank : Blank s) : Blank (ch :: s) := by
        simpa [Blank, white] using blank
      rcases ih with blank | ⟨gap, tail, rfl, blank, dark⟩
      · exact .inl (cons blank)
      · exact .inr ⟨ch :: gap, tail, rfl, cons blank, dark⟩

theorem not_blank {gap tail : List Char} (dark : Dark tail) : ¬ Blank (gap ++ tail) := by
  obtain ⟨ch, rest, rfl, plain⟩ := dark
  intro blank
  rw [blank ch (by simp)] at plain
  cases plain

section
variable {s gap tail tail' : List Char} {i p : ℕ}

theorem comesTo_iff (blank : Blank gap) (dark : Dark tail) :
    ComesTo s i (gap ++ tail) p tail' ↔ (p = i + gap.length ∧ tail' = tail) ∨
      (CleanTerm s (i + gap.length) tail ∧ ¬ Stray tail ∧
        ComesTo s (i + gap.length + wholeExtent tail) (tail.drop (wholeExtent tail)) p tail') := by
  -- a text has one gap and one dark tail
  have same {gap' other : List Char} (blank' : Blank gap') (dark' : Dark other)
      (whole : gap' ++ other = gap ++ tail) : gap' = gap ∧ other = tail :=
    ⟨by rw [← takeWhile_blank blank dark.head, ← whole, takeWhile_blank blank' dark'.head],
      by rw [← dropWhile_blank blank dark.head, ← whole, dropWhile_blank blank' dark'.head]⟩
  constructor
  · intro comes
    generalize whole : gap ++ tail = rest at comes
    cases comes with
    | here blank' dark' =>
      obtain ⟨rfl, rfl⟩ := same blank' dark' whole.symm
      exact .inl ⟨rfl, rfl⟩
    | later blank' dark' clean term more =>
      obtain ⟨rfl, rfl⟩ := same blank' dark' whole.symm
      exact .inr ⟨clean, term, more⟩
  · rintro (⟨rfl, rfl⟩ | ⟨clean, term, more⟩)
    · exact .here blank dark
    · exact .later blank dark clean term more

theorem not_comesTo_blank {rest : List Char} (blank : Blank rest) : ¬ ComesTo s i rest p tail := by
  intro comes
  cases comes with
  | here _ dark => exact not_blank dark blank
  | later _ dark => exact not_blank dark blank

theorem wholeExtent_eq_zero (dark : Dark tail) : wholeExtent tail = 0 ↔ Stray tail := by
  obtain ⟨ch, rest, rfl, plain⟩ := dark
  rw [wholeExtent, termExtent.eq_def]
  -- strings, classes, groups and escapes take their first character at least
  split
  next ch' rest' same => cases same; simp [Stray]
  next ch' rest' same => cases same; simp [Stray]
  next ch' rest' same => cases same; simp [Stray]
  next ch' rest' same => cases same; simp [Stray]
  next ch' rest' same => cases same; simp [Stray]
  next =>
    -- what an identifier does not go on with is a suffix or a stray
    by_cases goes : ch ∈ ['|', '*', '+', '?', ')', ']']
    · have stops : continues ch = false := by simp [continues, goes]
      simp only [List.takeWhile_cons, stops, Bool.false_eq_true, if_false, List.length_nil,
        List.drop_zero, Nat.zero_add]
      simp only [List.mem_cons, List.not_mem_nil, or_false] at goes
      rcases goes with rfl | rfl | rfl | rfl | rfl | rfl <;> simp [Stray, isSuffix]
    · have moves : continues ch = true := by simp [continues, plain, goes]
      have term : ¬ Stray (ch :: rest) := by
        rintro ⟨_, _, same, member⟩
        cases same
        simp only [List.mem_cons, List.not_mem_nil, or_false] at member goes
        tauto
      simp [moves, term]

theorem splitTermsFrom_dark (blank : Blank gap) (dark : Dark tail) :
    splitTermsFrom s i (gap ++ tail) = (do
      let term ← slice s (i + gap.length) (i + gap.length + wholeExtent tail)
      if wholeExtent tail = 0 then .error .hang
      else
        let terms ← splitTermsFrom s (i + gap.length + wholeExtent tail)
          (tail.drop (wholeExtent tail))
        return if (trim term).isEmpty then terms else trim term :: terms) := by
  obtain ⟨ch, rest, same, -⟩ := id dark
  have some_ : tail ≠ [] := same ▸ List.cons_ne_nil ch rest
  rw [splitTermsFrom]
  simp only [dropWhile_blank blank dark.head, takeWhile_blank blank dark.head, some_, dif_neg,
    not_false_eq_true]
  rfl

/-- The loop panics at the first term that it cannot cut, and never ends at the first character
that is no term. -/
theorem splitTermsFrom_error (stop : Stop) {rest : List Char} :
    splitTermsFrom s i rest = .error stop ↔
      (stop = .panic ∧ ∃ p tail, ComesTo s i rest p tail ∧ ¬ CleanTerm s p tail) ∨
        (stop = .hang ∧ ∃ p tail, ComesTo s i rest p tail ∧ Stray tail ∧ IsCharBoundary s p) := by
  induction size : rest.length using Nat.strong_induction_on generalizing i rest with
  | _ n ih =>
  subst size
  rcases blank_or_dark rest with blank | ⟨gap, tail, rfl, blank, dark⟩
  · simp [splitTermsFrom_blank blank, not_comesTo_blank blank]
  rw [splitTermsFrom_dark blank dark]
  simp only [comesTo_iff blank dark]
  have stray := wholeExtent_eq_zero dark
  rcases slice_cases s (Nat.le_add_right (i + gap.length) (wholeExtent tail)) with
    ⟨clean, term, cut⟩ | ⟨unclean, cut⟩
  · have cleanTerm : CleanTerm s (i + gap.length) tail := clean
    -- a term is cut, and moves the scan on unless it is empty
    rw [cut]
    by_cases here : Stray tail
    · simp [bind, Except.bind, if_pos (stray.mpr here), here, cleanTerm, clean.1,
        @eq_comm _ Stop.hang]
    · have shorter : (tail.drop (wholeExtent tail)).length < (gap ++ tail).length := by
        have some_ : tail.length ≠ 0 := by
          obtain ⟨ch, rest, rfl, -⟩ := dark
          simp
        have moved : wholeExtent tail ≠ 0 := fun stuck => here (stray.mp stuck)
        rw [List.length_drop, List.length_append]
        omega
      have next := ih _ shorter (i := i + gap.length + wholeExtent tail) rfl
      simp [bind_error, map_error, if_neg fun stuck => here (stray.mp stuck), here, cleanTerm,
        next, or_and_right, exists_or]
  · have uncleanTerm : ¬ CleanTerm s (i + gap.length) tail := unclean
    -- an empty term is cut twice at one position, so that its cut fails where it begins
    have inside : Stray tail → ¬ IsCharBoundary s (i + gap.length) := by
      intro here boundary
      rw [CleanTerm, stray.mpr here] at uncleanTerm
      exact uncleanTerm ⟨boundary, boundary⟩
    rw [cut]
    have none_ : ¬ (Stray tail ∧ IsCharBoundary s (i + gap.length)) :=
      fun both => inside both.1 both.2
    simp [bind_error, uncleanTerm, none_, @eq_comm _ Stop.panic]

theorem splitSequenceTerms_error {stop : Stop} (abnormal : stop = .panic ∨ stop = .hang) :
    splitSequenceTerms s = .error stop ↔ splitTermsFrom s 0 s = .error stop := by
  rw [splitSequenceTerms, bind_error]
  -- a sequence without terms is a message
  refine or_iff_left ?_
  rintro ⟨terms, -, failed⟩
  split at failed
  next =>
    cases failed
    simp at abnormal
  next => cases failed

/-- The split of a sequence never ends where a `|`, `)` or `]` stands in the place of a term. -/
theorem splitSequenceTerms_hang : splitSequenceTerms s = .error .hang ↔ Strays s := by
  rw [splitSequenceTerms_error (.inr rfl), splitTermsFrom_error]
  simp [Strays]

end

/-! ## Texts that are cut at their characters -/

/-- Where a character outside strings stands: so many brackets deep, or in a name. -/
inductive Spot
  | depth (brackets : ℕ)
  | name
  deriving DecidableEq

def Spot.next (ch : Char) : Spot → Spot
  | .name => if continues ch then .name else .depth 0
  | .depth n =>
    if ch = '[' then .depth (n + 1)
    else if ch = ']' then .depth (n - 1)
    else if n = 0 ∧ continues ch ∧ ch ∉ ['(', '.'] then .name
    else .depth n

/-- Behind a backslash a bracket is a character of the class. -/
def Spot.escape (ch : Char) : Spot → Spot
  | .name => if continues ch then .name else .depth 0
  | .depth n => if n = 0 ∧ continues ch then .name else .depth n

/-- What a text has been read to. -/
inductive Lex
  | plain (spot : Spot)
  /-- Behind a backslash, and behind one that a backslash escapes. -/
  | back (spot : Spot)
  | backed (spot : Spot)
  /-- In a `\xNN`, with so many letters or digits to come besides the next. -/
  | hex (more : ℕ) (spot : Spot)
  | quoted
  | escape
  | escaped

def Lex.stepPlain (spot : Spot) (ch : Char) : Option Lex :=
  if ch = '\\' then some (.back spot)
  else if ch = '"' then if spot = .depth 0 then some .quoted else none
  else some (.plain (spot.next ch))

/-- What the text has been read to behind the next character. There is none at a quote that the
scanners take differently, and at a character of a `\x` that is no letter or digit. -/
def Lex.step : Lex → Char → Option Lex
  | .plain spot, ch => stepPlain spot ch
  | .back spot, ch =>
    if ch = '"' then none
    else if ch = 'x' then some (.hex 1 spot)
    else if ch = '\\' then some (.backed (spot.escape ch))
    else some (.plain (spot.escape ch))
  | .backed spot, ch => if ch = 'x' then some (.hex 1 spot) else stepPlain spot ch
  | .hex more spot, ch =>
    if ch.isAlphanum then some (if more = 0 then .plain spot else .hex (more - 1) spot) else none
  | .quoted, ch =>
    some (if ch = '"' then .plain (.depth 0) else if ch = '\\' then .escape else .quoted)
  | .escape, ch => some (if ch = '\\' then .escaped else .quoted)
  | .escaped, ch =>
    if ch = '"' then none else some (if ch = '\\' then .escape else .quoted)

def Lex.spot : Lex → Option Spot
  | .plain spot => some spot
  | .back spot => some spot
  | .backed spot => some spot
  | .hex _ spot => some spot
  | _ => none

/-- Letters or digits of a `\x` are missing. -/
def Lex.due : Lex → Bool
  | .hex _ _ => true
  | _ => false

/-- The text is read from here on, and no `\x` is cut short. -/
def Lex.Reads (lex : Lex) (s : List Char) : Prop :=
  ∃ last, s.foldlM Lex.step lex = some last ∧ last.due = false

/-- The text is read, and its strings are closed. -/
def Lex.Closes (lex : Lex) (s : List Char) : Prop :=
  ∃ last, s.foldlM Lex.step lex = some last ∧ last.due = false ∧ last.spot.isSome

section
variable {lex lex' last : Lex} {ch : Char} {s t : List Char}

theorem Lex.foldlM_append : (s ++ t).foldlM Lex.step lex = some last ↔
    ∃ lex', s.foldlM Lex.step lex = some lex' ∧ t.foldlM Lex.step lex' = some last := by
  rw [List.foldlM_append]
  exact Option.bind_eq_some_iff

theorem Lex.foldlM_cons : (ch :: s).foldlM Lex.step lex = some last ↔
    ∃ lex', lex.step ch = some lex' ∧ s.foldlM Lex.step lex' = some last := by
  rw [List.foldlM_cons]
  exact Option.bind_eq_some_iff

theorem Lex.Closes.cons (closes : lex.Closes (ch :: s)) :
    ∃ lex', lex.step ch = some lex' ∧ lex'.Closes s := by
  obtain ⟨last, read, ends⟩ := closes
  obtain ⟨lex', step, rest⟩ := Lex.foldlM_cons.mp read
  exact ⟨lex', step, last, rest, ends⟩

theorem Lex.step_other (outside : lex.spot.isSome) (other : ch ≠ '"')
    (step : lex.step ch = some lex') : lex'.spot.isSome := by
  cases lex with
  | plain spot => grind [Lex.step, Lex.stepPlain, Lex.spot]
  | back spot => grind [Lex.step, Lex.spot]
  | backed spot => grind [Lex.step, Lex.stepPlain, Lex.spot]
  | hex more spot => grind [Lex.step, Lex.spot]
  | _ => cases outside

theorem Lex.step_quote (outside : lex.spot.isSome) (step : lex.step '"' = some lex') :
    lex' = .quoted := by
  have noHex : Char.isAlphanum '"' = false := by decide
  cases lex with
  | plain spot => grind [Lex.step, Lex.stepPlain]
  | back spot => grind [Lex.step]
  | backed spot => grind [Lex.step, Lex.stepPlain]
  | hex more spot => grind [Lex.step]
  | _ => cases outside

theorem not_isAlphanum_of_stops (stops : continues ch = false) : ch.isAlphanum = false := by
  by_contra digit
  rw [Bool.not_eq_false] at digit
  have goes : continues ch = true :=
    continues_of_identifierChar (by simp [identifierChar, digit])
  rw [stops] at goes
  cases goes

theorem Lex.not_due (stops : continues ch = false) (step : lex.step ch = some lex') :
    lex.due = false := by
  have noHex := not_isAlphanum_of_stops stops
  cases lex with
  | hex more spot => grind [Lex.step]
  | _ => rfl

/-- A character between terms ends a name, and is no part of a `\xNN`. -/
theorem Lex.step_apart (outside : lex.spot.isSome) (stops : continues ch = false)
    (step : lex.step ch = some lex') : ∃ n, lex' = .plain (.depth n) := by
  have noSlash : ch ≠ '\\' := by rintro rfl; cases stops
  have noQuote : ch ≠ '"' := by rintro rfl; cases stops
  have noX : ch ≠ 'x' := by rintro rfl; cases stops
  have noHex := Lex.not_due stops step
  cases lex with
  | plain spot => cases spot <;> grind [Lex.step, Lex.stepPlain, Spot.next]
  | back spot => cases spot <;> grind [Lex.step, Spot.escape]
  | backed spot => cases spot <;> grind [Lex.step, Lex.stepPlain, Spot.next]
  | hex more spot => cases noHex
  | _ => cases outside

theorem Lex.foldlM_apart {n : ℕ} (apart : ∀ ch ∈ s, continues ch = false)
    (read : s.foldlM Lex.step (.plain (.depth n)) = some lex) : ∃ m, lex = .plain (.depth m) := by
  induction s generalizing n with
  | nil => exact ⟨n, (Option.some.inj read).symm⟩
  | cons ch s ih =>
    obtain ⟨lex', step, rest⟩ := Lex.foldlM_cons.mp read
    obtain ⟨m, rfl⟩ := Lex.step_apart rfl (apart ch List.mem_cons_self) step
    exact ih (fun other member => apart other (List.mem_cons_of_mem _ member)) rest

def Lex.Inside (lex : Lex) : Prop := ∃ spot, lex.spot = some spot ∧ spot ≠ .depth 0

/-- A term that is read character by character is not left by one of its characters. -/
theorem Lex.step_inside (inside : lex.Inside) (goes : continues ch = true)
    (step : lex.step ch = some lex') : lex'.Inside := by
  have noBracket : ch ≠ ']' := by rintro rfl; cases goes
  obtain ⟨spot, same, deep⟩ := inside
  cases lex with
  | plain spot => cases spot <;> grind [Lex.step, Lex.stepPlain, Spot.next, Lex.Inside, Lex.spot]
  | back spot => cases spot <;> grind [Lex.step, Spot.escape, Lex.Inside, Lex.spot]
  | backed spot => cases spot <;> grind [Lex.step, Lex.stepPlain, Spot.next, Lex.Inside, Lex.spot]
  | hex more spot => grind [Lex.step, Lex.Inside, Lex.spot]
  | _ => cases same

theorem Lex.Closes.outside (closes : lex.Closes []) : lex.spot.isSome := by
  obtain ⟨last, read, -, outside⟩ := closes
  cases read
  exact outside

/-! ### Terms -/

/-- A term may begin here, or what was read goes no further. -/
def Lex.Loose (lex : Lex) (s : List Char) : Prop :=
  lex.spot.isSome ∧ ((∃ n, lex = .plain (.depth n)) ∨ ∀ ch ∈ s.head?, continues ch = false)

theorem Lex.loose_plain (n : ℕ) (s : List Char) : (Lex.plain (.depth n)).Loose s :=
  ⟨rfl, .inl ⟨n, rfl⟩⟩

/-- So many characters of the text are a term, and behind them it is read on. -/
def EndsAt (s : List Char) (extent : ℕ) : Prop :=
  ∃ term rest, s = term ++ rest ∧ term.length = extent ∧
    ∃ lex : Lex, lex.Loose rest ∧ lex.Closes rest

theorem EndsAt.cons {extent : ℕ} (ends : EndsAt s extent) : EndsAt (ch :: s) (extent + 1) := by
  obtain ⟨term, rest, rfl, rfl, more⟩ := ends
  exact ⟨ch :: term, rest, rfl, rfl, more⟩

theorem Lex.Loose.skip (loose : lex.Loose (s ++ t)) (closes : lex.Closes (s ++ t))
    (apart : ∀ ch ∈ s, continues ch = false) : ∃ lex' : Lex, lex'.Loose t ∧ lex'.Closes t := by
  induction s generalizing lex with
  | nil => exact ⟨lex, loose, closes⟩
  | cons ch s ih =>
    obtain ⟨lex', step, rest⟩ := closes.cons
    obtain ⟨n, rfl⟩ := Lex.step_apart loose.1 (apart ch List.mem_cons_self) step
    exact ih (Lex.loose_plain n _) rest fun other member => apart other (List.mem_cons_of_mem _ member)

/-- In a string, not right behind a backslash that escapes. -/
def Lex.InString (lex : Lex) : Prop := lex = .quoted ∨ lex = .escaped

theorem Lex.InString.step_escape (inside : lex.InString) (step : lex.step '\\' = some lex') :
    lex' = .escape := by
  rcases inside with rfl | rfl <;> grind [Lex.step]

theorem Lex.escape_step (step : Lex.escape.step ch = some lex) : lex.InString := by
  grind [Lex.step, Lex.InString]

theorem Lex.InString.step_quote (inside : lex.InString) (step : lex.step '"' = some lex') :
    lex' = .plain (.depth 0) := by
  rcases inside with rfl | rfl <;> grind [Lex.step]

theorem Lex.InString.step_other (inside : lex.InString) (noQuote : ch ≠ '"')
    (noEscape : ch ≠ '\\') (step : lex.step ch = some lex') : lex'.InString := by
  rcases inside with rfl | rfl <;> grind [Lex.step, Lex.InString]

/-- A backslash at the end leaves a string open. -/
theorem Lex.InString.not_closes (inside : lex.InString) :
    ¬ lex.Closes [] ∧ ¬ lex.Closes ['\\'] := by
  constructor
  · intro closes
    rcases inside with rfl | rfl <;> cases closes.outside
  · intro closes
    obtain ⟨lex', step, closes'⟩ := closes.cons
    rw [inside.step_escape step] at closes'
    cases closes'.outside

/-- The quote that ends a string is the one that the scanners take for it. -/
theorem Lex.Closes.string (inside : lex.InString) (closes : lex.Closes s) :
    EndsAt s (stringInner s + 1) := by
  fun_induction stringInner s generalizing lex with
  | case1 ch rest ih =>
    obtain ⟨lex', step, after⟩ := closes.cons
    rw [inside.step_escape step] at after
    obtain ⟨lex'', step', rest'⟩ := after.cons
    exact (ih (Lex.escape_step step') rest').cons.cons
  | case2 rest =>
    obtain ⟨lex', step, after⟩ := closes.cons
    rw [inside.step_quote step] at after
    exact ⟨['"'], rest, rfl, rfl, _, Lex.loose_plain 0 rest, after⟩
  | case3 ch rest noEscape noQuote ih =>
    obtain ⟨lex', step, after⟩ := closes.cons
    have plain : ch ≠ '\\' := by
      rintro rfl
      cases rest with
      | nil => exact inside.not_closes.2 closes
      | cons next rest => exact noEscape next rest rfl rfl
    exact (ih (inside.step_other noQuote plain step) after).cons
  | case4 => exact absurd closes inside.not_closes.1

/-- A group is left outside strings. -/
theorem Lex.Closes.group {inString : Bool} {depth : ℕ} (closes : lex.Closes s)
    (agrees : if inString then lex.InString else lex.spot.isSome)
    (left : depth = 0 → inString = false ∧ ∃ n, lex = .plain (.depth n)) :
    EndsAt s (groupExtent inString depth s) := by
  fun_induction groupExtent inString depth s generalizing lex with
  | case1 depth => exact ⟨[], [], rfl, rfl, lex, ⟨agrees, .inr (by simp)⟩, closes⟩
  | case2 depth rest ih =>
    obtain ⟨lex', step, after⟩ := closes.cons
    exact (ih after (Lex.step_other agrees (by decide) step) (by simp)).cons
  | case3 depth rest ih =>
    obtain ⟨lex', step, after⟩ := closes.cons
    have apart := Lex.step_apart agrees (by decide) step
    exact (ih after (Lex.step_other agrees (by decide) step) fun _ => ⟨rfl, apart⟩).cons
  | case4 depth rest ih =>
    obtain ⟨lex', step, after⟩ := closes.cons
    exact (ih after (.inl (Lex.step_quote agrees step)) (by simp)).cons
  | case5 depth ch rest noOpen noClose noQuote ih =>
    obtain ⟨lex', step, after⟩ := closes.cons
    exact (ih after (Lex.step_other agrees noQuote step) (by simp)).cons
  | case6 depth => exact absurd closes (Lex.InString.not_closes agrees).1
  | case7 depth ch rest ih =>
    obtain ⟨lex', step, after⟩ := closes.cons
    rw [Lex.InString.step_escape agrees step] at after
    obtain ⟨lex'', step', rest'⟩ := after.cons
    exact (ih rest' (Lex.escape_step step') (by simp)).cons.cons
  | case8 depth rest ih =>
    obtain ⟨lex', step, after⟩ := closes.cons
    rw [Lex.InString.step_quote agrees step] at after
    exact (ih after rfl (by simp)).cons
  | case9 depth ch rest noEscape noQuote ih =>
    obtain ⟨lex', step, after⟩ := closes.cons
    have plain : ch ≠ '\\' := by
      rintro rfl
      cases rest with
      | nil => exact (Lex.InString.not_closes agrees).2 closes
      | cons next rest => exact noEscape next rest rfl rfl
    exact (ih after (Lex.InString.step_other agrees noQuote plain step) (by simp)).cons
  | case10 =>
    obtain ⟨-, n, rfl⟩ := left rfl
    exact ⟨[], _, rfl, rfl, _, Lex.loose_plain n _, closes⟩

/-- So many brackets deep, and behind no backslash that escapes. -/
def Lex.Deep (brackets : ℕ) (lex : Lex) : Prop :=
  lex.spot = some (.depth brackets) ∧ lex ≠ .back (.depth brackets)

theorem Lex.Deep.step {k : ℕ} (deep : lex.Deep (k + 1)) (step : lex.step ch = some lex') :
    if ch = '[' then lex'.Deep (k + 2)
    else if ch = ']' then lex' = .plain (.depth k)
    else if ch = '\\' then lex' = .back (.depth (k + 1))
    else lex'.Deep (k + 1) := by
  have digit (is_digit : ch.isAlphanum = true) : ch ≠ '[' ∧ ch ≠ ']' ∧ ch ≠ '\\' := by
    refine ⟨?_, ?_, ?_⟩ <;> (rintro rfl; cases is_digit)
  obtain ⟨spot, noBack⟩ := deep
  cases lex with
  | plain spot => grind [Lex.step, Lex.stepPlain, Spot.next, Lex.spot, Lex.Deep]
  | back spot => grind [Lex.spot]
  | backed spot => grind [Lex.step, Lex.stepPlain, Spot.next, Lex.spot, Lex.Deep]
  | hex more spot => grind [Lex.step, Lex.spot, Lex.Deep]
  | _ => cases spot

theorem Lex.back_deep {k : ℕ} (step : (Lex.back (.depth (k + 1))).step ch = some lex) :
    lex.Deep (k + 1) := by
  grind [Lex.step, Spot.escape, Lex.spot, Lex.Deep]

/-- The bracket that ends a class, counted from its own first one. -/
theorem Lex.Closes.charClass {base depth : ℕ} (closes : lex.Closes s)
    (deep : lex.Deep (base + depth)) (left : depth = 0 → lex = .plain (.depth base)) :
    EndsAt s (classExtent depth s) := by
  fun_induction classExtent depth s generalizing lex with
  | case1 depth => exact ⟨[], [], rfl, rfl, lex, ⟨by rw [deep.1]; rfl, .inr (by simp)⟩, closes⟩
  | case2 depth rest ih =>
    obtain ⟨lex', step, after⟩ := closes.cons
    exact (ih after (Lex.Deep.step deep step) (by simp)).cons
  | case3 depth rest ih =>
    obtain ⟨lex', step, after⟩ := closes.cons
    cases show lex' = _ from Lex.Deep.step deep step
    exact (ih after ⟨rfl, by simp⟩ (by rintro rfl; rfl)).cons
  | case4 depth ch rest ih =>
    obtain ⟨lex', step, after⟩ := closes.cons
    cases show lex' = _ from Lex.Deep.step deep step
    obtain ⟨lex'', step', rest'⟩ := after.cons
    exact (ih rest' (Lex.back_deep step') (by simp)).cons.cons
  | case5 depth ch rest noOpen noClose noEscape ih =>
    obtain ⟨lex', step, after⟩ := closes.cons
    have next := Lex.Deep.step deep step
    rw [if_neg noOpen, if_neg noClose] at next
    by_cases escape : ch = '\\'
    · subst escape
      -- a backslash at the end
      cases rest with
      | nil =>
        exact ⟨['\\'], [], rfl, rfl, lex', ⟨after.outside, .inr (by simp)⟩, after⟩
      | cons next rest => exact absurd rfl (noEscape next rest rfl)
    · rw [if_neg escape] at next
      exact (ih after next (by simp)).cons
  | case6 =>
    cases left rfl
    exact ⟨[], _, rfl, rfl, _, Lex.loose_plain base _, closes⟩

theorem Lex.Inside.name (inside : lex.Inside) (closes : lex.Closes s) :
    EndsAt s (s.takeWhile continues).length := by
  obtain ⟨spot, same, -⟩ := id inside
  have outside : lex.spot.isSome := by rw [same]; rfl
  induction s generalizing lex spot with
  | nil => exact ⟨[], [], rfl, rfl, lex, ⟨outside, .inr (by simp)⟩, closes⟩
  | cons ch s ih =>
    cases goes : continues ch with
    | false =>
      rw [List.takeWhile_cons_of_neg (by simp [goes])]
      exact ⟨[], ch :: s, rfl, rfl, lex, ⟨outside, .inr (by simp [goes])⟩, closes⟩
    | true =>
      obtain ⟨lex', step, after⟩ := closes.cons
      have inside' := Lex.step_inside inside goes step
      obtain ⟨spot', same', -⟩ := id inside'
      rw [List.takeWhile_cons_of_pos goes]
      exact (ih inside' after spot' same' (by rw [same']; rfl)).cons

/-- A term that is no string, class, group or `.` is a name, or begins with a backslash. -/
theorem Lex.begin_inside {n : ℕ} (goes : continues ch = true)
    (plain : ch ∉ ['"', '[', '(', '.']) (step : (Lex.plain (.depth n)).step ch = some lex) :
    lex.Inside ∨ (ch = '\\' ∧ lex = .back (.depth 0)) := by
  have noBracket : ch ≠ ']' := by rintro rfl; cases goes
  by_cases slash : ch = '\\'
  · have back : lex = .back (.depth n) := by grind [Lex.step, Lex.stepPlain]
    cases n with
    | zero => exact .inr ⟨slash, back⟩
    | succ n => exact .inl ⟨_, congrArg Lex.spot back, by simp⟩
  · have next : lex = .plain (Spot.next ch (.depth n)) := by grind [Lex.step, Lex.stepPlain]
    exact .inl ⟨_, congrArg Lex.spot next, by grind [Spot.next]⟩

theorem Lex.back_inside (goes : continues ch = true) (noHex : ch ≠ 'x')
    (step : (Lex.back (.depth 0)).step ch = some lex) : lex.Inside := by
  have spot : lex.spot = some .name := by grind [Lex.step, Spot.escape, Lex.spot]
  exact ⟨_, spot, by simp⟩

theorem Lex.Loose.plain (loose : lex.Loose (ch :: s)) (goes : continues ch = true) :
    ∃ n, lex = .plain (.depth n) := by
  rcases loose.2 with plain | stops
  · exact plain
  · have := stops ch rfl
    rw [goes] at this
    cases this

theorem Lex.Closes.hex {spot : Spot} (closes : (Lex.hex 1 spot).Closes s) :
    ∃ high low rest, s = high :: low :: rest ∧ (Lex.plain spot).Closes rest := by
  -- what ends before the second digit is cut short
  have short {more : ℕ} : ¬ (Lex.hex more spot).Closes [] := by
    rintro ⟨last, read, ends, -⟩
    cases read
    cases ends
  cases s with
  | nil => exact absurd closes short
  | cons high s =>
  obtain ⟨lex', step, after⟩ := closes.cons
  have same : lex' = .hex 0 spot := by grind [Lex.step]
  subst same
  cases s with
  | nil => exact absurd after short
  | cons low rest =>
  obtain ⟨lex'', step', after'⟩ := after.cons
  have same : lex'' = .plain spot := by grind [Lex.step]
  subst same
  exact ⟨high, low, rest, rfl, after'⟩

/-- A name, or an escape that is no `\xNN`, ends before the first character that does not go on. -/
theorem endsAt_name (loose : lex.Loose s) (closes : lex.Closes s)
    (named : ∀ ch rest, s = ch :: rest → ch ∉ ['"', '[', '(', '.'])
    (noHex : ∀ rest, s = '\\' :: 'x' :: rest → False) :
    EndsAt s (s.takeWhile continues).length := by
  cases s with
  | nil => exact ⟨[], [], rfl, rfl, lex, loose, closes⟩
  | cons ch s =>
  cases goes : continues ch with
  | false =>
    rw [List.takeWhile_cons_of_neg (by simp [goes])]
    exact ⟨[], ch :: s, rfl, rfl, lex, loose, closes⟩
  | true =>
    obtain ⟨n, rfl⟩ := loose.plain goes
    obtain ⟨lex', step, after⟩ := closes.cons
    rw [List.takeWhile_cons_of_pos goes]
    rcases Lex.begin_inside goes (named ch s rfl) step with inside | ⟨rfl, rfl⟩
    · exact (inside.name after).cons
    -- behind the backslash stands no `x`
    · cases s with
      | nil => exact ⟨['\\'], [], rfl, rfl, _, ⟨rfl, .inr (by simp)⟩, after⟩
      | cons next s =>
      cases goes' : continues next with
      | false =>
        rw [List.takeWhile_cons_of_neg (by simp [goes'])]
        exact ⟨['\\'], next :: s, rfl, rfl, _, ⟨rfl, .inr (by simp [goes'])⟩, after⟩
      | true =>
        obtain ⟨lex'', step', after'⟩ := after.cons
        have noX : next ≠ 'x' := by
          rintro rfl
          exact noHex s rfl
        rw [List.takeWhile_cons_of_pos goes']
        exact ((Lex.back_inside goes' noX step').name after').cons.cons

/-- A term ends where the scan of it does. -/
theorem endsAt_termExtent (loose : lex.Loose s) (closes : lex.Closes s) :
    EndsAt s (termExtent s) := by
  rw [termExtent.eq_def]
  split
  next rest =>
    obtain ⟨n, rfl⟩ := loose.plain (by decide)
    obtain ⟨lex', step, after⟩ := closes.cons
    have inside : lex'.InString := .inl (Lex.step_quote rfl step)
    have ends := after.string inside
    -- the quote is there, so that the extent does not stop at the end of the text
    have fits : stringInner rest + 1 ≤ rest.length := by
      obtain ⟨term, more, rfl, size, -⟩ := id ends
      rw [List.length_append]
      omega
    rw [stringExtent, Nat.min_eq_left fits]
    exact ends.cons
  next rest =>
    obtain ⟨n, rfl⟩ := loose.plain (by decide)
    obtain ⟨lex', step, after⟩ := closes.cons
    have deep : lex'.Deep (n + 1) := by grind [Lex.step, Lex.stepPlain, Spot.next, Lex.Deep, Lex.spot]
    exact (after.charClass deep (by simp)).cons
  next rest =>
    obtain ⟨n, rfl⟩ := loose.plain (by decide)
    obtain ⟨lex', step, after⟩ := closes.cons
    have outside : if false then lex'.InString else lex'.spot.isSome :=
      Lex.step_other rfl (by decide) step
    exact (after.group outside (by simp)).cons
  next rest =>
    obtain ⟨n, rfl⟩ := loose.plain (by decide)
    obtain ⟨lex', step, after⟩ := closes.cons
    obtain ⟨lex'', step', digits⟩ := after.cons
    cases step
    cases step'
    obtain ⟨high, low, rest, rfl, more⟩ := digits.hex
    exact ⟨['\\', 'x', high, low], rest, rfl, rfl, _, Lex.loose_plain n rest, more⟩
  next rest =>
    obtain ⟨n, rfl⟩ := loose.plain (by decide)
    obtain ⟨lex', step, after⟩ := closes.cons
    have same : lex' = .plain (.depth n) := by grind [Lex.step, Lex.stepPlain, Spot.next]
    subst same
    exact ⟨['.'], rest, rfl, rfl, _, Lex.loose_plain n rest, after⟩
  next noQuote noBracket noParen noHex noDot =>
    refine endsAt_name loose closes (fun ch rest whole member => ?_) noHex
    subst whole
    simp only [List.mem_cons, List.not_mem_nil, or_false] at member
    rcases member with rfl | rfl | rfl | rfl
    · exact noQuote _ rfl
    · exact noBracket _ rfl
    · exact noParen _ rfl
    · exact noDot _ rfl

theorem endsAt_wholeExtent (loose : lex.Loose s) (closes : lex.Closes s) :
    EndsAt s (wholeExtent s) := by
  obtain ⟨term, rest, rfl, size, lex', loose', closes'⟩ := endsAt_termExtent loose closes
  rw [wholeExtent, ← size, List.drop_left]
  -- the suffixes belong to the term
  have suffixes : ∀ ch ∈ rest.takeWhile isSuffix, continues ch = false := by
    intro ch member
    have op : ch ∈ ['*', '+', '?'] := by simpa [isSuffix] using List.mem_takeWhile_imp member
    simp only [List.mem_cons, List.not_mem_nil, or_false] at op
    rcases op with rfl | rfl | rfl <;> decide
  have split_ := List.takeWhile_append_dropWhile (p := isSuffix) (l := rest)
  rw [← split_] at loose' closes'
  refine ⟨term ++ rest.takeWhile isSuffix, rest.dropWhile isSuffix, ?_, by simp,
    loose'.skip closes' suffixes⟩
  rw [List.append_assoc, split_]

end

/-! ### Alternations -/

/-- A scan does not panic, and cuts such texts. -/
def Yields (p : List Char → Prop) : Except Stop (List (List Char)) → Prop
  | .ok parts => ∀ part ∈ parts, p part
  | .error stop => stop ≠ .panic

def ClosedPart (part : List Char) : Prop := Ascii part ∧ ∃ n, (Lex.plain (.depth n)).Closes part

def Lex.left (next : Option Char) : Lex → ℕ
  | .back _ => if next = some 'x' then 3 else 0
  | .backed _ => if next = some 'x' then 3 else 0
  | .hex more _ => more + 1
  | _ => 0

/-- The scan of the alternation takes the same characters for a string. -/
structure Lex.Agrees (lex : Lex) (scan : AltScan) (next : Option Char) : Prop where
  string : scan.inString = lex.spot.isNone
  hex : scan.inHex = lex.left next
  opened : lex = .quoted → scan.prev ≠ some '\\'
  escaped : lex = .escape ∨ lex = .escaped → scan.prev = some '\\'

theorem AltScan.step_ok {scan scan' : AltScan} {ch : Char} {next : Option Char}
    (noBar : ¬ scan.AtBar ch) (step : scan.step [] ch next = .ok scan') :
    scan'.prev = some ch ∧
      if scan.inString then
        scan'.inString = !(ch = '"' && scan.prev ≠ some '\\') ∧ scan'.inHex = scan.inHex
      else if 0 < scan.inHex then scan'.inString = false ∧ scan'.inHex = scan.inHex - 1
      else scan'.inString = decide (ch = '"') ∧
        scan'.inHex = if ch = '\\' ∧ next = some 'x' then 3 else 0 := by
  unfold AltScan.step at step
  unfold AltScan.AtBar at noBar
  grind

theorem Lex.Agrees.step {lex lex' : Lex} {scan scan' : AltScan} {ch : Char} {next : Option Char}
    (agrees : lex.Agrees scan (some ch)) (noBar : ¬ scan.AtBar ch) (step : lex.step ch = some lex')
    (step' : scan.step [] ch next = .ok scan') : lex'.Agrees scan' next := by
  have moved := AltScan.step_ok noBar step'
  obtain ⟨string, hex, opened, escaped⟩ := agrees
  cases lex with
  | plain spot =>
    simp only [string, hex, Lex.spot, Lex.left] at moved
    constructor <;> grind [Lex.step, Lex.stepPlain, Lex.spot, Lex.left]
  | back spot =>
    simp only [string, hex, Lex.spot, Lex.left] at moved
    constructor <;> grind [Lex.step, Lex.spot, Lex.left]
  | backed spot =>
    simp only [string, hex, Lex.spot, Lex.left] at moved
    constructor <;> grind [Lex.step, Lex.stepPlain, Lex.spot, Lex.left]
  | hex more spot =>
    simp only [string, hex, Lex.spot, Lex.left] at moved
    constructor <;> grind [Lex.step, Lex.spot, Lex.left]
  | quoted =>
    simp only [string, hex, Lex.spot, Lex.left] at moved
    constructor <;> grind [Lex.step, Lex.spot, Lex.left]
  | escape =>
    simp only [string, hex, Lex.spot, Lex.left, escaped (.inl rfl)] at moved
    constructor <;> grind [Lex.step, Lex.spot, Lex.left]
  | escaped =>
    simp only [string, hex, Lex.spot, Lex.left, escaped (.inr rfl)] at moved
    constructor <;> grind [Lex.step, Lex.spot, Lex.left]

/-- The parts are cut where the text is outside strings. -/
theorem splitAlternationFrom_yields {s pre sofar rest : List Char} {scan : AltScan} {n : ℕ}
    {lex : Lex} (whole : s = pre ++ (sofar ++ rest)) (ascii : Ascii s)
    (read : sofar.foldlM Lex.step (.plain (.depth n)) = some lex) (reads : lex.Reads rest)
    (agrees : lex.Agrees scan rest.head?) (start : scan.start = pre.length)
    (i : scan.i = pre.length + sofar.length) (known : ∀ part ∈ scan.parts, ClosedPart part) :
    Yields ClosedPart (splitAlternationFrom s scan rest) := by
  induction rest generalizing pre sofar scan lex n with
  | nil =>
    rw [List.append_nil] at whole
    obtain ⟨last, same, ends⟩ := reads
    cases same
    have cut : sliceFrom scan.start s = .ok sofar := by
      rw [start, whole]
      exact sliceFrom_ascii (whole ▸ ascii : Ascii (pre ++ sofar)).left sofar
    rw [splitAlternationFrom, cut]
    split
    next => simp [Yields]
    split
    next => simp [Yields]
    split
    next => simp [Yields]
    next outside =>
      have spot : lex.spot.isSome :=
        Option.isSome_iff_ne_none.mpr (by simpa [agrees.string] using outside)
      have closed : ClosedPart sofar :=
        ⟨(whole ▸ ascii : Ascii (pre ++ sofar)).right, n, lex, read, ends, spot⟩
      intro part member
      rcases List.mem_append.mp member with old | new
      · exact known part old
      · rwa [List.mem_singleton.mp new]
  | cons ch rest ih =>
    have asciiPart : Ascii (pre ++ sofar) := by
      rw [whole, ← List.append_assoc] at ascii
      exact ascii.left
    obtain ⟨last, reads, ends⟩ := reads
    obtain ⟨lex', step, reads'⟩ := Lex.foldlM_cons.mp reads
    rw [splitAlternationFrom]
    by_cases bar : scan.AtBar ch
    · obtain ⟨rfl, outside, noHex, -⟩ := id bar
      have spot : lex.spot.isSome := by simpa [agrees.string] using outside
      have ends' := Lex.not_due (by decide) step
      obtain ⟨m, rfl⟩ := Lex.step_apart spot (by decide) step
      have cut : slice s scan.start scan.i = .ok sofar := by
        rw [start, i, whole]
        exact slice_ascii asciiPart _
      have closed : ClosedPart sofar := ⟨asciiPart.right, n, lex, read, ends', spot⟩
      rw [AltScan.step_bar bar, cut]
      -- the next part begins behind the bar
      have begins : scan.i + 1 = (pre ++ sofar ++ ['|']).length := by simp [i]; omega
      refine @ih (pre ++ sofar ++ ['|']) [] ((scan.behindBar '|').withParts (scan.parts ++ [sofar]))
        m _ (by simp [whole]) rfl ⟨last, reads', ends⟩ ⟨outside, noHex, by simp, by simp⟩ begins
        begins ?_
      intro part member
      rcases List.mem_append.mp member with old | new
      · exact known part old
      · rwa [List.mem_singleton.mp new]
    · rcases AltScan.step_cases s rest.head? bar with
        ⟨message, -, refused⟩ | ⟨scan', passed, passed', same, one⟩
      · rw [refused]
        simp [bind, Except.bind, Yields]
      · rw [passed']
        have agrees' := agrees.step bar step passed
        refine @ih pre (sofar ++ [ch]) (scan'.withParts scan.parts) n lex' (by simp [whole]) ?_
          ⟨last, reads', ends⟩ ⟨agrees'.1, agrees'.2, agrees'.3, agrees'.4⟩ (same.trans start) ?_
          known
        · exact Lex.foldlM_append.mpr ⟨lex, read, Lex.foldlM_cons.mpr ⟨lex', step, rfl⟩⟩
        · rw [List.length_append, List.length_singleton, ← Nat.add_assoc, ← i]
          exact one

theorem splitAlternationFrom_ne_hang {s rest : List Char} (scan : AltScan)
    (ordered : scan.start ≤ scan.i) : splitAlternationFrom s scan rest ≠ .error .hang := by
  induction rest generalizing scan with
  | nil =>
    rw [splitAlternationFrom]
    rcases sliceFrom_cases s scan.start with ⟨-, part, cut⟩ | ⟨-, cut⟩ <;>
      simp only [cut, bind, Except.bind, pure, Except.pure] <;> grind
  | cons ch rest ih =>
    rw [splitAlternationFrom, ne_eq, bind_error]
    rintro (failed | ⟨scan', step, failed⟩)
    · by_cases bar : scan.AtBar ch
      · rw [AltScan.step_bar bar, map_error] at failed
        rcases slice_cases s ordered with ⟨-, part, cut⟩ | ⟨-, cut⟩ <;> simp [cut] at failed
      · rcases AltScan.step_passes s rest.head? bar with ⟨message, refused⟩ | ⟨scan', passed, -⟩
        · simp [refused] at failed
        · simp [passed] at failed
    · refine ih scan' ?_ failed
      by_cases bar : scan.AtBar ch
      · rw [AltScan.step_bar bar] at step
        obtain ⟨part, -, same⟩ := bind_ok step
        cases same
        exact le_rfl
      · rcases AltScan.step_passes s rest.head? bar with ⟨message, refused⟩ | ⟨next, passed, same, one⟩
        · cases refused.symm.trans step
        · cases passed.symm.trans step
          omega

/-! ### Strings -/

/-- The text is read at one of its own positions, counted in characters and in bytes. -/
def Placed (s : List Char) (i : ℕ) (rest : List Char) : Prop :=
  ∃ pre, s = pre ++ rest ∧ i = pre.length ∧ Ascii s

theorem Placed.skip {s rest : List Char} {i : ℕ} (front : List Char)
    (placed : Placed s i (front ++ rest)) : Placed s (i + front.length) rest := by
  obtain ⟨pre, rfl, rfl, ascii⟩ := placed
  exact ⟨pre ++ front, by simp, by simp, ascii⟩

theorem Placed.slice {s part rest : List Char} {i : ℕ} (placed : Placed s i (part ++ rest)) :
    slice s i (i + part.length) = .ok part := by
  obtain ⟨pre, rfl, rfl, ascii⟩ := placed
  rw [← List.append_assoc] at ascii
  exact slice_ascii ascii.left rest

/-- No escape hangs, and in ASCII the two digits of an escape are there. -/
theorem unescapeFrom_error {s rest : List Char} {i : ℕ} {stop : Stop}
    (abnormal : stop = .hang ∨ stop = .panic ∧ Placed s i rest) :
    unescapeFrom s i rest ≠ .error stop := by
  have message (m : String) : (Except.error (.err m) : Except Stop (List Char)) ≠ .error stop := by
    rintro ⟨⟩
    simp at abnormal
  have further (front : List Char) {rest : List Char} {i : ℕ}
      (abnormal : stop = .hang ∨ stop = .panic ∧ Placed s i (front ++ rest)) :
      stop = .hang ∨ stop = .panic ∧ Placed s (i + front.length) rest :=
    abnormal.imp_right fun ⟨same, placed⟩ => ⟨same, placed.skip front⟩
  induction i, rest using unescapeFrom.induct with
  | case1 i high low rest ih =>
    have cut : slice s (i + 2) (i + 4) ≠ .error stop := by
      rcases further ['\\', 'x'] abnormal with rfl | ⟨rfl, placed⟩
      · rcases slice_cases s (by omega : i + 2 ≤ i + 4) with ⟨-, part, cut⟩ | ⟨-, cut⟩ <;>
          simp [cut]
      · have cut : slice s (i + 2) (i + 4) = .ok [high, low] :=
          @Placed.slice s [high, low] rest (i + 2) placed
        simp [cut]
    rw [unescapeFrom, ne_eq, bind_error]
    rintro (failed | ⟨hex, -, failed⟩)
    · exact cut failed
    · split at failed
      next => exact ih (further ['\\', 'x', high, low] abnormal) (map_error.mp failed)
      next => exact message _ failed
  | case2 i tail few =>
    rw [unescapeFrom]
    · exact message _
    · exact few
  | case3 i ch rest noHex noHex' ih =>
    rw [unescapeFrom]
    · exact fun failed => ih (further ['\\', ch] abnormal) (map_error.mp failed)
    · exact noHex
    · exact noHex'
  | case4 i ch rest noHex noHex' noEscape ih =>
    rw [unescapeFrom]
    · exact fun failed => ih (further [ch] abnormal) (map_error.mp failed)
    · exact noHex
    · exact noHex'
    · exact noEscape
  | case5 => simp [unescapeFrom]

end TribunusCompute.Gbnf
