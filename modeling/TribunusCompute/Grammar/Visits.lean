import TribunusCompute.Grammar.Cuts

/-!
# Where reading stops

`parse_gbnf` panics, or never ends, in one of its scanners. What it gets to before that
is set down as a relation between a text and the strings that the scanners are given.
-/
namespace TribunusCompute.Gbnf

open Failures

/-- A scanner, and the string that it is given. -/
inductive Site
  | alternation (s : List Char)
  | sequence (s : List Char)
  | literal (s : List Char)

def Site.text : Site → List Char
  | .alternation s => s
  | .sequence s => s
  | .literal s => s

def Site.StopsWith (stop : Stop) : Site → Prop
  | .alternation s => splitAlternation s = .error stop
  | .sequence s => splitSequenceTerms s = .error stop
  | .literal s => unescapeString s = .error stop

theorem Site.hangs_iff (site : Site) :
    site.StopsWith .hang ↔ ∃ s, site = .sequence s ∧ Strays s := by
  cases site with
  | alternation s =>
    have ends : splitAlternation s ≠ .error .hang := splitAlternationFrom_ne_hang .init le_rfl
    simp [StopsWith, ends]
  | sequence s => simp [StopsWith, splitSequenceTerms_hang]
  | literal s =>
    have ends : unescapeString s ≠ .error .hang := unescapeFrom_error (.inl rfl)
    simp [StopsWith, ends]

/-! ## Reading without a depth -/

def readExpression (s : List Char) : Except Stop GrammarNode := parseExpression (s.length + 1) s

def readSequence (s : List Char) : Except Stop GrammarNode := parseSequence readExpression s

def readTerm (s : List Char) : Except Stop GrammarNode := parseTerm readExpression s

theorem parseSequence_depth {depth : ℕ} {s : List Char} (enough : s.length ≤ depth) :
    parseSequence (parseExpression depth) s = readSequence s :=
  parseSequence_congr fun _ shorter => parseExpression_depth (shorter.trans_le enough)

theorem readExpression_eq {s : List Char} (some_ : trim s ≠ []) :
    readExpression s = (do
      let parts ← splitAlternation (trim s)
      if 1 < parts.length then return .alt (← parts.mapM readSequence)
      else readSequence (trim s)) := by
  have nonempty : ((trim s).isEmpty = true) = False := by simpa using some_
  have trimmed := length_trim_le s
  simp only [readExpression, parseExpression, nonempty, if_false]
  cases split_ : splitAlternation (trim s) with
  | error stop => simp only [bind, Except.bind]
  | ok parts =>
    have short := length_splitAlternationFrom_le (by simp [AltScan.init]) split_
    have mapped : parts.mapM (parseSequence (parseExpression s.length)) = parts.mapM readSequence :=
      mapM_congr fun part member => parseSequence_depth ((short part member).trans trimmed)
    simp only [bind, Except.bind, mapped, parseSequence_depth trimmed]

/-! ## Terms -/

/-- The atom of a term, without its suffix and the blanks around it. -/
def atomOf (s : List Char) : List Char :=
  let s := trim s
  trim (if s.getLast? ∈ [some '*', some '+', some '?'] then trim s.dropLast else s)

def IsLiteral (atom : List Char) : Prop :=
  atom.head? = some '"' ∧ atom.getLast? = some '"' ∧ 2 ≤ atom.length

def IsGroup (atom : List Char) : Prop := atom.head? = some '(' ∧ atom.getLast? = some ')'

/-- Not a message: the reading does not come to an end of its own. -/
def Stop.Abnormal (stop : Stop) : Prop := stop = .panic ∨ stop = .hang

theorem Stop.Abnormal.ne {stop : Stop} (abnormal : stop.Abnormal) (message : String) :
    Stop.err message ≠ stop := by
  rcases abnormal with rfl | rfl
  · exact Stop.noConfusion
  · exact Stop.noConfusion

section
variable {stop : Stop} {s : List Char} {f : List Char → Except Stop GrammarNode}

theorem classRanges_error (abnormal : stop.Abnormal) : classRanges s ≠ .error stop := by
  fun_induction classRanges s with
  | case1 => simpa using abnormal.ne _
  | case2 first last rest ordered ih => simpa [map_error] using ih
  | case3 ch rest none_ ih => simpa [map_error] using ih
  | case4 ch rest none_ none' ih => simpa [map_error] using ih
  | case5 => simp

theorem parseCharClass_error (abnormal : stop.Abnormal) : parseCharClass s ≠ .error stop := by
  intro failed
  rw [parseCharClass] at failed
  rcases bind_error.mp failed with inRanges | ⟨ranges, -, after⟩
  · exact classRanges_error abnormal inRanges
  · split at after
    next => exact abnormal.ne _ (Except.error.inj after)
    next => cases after

/-- An atom stops reading in the escapes of a string and inside a group. -/
theorem parseAtom_error (abnormal : stop.Abnormal) :
    parseAtom f s = .error stop ↔
      (IsLiteral (trim s) ∧ unescapeString (inner (trim s)) = .error stop) ∨
        (IsGroup (trim s) ∧ f (inner (trim s)) = .error stop) := by
  unfold parseAtom
  dsimp only
  generalize trim s = atom
  have message (m : String) : (Except.error (.err m) : Except Stop GrammarNode) ≠ .error stop :=
    fun same => abnormal.ne m (Except.error.inj same)
  have group_of_other {ch : Char} (head : atom.head? = some ch) (other : ch ≠ '(') :
      ¬ IsGroup atom := by
    rintro ⟨open_, -⟩
    rw [head] at open_
    exact other (Option.some.inj open_)
  -- no atom at all is a message
  split
  next none_ =>
    have nil : atom = [] := by simpa using none_
    simp [message, nil, IsLiteral, IsGroup]
  -- a string
  split
  next quoted =>
    have literal : IsLiteral atom := quoted
    simp [map_error, literal, group_of_other quoted.1]
  next notQuoted =>
  have literal : ¬ IsLiteral atom := notQuoted
  -- a class
  split
  next brackets =>
    -- a class is read character by character, and at worst refused
    simp [parseCharClass_error abnormal, literal, group_of_other brackets.1]
  -- any character
  split
  next dot => simp [dot, IsLiteral, IsGroup]
  -- a byte, which is an atom or a message
  split
  next hex =>
    have group : ¬ IsGroup atom := by
      obtain ⟨rest, rfl⟩ := List.isPrefixOf_iff_prefix.mp hex.1
      exact group_of_other rfl (by decide)
    split
    next => simp [literal, group]
    next => simp [message, literal, group]
  -- a group
  split
  next parens =>
    have group : IsGroup atom := parens
    simp [literal, group]
  next notGroup =>
  have group : ¬ IsGroup atom := notGroup
  -- the name of a rule, or a message
  split
  next => simp [literal, group]
  next => simp [message, literal, group]

theorem parseTerm_error (abnormal : stop.Abnormal) :
    parseTerm f s = .error stop ↔
      (IsLiteral (atomOf s) ∧ unescapeString (inner (atomOf s)) = .error stop) ∨
        (IsGroup (atomOf s) ∧ f (inner (atomOf s)) = .error stop) := by
  unfold parseTerm atomOf
  dsimp only
  generalize trim s = term
  split
  next none_ =>
    have nil : term = [] := by simpa using none_
    simp [abnormal.ne, nil, trim, IsLiteral, IsGroup]
  -- a suffix is taken off and the atom before it read
  split
  next star => simp [map_error, parseAtom_error abnormal, star]
  split
  next plus => simp [map_error, parseAtom_error abnormal, plus]
  split
  next opt => simp [map_error, parseAtom_error abnormal, opt]
  next noStar noPlus noOpt => simp [parseAtom_error abnormal, noStar, noPlus, noOpt]

theorem readSequence_error (abnormal : stop.Abnormal) :
    readSequence s = .error stop ↔ splitSequenceTerms s = .error stop ∨
      ∃ front term back, splitSequenceTerms s = .ok (front ++ term :: back) ∧
        (∀ earlier ∈ front, ∃ node, readTerm earlier = .ok node) ∧ readTerm term = .error stop := by
  rw [readSequence, parseSequence, bind_error]
  refine or_congr_right ⟨?_, ?_⟩
  · rintro ⟨terms, split_, failed⟩
    -- a single term is read outside of `mapM`
    rcases terms with _ | ⟨first, _ | ⟨second, more⟩⟩
    · exact absurd (Except.error.inj failed) (abnormal.ne _)
    · exact ⟨[], first, [], split_, by simp, failed⟩
    · obtain ⟨front, term, back, whole, before, failed'⟩ := mapM_error.mp (map_error.mp failed)
      exact ⟨front, term, back, whole ▸ split_, before, failed'⟩
  · rintro ⟨front, term, back, split_, before, failed⟩
    refine ⟨_, split_, ?_⟩
    have mapped : (front ++ term :: back).mapM readTerm = .error stop :=
      mapM_error.mpr ⟨front, term, back, rfl, before, failed⟩
    -- reading them all stops at the same term as reading the only one
    generalize front ++ term :: back = terms at mapped
    rcases terms with _ | ⟨first, _ | ⟨second, more⟩⟩
    · cases mapped
    · rcases bind_error.mp mapped with failed | ⟨node, -, none_⟩
      · exact failed
      · cases none_
    · exact map_error.mpr mapped

/-! ## Expressions -/

/-- A text that is not split is its own only part. -/
theorem splitAlternationFrom_single (scan : AltScan) {rest : List Char} {parts : List (List Char)}
    (ordered : scan.start ≤ scan.i) (fresh : scan.parts = [] → scan.start = 0)
    (done : splitAlternationFrom s scan rest = .ok parts) :
    parts ≠ [] ∧ (parts.length ≤ 1 → parts = [s]) := by
  induction rest generalizing scan with
  | nil =>
    rw [splitAlternationFrom] at done
    -- an open parenthesis, bracket or string is refused
    split at done
    next => cases done
    split at done
    next => cases done
    split at done
    next => cases done
    obtain ⟨last, cut, finished⟩ := bind_ok done
    cases finished
    refine ⟨by simp, fun one => ?_⟩
    -- no part was cut before the last, which therefore begins with the text
    have none_ : scan.parts = [] := by
      rw [List.length_append, List.length_singleton] at one
      exact List.length_eq_zero_iff.mp (by omega)
    rw [fresh none_, sliceFrom] at cut
    cases cut
    rw [none_, List.nil_append]
  | cons ch rest ih =>
    rw [splitAlternationFrom] at done
    obtain ⟨scan', stepped, more⟩ := bind_ok done
    by_cases bar : scan.AtBar ch
    -- behind a bar there is a part already
    · rw [AltScan.step_bar bar] at stepped
      obtain ⟨part, -, last⟩ := bind_ok stepped
      cases last
      exact ih _ le_rfl (fun none_ => by simp [AltScan.withParts] at none_) more
    · rcases AltScan.step_cases s rest.head? bar with
        ⟨message, -, refused⟩ | ⟨next, -, passed, same, one⟩
      · cases refused.symm.trans stepped
      · cases passed.symm.trans stepped
        refine ih (next.withParts scan.parts) ?_ (fun none_ => same.trans (fresh none_)) more
        change next.start ≤ next.i
        omega

theorem readExpression_error (abnormal : stop.Abnormal) :
    readExpression s = .error stop ↔ trim s ≠ [] ∧ (splitAlternation (trim s) = .error stop ∨
      ∃ front part back, splitAlternation (trim s) = .ok (front ++ part :: back) ∧
        (∀ earlier ∈ front, ∃ node, readSequence earlier = .ok node) ∧
        readSequence part = .error stop) := by
  by_cases some_ : trim s = []
  · have refused : readExpression s = .error (.err "empty expression") := by
      rw [readExpression, parseExpression]
      simp [some_]
    simp [refused, some_, abnormal.ne]
  rw [readExpression_eq some_, bind_error]
  simp only [ne_eq, some_, not_false_eq_true, true_and]
  refine or_congr_right ⟨?_, ?_⟩
  · rintro ⟨parts, split_, failed⟩
    split at failed
    next =>
      obtain ⟨front, part, back, whole, before, failed'⟩ := mapM_error.mp (map_error.mp failed)
      exact ⟨front, part, back, whole ▸ split_, before, failed'⟩
    next one =>
      -- what is read then is the text and not its one part, which are the same
      have only := (splitAlternationFrom_single .init le_rfl (fun _ => rfl) split_).2
        (Nat.le_of_not_lt one)
      exact ⟨[], trim s, [], only ▸ split_, by simp, failed⟩
  · rintro ⟨front, part, back, split_, before, failed⟩
    refine ⟨_, split_, ?_⟩
    split
    next => exact map_error.mpr (mapM_error.mpr ⟨front, part, back, rfl, before, failed⟩)
    next one =>
      have only := (splitAlternationFrom_single .init le_rfl (fun _ => rfl) split_).2
        (Nat.le_of_not_lt one)
      cases front with
      | nil =>
        cases only
        exact failed
      -- two parts are no single one
      | cons first front =>
        rw [List.length_append, List.length_cons, List.length_cons] at one
        omega

/-! ## What reading gets to -/

inductive Stage
  | expression
  | sequence
  | term

def Stage.read : Stage → List Char → Except Stop GrammarNode
  | .expression => readExpression
  | .sequence => readSequence
  | .term => readTerm

/-- Reading a string at a stage gets to a scanner: what stands before has been read. -/
inductive Visits : Stage → List Char → Site → Prop
  | alternation {s : List Char} (some_ : trim s ≠ []) :
      Visits .expression s (.alternation (trim s))
  | part {s part : List Char} {front back : List (List Char)} {site : Site} (some_ : trim s ≠ [])
      (parts : splitAlternation (trim s) = .ok (front ++ part :: back))
      (before : ∀ earlier ∈ front, ∃ node, readSequence earlier = .ok node)
      (inside : Visits .sequence part site) : Visits .expression s site
  | sequence {s : List Char} : Visits .sequence s (.sequence s)
  | term {s term : List Char} {front back : List (List Char)} {site : Site}
      (terms : splitSequenceTerms s = .ok (front ++ term :: back))
      (before : ∀ earlier ∈ front, ∃ node, readTerm earlier = .ok node)
      (inside : Visits .term term site) : Visits .sequence s site
  | literal {s : List Char} (quoted : IsLiteral (atomOf s)) :
      Visits .term s (.literal (inner (atomOf s)))
  | group {s : List Char} {site : Site} (parens : IsGroup (atomOf s))
      (inside : Visits .expression (inner (atomOf s)) site) : Visits .term s site

theorem Visits.stops {stage : Stage} {site : Site} (visits : Visits stage s site)
    (abnormal : stop.Abnormal) (stops : site.StopsWith stop) : stage.read s = .error stop := by
  induction visits with
  | alternation some_ => exact (readExpression_error abnormal).mpr ⟨some_, .inl stops⟩
  | part some_ parts before _ ih =>
    exact (readExpression_error abnormal).mpr ⟨some_, .inr ⟨_, _, _, parts, before, ih stops⟩⟩
  | sequence => exact (readSequence_error abnormal).mpr (.inl stops)
  | term terms before _ ih =>
    exact (readSequence_error abnormal).mpr (.inr ⟨_, _, _, terms, before, ih stops⟩)
  | literal quoted => exact (parseTerm_error abnormal).mpr (.inl ⟨quoted, stops⟩)
  | group parens _ ih => exact (parseTerm_error abnormal).mpr (.inr ⟨parens, ih stops⟩)

theorem length_atomOf_le (s : List Char) : (atomOf s).length ≤ s.length := by
  have whole := length_trim_le s
  have rest := length_trim_le (trim s).dropLast
  rw [List.length_dropLast] at rest
  unfold atomOf
  dsimp only
  refine (length_trim_le _).trans ?_
  split
  next => omega
  next => exact whole

theorem length_inner_lt {atom : List Char} (some_ : atom ≠ []) :
    (inner atom).length < atom.length := by
  have pos := List.length_pos_iff.mpr some_
  rw [inner, List.length_dropLast, List.length_tail]
  omega

theorem length_splitSequenceTerms_le {terms : List (List Char)}
    (done : splitSequenceTerms s = .ok terms) : ∀ term ∈ terms, term.length ≤ s.length := by
  rw [splitSequenceTerms] at done
  obtain ⟨terms', split_, more⟩ := bind_ok done
  split at more
  next => cases more
  next =>
    cases more
    exact length_splitTermsFrom_le split_

/-- Where reading stops, one of the scanners that it gets to stops. -/
theorem exists_visits (abnormal : stop.Abnormal) (stage : Stage) (s : List Char)
    (stopped : stage.read s = .error stop) : ∃ site, Visits stage s site ∧ site.StopsWith stop := by
  induction size : s.length using Nat.strong_induction_on generalizing stage s with
  | _ n ih =>
  subst size
  -- each stage rests on the next, and a group on a shorter text
  have atTerm (t : List Char) (short : t.length ≤ s.length) (stopped : readTerm t = .error stop) :
      ∃ site, Visits .term t site ∧ site.StopsWith stop := by
    rcases (parseTerm_error abnormal).mp stopped with ⟨quoted, stops⟩ | ⟨parens, inside⟩
    · exact ⟨_, .literal quoted, stops⟩
    · have some_ : atomOf t ≠ [] := by
        intro nil
        rw [IsGroup, nil] at parens
        cases parens.1
      have shorter := (length_inner_lt some_).trans_le ((length_atomOf_le t).trans short)
      obtain ⟨site, visits, stops⟩ := ih _ shorter .expression _ inside rfl
      exact ⟨site, .group parens visits, stops⟩
  have atSequence (t : List Char) (short : t.length ≤ s.length)
      (stopped : readSequence t = .error stop) :
      ∃ site, Visits .sequence t site ∧ site.StopsWith stop := by
    rcases (readSequence_error abnormal).mp stopped with stops | ⟨_, term, _, terms, before, failed⟩
    · exact ⟨_, .sequence, stops⟩
    · have shortTerm := length_splitSequenceTerms_le terms term (by simp)
      obtain ⟨site, visits, stops⟩ := atTerm term (shortTerm.trans short) failed
      exact ⟨site, .term terms before visits, stops⟩
  cases stage with
  | expression =>
    obtain ⟨some_, stops | ⟨_, part, _, parts, before, failed⟩⟩ :=
      (readExpression_error abnormal).mp stopped
    · exact ⟨_, .alternation some_, stops⟩
    · have shortPart := length_splitAlternationFrom_le (by simp [AltScan.init]) parts part (by simp)
      obtain ⟨site, visits, stops⟩ :=
        atSequence part (shortPart.trans (length_trim_le s)) failed
      exact ⟨site, .part some_ parts before visits, stops⟩
  | sequence => exact atSequence s le_rfl stopped
  | term => exact atTerm s le_rfl stopped

end

/-! ## Texts -/

structure RuleBody (line body : List Char) : Prop where
  rule : trim line ≠ [] ∧ (trim line).head? ≠ some '#'
  defined : ∃ name after, splitOnce "::=".toList (trim line) = some (name, after) ∧
    trim name ≠ [] ∧ trim after = body
  some_ : body ≠ []

/-- Reading the text gets to a scanner. -/
def Visited (text : List Char) (site : Site) : Prop :=
  ∃ front line back body, lines text = front ++ line :: back ∧
    (∃ state, front.foldlM parseLine (∅, none) = .ok state) ∧ RuleBody line body ∧
    Visits .expression body site

theorem parseLine_error {stop : Stop} (abnormal : stop.Abnormal) {state : Rules × Option String}
    {line : List Char} : parseLine state line = .error stop ↔
      ∃ body, RuleBody line body ∧ readExpression body = .error stop := by
  have message (m : String) : (Except.error (.err m) : Except Stop (Rules × Option String)) ≠
      .error stop := fun same => abnormal.ne m (Except.error.inj same)
  unfold parseLine
  dsimp only
  split
  next skipped =>
    -- a blank line or a comment defines nothing
    have none_ (body : List Char) : ¬ RuleBody line body := by
      rintro ⟨⟨some_, noComment⟩, -⟩
      rcases skipped with empty | comment
      · exact some_ (by simpa using empty)
      · exact noComment comment
    simp [none_]
  next rule =>
  rw [not_or] at rule
  have starts : trim line ≠ [] ∧ (trim line).head? ≠ some '#' := ⟨by simpa using rule.1, rule.2⟩
  split
  next none_ =>
    have noBody (body : List Char) : ¬ RuleBody line body := by
      rintro ⟨-, ⟨name, after, found, -⟩, -⟩
      rw [none_] at found
      cases found
    simp [message, noBody]
  next name after found =>
  -- the only body that the line can have
  have bodies (body : List Char) :
      RuleBody line body ↔ trim name ≠ [] ∧ trim after = body ∧ body ≠ [] := by
    constructor
    · rintro ⟨-, ⟨name', after', found', named, rfl⟩, some_⟩
      cases found.symm.trans found'
      exact ⟨named, rfl, some_⟩
    · rintro ⟨named, rfl, some_⟩
      exact ⟨starts, ⟨name, after, found, named, rfl⟩, some_⟩
  simp only [bodies]
  split
  next unnamed =>
    have nil : trim name = [] := by simpa using unnamed
    simp [message, nil]
  next named =>
  have some_ : trim name ≠ [] := by simpa using named
  split
  next empty =>
    have nil : trim after = [] := by simpa using empty
    simp [message, nil]
  next nonempty =>
    have someBody : trim after ≠ [] := by simpa using nonempty
    simp [map_error, readExpression, some_, someBody]

/-- Reading a text panics or hangs in a scanner that it gets to, and nowhere else. -/
theorem parseGbnf_error {stop : Stop} (abnormal : stop.Abnormal) {text : List Char} :
    parseGbnf text = .error stop ↔ ∃ site, Visited text site ∧ site.StopsWith stop := by
  have inLines : parseGbnf text = .error stop ↔
      (lines text).foldlM parseLine (∅, none) = .error stop := by
    rw [parseGbnf, bind_error]
    -- behind the lines there are messages only
    refine or_iff_left ?_
    rintro ⟨⟨rules, root⟩, -, failed⟩
    dsimp only at failed
    split at failed
    next => exact abnormal.ne _ (Except.error.inj failed)
    next =>
      split at failed
      next => cases failed
      next => exact abnormal.ne _ (Except.error.inj failed)
  rw [inLines, foldlM_error]
  constructor
  · rintro ⟨front, line, back, state, whole, before, failed⟩
    obtain ⟨body, rule, stopped⟩ := (parseLine_error abnormal).mp failed
    obtain ⟨site, visits, stops⟩ := exists_visits abnormal .expression body stopped
    exact ⟨site, ⟨front, line, back, body, whole, ⟨state, before⟩, rule, visits⟩, stops⟩
  · rintro ⟨site, ⟨front, line, back, body, whole, ⟨state, before⟩, rule, visits⟩, stops⟩
    have stopped : readExpression body = .error stop := visits.stops abnormal stops
    exact ⟨front, line, back, state, whole, before,
      (parseLine_error abnormal).mpr ⟨body, rule, stopped⟩⟩

/-! ## Texts that are cut at their characters -/

section
variable {s t u : List Char}

/-- The text without characters at its ends, those before it blanks. -/
def Core (s t : List Char) : Prop := ∃ lead trail, s = lead ++ (t ++ trail) ∧ Blank lead

theorem Core.trans (first : Core s t) (second : Core t u) : Core s u := by
  obtain ⟨lead, trail, rfl, blank⟩ := first
  obtain ⟨lead', trail', rfl, blank'⟩ := second
  refine ⟨lead ++ lead', trail' ++ trail, by simp, fun ch member => ?_⟩
  exact (List.mem_append.mp member).elim (blank ch) (blank' ch)

theorem trim_split (s : List Char) :
    ∃ lead trail, s = lead ++ (trim s ++ trail) ∧ Blank lead ∧ Blank trail := by
  refine ⟨s.takeWhile isWhitespace, (s.dropWhile isWhitespace).rtakeWhile isWhitespace, ?_,
    fun ch member => List.mem_takeWhile_imp member, fun ch member => List.mem_rtakeWhile_imp member⟩
  rw [trim, List.rdropWhile, List.rtakeWhile, ← List.reverse_append, List.takeWhile_append_dropWhile,
    List.reverse_reverse, List.takeWhile_append_dropWhile]

theorem core_trim (s : List Char) : Core s (trim s) := by
  obtain ⟨lead, trail, whole, blank, -⟩ := trim_split s
  exact ⟨lead, trail, whole, blank⟩

theorem core_atomOf (s : List Char) : Core s (atomOf s) := by
  have whole := core_trim s
  unfold atomOf
  dsimp only
  refine Core.trans ?_ (core_trim _)
  split
  next =>
    obtain ⟨trail, same⟩ := List.dropLast_prefix (trim s)
    exact whole.trans (Core.trans ⟨[], trail, same.symm, by simp [Blank]⟩ (core_trim _))
  next => exact whole

theorem Ascii.core (ascii : Ascii s) (core : Core s t) : Ascii t := by
  obtain ⟨lead, trail, rfl, -⟩ := core
  exact ascii.right.left

theorem Ascii.inner (ascii : Ascii s) : Ascii (inner s) :=
  fun ch member => ascii ch (List.mem_of_mem_tail (List.mem_of_mem_dropLast member))

theorem continues_of_blank (blank : Blank s) : ∀ ch ∈ s, continues ch = false := by
  intro ch member
  simp [continues, blank ch member]

/-- Blanks at the ends are no part of what is read. -/
theorem Lex.Reads.trim {n : ℕ} (reads : (Lex.plain (.depth n)).Reads s) :
    ∃ n, (Lex.plain (.depth n)).Reads (trim s) := by
  obtain ⟨lead, trail, whole, before, after⟩ := trim_split s
  obtain ⟨last, read, ends⟩ := reads
  rw [whole] at read
  obtain ⟨lex, readLead, read⟩ := Lex.foldlM_append.mp read
  obtain ⟨lex', readCore, readTrail⟩ := Lex.foldlM_append.mp read
  obtain ⟨m, rfl⟩ := Lex.foldlM_apart (continues_of_blank before) readLead
  refine ⟨m, lex', readCore, ?_⟩
  cases trail with
  | nil =>
    cases readTrail
    exact ends
  | cons ch trail =>
    obtain ⟨_, step, -⟩ := Lex.foldlM_cons.mp readTrail
    exact Lex.not_due (continues_of_blank after ch List.mem_cons_self) step

/-- Expressions and the texts of terms, which are read from where they begin. -/
def Stage.Clean : Stage → List Char → Prop
  | .expression, s => Ascii s ∧ ∃ n, (Lex.plain (.depth n)).Reads s
  | .sequence, s => ClosedPart s
  | .term, s => Ascii s ∧
    (IsGroup (atomOf s) → ∃ n, (Lex.plain (.depth n)).Reads (inner (atomOf s)))

theorem IsGroup.wrap (group : IsGroup s) : s = '(' :: (inner s ++ [')']) := by
  obtain ⟨head, last⟩ := group
  cases s with
  | nil => cases head
  | cons first s =>
    cases head
    cases s using List.reverseRecOn with
    | nil => cases last
    | append_singleton s final =>
      rw [← List.cons_append, List.getLast?_concat] at last
      cases last
      rw [inner_wrap]

/-- What is inside a group is read like any other expression. -/
theorem clean_term {term rest : List Char} {lex : Lex} (ascii : Ascii term)
    (loose : lex.Loose (term ++ rest)) (closes : lex.Closes (term ++ rest)) :
    Stage.term.Clean (Gbnf.trim term) := by
  have core := (core_trim term).trans (core_atomOf (Gbnf.trim term))
  refine ⟨ascii.core (core_trim term), fun group => ?_⟩
  obtain ⟨lead, trail, whole, blank⟩ := core
  rw [whole, List.append_assoc] at loose closes
  obtain ⟨lex, loose, closes⟩ := loose.skip closes (continues_of_blank blank)
  rw [group.wrap] at loose closes
  simp only [List.cons_append, List.append_assoc] at loose closes
  obtain ⟨n, rfl⟩ := loose.plain (by decide)
  obtain ⟨lex', step, last, read, -⟩ := closes.cons
  have same : lex' = .plain (.depth n) := by grind [Lex.step, Lex.stepPlain, Spot.next]
  subst same
  -- the parenthesis behind it is no digit of an escape
  obtain ⟨lex, readInner, readRest⟩ := Lex.foldlM_append.mp read
  obtain ⟨_, closing, -⟩ := Lex.foldlM_cons.mp readRest
  exact ⟨n, lex, readInner, Lex.not_due (by decide) closing⟩

theorem splitTermsFrom_yields {rest : List Char} {i : ℕ} {lex : Lex} (placed : Placed s i rest)
    (loose : lex.Loose rest) (closes : lex.Closes rest) :
    Yields (Stage.term.Clean) (splitTermsFrom s i rest) := by
  induction size : rest.length using Nat.strong_induction_on generalizing i rest lex with
  | _ n ih =>
  subst size
  rcases blank_or_dark rest with blank | ⟨gap, tail, rfl, blank, dark⟩
  · simp [splitTermsFrom_blank blank, Yields]
  obtain ⟨lex, loose, closes⟩ := loose.skip closes (continues_of_blank blank)
  obtain ⟨term, more, rfl, size, lex', loose', closes'⟩ := endsAt_wholeExtent loose closes
  have placed' := placed.skip gap
  rw [splitTermsFrom_dark blank dark, ← size, placed'.slice]
  simp only [bind, Except.bind, List.drop_left]
  split
  next => simp [Yields]
  next moved =>
    have later := ih more.length (by simp; omega) (placed'.skip term) loose' closes' rfl
    have here : Stage.term.Clean (Gbnf.trim term) := by
      refine clean_term ?_ loose closes
      obtain ⟨pre, rfl, -, ascii⟩ := placed'
      exact ascii.right.left
    cases split_ : splitTermsFrom s (i + gap.length + term.length) more with
    | error stop =>
      rw [split_] at later
      exact later
    | ok terms =>
      rw [split_] at later
      change Yields _ (Except.ok (if (Gbnf.trim term).isEmpty then terms else Gbnf.trim term :: terms))
      split
      next => exact later
      next => exact List.forall_mem_cons.mpr ⟨here, later⟩

theorem ClosedPart.yields (part : ClosedPart s) : Yields Stage.term.Clean (splitTermsFrom s 0 s) := by
  obtain ⟨ascii, n, closes⟩ := part
  exact splitTermsFrom_yields ⟨[], rfl, rfl, ascii⟩ (Lex.loose_plain n s) closes

theorem Stage.Clean.yields (clean : Stage.expression.Clean s) :
    Yields ClosedPart (splitAlternation (Gbnf.trim s)) := by
  obtain ⟨ascii, n, reads⟩ := clean
  obtain ⟨m, reads'⟩ := reads.trim
  exact @splitAlternationFrom_yields _ [] [] _ .init m _ rfl (ascii.core (core_trim s)) rfl reads'
    ⟨rfl, rfl, by simp, by simp⟩ rfl rfl (by simp [AltScan.init])

/-- No scanner that such a text is given to panics. -/
theorem Visits.clean {stage : Stage} {site : Site} (visits : Visits stage s site)
    (clean : stage.Clean s) : ¬ site.StopsWith .panic := by
  induction visits with
  | alternation =>
    intro stops
    have yields := clean.yields
    rw [show splitAlternation _ = _ from stops] at yields
    exact yields rfl
  | part _ parts _ _ ih =>
    have yields := clean.yields
    rw [parts] at yields
    exact ih (yields _ (by simp))
  | sequence =>
    intro stops
    have yields := ClosedPart.yields clean
    rw [(splitSequenceTerms_error (.inl rfl)).mp stops] at yields
    exact yields rfl
  | term terms _ _ ih =>
    have yields := ClosedPart.yields clean
    rw [splitSequenceTerms] at terms
    obtain ⟨found, split_, last⟩ := bind_ok terms
    rw [split_] at yields
    split at last
    next => cases last
    next =>
      cases last
      exact ih (yields _ (by simp))
  | @literal s quoted =>
    exact unescapeFrom_error (.inr ⟨rfl, [], rfl, rfl, (clean.1.core (core_atomOf s)).inner⟩)
  | @group s site parens _ ih =>
    exact ih ⟨(clean.1.core (core_atomOf s)).inner, clean.2 parens⟩

end

/-- The reading of a text ends when no sequence that it gets to has a `|`, `)` or `]` in the
place of a term. -/
theorem parseGbnf_ends_iff (text : List Char) :
    (parseGbnf text ≠ .error .hang ↔ ∀ s, Visited text (.sequence s) → ¬ Strays s) ∧
      ∀ s, splitSequenceTerms s ≠ .error .hang ↔ ¬ Strays s := by
  refine ⟨?_, fun s => not_congr splitSequenceTerms_hang⟩
  rw [ne_eq, parseGbnf_error (.inr rfl)]
  simp only [Site.hangs_iff]
  constructor
  · intro ends s visited strays
    exact ends ⟨_, visited, s, rfl, strays⟩
  · rintro none_ ⟨_, visited, s, rfl, strays⟩
    exact none_ s visited strays

theorem visited_line {line body : List Char} (only : lines line = [line])
    (rule : RuleBody line body) (trimmed : trim body = body)
    (whole : splitAlternation body = .ok [body]) :
    Visited line (.sequence body) := by
  have some_ : trim body ≠ [] := trimmed.symm ▸ rule.some_
  have parts : splitAlternation (trim body) = .ok ([] ++ body :: []) := by rw [trimmed, whole]; rfl
  exact ⟨[], line, [], body, only, ⟨_, rfl⟩, rule, .part some_ parts (by simp) .sequence⟩

/-- The parentheses in the classes keep the `|` from being split at, and the scan of the terms
does not get past it. -/
theorem parentheses_in_classes_hang :
    splitAlternation "[(] | [)]".toList = .ok ["[(] | [)]".toList] ∧
      parseGbnf "root ::= [(] | [)]".toList = .error .hang := by
  have whole : splitAlternation "[(] | [)]".toList = .ok ["[(] | [)]".toList] := by rfl
  refine ⟨whole, (parseGbnf_error (.inr rfl)).mpr ⟨.sequence "[(] | [)]".toList, ?_, ?_⟩⟩
  -- the line is a rule, and its body the sequence
  · refine visited_line (by rfl) ⟨by decide, ⟨"root ".toList, " [(] | [)]".toList, ?_⟩, ?_⟩ ?_ whole
    · decide
    · decide
    · decide
  · refine (Site.hangs_iff _).mpr ⟨_, rfl, 4, "| [)]".toList, ?_, ?_, by decide⟩
    · -- the first class is a term, and behind the blank stands the `|`
      have space : Blank [' '] := by simp [Blank, isWhitespace]
      have clean : CleanTerm "[(] | [)]".toList 0 "[(] | [)]".toList :=
        ⟨isCharBoundary_zero _, by decide⟩
      have bar : Dark "| [)]".toList := by decide
      exact @ComesTo.later _ 0 4 [] _ _ blank_nil (by decide) clean (by decide) (.here space bar)
    · decide

end TribunusCompute.Gbnf
