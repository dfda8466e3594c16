import Mathlib.Data.List.GetD
import TribunusCompute.Grammar.Leaves
import TribunusCompute.Grammar.WellFormed

/-!
# Copies with unmoved targets

Repetitions, options and alternations copy fragments behind two states of their own
and leave the targets as they were. The edges of a copied start then lead to state 2,
which is the first copied start.
-/
namespace TribunusCompute.Gbnf

/-- State `q` only reads characters, and always goes to state 2. -/
def Opening (nfa : List NFAState) (q : ℕ) : Prop :=
  ∀ edge ∈ (stateAt nfa q).transitions, ∃ ch, edge = (some ch, 2)

/-- The fragment begins by reading a character. -/
structure NFAGraph.Reads (nfa : NFAGraph) : Prop where
  wf : nfa.WellFormed
  opening : Opening nfa.states 0
  notYet : (stateAt nfa.states 0).isAccept = false
  later : 0 < nfa.accept

/-- The start leads by epsilon to the exit and to copied starts, whose edges were not moved: they
lead to state 2, the first copied start, which then never gets any further. -/
structure Unmoved (nfa : List NFAState) : Prop where
  long : 2 ≤ nfa.length
  loop : Opening nfa 2
  still : (stateAt nfa 2).isAccept = false
  exit : (stateAt nfa 1).transitions = []
  entry : ∀ edge ∈ (stateAt nfa 0).transitions, edge.1 = none ∧ edge.2 < nfa.length ∧
    (edge.2 = 1 ∨ 2 ≤ edge.2 ∧ Opening nfa edge.2)

theorem stateAt_append_left {nfa more : List NFAState} {i : ℕ} (inside : i < nfa.length) :
    stateAt (nfa ++ more) i = stateAt nfa i := by
  rw [stateAt, stateAt, List.getD_append _ _ _ _ inside]

theorem stateAt_append_right (nfa more : List NFAState) (i : ℕ) :
    stateAt (nfa ++ more) (nfa.length + i) = stateAt more i := by
  rw [stateAt, stateAt, List.getD_append_right _ _ _ _ (Nat.le_add_right _ _),
    Nat.add_sub_cancel_left]

theorem stateAt_modify_ne {nfa : List NFAState} {i j : ℕ} (f : NFAState → NFAState) (apart : i ≠ j) :
    stateAt (nfa.modify i f) j = stateAt nfa j := by
  simp only [stateAt, List.getD_eq_getElem?_getD, List.getElem?_modify, if_neg apart]
  cases nfa[j]? <;> rfl

theorem stateAt_modify_self {nfa : List NFAState} {i : ℕ} (f : NFAState → NFAState)
    (inside : i < nfa.length) : stateAt (nfa.modify i f) i = f (stateAt nfa i) := by
  simp [stateAt, List.getD_eq_getElem?_getD, inside]

section
variable {nfa : List NFAState}

theorem Unmoved.not_acceptsFrom (unmoved : Unmoved nfa) (ch : Char) (chars : List Char) :
    ¬ AcceptsFrom nfa 0 (ch :: chars) := by
  have noEpsilon {q : ℕ} (opening : Opening nfa q) (t : ℕ) :
      (none, t) ∉ (stateAt nfa q).transitions := by
    intro edge
    obtain ⟨_, same⟩ := opening _ edge
    cases same
  have noExit (edge : Option Char × ℕ) : edge ∉ (stateAt nfa 1).transitions := by
    simp [unmoved.exit]
  -- before any character: the entry, the exit and the states that open a character
  have first : ∀ i ∈ (toεNFA nfa 0).εClosure {0}, i = 0 ∨ i = 1 ∨ Opening nfa i := by
    intro i closure
    induction closure with
    | base i member => exact .inl member
    | step i j edge _ ih =>
      rcases ih with rfl | rfl | opening
      · rcases (unmoved.entry _ edge).2.2 with exit | ⟨-, opening⟩
        · exact .inr (.inl exit)
        · exact .inr (.inr opening)
      · exact absurd edge (noExit _)
      · exact absurd edge (noEpsilon opening j)
  have step (S : Set ℕ) (opening : ∀ i ∈ S, i = 0 ∨ i = 1 ∨ Opening nfa i) (ch : Char) :
      ∀ i ∈ (toεNFA nfa 0).stepSet S ch, i = 2 := by
    intro i member
    obtain ⟨j, inS, closure⟩ := εNFA.mem_stepSet_iff.mp member
    obtain ⟨t, edge, closure⟩ := (εNFA.mem_εClosure_iff_exists _).mp closure
    have target : t = 2 := by
      rcases opening j inS with rfl | rfl | opening
      · cases (unmoved.entry _ edge).1
      · exact absurd edge (noExit _)
      · obtain ⟨_, same⟩ := opening _ edge
        cases same
        rfl
    rw [target, εClosure_singleton (noEpsilon unmoved.loop)] at closure
    exact closure
  -- from the loop the only way is back to it, and it does not accept
  have stuck (S : Set ℕ) (atTwo : ∀ i ∈ S, i = 2) :
      ∀ i ∈ chars.foldl (toεNFA nfa 0).stepSet S, i = 2 := by
    induction chars generalizing S with
    | nil => exact atTwo
    | cons ch chars ih =>
      exact ih _ (step S (fun i member => .inr (.inr (atTwo i member ▸ unmoved.loop))) ch)
  rintro ⟨a, accept, reached⟩
  obtain rfl : a = 2 := stuck _ (step _ first ch) a reached
  exact absurd (unmoved.still.symm.trans accept) Bool.false_ne_true

theorem Unmoved.append (unmoved : Unmoved nfa) {fragment : NFAGraph} (reads : fragment.Reads) :
    Unmoved (nfa ++ fragment.states) ∧ Opening (nfa ++ fragment.states) nfa.length := by
  have long := unmoved.long
  have copied : stateAt (nfa ++ fragment.states) nfa.length = stateAt fragment.states 0 :=
    stateAt_append_right nfa fragment.states 0
  have opening : Opening (nfa ++ fragment.states) nfa.length := by
    unfold Opening
    rw [copied]
    exact reads.opening
  have two : Opening (nfa ++ fragment.states) 2 ∧
      (stateAt (nfa ++ fragment.states) 2).isAccept = false := by
    rcases Nat.lt_or_ge 2 nfa.length with inside | outside
    · unfold Opening
      rw [stateAt_append_left inside]
      exact ⟨unmoved.loop, unmoved.still⟩
    · -- The first copy: its start is state 2.
      have here : nfa.length = 2 := by omega
      rw [← here, copied]
      exact ⟨opening, reads.notYet⟩
  refine ⟨⟨?_, two.1, two.2, ?_, ?_⟩, opening⟩
  · rw [List.length_append]
    omega
  · rw [stateAt_append_left (by omega)]
    exact unmoved.exit
  · rw [stateAt_append_left (by omega)]
    intro edge member
    obtain ⟨epsilon, inside, target⟩ := unmoved.entry edge member
    refine ⟨epsilon, ?_, ?_⟩
    · rw [List.length_append]
      omega
    · unfold Opening
      rw [stateAt_append_left inside]
      exact target

/-- One more epsilon from the start, to the exit or to a copied start. -/
theorem Unmoved.addEntry {graph : NFAGraph} (unmoved : Unmoved graph.states) {target : ℕ}
    (inside : target < graph.states.length)
    (entry : target = 1 ∨ 2 ≤ target ∧ Opening graph.states target) :
    Unmoved (graph.addEpsilon 0 target).states := by
  have long := unmoved.long
  have other {i : ℕ} (apart : i ≠ 0) :
      stateAt (graph.addEpsilon 0 target).states i = stateAt graph.states i :=
    stateAt_modify_ne _ apart.symm
  have openingOf {i : ℕ} (apart : i ≠ 0) (opening : Opening graph.states i) :
      Opening (graph.addEpsilon 0 target).states i := by
    unfold Opening
    rw [other apart]
    exact opening
  have length : (graph.addEpsilon 0 target).states.length = graph.states.length :=
    length_addTransition ..
  have zero : (stateAt (graph.addEpsilon 0 target).states 0).transitions =
      (stateAt graph.states 0).transitions ++ [(none, target)] :=
    congrArg NFAState.transitions (stateAt_modify_self _ (by omega))
  refine ⟨length ▸ long, openingOf (by decide) unmoved.loop, ?_, ?_, ?_⟩
  · rw [other (by decide)]
    exact unmoved.still
  · rw [other (by decide)]
    exact unmoved.exit
  · rw [zero, length]
    intro edge member
    rcases List.mem_append.mp member with old | new
    · obtain ⟨epsilon, below, exit | ⟨above, opening⟩⟩ := unmoved.entry edge old
      · exact ⟨epsilon, below, .inl exit⟩
      · exact ⟨epsilon, below, .inr ⟨above, openingOf (by omega) opening⟩⟩
    · rw [List.mem_singleton.mp new]
      refine ⟨rfl, inside, ?_⟩
      rcases entry with exit | ⟨above, opening⟩
      · exact .inl exit
      · exact .inr ⟨above, openingOf (by omega) opening⟩

theorem Unmoved.modify (unmoved : Unmoved nfa) {i : ℕ} (f : NFAState → NFAState) (late : 2 < i)
    (noEntry : ∀ edge ∈ (stateAt nfa 0).transitions, edge.2 ≠ i) : Unmoved (nfa.modify i f) := by
  have other {j : ℕ} (apart : i ≠ j) : stateAt (nfa.modify i f) j = stateAt nfa j :=
    stateAt_modify_ne f apart
  refine ⟨(List.length_modify ..).symm ▸ unmoved.long, ?_, ?_, ?_, ?_⟩
  · unfold Opening
    rw [other (by omega)]
    exact unmoved.loop
  · rw [other (by omega)]
    exact unmoved.still
  · rw [other (by omega)]
    exact unmoved.exit
  · rw [other (by omega), List.length_modify]
    intro edge member
    unfold Opening
    rw [other (noEntry edge member).symm]
    exact unmoved.entry edge member

end

theorem unmoved_new : Unmoved NFAGraph.new.states where
  long := le_rfl
  loop := by simp [Opening, stateAt, NFAGraph.new]
  still := rfl
  exit := rfl
  entry := by simp [stateAt, NFAGraph.new]

/-- A graph whose last copy starts at state `n`. -/
structure Copied (graph : NFAGraph) (n : ℕ) : Prop where
  unmoved : Unmoved graph.states
  opening : Opening graph.states n
  inside : n < graph.states.length
  two : 2 ≤ n
  entries : ∀ edge ∈ (stateAt graph.states 0).transitions, edge.2 ≤ n

section
variable {graph fragment : NFAGraph} {n : ℕ}

theorem copied_append (unmoved : Unmoved graph.states) (reads : fragment.Reads) :
    Copied (appendStates graph fragment) graph.states.length := by
  have long := unmoved.long
  obtain ⟨unmoved', opening⟩ := unmoved.append reads
  refine ⟨unmoved', opening, ?_, long, fun edge member => ?_⟩
  · rw [length_appendStates]
    have := reads.wf.accept
    omega
  · rw [appendStates, stateAt_append_left (by omega)] at member
    exact (unmoved.entry edge member).2.1.le

theorem Copied.addEntry (copied : Copied graph n) {target : ℕ} (entry : target = 1 ∨ target = n) :
    Copied (graph.addEpsilon 0 target) n := by
  have two := copied.two
  have inside := copied.inside
  have length : (graph.addEpsilon 0 target).states.length = graph.states.length :=
    length_addTransition ..
  refine ⟨copied.unmoved.addEntry (by omega) ?_, ?_, length ▸ inside, two, fun edge member => ?_⟩
  · rcases entry with exit | rfl
    · exact .inl exit
    · exact .inr ⟨two, copied.opening⟩
  · unfold Opening
    rw [NFAGraph.addEpsilon, NFAGraph.addTransition, stateAt_modify_ne _ (by omega)]
    exact copied.opening
  · rw [NFAGraph.addEpsilon, NFAGraph.addTransition, stateAt_modify_self _ (by omega)] at member
    rcases List.mem_append.mp member with old | new
    · exact copied.entries edge old
    · rw [List.mem_singleton.mp new]
      rcases entry with rfl | rfl
      · omega
      · exact le_rfl

theorem Copied.modify (copied : Copied graph n) {i : ℕ} (behind : n < i)
    (f : NFAState → NFAState) : Copied { graph with states := graph.states.modify i f } n := by
  have two := copied.two
  refine ⟨copied.unmoved.modify f (by omega) fun edge member => ?_, ?_, ?_, two, ?_⟩
  · have := copied.entries edge member
    omega
  · unfold Opening
    rw [stateAt_modify_ne _ (by omega)]
    exact copied.opening
  · rw [List.length_modify]
    exact copied.inside
  · rw [stateAt_modify_ne _ (by omega)]
    exact copied.entries

theorem unmoved_starFragment (reads : fragment.Reads) : Unmoved (starFragment fragment).states := by
  have behind : 2 < 2 + fragment.accept := Nat.lt_add_of_pos_right reads.later
  have start : 2 + fragment.start = 2 := by rw [reads.wf.start]
  have entries := ((copied_append unmoved_new reads).addEntry (.inl rfl)).addEntry (.inr start)
  exact (((entries.modify behind _).modify behind _).modify behind _).unmoved

theorem unmoved_plusFragment (reads : fragment.Reads) : Unmoved (plusFragment fragment).states := by
  have behind : 2 < 2 + fragment.accept := Nat.lt_add_of_pos_right reads.later
  have start : 2 + fragment.start = 2 := by rw [reads.wf.start]
  have entries := (copied_append unmoved_new reads).addEntry (.inr start)
  exact (((entries.modify behind _).modify behind _).modify behind _).unmoved

theorem unmoved_optFragment (reads : fragment.Reads) : Unmoved (optFragment fragment).states := by
  have behind : 2 < 2 + fragment.accept := Nat.lt_add_of_pos_right reads.later
  have start : 2 + fragment.start = 2 := by rw [reads.wf.start]
  have exit : Unmoved (NFAGraph.new.addEpsilon 0 1).states :=
    Unmoved.addEntry unmoved_new (by decide) (.inl rfl)
  have entries := (copied_append exit reads).addEntry (.inr start)
  exact ((entries.modify behind _).modify behind _).unmoved

theorem unmoved_joinAlt (unmoved : Unmoved graph.states) (accept : graph.accept = 1)
    (reads : fragment.Reads) :
    Unmoved (joinAlt graph fragment).states ∧ (joinAlt graph fragment).accept = 1 := by
  have behind : graph.states.length < graph.states.length + fragment.accept :=
    Nat.lt_add_of_pos_right reads.later
  have start : graph.states.length + fragment.start = graph.states.length := by
    rw [reads.wf.start, Nat.add_zero]
  have entries := (copied_append unmoved reads).addEntry (.inr start)
  exact ⟨((entries.modify behind _).modify behind _).unmoved, accept⟩

end

/-! ## Fragments that begin by reading a character -/

theorem reads_compileLit {s : String} (some_ : s ≠ "") : (compileLit s).Reads := by
  obtain ⟨ch, rest, letters⟩ := exists_letters some_
  obtain ⟨states, accept⟩ := compileLit_eq letters
  refine ⟨wellFormed_compileLit s, fun edge member => ?_, ?_, ?_⟩
  · rw [states] at member
    exact ⟨ch, List.mem_singleton.mp member⟩
  · rw [states]
    rfl
  · rw [accept]
    omega

theorem reads_charFragment (chars : List Char) : (charFragment chars).Reads where
  wf := wellFormed_charFragment chars
  opening edge member := by
    rw [charFragment_states] at member
    obtain ⟨ch, -, rfl⟩ := List.mem_map.mp member
    exact ⟨ch, rfl⟩
  notYet := by rw [charFragment_states]; rfl
  later := by simp [charFragment, NFAGraph.addState, NFAGraph.new, NFAGraph.setAccept]

/-- A sequence begins as its first element does. -/
theorem NFAGraph.Reads.joinSeq {nfa next : NFAGraph} (reads : nfa.Reads) (wf : next.WellFormed) :
    (Gbnf.joinSeq nfa next).Reads := by
  have some_ : 0 < nfa.states.length := Nat.zero_lt_of_lt reads.wf.accept
  have apart : nfa.accept ≠ 0 := reads.later.ne'
  have first : stateAt (Gbnf.joinSeq nfa next).states 0 = stateAt nfa.states 0 := by
    unfold Gbnf.joinSeq NFAGraph.addEpsilon NFAGraph.addTransition NFAGraph.setAccept
    simp only
    rw [stateAt_modify_ne _ apart, stateAt_modify_ne _ apart,
      stateAt_append_left (by rwa [List.length_modify]), stateAt_modify_ne _ apart]
  refine ⟨reads.wf.joinSeq wf, ?_, ?_, ?_⟩
  · unfold Opening
    rw [first]
    exact reads.opening
  · rw [first]
    exact reads.notYet
  · unfold Gbnf.joinSeq NFAGraph.addEpsilon NFAGraph.addTransition
    simp only [List.length_modify]
    omega

end TribunusCompute.Gbnf
