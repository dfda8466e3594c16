import TribunusCompute.Grammar.Compile
import TribunusCompute.Library.Failures

/-!
# Compiled fragments are in range

Whatever compiles starts at its first state, and no transition leaves its states, so
that the automaton construction never reads out of range.
-/
namespace TribunusCompute.Gbnf

open Failures

/-- A fragment starts at its first state and does not leave its states. -/
structure NFAGraph.WellFormed (nfa : NFAGraph) : Prop where
  inRange : InRange nfa.states
  start : nfa.start = 0
  accept : nfa.accept < nfa.states.length

section
variable {nfa next : NFAGraph}

theorem inRange_modify {states : List NFAState} (i : ℕ) (f : NFAState → NFAState)
    (inRange : InRange states)
    (added : ∀ state, ∀ edge ∈ (f state).transitions,
      edge ∈ state.transitions ∨ edge.2 < states.length) : InRange (states.modify i f) := by
  intro state member edge there
  rw [List.length_modify]
  obtain ⟨j, at_j⟩ := List.mem_iff_getElem?.mp member
  rw [List.getElem?_modify] at at_j
  obtain ⟨old, before, rfl⟩ := Option.map_eq_some_iff.mp at_j
  have inside := inRange old (List.mem_of_getElem? before)
  split at there
  next =>
    rcases added old edge there with kept | new
    · exact inside edge kept
    · exact new
  next => exact inside edge there

theorem NFAGraph.WellFormed.addTransition (wf : nfa.WellFormed) (source : ℕ) (ch : Option Char)
    (target : ℕ) (inside : target < nfa.states.length) :
    (nfa.addTransition source ch target).WellFormed where
  inRange := inRange_modify source _ wf.inRange fun state edge member => by
    rcases List.mem_append.mp member with old | new
    · exact .inl old
    · rw [List.mem_singleton.mp new]
      exact .inr inside
  start := wf.start
  accept := (List.length_modify ..).symm ▸ wf.accept

theorem NFAGraph.WellFormed.setAccept (wf : nfa.WellFormed) (i : ℕ) (isAccept : Bool) :
    (nfa.setAccept i isAccept).WellFormed where
  inRange := inRange_modify i _ wf.inRange fun _ _ member => .inl member
  start := wf.start
  accept := (List.length_modify ..).symm ▸ wf.accept

@[simp] theorem length_addTransition (source : ℕ) (ch : Option Char) (target : ℕ) :
    (nfa.addTransition source ch target).states.length = nfa.states.length :=
  List.length_modify ..

@[simp] theorem length_setAccept (i : ℕ) (isAccept : Bool) :
    (nfa.setAccept i isAccept).states.length = nfa.states.length :=
  List.length_modify ..

theorem InRange.append {states more : List NFAState} (inRange : InRange states)
    (inside : ∀ state ∈ more, ∀ edge ∈ state.transitions,
      edge.2 < states.length + more.length) : InRange (states ++ more) := by
  intro state member edge there
  rw [List.length_append]
  rcases List.mem_append.mp member with old | new
  · exact (inRange state old edge there).trans_le (Nat.le_add_right _ _)
  · exact inside state new edge there

theorem wellFormed_new : NFAGraph.new.WellFormed where
  inRange := by simp [InRange, NFAGraph.new]
  start := rfl
  accept := by decide

theorem NFAGraph.WellFormed.append (wf : nfa.WellFormed) (more : List NFAState)
    (inside : ∀ state ∈ more, ∀ edge ∈ state.transitions,
      edge.2 < nfa.states.length + more.length) :
    NFAGraph.WellFormed { nfa with states := nfa.states ++ more } where
  inRange := wf.inRange.append inside
  start := wf.start
  accept := by
    rw [List.length_append]
    exact wf.accept.trans_le (Nat.le_add_right _ _)

/-- Unmoved targets of a copy are in range, if not where they should be. -/
theorem NFAGraph.WellFormed.appendStates (wf : nfa.WellFormed) (wf' : next.WellFormed) :
    (Gbnf.appendStates nfa next).WellFormed :=
  wf.append _ fun state member edge there =>
    (wf'.inRange state member edge there).trans_le (Nat.le_add_left _ _)

theorem NFAGraph.WellFormed.withAccept (wf : nfa.WellFormed) (accept : ℕ)
    (inside : accept < nfa.states.length) : NFAGraph.WellFormed { nfa with accept := accept } :=
  ⟨wf.inRange, wf.start, inside⟩

@[simp] theorem length_appendStates :
    (appendStates nfa next).states.length = nfa.states.length + next.states.length :=
  List.length_append

theorem NFAGraph.WellFormed.joinSeq (wf : nfa.WellFormed) (wf' : next.WellFormed) :
    (Gbnf.joinSeq nfa next).WellFormed := by
  have pos := wf.accept
  have pos' := wf'.accept
  have first := wf.addTransition nfa.accept none
    (next.start + (nfa.states.length - max next.states.length 1)) (by
      rw [wf'.start]
      omega)
  have copied := first.append (shiftStates nfa.states.length next.states) (by
    intro state member edge there
    obtain ⟨old, memberOld, rfl⟩ := List.mem_map.mp member
    obtain ⟨edge', there', rfl⟩ := List.mem_map.mp there
    have := wf'.inRange old memberOld edge' there'
    simp only [length_addTransition, shiftStates, List.length_map]
    omega)
  have joined := (copied.setAccept nfa.accept false).addTransition nfa.accept none
    nfa.states.length (by
      simp only [length_setAccept, List.length_append, length_addTransition, shiftStates,
        List.length_map]
      omega)
  have done := joined.withAccept (nfa.states.length + (next.accept - next.start)) (by
    simp only [length_setAccept, List.length_append, length_addTransition, shiftStates,
      List.length_map, wf'.start]
    omega)
  have offset : (nfa.addEpsilon nfa.accept
      (next.start + (nfa.states.length - max next.states.length 1))).states.length =
        nfa.states.length := length_addTransition ..
  unfold Gbnf.joinSeq
  simp only [offset]
  exact done

theorem NFAGraph.WellFormed.joinAlt (wf : nfa.WellFormed) (wf' : next.WellFormed) :
    (Gbnf.joinAlt nfa next).WellFormed := by
  have pos := wf.accept
  have pos' := wf'.accept
  refine (((wf.appendStates wf').addTransition _ _ _ ?_).setAccept _ _).addTransition _ _ _ ?_
  · rw [length_appendStates, wf'.start]
    omega
  · rw [length_setAccept, length_addTransition, length_appendStates]
    omega

theorem NFAGraph.WellFormed.starFragment (wf : next.WellFormed) :
    (Gbnf.starFragment next).WellFormed := by
  have pos := wf.accept
  have start := wf.start
  have two : NFAGraph.new.states.length = 2 := rfl
  refine (((((wellFormed_new.appendStates wf).addTransition 0 none 1 ?_).addTransition 0 none
    (2 + next.start) ?_).setAccept (2 + next.accept) false).addTransition (2 + next.accept) none
    (2 + next.start) ?_).addTransition (2 + next.accept) none 1 ?_ <;>
  simp only [length_addTransition, length_setAccept, length_appendStates, two] <;> omega

theorem NFAGraph.WellFormed.plusFragment (wf : next.WellFormed) :
    (Gbnf.plusFragment next).WellFormed := by
  have pos := wf.accept
  have start := wf.start
  have two : NFAGraph.new.states.length = 2 := rfl
  refine ((((wellFormed_new.appendStates wf).addTransition 0 none (2 + next.start) ?_).setAccept
    (2 + next.accept) false).addTransition (2 + next.accept) none (2 + next.start)
    ?_).addTransition (2 + next.accept) none 1 ?_ <;>
  simp only [length_addTransition, length_setAccept, length_appendStates, two] <;> omega

theorem NFAGraph.WellFormed.optFragment (wf : next.WellFormed) :
    (Gbnf.optFragment next).WellFormed := by
  have pos := wf.accept
  have start := wf.start
  have two : NFAGraph.new.states.length = 2 := rfl
  refine ((((wellFormed_new.addTransition 0 none 1 ?_).appendStates wf).addTransition 0 none
    (2 + next.start) ?_).setAccept (2 + next.accept) false).addTransition (2 + next.accept) none 1
    ?_ <;>
  simp only [length_addTransition, length_setAccept, length_appendStates, two] <;> omega

theorem wellFormed_emptyFragment : emptyFragment.WellFormed :=
  wellFormed_new.addTransition 0 none 1 (by decide)

theorem NFAGraph.WellFormed.addState (wf : nfa.WellFormed) (isAccept : Bool) :
    (nfa.addState isAccept).2.WellFormed :=
  wf.append [⟨[], isAccept⟩] (by simp)

theorem wellFormed_charFragment (chars : List Char) : (charFragment chars).WellFormed := by
  have general (nfa : NFAGraph) (wf : nfa.WellFormed) (inside : 2 < nfa.states.length) :
      NFAGraph.WellFormed
        { chars.foldl (fun nfa ch => nfa.addChar nfa.start ch 2) nfa with accept := 2 } := by
    induction chars generalizing nfa with
    | nil => exact wf.withAccept 2 inside
    | cons ch chars ih =>
      exact ih _ (wf.addTransition nfa.start (some ch) 2 inside)
        (inside.trans_eq (length_addTransition ..).symm)
  exact general _ ((wellFormed_new.setAccept 0 false).addState true) (by decide)

theorem wellFormed_addChain (chars : List Char) (wf : nfa.WellFormed) (prev : ℕ)
    (inside : prev < nfa.states.length) :
    (addChain nfa prev chars).1.WellFormed ∧
      (addChain nfa prev chars).2 < (addChain nfa prev chars).1.states.length := by
  induction chars generalizing nfa prev with
  | nil => exact ⟨wf, inside⟩
  | cons ch chars ih =>
    have length : (nfa.addState false).2.states.length = nfa.states.length + 1 :=
      List.length_append
    have last : nfa.states.length < (nfa.addState false).2.states.length := by
      rw [length]
      exact Nat.lt_succ_self _
    exact ih ((wf.addState false).addTransition prev (some ch) nfa.states.length last) _
      (last.trans_eq (length_addTransition ..).symm)

theorem wellFormed_compileLit (s : String) : (compileLit s).WellFormed := by
  unfold compileLit
  split
  next => exact wellFormed_emptyFragment
  next =>
    obtain ⟨wf, inside⟩ := wellFormed_addChain s.toList wellFormed_new 0 (by decide)
    exact ((wf.setAccept _ _).setAccept _ _).withAccept _ (by
      rw [length_setAccept, length_setAccept]
      exact inside)

end

section
variable {refs : String → Except String NFAGraph}

mutual

theorem wellFormed_compileNode (wfRefs : ∀ name nfa, refs name = .ok nfa → nfa.WellFormed)
    (node : GrammarNode) {nfa : NFAGraph}
    (compiled : compileNode refs node = .ok nfa) : nfa.WellFormed := by
  match node with
  | .lit s =>
    cases compiled
    exact wellFormed_compileLit s
  | .charClass chars negated =>
    cases compiled
    exact wellFormed_charFragment _
  | .any =>
    rw [compileNode] at compiled
    rw [← Except.ok.inj compiled]
    exact wellFormed_charFragment practicalUniverse
  | .seq [] =>
    cases compiled
    exact wellFormed_emptyFragment
  | .seq (node :: nodes) =>
    rw [compileNode] at compiled
    obtain ⟨first, compiledFirst, rest⟩ := bind_ok compiled
    exact wellFormed_compileSeq wfRefs nodes (wellFormed_compileNode wfRefs node compiledFirst) rest
  | .alt [] =>
    cases compiled
    exact wellFormed_emptyFragment
  | .alt (node :: nodes) =>
    rw [compileNode] at compiled
    exact wellFormed_compileAlt wfRefs (node :: nodes) wellFormed_new compiled
  | .star inner =>
    rw [compileNode] at compiled
    obtain ⟨fragment, compiledInner, rest⟩ := bind_ok compiled
    cases rest
    exact (wellFormed_compileNode wfRefs inner compiledInner).starFragment
  | .plus inner =>
    rw [compileNode] at compiled
    obtain ⟨fragment, compiledInner, rest⟩ := bind_ok compiled
    cases rest
    exact (wellFormed_compileNode wfRefs inner compiledInner).plusFragment
  | .opt inner =>
    rw [compileNode] at compiled
    obtain ⟨fragment, compiledInner, rest⟩ := bind_ok compiled
    cases rest
    exact (wellFormed_compileNode wfRefs inner compiledInner).optFragment
  | .ref name => exact wfRefs name nfa compiled
  | .hexByte byte =>
    cases compiled
    exact wellFormed_compileLit _

theorem wellFormed_compileSeq (wfRefs : ∀ name nfa, refs name = .ok nfa → nfa.WellFormed)
    (nodes : List GrammarNode) {nfa nfa' : NFAGraph} (wf : nfa.WellFormed)
    (compiled : compileSeq refs nfa nodes = .ok nfa') : nfa'.WellFormed := by
  match nodes with
  | [] =>
    cases compiled
    exact wf
  | node :: nodes =>
    rw [compileSeq] at compiled
    obtain ⟨next, compiledNext, rest⟩ := bind_ok compiled
    have joined := wf.joinSeq (wellFormed_compileNode wfRefs node compiledNext)
    exact wellFormed_compileSeq wfRefs nodes joined rest

theorem wellFormed_compileAlt (wfRefs : ∀ name nfa, refs name = .ok nfa → nfa.WellFormed)
    (nodes : List GrammarNode) {nfa nfa' : NFAGraph} (wf : nfa.WellFormed)
    (compiled : compileAlt refs nfa nodes = .ok nfa') : nfa'.WellFormed := by
  match nodes with
  | [] =>
    cases compiled
    exact wf
  | node :: nodes =>
    rw [compileAlt] at compiled
    obtain ⟨next, compiledNext, rest⟩ := bind_ok compiled
    have joined := wf.joinAlt (wellFormed_compileNode wfRefs node compiledNext)
    exact wellFormed_compileAlt wfRefs nodes joined rest

end

end

theorem wellFormed_compileRef (rules : Rules) (visited : List String) (name : String)
    {nfa : NFAGraph} (compiled : compileRef rules visited name = .ok nfa) : nfa.WellFormed := by
  rw [compileRef] at compiled
  split at compiled
  next => cases compiled
  next fresh =>
    split at compiled
    next => cases compiled
    next rule found =>
      have _smaller := unvisited_lt fresh (AList.lookup_isSome.mp (Option.isSome_of_eq_some found))
      exact wellFormed_compileNode
        (fun name' _ => wellFormed_compileRef rules (visited ++ [name]) name') rule compiled
termination_by (unvisited rules visited).length

end TribunusCompute.Gbnf
