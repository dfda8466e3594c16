import Mathlib.Computability.EpsilonNFA
import TribunusCompute.Library.Worklist

/-!
# Internal NFAs

The graphs that grammar nodes are compiled to, and the sets of states they are in.
-/
namespace TribunusCompute.Gbnf

structure NFAState where
  /-- A character, or `none` for epsilon, and the target state. -/
  transitions : List (Option Char × ℕ)
  isAccept : Bool
  deriving DecidableEq, Repr

/-- A Thompson fragment. -/
structure NFAGraph where
  states : List NFAState
  start : ℕ
  accept : ℕ
  deriving DecidableEq, Repr

namespace NFAGraph

def new : NFAGraph where
  states := [⟨[], false⟩, ⟨[], true⟩]
  start := 0
  accept := 1

def addState (nfa : NFAGraph) (isAccept : Bool) : ℕ × NFAGraph :=
  (nfa.states.length, { nfa with states := nfa.states ++ [⟨[], isAccept⟩] })

def addTransition (nfa : NFAGraph) (source : ℕ) (ch : Option Char) (target : ℕ) : NFAGraph :=
  { nfa with
    states := nfa.states.modify source fun state =>
      { state with transitions := state.transitions ++ [(ch, target)] } }

def addEpsilon (nfa : NFAGraph) (source target : ℕ) : NFAGraph :=
  nfa.addTransition source none target

def addChar (nfa : NFAGraph) (source : ℕ) (ch : Char) (target : ℕ) : NFAGraph :=
  nfa.addTransition source (some ch) target

def setAccept (nfa : NFAGraph) (state : ℕ) (isAccept : Bool) : NFAGraph :=
  { nfa with states := nfa.states.modify state fun st => { st with isAccept := isAccept } }

end NFAGraph

/-- `nfa[i]`; every index that is read is in range, see `InRange`. -/
def stateAt (nfa : List NFAState) (i : ℕ) : NFAState := nfa.getD i ⟨[], false⟩

def InRange (nfa : List NFAState) : Prop :=
  ∀ state ∈ nfa, ∀ edge ∈ state.transitions, edge.2 < nfa.length

/-! ## Sets of states -/

abbrev StateSet := SortedSet ℕ

def epsilonTargets (nfa : List NFAState) (stateId : ℕ) : List ℕ :=
  ((stateAt nfa stateId).transitions.filter fun (ch, _) => ch.isNone).map (·.2)

def charTargets (nfa : List NFAState) (ch : Char) (stateId : ℕ) : List ℕ :=
  ((stateAt nfa stateId).transitions.filter fun (cond, _) => cond = some ch).map (·.2)

/-- Everything that epsilon transitions reach; each state is popped at most once. -/
def epsilonClosure (nfa : List NFAState) (states : StateSet) : StateSet :=
  Worklist.explore (epsilonTargets nfa) nfa.length states.toList.reverse states

def nfaTransition (nfa : List NFAState) (states : StateSet) (ch : Char) : StateSet :=
  epsilonClosure nfa (.ofList (states.toList.flatMap (charTargets nfa ch)))

/-! ## What an NFA accepts -/

def toεNFA (nfa : List NFAState) (start : ℕ) : εNFA Char ℕ where
  step stateId ch := {target | (ch, target) ∈ (stateAt nfa stateId).transitions}
  start := {start}
  accept := {stateId | (stateAt nfa stateId).isAccept}

section
variable {nfa : List NFAState}

theorem exists_state_of_mem {i : ℕ} {edge : Option Char × ℕ}
    (member : edge ∈ (stateAt nfa i).transitions) : ∃ state ∈ nfa, edge ∈ state.transitions := by
  rw [stateAt, List.getD_eq_getElem?_getD] at member
  cases there : nfa[i]? with
  | none => simp [there] at member
  | some state => exact ⟨state, List.mem_of_getElem? there, by simpa [there] using member⟩

theorem InRange.lt (inRange : InRange nfa) {i : ℕ} {edge : Option Char × ℕ}
    (member : edge ∈ (stateAt nfa i).transitions) : edge.2 < nfa.length := by
  obtain ⟨state, there, edge⟩ := exists_state_of_mem member
  exact inRange state there _ edge

theorem mem_epsilonTargets {i target : ℕ} :
    target ∈ epsilonTargets nfa i ↔ (none, target) ∈ (stateAt nfa i).transitions := by
  simp [epsilonTargets]

theorem mem_charTargets {ch : Char} {i target : ℕ} :
    target ∈ charTargets nfa ch i ↔ (some ch, target) ∈ (stateAt nfa i).transitions := by
  simp [charTargets]

def StateSet.coe (states : StateSet) : Set ℕ := {i | i ∈ states}

def InStates (nfa : List NFAState) (states : StateSet) : Prop := ∀ i ∈ states, i < nfa.length

theorem mem_epsilonClosure (inRange : InRange nfa) (start : ℕ) {states : StateSet}
    (inside : InStates nfa states) (i : ℕ) :
    i ∈ epsilonClosure nfa states ↔ i ∈ (toεNFA nfa start).εClosure (StateSet.coe states) := by
  have closedU : ∀ i ∈ Finset.range nfa.length, ∀ j ∈ epsilonTargets nfa i,
      j ∈ Finset.range nfa.length := fun i _ j member =>
    Finset.mem_range.mpr (inRange.lt (mem_epsilonTargets.mp member))
  have inside' : ∀ i ∈ states, i ∈ Finset.range nfa.length := fun i member =>
    Finset.mem_range.mpr (inside i member)
  have bound := SortedSet.length_le_card inside'
  rw [Finset.card_range] at bound
  rw [epsilonClosure, Worklist.mem_explore closedU
    ⟨inside', fun j member => List.mem_reverse.mp member, fun j member off =>
      absurd (List.mem_reverse.mpr member) off⟩
    (by rw [List.length_reverse, Finset.card_range]; omega)]
  constructor
  · rintro ⟨j, member, path⟩
    induction path with
    | refl => exact εNFA.εClosure.base j member
    | tail _ edge ih => exact εNFA.εClosure.step _ _ (mem_epsilonTargets.mp edge) ih
  · intro closure
    induction closure with
    | base j member => exact ⟨j, member, .refl⟩
    | step j k edge _ ih =>
      obtain ⟨s, member, path⟩ := ih
      exact ⟨s, member, path.tail (mem_epsilonTargets.mpr edge)⟩

theorem inStates_epsilonClosure (inRange : InRange nfa) {states : StateSet}
    (inside : InStates nfa states) : InStates nfa (epsilonClosure nfa states) := by
  intro i member
  cases (mem_epsilonClosure inRange 0 inside i).mp member with
  | base _ there => exact inside i there
  | step _ _ edge _ => exact inRange.lt edge

theorem inStates_charTargets (inRange : InRange nfa) (states : StateSet) (ch : Char) :
    InStates nfa (.ofList (states.toList.flatMap (charTargets nfa ch))) := by
  intro i member
  obtain ⟨j, -, there⟩ := List.mem_flatMap.mp (SortedSet.mem_ofList.mp member)
  exact inRange.lt (mem_charTargets.mp there)

theorem inStates_nfaTransition (inRange : InRange nfa) (states : StateSet) (ch : Char) :
    InStates nfa (nfaTransition nfa states ch) :=
  inStates_epsilonClosure inRange (inStates_charTargets inRange states ch)

theorem coe_nfaTransition (inRange : InRange nfa) (start : ℕ) (states : StateSet) (ch : Char) :
    StateSet.coe (nfaTransition nfa states ch) =
      (toεNFA nfa start).stepSet (StateSet.coe states) ch := by
  ext i
  refine (mem_epsilonClosure inRange start (inStates_charTargets inRange states ch) i).trans ?_
  rw [εNFA.mem_εClosure_iff_exists, εNFA.mem_stepSet_iff]
  constructor
  · rintro ⟨j, member, closure⟩
    obtain ⟨s, there, edge⟩ := List.mem_flatMap.mp (SortedSet.mem_ofList.mp member)
    exact ⟨s, there, (εNFA.mem_εClosure_iff_exists _).mpr ⟨j, mem_charTargets.mp edge, closure⟩⟩
  · rintro ⟨s, there, closure⟩
    obtain ⟨j, edge, closure⟩ := (εNFA.mem_εClosure_iff_exists _).mp closure
    exact ⟨j, SortedSet.mem_ofList.mpr (List.mem_flatMap.mpr ⟨s, there, mem_charTargets.mpr edge⟩),
      closure⟩

end

end TribunusCompute.Gbnf
