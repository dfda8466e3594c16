import TribunusCompute.Grammar.Language
import TribunusCompute.Library.Runs

/-!
# Masks and advances

A token is checked against the automaton on a copy of its current state. An advance
follows the same transitions in place, and an error leaves it where they ended.
-/
namespace TribunusCompute.Gbnf

open Failures

structure GrammarTokenizer where
  idToText : List String
  deriving DecidableEq, Repr

def GrammarTokenizer.decode (tokenizer : GrammarTokenizer) (tokenId : UInt32) : String :=
  tokenizer.idToText[tokenId.toNat]?.getD ""

def isValidFrom (states : List DFAState) : (stateId : ℕ) → List Char → Bool
  | _, [] => true
  | stateId, ch :: chars =>
    -- The state is a copy; the automaton stays where it is.
    match findTransition states stateId ch with
    | some nextId => isValidFrom states nextId chars
    | none => false

namespace GrammarFSM

def isValidToken (fsm : GrammarFSM) (text : String) : Bool :=
  isValidFrom fsm.states fsm.currentState text.toList

def validTokenMask (fsm : GrammarFSM) (tokenizer : GrammarTokenizer) (vocabSize : ℕ) : List Bool :=
  (List.range vocabSize).map fun id => fsm.isValidToken (tokenizer.decode (UInt32.ofNat id))

def reset (fsm : GrammarFSM) : GrammarFSM := { fsm with currentState := fsm.startState }

end GrammarFSM

inductive FsmCall
  | advance (tokenText : String)
  | reset
  deriving DecidableEq, Repr

namespace GrammarFSM

/-- A failed advance is a call like any other. -/
def call (fsm : GrammarFSM) : FsmCall → Option GrammarFSM
  | .advance tokenText => some (fsm.advance tokenText).2
  | .reset => some fsm.reset

/-- Wherever the text cannot be followed any further, the transitions before have led back to the
current state. -/
def StopsInPlace (fsm : GrammarFSM) (text : String) : Prop :=
  ∀ front ch back stop, text.toList = front ++ ch :: back →
    walk fsm.states fsm.currentState front = some stop →
    findTransition fsm.states stop ch = none → stop = fsm.currentState

/-- An advance that fails leaves the automaton as it is. -/
def FailsInPlace (fsm : GrammarFSM) (text : String) : Prop :=
  ¬ (fsm.advance text).1.isOk → (fsm.advance text).2 = fsm

/-! ## Following characters -/

theorem isValidFrom_eq (states : List DFAState) (stateId : ℕ) (chars : List Char) :
    isValidFrom states stateId chars = (walk states stateId chars).isSome := by
  induction chars generalizing stateId with
  | nil => rfl
  | cons ch chars ih =>
    rw [isValidFrom, walk]
    cases findTransition states stateId ch with
    | none => rfl
    | some nextId => exact ih nextId

theorem advanceChars_append {front : List Char} {stop : ℕ} (back : List Char) {fsm : GrammarFSM}
    (followed : walk fsm.states fsm.currentState front = some stop) :
    fsm.advanceChars (front ++ back) = ({ fsm with currentState := stop }).advanceChars back := by
  induction front generalizing fsm with
  | nil =>
    obtain rfl : fsm.currentState = stop := Option.some.inj followed
    rfl
  | cons ch front ih =>
    obtain ⟨next, found, rest⟩ := Option.bind_eq_some_iff.mp followed
    rw [List.cons_append, advanceChars, found]
    exact ih rest

/-- A text that cannot be followed has a first character that cannot. -/
theorem exists_stop {states : List DFAState} {stateId : ℕ} {chars : List Char}
    (stuck : walk states stateId chars = none) :
    ∃ front ch back stop, chars = front ++ ch :: back ∧ walk states stateId front = some stop ∧
      findTransition states stop ch = none := by
  induction chars generalizing stateId with
  | nil => cases stuck
  | cons ch chars ih =>
    rw [walk] at stuck
    cases found : findTransition states stateId ch with
    -- here, or behind the transition
    | none => exact ⟨[], ch, chars, stateId, rfl, rfl, found⟩
    | some next =>
      rw [found] at stuck
      obtain ⟨front, ch', back, stop, split_, followed, ends⟩ := ih stuck
      refine ⟨ch :: front, ch', back, stop, by rw [split_]; rfl, ?_, ends⟩
      rw [walk, found]
      exact followed

theorem advanceChars_stop {fsm : GrammarFSM} {front back : List Char} {ch : Char} {stop : ℕ}
    (followed : walk fsm.states fsm.currentState front = some stop)
    (ends : findTransition fsm.states stop ch = none) :
    ¬ (fsm.advanceChars (front ++ ch :: back)).1.isOk ∧
      (fsm.advanceChars (front ++ ch :: back)).2 = { fsm with currentState := stop } := by
  rw [advanceChars_append _ followed, advanceChars]
  simp [ends, Except.isOk, Except.toBool]

theorem advanceChars_walk {fsm : GrammarFSM} {chars : List Char} {stop : ℕ}
    (followed : walk fsm.states fsm.currentState chars = some stop) :
    fsm.advanceChars chars = (.ok (), { fsm with currentState := stop }) := by
  have through := advanceChars_append [] followed
  rwa [List.append_nil] at through

/-- The copy and the advance agree on which texts can be followed. -/
theorem isValidToken_iff (fsm : GrammarFSM) (text : String) :
    fsm.isValidToken text ↔ (fsm.advance text).1.isOk := by
  rw [isValidToken, isValidFrom_eq, advance]
  cases followed : walk fsm.states fsm.currentState text.toList with
  | some stop => simp [advanceChars_walk followed, Except.isOk, Except.toBool]
  | none =>
    -- both stop at the first character without a transition
    obtain ⟨front, ch, back, stop, split_, followed', ends⟩ := exists_stop followed
    rw [split_]
    exact iff_of_false Bool.false_ne_true (advanceChars_stop followed' ends).1

theorem failsInPlace_iff (fsm : GrammarFSM) (text : String) :
    fsm.FailsInPlace text ↔ fsm.StopsInPlace text := by
  unfold FailsInPlace advance
  constructor
  -- an advance that fails is left where its last transition has led
  · intro inPlace front ch back stop split_ followed ends
    rw [split_] at inPlace
    obtain ⟨fails, after⟩ := @advanceChars_stop fsm front back ch stop followed ends
    exact congrArg currentState (after.symm.trans (inPlace fails))
  · intro stops fails
    cases followed : walk fsm.states fsm.currentState text.toList with
    | some stop =>
      rw [advanceChars_walk followed] at fails
      exact absurd rfl fails
    | none =>
      obtain ⟨front, ch, back, stop, split_, followed', ends⟩ := exists_stop followed
      rw [split_, (advanceChars_stop followed' ends).2, stops front ch back stop split_ followed' ends]

/-! ## Reachable states -/

structure InBounds (fsm : GrammarFSM) : Prop where
  start : fsm.startState < fsm.states.length
  current : fsm.currentState < fsm.states.length
  closed : ∀ i ch next, i < fsm.states.length → findTransition fsm.states i ch = some next →
    next < fsm.states.length

theorem inBounds_compile {g : Grammar} {fsm : GrammarFSM} (compiled : g.compile = .ok fsm) :
    fsm.InBounds := by
  obtain ⟨nfa, root, rest⟩ := bind_ok compiled
  cases rest
  have wf := wellFormed_compileRef g.rules [] g.root root
  have inside : nfa.start < nfa.states.length := wf.start ▸ Nat.zero_lt_of_lt wf.accept
  obtain ⟨sets, simulates⟩ := exists_simulates wf.inRange inside
  have first : 0 < (nfaToDfa nfa.states nfa.start).length := by
    rw [simulates.length]
    exact (List.getElem?_eq_some_iff.mp simulates.first).1
  refine ⟨first, first, fun i ch next inside found => ?_⟩
  change i < (nfaToDfa nfa.states nfa.start).length at inside
  change findTransition (nfaToDfa nfa.states nfa.start) i ch = some next at found
  change next < (nfaToDfa nfa.states nfa.start).length
  -- States are numbered like their sets.
  rw [simulates.length] at inside ⊢
  have step := simulates.findTransition wf.inRange (List.getElem?_eq_getElem inside) ch
  rw [found] at step
  exact (List.getElem?_eq_some_iff.mp step).1

theorem InBounds.advanceChars {fsm : GrammarFSM} (bounds : fsm.InBounds) (chars : List Char) :
    (fsm.advanceChars chars).2.InBounds := by
  induction chars generalizing fsm with
  | nil => exact bounds
  | cons ch chars ih =>
    rw [GrammarFSM.advanceChars]
    cases found : findTransition fsm.states fsm.currentState ch with
    -- an advance that fails stays where it is
    | none => exact bounds
    | some next =>
      exact ih ⟨bounds.start, bounds.closed _ ch next bounds.current found, bounds.closed⟩

theorem InBounds.call {fsm after : GrammarFSM} (bounds : fsm.InBounds) (call_ : FsmCall)
    (taken : fsm.call call_ = some after) : after.InBounds := by
  cases call_ with
  | advance tokenText =>
    cases taken
    exact bounds.advanceChars tokenText.toList
  | reset =>
    cases taken
    exact ⟨bounds.start, bounds.start, bounds.closed⟩

/-- In every state that a compiled automaton can be in, the mask allows exactly the tokens over
which it can advance; and an advance that fails leaves it as it is exactly if the part of the
text that it can follow leads back to the current state. -/
theorem mask_iff_advance {g : Grammar} {fsm₀ : GrammarFSM} (compiled : g.compile = .ok fsm₀)
    (calls : List FsmCall) :
    ∃ fsm, Runs.exec call fsm₀ calls = some fsm ∧ fsm.currentState < fsm.states.length ∧
      (∀ (tokenizer : GrammarTokenizer) (vocabSize : ℕ) (id : UInt32), id.toNat < vocabSize →
        ((fsm.validTokenMask tokenizer vocabSize)[id.toNat]? = some true ↔
          (fsm.advance (tokenizer.decode id)).1.isOk)) ∧
      ∀ text, fsm.FailsInPlace text ↔ fsm.StopsInPlace text := by
  have total : ∀ (fsm : GrammarFSM) (call_ : FsmCall), ∃ after, fsm.call call_ = some after := by
    intro fsm call_
    cases call_ <;> exact ⟨_, rfl⟩
  obtain ⟨fsm, run⟩ := Runs.exec_total call total fsm₀ calls
  have bounds : fsm.InBounds := Runs.exec_keeps (P := InBounds) call
    (fun _ call_ _ _ bounds taken => bounds.call call_ taken) (inBounds_compile compiled) run
  refine ⟨fsm, run, bounds.current, fun tokenizer vocabSize id inside => ?_, failsInPlace_iff fsm⟩
  rw [← isValidToken_iff, validTokenMask, List.getElem?_map, List.getElem?_range inside]
  simp

/-- The automaton of a single word, over which it can advance. -/
theorem greeting_mask : ∃ fsm₀ fsm, greeting.compile = .ok fsm₀ ∧
    Runs.exec call fsm₀ [.advance "hel", .reset] = some fsm ∧
    fsm.currentState < fsm.states.length := by
  -- which automaton it is does not matter here
  have compiles : greeting.compile.isOk = true := by decide +kernel
  cases compiled : greeting.compile with
  | error e =>
    rw [compiled] at compiles
    cases compiles
  | ok fsm₀ =>
    obtain ⟨fsm, run, inside, -⟩ := mask_iff_advance compiled [.advance "hel", .reset]
    exact ⟨fsm₀, fsm, rfl, run, inside⟩

/-- The advance over "help" fails at its last character, three states further. -/
theorem help_fails_elsewhere : ∃ fsm, greeting.compile = .ok fsm ∧
    ¬ (fsm.advance "help").1.isOk ∧ (fsm.advance "help").2.currentState = 3 ∧
    ¬ fsm.FailsInPlace "help" := by
  have stops : (match greeting.compile with
      | .ok fsm => decide (fsm.currentState = 0 ∧ ¬ (fsm.advance "help").1.isOk ∧
          (fsm.advance "help").2.currentState = 3)
      | .error _ => false) = true := by decide +kernel
  cases compiled : greeting.compile with
  | error e =>
    rw [compiled] at stops
    cases stops
  | ok fsm =>
    rw [compiled] at stops
    obtain ⟨first, fails, after⟩ := of_decide_eq_true stops
    refine ⟨fsm, rfl, fails, after, fun inPlace => ?_⟩
    rw [inPlace fails, first] at after
    cases after

end GrammarFSM

end TribunusCompute.Gbnf
