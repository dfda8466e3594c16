import Mathlib.Data.Char
import Mathlib.Data.List.AList
import Mathlib.Data.List.Destutter
import TribunusCompute.Grammar.Nfa
import TribunusCompute.Library.BinarySearch

/-!
# The grammar automaton

Subset construction, and the automaton that masks tokens during generation. The
character ranges of a state, which nothing reads, are left out.
-/
namespace TribunusCompute.Gbnf

structure DFAState where
  id : ℕ
  transitions : List (Char × ℕ)
  isAccept : Bool
  deriving DecidableEq, Repr

structure GrammarFSM where
  states : List DFAState
  currentState : ℕ
  startState : ℕ
  deriving DecidableEq, Repr

/-! ## Subset construction -/

/-- `char::from_u32`. -/
def charFromU32 (c : ℕ) : Option Char :=
  if h : c.isValidChar then some (Char.ofNatAux c h) else none

def charRange (start stop : ℕ) : List Char :=
  (List.range' start (stop + 1 - start)).filterMap charFromU32

def printableAscii : List Char := charRange 0x20 0x7E

/-- The characters of all transitions, or printable ones if there are none; in order. -/
def alphabet (nfa : List NFAState) : List Char :=
  let allChars : SortedSet Char :=
    .ofList (nfa.flatMap fun state => state.transitions.filterMap (·.1))
  if allChars = ∅ then (SortedSet.ofList (printableAscii ++ ['\n', '\t', '\r'])).toList
  else allChars.toList

def accepting (nfa : List NFAState) (states : StateSet) : Bool :=
  states.toList.any fun s => (stateAt nfa s).isAccept

/-- The DFA so far, the number of each set of states, and the sets still to expand. -/
structure DfaBuilder where
  dfaStates : List DFAState
  stateMap : AList (fun _ : StateSet => ℕ)
  queue : List StateSet

namespace DfaBuilder

def addEdge (b : DfaBuilder) (source : ℕ) (ch : Char) (target : ℕ) : DfaBuilder :=
  { b with
    dfaStates := b.dfaStates.modify source fun state =>
      { state with transitions := state.transitions ++ [(ch, target)] } }

def addSet (nfa : List NFAState) (b : DfaBuilder) (set : StateSet) : DfaBuilder where
  dfaStates := b.dfaStates ++ [⟨b.dfaStates.length, [], accepting nfa set⟩]
  stateMap := b.stateMap.insert set b.dfaStates.length
  queue := b.queue ++ [set]

def visitChar (nfa : List NFAState) (currentSet : StateSet) (currentId : ℕ) (b : DfaBuilder)
    (ch : Char) : DfaBuilder :=
  let nextSet := nfaTransition nfa currentSet ch
  if nextSet = ∅ then b
  else match b.stateMap.lookup nextSet with
    | some id => b.addEdge currentId ch id
    | none => (b.addSet nfa nextSet).addEdge currentId ch b.dfaStates.length

/-- `sort_by` on the characters, then `dedup_by`. -/
def sortTransitions (transitions : List (Char × ℕ)) : List (Char × ℕ) :=
  (transitions.insertionSort fun a b => a.1 ≤ b.1).destutter fun a b => a.1 ≠ b.1

def visitSet (nfa : List NFAState) (chars : List Char) (b : DfaBuilder) (currentSet : StateSet) :
    DfaBuilder :=
  match b.stateMap.lookup currentSet with
  | none => b
  | some currentId =>
    let b := chars.foldl (visitChar nfa currentSet currentId) b
    { b with
      dfaStates := b.dfaStates.modify currentId fun state =>
        { state with transitions := sortTransitions state.transitions } }

def run (nfa : List NFAState) (chars : List Char) : ℕ → DfaBuilder → DfaBuilder
  | 0, b => b
  | turns + 1, b =>
    match b.queue with
    | [] => b
    | currentSet :: queue => run nfa chars turns (visitSet nfa chars { b with queue := queue } currentSet)

def init (nfa : List NFAState) (startClosure : StateSet) : DfaBuilder where
  dfaStates := [⟨0, [], accepting nfa startClosure⟩]
  stateMap := (∅ : AList _).insert startClosure 0
  queue := [startClosure]

end DfaBuilder

/-- Each set of states is expanded at most once. -/
def nfaToDfa (nfa : List NFAState) (startState : ℕ) : List DFAState :=
  (DfaBuilder.run nfa (alphabet nfa) (2 ^ nfa.length)
    (.init nfa (epsilonClosure nfa (.ofList [startState])))).dfaStates

/-! ## Advancing -/

def findTransition (states : List DFAState) (stateId : ℕ) (ch : Char) : Option ℕ := do
  let state ← states[stateId]?
  let idx ← BinarySearch.search Prod.fst ch state.transitions 0 state.transitions.length
  (state.transitions[idx]?).map (·.2)

namespace GrammarFSM

def new (states : List DFAState) (start : ℕ) : GrammarFSM where
  states := states
  currentState := start
  startState := start

def upperHex (n : ℕ) : String := String.ofList ((Nat.toDigits 16 n).map Char.toUpper)

/-- Follow the characters; on an error the state stays where the walk stopped. -/
def advanceChars (fsm : GrammarFSM) : List Char → Except String Unit × GrammarFSM
  | [] => (.ok (), fsm)
  | ch :: chars =>
    match findTransition fsm.states fsm.currentState ch with
    | none =>
      (.error s!"no transition for character '{ch}' (U+{upperHex ch.toNat}) from state {fsm.currentState}",
        fsm)
    | some next => advanceChars { fsm with currentState := next } chars

def advance (fsm : GrammarFSM) (tokenText : String) : Except String Unit × GrammarFSM :=
  fsm.advanceChars tokenText.toList

def isAccepting (fsm : GrammarFSM) : Bool :=
  match fsm.states[fsm.currentState]? with
  | some state => state.isAccept
  | none => false

def Accepts (fsm : GrammarFSM) (text : String) : Prop :=
  (fsm.advance text).1.isOk ∧ (fsm.advance text).2.isAccepting

instance (fsm : GrammarFSM) (text : String) : Decidable (fsm.Accepts text) :=
  inferInstanceAs (Decidable (_ ∧ _))

end GrammarFSM

end TribunusCompute.Gbnf
