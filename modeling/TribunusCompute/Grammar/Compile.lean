import TribunusCompute.Grammar.Fsm

/-!
# Compiling a grammar

Each node of the syntax tree becomes a fragment with one start and one accept
state. References are compiled in place.
-/
namespace TribunusCompute.Gbnf

inductive GrammarNode
  | lit (s : String)
  | charClass (chars : List (Char × Char)) (negated : Bool)
  | any
  | seq (nodes : List GrammarNode)
  | alt (nodes : List GrammarNode)
  | star (inner : GrammarNode)
  | plus (inner : GrammarNode)
  | opt (inner : GrammarNode)
  | ref (name : String)
  | hexByte (byte : UInt8)

abbrev Rules := AList (fun _ : String => GrammarNode)

structure Grammar where
  rules : Rules
  root : String

/-! ## Leaves -/

def emptyFragment : NFAGraph := NFAGraph.new.addEpsilon 0 1

/-- The chain of a literal, from `prev` on; with the last state of the chain. -/
def addChain (nfa : NFAGraph) (prev : ℕ) : List Char → NFAGraph × ℕ
  | [] => (nfa, prev)
  | ch :: chars =>
    let (next, nfa) := nfa.addState false
    addChain (nfa.addChar prev ch next) next chars

def compileLit (s : String) : NFAGraph :=
  if s.isEmpty then emptyFragment
  else
    let nfa := NFAGraph.new
    let (chain, prev) := addChain nfa nfa.start s.toList
    { (chain.setAccept nfa.start false).setAccept prev true with accept := prev }

def rangeChars : Char × Char → List Char
  | (start, stop) => if start = stop then [start] else charRange start.toNat stop.toNat

/-- Printable ASCII, tab, newline, carriage return and a few Unicode spaces. -/
def practicalUniverse : List Char :=
  printableAscii ++ ['\t', '\n', '\r'] ++
    [0xA0, 0x200B, 0x200C, 0x200D, 0xFEFF].filterMap charFromU32

def classChars (ranges : List (Char × Char)) (negated : Bool) : List Char :=
  if negated then
    let excludedChars : SortedSet Char := .ofList (ranges.flatMap rangeChars)
    practicalUniverse.filter fun ch => ch ∉ excludedChars
  else ranges.flatMap rangeChars

def charFragment (chars : List Char) : NFAGraph :=
  let nfa := NFAGraph.new.setAccept 0 false
  let (accept, nfa) := nfa.addState true
  { chars.foldl (fun nfa ch => nfa.addChar nfa.start ch accept) nfa with accept := accept }

def compileCharClass (ranges : List (Char × Char)) (negated : Bool) : NFAGraph :=
  charFragment (classChars ranges negated)

def compileAny : NFAGraph := charFragment practicalUniverse

/-! ## Composites -/

/-- The states of `next` with every target moved by `offset`. -/
def shiftStates (offset : ℕ) (states : List NFAState) : List NFAState :=
  states.map fun state =>
    { transitions := state.transitions.map fun (ch, target) => (ch, target + offset)
      isAccept := state.isAccept }

/-- One more element of a sequence. The first epsilon is added before the states of `next` are
appended, so it leads back into the states that are there. -/
def joinSeq (nfa next : NFAGraph) : NFAGraph :=
  let nfa := nfa.addEpsilon nfa.accept
    (next.start + (nfa.states.length - max next.states.length 1))
  let offset := nfa.states.length
  let nfa := { nfa with states := nfa.states ++ shiftStates offset next.states }
  let oldAccept := nfa.accept
  let nfa := (nfa.setAccept oldAccept false).addEpsilon oldAccept offset
  { nfa with accept := offset + (next.accept - next.start) }

/-- The states of a fragment, copied as they are: their targets are not moved. -/
def appendStates (nfa fragment : NFAGraph) : NFAGraph :=
  { nfa with states := nfa.states ++ fragment.states }

def joinAlt (nfa fragment : NFAGraph) : NFAGraph :=
  let offset := nfa.states.length
  let entry := 0
  (((appendStates nfa fragment).addEpsilon entry (offset + fragment.start)).setAccept
    (offset + fragment.accept) false).addEpsilon (offset + fragment.accept) nfa.accept

def starFragment (inner : NFAGraph) : NFAGraph :=
  let nfa := NFAGraph.new
  let offset := nfa.states.length
  let nfa := ((appendStates nfa inner).addEpsilon nfa.start nfa.accept).addEpsilon nfa.start
    (offset + inner.start)
  ((nfa.setAccept (offset + inner.accept) false).addEpsilon (offset + inner.accept)
    (offset + inner.start)).addEpsilon (offset + inner.accept) nfa.accept

def plusFragment (inner : NFAGraph) : NFAGraph :=
  let nfa := NFAGraph.new
  let offset := nfa.states.length
  let nfa := (appendStates nfa inner).addEpsilon nfa.start (offset + inner.start)
  ((nfa.setAccept (offset + inner.accept) false).addEpsilon (offset + inner.accept)
    (offset + inner.start)).addEpsilon (offset + inner.accept) nfa.accept

def optFragment (inner : NFAGraph) : NFAGraph :=
  let nfa := NFAGraph.new
  let offset := nfa.states.length
  let nfa := (appendStates (nfa.addEpsilon nfa.start nfa.accept) inner).addEpsilon nfa.start
    (offset + inner.start)
  (nfa.setAccept (offset + inner.accept) false).addEpsilon (offset + inner.accept) nfa.accept

section
variable (compileRef : String → Except String NFAGraph)

mutual

def compileNode : GrammarNode → Except String NFAGraph
  | .lit s => .ok (compileLit s)
  | .charClass chars negated => .ok (compileCharClass chars negated)
  | .any => .ok compileAny
  | .seq [] => .ok emptyFragment
  | .seq (node :: nodes) => do compileSeq (← compileNode node) nodes
  | .alt [] => .ok emptyFragment
  | .alt (node :: nodes) => compileAlt NFAGraph.new (node :: nodes)
  | .star inner => do return starFragment (← compileNode inner)
  | .plus inner => do return plusFragment (← compileNode inner)
  | .opt inner => do return optFragment (← compileNode inner)
  | .ref name => compileRef name
  | .hexByte byte => .ok (compileLit (String.singleton (Char.ofNat byte.toNat)))

def compileSeq (nfa : NFAGraph) : List GrammarNode → Except String NFAGraph
  | [] => .ok nfa
  | node :: nodes => do compileSeq (joinSeq nfa (← compileNode node)) nodes

def compileAlt (nfa : NFAGraph) : List GrammarNode → Except String NFAGraph
  | [] => .ok nfa
  | node :: nodes => do compileAlt (joinAlt nfa (← compileNode node)) nodes

end

end

def unvisited (rules : Rules) (visited : List String) : List String :=
  rules.keys.filter (· ∉ visited)

theorem unvisited_lt {rules : Rules} {visited : List String} {name : String}
    (fresh : name ∉ visited) (there : name ∈ rules.keys) :
    (unvisited rules (visited ++ [name])).length < (unvisited rules visited).length := by
  have shorter : (unvisited rules (visited ++ [name])).Sublist (unvisited rules visited) :=
    List.monotone_filter_right _ fun key => by simp; tauto
  refine lt_of_le_of_ne shorter.length_le fun same => ?_
  have member : name ∈ unvisited rules visited :=
    List.mem_filter.mpr ⟨there, by simpa using fresh⟩
  rw [← shorter.eq_of_length same] at member
  simp [unvisited] at member

/-- Compile a rule in place; `visited` holds the rules around it. -/
def compileRef (rules : Rules) (visited : List String) (name : String) : Except String NFAGraph :=
  if fresh : name ∈ visited then
    .error ("circular rule reference detected: " ++ " -> ".intercalate visited)
  else
    match found : rules.lookup name with
    | none => .error ("undefined rule '" ++ name ++ "'")
    | some rule =>
      have _smaller := unvisited_lt fresh (AList.lookup_isSome.mp (Option.isSome_of_eq_some found))
      compileNode (compileRef rules (visited ++ [name])) rule
termination_by (unvisited rules visited).length

def Grammar.compile (g : Grammar) : Except String GrammarFSM := do
  let nfa ← compileRef g.rules [] g.root
  return GrammarFSM.new (nfaToDfa nfa.states nfa.start) 0

end TribunusCompute.Gbnf
