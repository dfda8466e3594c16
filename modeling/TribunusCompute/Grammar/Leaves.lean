import TribunusCompute.Grammar.Compile

/-!
# Fragments of leaves

What a fragment accepts from its first state: a literal its characters, a class one
of its characters.
-/
namespace TribunusCompute.Gbnf

/-! ## Languages from a state -/

def AcceptsFrom (nfa : List NFAState) (q : ℕ) (chars : List Char) : Prop :=
  ∃ a ∈ (toεNFA nfa 0).accept, a ∈ (toεNFA nfa 0).evalFrom {q} chars

section
variable {nfa : List NFAState} {q : ℕ}

theorem εClosure_singleton (noEpsilon : ∀ t, (none, t) ∉ (stateAt nfa q).transitions) :
    (toεNFA nfa 0).εClosure {q} = {q} := by
  refine Set.Subset.antisymm (fun i closure => ?_) ((toεNFA nfa 0).subset_εClosure {q})
  induction closure with
  | base i member => exact member
  | step i j edge _ ih =>
    rw [Set.mem_singleton_iff.mp ih] at edge
    exact absurd edge (noEpsilon j)

theorem acceptsFrom_nil (noEpsilon : ∀ t, (none, t) ∉ (stateAt nfa q).transitions) :
    AcceptsFrom nfa q [] ↔ (stateAt nfa q).isAccept := by
  unfold AcceptsFrom
  rw [εNFA.evalFrom_nil, εClosure_singleton noEpsilon]
  constructor
  · rintro ⟨a, accept, rfl⟩
    exact accept
  · intro accept
    exact ⟨q, accept, rfl⟩

theorem acceptsFrom_cons (noEpsilon : ∀ t, (none, t) ∉ (stateAt nfa q).transitions) (ch : Char)
    (chars : List Char) : AcceptsFrom nfa q (ch :: chars) ↔
      ∃ t, (some ch, t) ∈ (stateAt nfa q).transitions ∧ AcceptsFrom nfa t chars := by
  have step : (toεNFA nfa 0).evalFrom {q} (ch :: chars) =
      (toεNFA nfa 0).evalFrom ((toεNFA nfa 0).step q (some ch)) chars := by
    rw [εNFA.evalFrom, List.foldl_cons, εClosure_singleton noEpsilon, εNFA.evalFrom]
    congr 1
    ext i
    simp
  unfold AcceptsFrom
  rw [step]
  constructor
  · rintro ⟨a, accept, reached⟩
    obtain ⟨t, edge, from_⟩ := (εNFA.mem_evalFrom_iff_exists _).mp reached
    exact ⟨t, edge, a, accept, from_⟩
  · rintro ⟨t, edge, a, accept, from_⟩
    exact ⟨a, accept, (εNFA.mem_evalFrom_iff_exists _).mpr ⟨t, edge, from_⟩⟩

end

/-! ## The fragments -/

def Chain (nfa : List NFAState) : ℕ → List Char → Prop
  | q, [] => stateAt nfa q = ⟨[], true⟩
  | q, ch :: chars => ∃ next, stateAt nfa q = ⟨[(some ch, next)], false⟩ ∧ Chain nfa next chars

theorem acceptsFrom_chain {nfa : List NFAState} {q : ℕ} {spelled : List Char}
    (chain : Chain nfa q spelled) (chars : List Char) :
    AcceptsFrom nfa q chars ↔ chars = spelled := by
  induction spelled generalizing q chars with
  | nil =>
    rw [Chain] at chain
    cases chars with
    | nil => simp [acceptsFrom_nil, chain]
    | cons ch chars => simp [acceptsFrom_cons, chain]
  | cons first spelled ih =>
    obtain ⟨next, state, rest⟩ := chain
    cases chars with
    | nil => simp [acceptsFrom_nil, state]
    | cons ch chars => simp [acceptsFrom_cons, state, ih rest]

/-- The states of a chain, the first at position `next - 1`. -/
def chainStates (last : Bool) : ℕ → List Char → List NFAState
  | _, [] => [⟨[], last⟩]
  | next, ch :: chars => ⟨[(some ch, next)], false⟩ :: chainStates last (next + 1) chars

theorem modify_append_cons {α : Type*} (front back : List α) (x : α) (f : α → α) :
    (front ++ x :: back).modify front.length f = front ++ f x :: back := by
  induction front with
  | nil => rfl
  | cons y front ih => rw [List.cons_append, List.length_cons, List.modify_succ_cons, ih,
      List.cons_append]

theorem addChain_states (front : List NFAState) (start accept : ℕ) (chars : List Char) :
    addChain ⟨front ++ [⟨[], false⟩], start, accept⟩ front.length chars =
      (⟨front ++ chainStates false (front.length + 1) chars, start, accept⟩,
        front.length + chars.length) := by
  induction chars generalizing front with
  | nil => rfl
  | cons ch chars ih =>
    have step := ih (front ++ [⟨[(some ch, front.length + 1)], false⟩])
    simp only [List.length_append, List.length_singleton, List.append_assoc,
      List.singleton_append] at step
    rw [addChain]
    simp only [NFAGraph.addState, NFAGraph.addChar, NFAGraph.addTransition, List.length_append,
      List.length_nil, List.append_assoc, List.singleton_append, chainStates, List.length_cons,
      modify_append_cons, List.nil_append, Nat.zero_add]
    rw [step, Nat.add_assoc front.length 1 chars.length, Nat.add_comm 1 chars.length]

theorem setAccept_chainStates (front : List NFAState) (next : ℕ) (chars : List Char) :
    (front ++ chainStates false next chars).modify (front.length + chars.length)
        (fun st => { st with isAccept := true }) =
      front ++ chainStates true next chars := by
  induction chars generalizing front next with
  | nil => exact modify_append_cons front [] ⟨[], false⟩ _
  | cons ch chars ih =>
    have step := ih (front ++ [⟨[(some ch, next)], false⟩]) (next + 1)
    rw [List.length_append, List.length_singleton, List.append_assoc, List.append_assoc,
      Nat.add_assoc, Nat.add_comm 1] at step
    exact step

theorem chain_chainStates (front : List NFAState) (chars : List Char) :
    Chain (front ++ chainStates true (front.length + 1) chars) front.length chars := by
  induction chars generalizing front with
  | nil => simp [Chain, chainStates, stateAt]
  | cons ch chars ih =>
    have rest := ih (front ++ [⟨[(some ch, front.length + 1)], false⟩])
    rw [List.length_append, List.append_assoc, List.singleton_append] at rest
    refine ⟨front.length + 1, ?_, rest⟩
    simp [chainStates, stateAt]

theorem acceptsFrom_emptyFragment (chars : List Char) :
    AcceptsFrom emptyFragment.states 0 chars ↔ chars = [] := by
  have edges (i : ℕ) (edge : Option Char × ℕ)
      (member : edge ∈ (stateAt emptyFragment.states i).transitions) : edge.1 = none := by
    obtain ⟨state, there, edge'⟩ := exists_state_of_mem member
    rcases List.mem_pair.mp there with rfl | rfl
    · rw [List.mem_singleton.mp edge']
    · cases edge'
  cases chars with
  | nil =>
    refine iff_of_true ⟨1, rfl, ?_⟩ rfl
    exact εNFA.εClosure.step 0 1 (List.mem_singleton.mpr rfl) (εNFA.εClosure.base 0 rfl)
  | cons ch chars =>
    -- No state reads a character.
    refine iff_of_false ?_ (List.cons_ne_nil _ _)
    rintro ⟨a, -, reached⟩
    have stuck : (toεNFA emptyFragment.states 0).stepSet
        ((toεNFA emptyFragment.states 0).εClosure {0}) ch = ∅ := by
      refine Set.eq_empty_of_forall_notMem fun i member => ?_
      obtain ⟨j, -, closure⟩ := εNFA.mem_stepSet_iff.mp member
      obtain ⟨t, edge, -⟩ := (εNFA.mem_εClosure_iff_exists _).mp closure
      cases edges j _ edge
    rw [εNFA.evalFrom, List.foldl_cons, stuck] at reached
    have nowhere : (toεNFA emptyFragment.states 0).evalFrom ∅ chars = ∅ := εNFA.evalFrom_empty _ _
    rw [εNFA.evalFrom, εNFA.εClosure_empty] at nowhere
    rw [nowhere] at reached
    exact reached

theorem exists_letters {s : String} (some_ : s ≠ "") : ∃ ch rest, s.toList = ch :: rest := by
  cases letters : s.toList with
  | nil => exact absurd (String.toList_eq_nil_iff.mp letters) some_
  | cons ch rest => exact ⟨ch, rest, rfl⟩

/-- The second state is left over from the empty graph, and nothing leads to it. -/
theorem compileLit_eq {s : String} {ch : Char} {rest : List Char} (letters : s.toList = ch :: rest) :
    (compileLit s).states =
        [⟨[(some ch, 2)], false⟩, ⟨[], true⟩] ++ chainStates true 3 rest ∧
      (compileLit s).accept = 2 + rest.length := by
  have some_ : s.isEmpty = false := by
    rw [Bool.eq_false_iff, ne_eq, String.isEmpty_iff]
    rintro rfl
    cases letters
  have chain := addChain_states [⟨[(some ch, 2)], false⟩, ⟨[], true⟩] 0 1 rest
  have marked := setAccept_chainStates [⟨[(some ch, 2)], false⟩, ⟨[], true⟩] 3 rest
  have first : addChain NFAGraph.new NFAGraph.new.start (ch :: rest) =
      addChain ⟨[⟨[(some ch, 2)], false⟩, ⟨[], true⟩] ++ [⟨[], false⟩], 0, 1⟩ 2 rest := rfl
  rw [compileLit, some_, if_neg Bool.false_ne_true, letters, ← marked]
  simp only [first]
  rw [show addChain _ 2 rest = _ from chain]
  exact ⟨rfl, rfl⟩

theorem acceptsFrom_compileLit (s : String) (chars : List Char) :
    AcceptsFrom (compileLit s).states 0 chars ↔ chars = s.toList := by
  rcases eq_or_ne s "" with rfl | some_
  · exact acceptsFrom_emptyFragment chars
  · obtain ⟨ch, rest, letters⟩ := exists_letters some_
    have chain : Chain ([⟨[(some ch, 2)], false⟩, ⟨[], true⟩] ++ chainStates true 3 rest) 0
        (ch :: rest) := ⟨2, rfl, chain_chainStates [⟨[(some ch, 2)], false⟩, ⟨[], true⟩] rest⟩
    rw [letters, (compileLit_eq letters).1, acceptsFrom_chain chain]

theorem charFragment_states (chars : List Char) : (charFragment chars).states =
    [⟨chars.map fun ch => (some ch, 2), false⟩, ⟨[], true⟩, ⟨[], true⟩] := by
  have general (edges : List (Option Char × ℕ)) :
      (chars.foldl (fun nfa ch => nfa.addChar nfa.start ch 2)
        ⟨[⟨edges, false⟩, ⟨[], true⟩, ⟨[], true⟩], 0, 1⟩ : NFAGraph).states =
        [⟨edges ++ chars.map fun ch => (some ch, 2), false⟩, ⟨[], true⟩, ⟨[], true⟩] := by
    induction chars generalizing edges with
    | nil => rw [List.map_nil, List.append_nil]; rfl
    | cons ch chars ih =>
      rw [List.map_cons, List.append_cons]
      exact ih (edges ++ [(some ch, 2)])
  exact general []

theorem acceptsFrom_charFragment (options chars : List Char) :
    AcceptsFrom (charFragment options).states 0 chars ↔ ∃ ch ∈ options, chars = [ch] := by
  rw [charFragment_states]
  have start : stateAt [⟨options.map fun ch => (some ch, 2), false⟩, ⟨[], true⟩, ⟨[], true⟩] 0 =
      ⟨options.map fun ch => (some ch, 2), false⟩ := rfl
  have last : Chain [⟨options.map fun ch => (some ch, 2), false⟩, ⟨[], true⟩, ⟨[], true⟩] 2 [] := rfl
  cases chars with
  | nil => simp [acceptsFrom_nil, start]
  | cons ch chars =>
    rw [acceptsFrom_cons (by simp [start])]
    constructor
    · rintro ⟨t, edge, rest⟩
      obtain ⟨option, member, same⟩ := List.mem_map.mp edge
      cases same
      exact ⟨ch, member, by rw [(acceptsFrom_chain last chars).mp rest]⟩
    · rintro ⟨option, member, same⟩
      cases same
      exact ⟨2, List.mem_map.mpr ⟨ch, member, rfl⟩, (acceptsFrom_chain last []).mpr rfl⟩

end TribunusCompute.Gbnf
