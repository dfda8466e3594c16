import TribunusCompute.Grammar.WellFormed

/-!
# References that resolve

A grammar compiles when every reference names a rule and references lead upwards in
some order, so that no chain of them comes back.
-/
namespace TribunusCompute.Gbnf

inductive GrammarNode.Mentions (name : String) : GrammarNode → Prop
  | ref : Mentions name (.ref name)
  | seq {node : GrammarNode} {nodes : List GrammarNode} (member : node ∈ nodes)
      (inside : node.Mentions name) : Mentions name (.seq nodes)
  | alt {node : GrammarNode} {nodes : List GrammarNode} (member : node ∈ nodes)
      (inside : node.Mentions name) : Mentions name (.alt nodes)
  | star {inner : GrammarNode} (inside : inner.Mentions name) : Mentions name (.star inner)
  | plus {inner : GrammarNode} (inside : inner.Mentions name) : Mentions name (.plus inner)
  | opt {inner : GrammarNode} (inside : inner.Mentions name) : Mentions name (.opt inner)

section
variable {name other : String} {inner : GrammarNode} {nodes : List GrammarNode}

@[simp] theorem mentions_ref : (GrammarNode.ref other).Mentions name ↔ name = other := by
  constructor
  · rintro ⟨⟩
    rfl
  · rintro rfl
    exact .ref

@[simp] theorem not_mentions_lit (s : String) : ¬(GrammarNode.lit s).Mentions name := nofun

@[simp] theorem not_mentions_charClass (chars : List (Char × Char)) (negated : Bool) :
    ¬(GrammarNode.charClass chars negated).Mentions name := nofun

@[simp] theorem mentions_seq :
    (GrammarNode.seq nodes).Mentions name ↔ ∃ node ∈ nodes, node.Mentions name := by
  constructor
  · rintro ⟨⟩
    exact ⟨_, ‹_›, ‹_›⟩
  · rintro ⟨node, member, inside⟩
    exact .seq member inside

@[simp] theorem mentions_alt :
    (GrammarNode.alt nodes).Mentions name ↔ ∃ node ∈ nodes, node.Mentions name := by
  constructor
  · rintro ⟨⟩
    exact ⟨_, ‹_›, ‹_›⟩
  · rintro ⟨node, member, inside⟩
    exact .alt member inside

@[simp] theorem mentions_star : inner.star.Mentions name ↔ inner.Mentions name :=
  ⟨fun | .star inside => inside, .star⟩

@[simp] theorem mentions_plus : inner.plus.Mentions name ↔ inner.Mentions name :=
  ⟨fun | .plus inside => inside, .plus⟩

@[simp] theorem mentions_opt : inner.opt.Mentions name ↔ inner.Mentions name :=
  ⟨fun | .opt inside => inside, .opt⟩

end

section
variable {refs : String → Except String NFAGraph}

mutual

/-- A node compiles when its references do. -/
theorem exists_compileNode (node : GrammarNode)
    (known : ∀ name, node.Mentions name → ∃ nfa, refs name = .ok nfa) :
    ∃ nfa, compileNode refs node = .ok nfa := by
  match node with
  | .lit s => exact ⟨_, rfl⟩
  | .charClass chars negated => exact ⟨_, rfl⟩
  | .any => exact ⟨_, by rw [compileNode]⟩
  | .hexByte byte => exact ⟨_, rfl⟩
  | .ref name => exact known name .ref
  | .seq [] => exact ⟨_, rfl⟩
  | .seq (node :: nodes) =>
    obtain ⟨first, compiled⟩ := exists_compileNode node fun name inside =>
      known name (.seq List.mem_cons_self inside)
    rw [compileNode, compiled]
    exact exists_compileSeq nodes (fun node member name inside =>
      known name (.seq (List.mem_cons_of_mem _ member) inside)) first
  | .alt [] => exact ⟨_, rfl⟩
  | .alt (node :: nodes) =>
    rw [compileNode]
    exact exists_compileAlt (node :: nodes) (fun node member name inside =>
      known name (.alt member inside)) _
  | .star inner =>
    obtain ⟨fragment, compiled⟩ := exists_compileNode inner fun name inside =>
      known name (.star inside)
    rw [compileNode, compiled]
    exact ⟨_, rfl⟩
  | .plus inner =>
    obtain ⟨fragment, compiled⟩ := exists_compileNode inner fun name inside =>
      known name (.plus inside)
    rw [compileNode, compiled]
    exact ⟨_, rfl⟩
  | .opt inner =>
    obtain ⟨fragment, compiled⟩ := exists_compileNode inner fun name inside =>
      known name (.opt inside)
    rw [compileNode, compiled]
    exact ⟨_, rfl⟩

theorem exists_compileSeq (nodes : List GrammarNode)
    (known : ∀ node ∈ nodes, ∀ name, node.Mentions name → ∃ nfa, refs name = .ok nfa)
    (nfa : NFAGraph) : ∃ nfa', compileSeq refs nfa nodes = .ok nfa' := by
  match nodes with
  | [] => exact ⟨_, rfl⟩
  | node :: nodes =>
    obtain ⟨next, compiled⟩ := exists_compileNode node (known node List.mem_cons_self)
    rw [compileSeq, compiled]
    exact exists_compileSeq nodes (fun other member => known other (List.mem_cons_of_mem _ member)) _

theorem exists_compileAlt (nodes : List GrammarNode)
    (known : ∀ node ∈ nodes, ∀ name, node.Mentions name → ∃ nfa, refs name = .ok nfa)
    (nfa : NFAGraph) : ∃ nfa', compileAlt refs nfa nodes = .ok nfa' := by
  match nodes with
  | [] => exact ⟨_, rfl⟩
  | node :: nodes =>
    obtain ⟨next, compiled⟩ := exists_compileNode node (known node List.mem_cons_self)
    rw [compileAlt, compiled]
    exact exists_compileAlt nodes (fun other member => known other (List.mem_cons_of_mem _ member)) _

end

end

section
variable {α : Type} [Preorder α] {rules : Rules} {rank : String → α}

/-- Every reference names a rule, of a higher rank than the one it stands in. -/
def Ascending (rules : Rules) (rank : String → α) : Prop :=
  ∀ name node, rules.lookup name = some node → ∀ ref, node.Mentions ref →
    ref ∈ rules ∧ rank name < rank ref

theorem exists_compileRef (ascending : Ascending rules rank) (visited : List String)
    (name : String) (there : name ∈ rules) (below : ∀ outer ∈ visited, rank outer < rank name) :
    ∃ nfa, compileRef rules visited name = .ok nfa := by
  have fresh : name ∉ visited := fun member => lt_irrefl _ (below name member)
  obtain ⟨node, found⟩ := Option.isSome_iff_exists.mp (AList.lookup_isSome.mpr there)
  rw [compileRef, dif_neg fresh]
  split
  next none_ => exact absurd (found.symm.trans none_) (by simp)
  next node' found' =>
    have _smaller := unvisited_lt fresh (AList.lookup_isSome.mp (Option.isSome_of_eq_some found'))
    refine exists_compileNode node' fun ref inside => ?_
    obtain ⟨defined, higher⟩ := ascending name node' found' ref inside
    refine exists_compileRef ascending (visited ++ [name]) ref defined fun outer member => ?_
    rcases List.mem_append.mp member with outside | here
    · exact (below outer outside).trans higher
    · rwa [List.mem_singleton.mp here]
termination_by (unvisited rules visited).length

theorem exists_compile {g : Grammar} (ascending : Ascending g.rules rank) (root : g.root ∈ g.rules) :
    ∃ fsm, g.compile = .ok fsm := by
  obtain ⟨nfa, compiled⟩ := exists_compileRef ascending [] g.root root fun _ member => nomatch member
  rw [Grammar.compile, compiled]
  exact ⟨_, rfl⟩

end

end TribunusCompute.Gbnf
