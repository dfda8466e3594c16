import Mathlib.Order.WellFoundedSet

/-!
# Counting predecessors

A node is ready once every edge into it comes from a node that is done. Taking ready nodes one by
one, and counting for each node the edges from nodes not done yet, reaches every node exactly if
the edges have no cycle.
-/
namespace Kahn

variable {α : Type*} {edges : List (α × α)} {nodes done queue added : List α}

/-- No path along the edges leads from a node to itself. -/
def Acyclic (edges : List (α × α)) : Prop :=
  ∀ v, ¬Relation.TransGen (fun a b => (a, b) ∈ edges) v v

/-- Each node has its predecessors behind it. -/
def Ordered (edges : List (α × α)) : List α → Prop
  | [] => True
  | x :: done => (∀ u, (u, x) ∈ edges → u ∈ done) ∧ Ordered edges done

theorem Ordered.acc (ordered : Ordered edges done) {v : α} (member : v ∈ done) :
    Acc (fun a b => (a, b) ∈ edges) v := by
  induction done generalizing v with
  | nil => cases member
  | cons x done ih =>
    rcases List.mem_cons.mp member with rfl | later
    · exact ⟨v, fun u edge => ih ordered.2 (ordered.1 u edge)⟩
    · exact ih ordered.2 later

theorem not_transGen_self_of_acc {r : α → α → Prop} {v : α} (acc : Acc r v) :
    ¬Relation.TransGen r v v := by
  have acc' := acc_transGen_iff.mpr acc
  induction acc' with
  | intro v _ ih =>
    intro loop
    exact ih v loop acc loop

variable [DecidableEq α] {degree degree' : α → ℕ}

/-- The edges into `v` from nodes not done yet. -/
def incoming (edges : List (α × α)) (done : List α) (v : α) : ℕ :=
  edges.countP fun edge => edge.2 = v ∧ edge.1 ∉ done

/-- Where the edges from `x` lead, one entry to an edge. -/
def targets (edges : List (α × α)) (x : α) : List α :=
  (edges.filter fun edge => edge.1 = x).map Prod.snd

theorem incoming_eq_zero_iff {v : α} :
    incoming edges done v = 0 ↔ ∀ u, (u, v) ∈ edges → u ∈ done := by
  rw [incoming, List.countP_eq_zero]
  constructor
  · intro none u edge
    by_contra out
    exact none (u, v) edge (by simp [out])
  · intro all edge member
    have inside : edge.2 = v → edge.1 ∈ done := by
      rintro rfl
      exact all edge.1 member
    simpa using inside

/-- With `x` done, the edges from it count no more. -/
theorem incoming_cons {x : α} (fresh : x ∉ done) (v : α) :
    incoming edges done v = incoming edges (x :: done) v + (targets edges x).count v := by
  induction edges with
  | nil => rfl
  | cons edge edges ih =>
    unfold incoming targets at ih ⊢
    rw [List.countP_cons, List.countP_cons, ih]
    rcases eq_or_ne edge.1 x with rfl | other
    · -- an edge from `x`
      rw [List.filter_cons_of_pos (by simp), List.map_cons, List.count_cons]
      by_cases same : edge.2 = v
      · simp [same, fresh]
        omega
      · simp [same]
    · rw [List.filter_cons_of_neg (by simpa using other)]
      simp [other]
      omega

/-- The nodes that are done or ready, and the counts of the others. -/
structure Peeled (edges : List (α × α)) (nodes : List α) (degree : α → ℕ)
    (queue done : List α) : Prop where
  counts : ∀ v, degree v = incoming edges done v
  nodup : (queue ++ done).Nodup
  inside : ∀ v ∈ queue ++ done, v ∈ nodes
  ready : ∀ v ∈ nodes, v ∈ queue ++ done ↔ degree v = 0
  ordered : Ordered edges done

/-- At first the nodes without predecessors are ready, in any order. -/
theorem peeled_start (start : queue.Nodup) (counts : ∀ v, degree v = incoming edges [] v)
    (ready : ∀ v, v ∈ queue ↔ v ∈ nodes ∧ degree v = 0) : Peeled edges nodes degree queue [] := by
  refine ⟨counts, by simpa using start, fun v member => ?_, fun v node => ?_, trivial⟩
  · rw [List.append_nil] at member
    exact ((ready v).mp member).1
  · rw [List.append_nil, ready]
    exact and_iff_right node

/-- One turn: a ready node is done, and its targets with no other edge are ready. -/
theorem Peeled.next {x : α} (peeled : Peeled edges nodes degree (x :: queue) done)
    (closed : ∀ e ∈ edges, e.2 ∈ nodes)
    (counts : ∀ v, degree' v = degree v - (targets edges x).count v)
    (once : added.Nodup)
    (fresh : ∀ v, v ∈ added ↔ v ∈ targets edges x ∧ degree v = (targets edges x).count v) :
    Peeled edges nodes degree' (queue ++ added) (x :: done) := by
  have split : (x :: (queue ++ done)).Nodup := peeled.nodup
  have first : x ∉ done := by
    intro member
    exact (List.nodup_cons.mp split).1 (List.mem_append_right _ member)
  have target : ∀ v ∈ targets edges x, v ∈ nodes := by
    intro v member
    obtain ⟨edge, there, rfl⟩ := List.mem_map.mp member
    exact closed edge (List.mem_filter.mp there).1
  have zero : degree x = 0 :=
    (peeled.ready x (peeled.inside x List.mem_cons_self)).mp List.mem_cons_self
  -- what is added now was not ready before
  have apart : ∀ v ∈ added, v ∉ x :: (queue ++ done) := by
    intro v member old
    obtain ⟨there, all⟩ := (fresh v).mp member
    have none := (peeled.ready v (target v there)).mp old
    have some := List.count_pos_iff.mpr there
    omega
  have same : ∀ v, v ∈ queue ++ added ++ x :: done ↔ v ∈ x :: (queue ++ done) ∨ v ∈ added := by
    intro v
    simp only [List.mem_append, List.mem_cons]
    tauto
  refine ⟨fun v => ?_, ?_, fun v member => ?_, fun v node => ?_, ?_, peeled.ordered⟩
  · rw [counts, peeled.counts, incoming_cons first]
    omega
  · have perm : (queue ++ added ++ x :: done).Perm (added ++ x :: (queue ++ done)) := by
      rw [List.append_assoc]
      refine (List.perm_append_comm_assoc ..).trans (List.Perm.append_left _ ?_)
      exact List.perm_middle
    rw [perm.nodup_iff, List.nodup_append]
    refine ⟨once, split, fun v member w old same => ?_⟩
    exact apart v member (same ▸ old)
  · rcases (same v).mp member with old | new
    · exact peeled.inside v old
    · exact target v ((fresh v).mp new).1
  · rw [same, counts]
    have before : v ∈ x :: (queue ++ done) ↔ degree v = 0 := peeled.ready v node
    rw [before, fresh]
    constructor
    · rintro (none | ⟨-, all⟩) <;> omega
    · intro gone
      rcases Nat.eq_zero_or_pos (degree v) with none | some
      · exact .inl none
      · have bound : (targets edges x).count v ≤ degree v := by
          rw [peeled.counts, incoming_cons first v]
          omega
        exact .inr ⟨List.count_pos_iff.mp (by omega), by omega⟩
  · intro u edge
    refine incoming_eq_zero_iff.mp ?_ u edge
    rw [← peeled.counts]
    exact zero

/-- Where nothing is ready, every node is done exactly if there is no cycle. -/
theorem Peeled.length_eq_iff (peeled : Peeled edges nodes degree [] done)
    (distinct : nodes.Nodup) (closed : ∀ e ∈ edges, e.1 ∈ nodes ∧ e.2 ∈ nodes) :
    done.length = nodes.length ↔ Acyclic edges := by
  have nodup : done.Nodup := peeled.nodup
  have subset : done ⊆ nodes := fun v member => peeled.inside v member
  have subperm := nodup.subperm subset
  constructor
  · intro all
    have perm := subperm.perm_of_length_le all.ge
    intro v loop
    -- a node on a cycle has an edge into it, so that it is a node, and was done
    obtain ⟨u, -, edge⟩ := Relation.TransGen.tail'_iff.mp loop
    have member : v ∈ done := perm.mem_iff.mpr (closed _ edge).2
    exact not_transGen_self_of_acc (peeled.ordered.acc member) loop
  · intro acyclic
    refine Nat.le_antisymm subperm.length_le ?_
    by_contra short
    -- a node that is not done, with no other such node before it
    obtain ⟨v, left⟩ : ∃ v, v ∈ nodes ∧ v ∉ done := by
      by_contra none
      push Not at none
      exact short ((distinct.subperm none).length_le)
    let before := Relation.TransGen fun a b => (a, b) ∈ edges
    have strict : IsStrictOrder α before :=
      { irrefl := acyclic, trans := fun _ _ _ => Relation.TransGen.trans }
    let rest : Set α := {v | v ∈ nodes ∧ v ∉ done}
    have finite : rest.Finite := (List.finite_toSet nodes).subset fun v member => member.1
    have founded : rest.WellFoundedOn before := finite.wellFoundedOn
    obtain ⟨⟨m, out⟩, -, least⟩ := founded.has_min Set.univ ⟨⟨v, left⟩, trivial⟩
    have positive : ¬∀ u, (u, m) ∈ edges → u ∈ done := by
      intro all
      have ready := (peeled.ready m out.1).mpr ((peeled.counts m).trans
        (incoming_eq_zero_iff.mpr all))
      exact out.2 ready
    push Not at positive
    obtain ⟨u, edge, off⟩ := positive
    exact least ⟨u, (closed _ edge).1, off⟩ trivial (.single edge)

end Kahn
