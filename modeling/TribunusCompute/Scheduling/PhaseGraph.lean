import TribunusCompute.Library.Kahn
import TribunusCompute.Library.Keyed

/-!
# The graph of the inference phases

`validate` counts the phases it can take one after another. The maps are read in any order, which
decides only the order of the phases without predecessors.
-/
namespace TribunusCompute.Scheduling

structure PhaseGraph (Phase : Type*) where
  phases : AList fun _ : String => Phase
  edges : List (String × String)

inductive PhaseGraphError
  | duplicatePhaseId (id : String)
  | unknownPhaseId (id : String)
  | cycleDetected (ids : List String)
  | emptyGraph
  deriving DecidableEq, Repr

abbrev InDegree := AList fun _ : String => ℕ

abbrev Adjacency := AList fun _ : String => List String

namespace PhaseGraph

/-- A map with one value for all the ids. -/
def collect {β : Type} (ids : List String) (value : β) : AList fun _ : String => β :=
  ids.foldl (fun map id => map.insert id value) ∅

/-- One turn of the loop over the edges. No value stands for a panic. -/
def addEdge (ids : List String) (maps : InDegree × Adjacency) (edge : String × String) :
    Option (Except PhaseGraphError (InDegree × Adjacency)) :=
  if edge.1 ∉ ids then some (.error .emptyGraph)
  else if edge.2 ∉ ids then some (.error .emptyGraph)
  else do
    let targets ← maps.2.lookup edge.1
    let degree ← maps.1.lookup edge.2
    some (.ok (maps.1.insert edge.2 (degree + 1), maps.2.insert edge.1 (targets ++ [edge.2])))

def addEdges (ids : List String) : List (String × String) → InDegree × Adjacency →
    Option (Except PhaseGraphError (InDegree × Adjacency))
  | [], maps => some (.ok maps)
  | edge :: edges, maps =>
    match addEdge ids maps edge with
    | none => none
    | some (.error e) => some (.error e)
    | some (.ok maps) => addEdges ids edges maps

def release (state : InDegree × List String) (neighbor : String) :
    Option (InDegree × List String) := do
  let degree ← state.1.lookup neighbor
  if degree = 0 then none
  else
    let degree := degree - 1
    some (state.1.insert neighbor degree,
      if degree = 0 then state.2 ++ [neighbor] else state.2)

/-- The loop over the queue, for at most the given turns: the number of phases taken. -/
def drain (adj : Adjacency) : ℕ → InDegree → List String → ℕ → Option ℕ
  | _, _, [], processed => some processed
  | 0, _, _ :: _, _ => none
  | turns + 1, inDegree, node :: queue, processed => do
    let (inDegree, queue) ← ((adj.lookup node).getD []).foldlM release (inDegree, queue)
    drain adj turns inDegree queue (processed + 1)

variable {Phase : Type*} (graph : PhaseGraph Phase)

/-- The validation, with the order in which the map of the degrees is read. Every phase is taken
at most once. -/
def validate (order : List String) : Option (Except PhaseGraphError Unit) :=
  if graph.phases.keys = [] then some (.error .emptyGraph)
  else do
    let ids := graph.phases.keys
    match ← addEdges ids graph.edges (collect ids 0, collect ids []) with
    | .error e => some (.error e)
    | .ok (inDegree, adj) =>
      let queue := order.filter fun id => inDegree.lookup id = some 0
      let processed ← drain adj ids.length inDegree queue 0
      if processed ≠ ids.length then some (.error (.cycleDetected []))
      else some (.ok ())

/-! ## The maps -/

def Table {β : Type} (ids : List String) (map : AList fun _ : String => β) (value : String → β) :
    Prop :=
  ∀ id ∈ ids, map.lookup id = some (value id)

theorem table_collect {β : Type} (ids : List String) (value : β) :
    Table ids (collect ids value) fun _ => value := by
  unfold collect
  have kept : ∀ (ids : List String) (map : AList fun _ : String => β) (id : String),
      id ∈ ids ∨ map.lookup id = some value →
        (ids.foldl (fun map id => map.insert id value) map).lookup id = some value := by
    intro ids
    induction ids with
    | nil =>
      intro map id known
      simpa using known
    | cons first ids ih =>
      intro map id known
      rw [List.foldl_cons]
      apply ih
      rw [Keyed.lookup_insert_eq_some_iff, List.mem_cons] at *
      tauto
  exact fun id member => kept ids ∅ id (.inl member)

theorem Table.insert {β : Type} {ids : List String} {map : AList fun _ : String => β}
    {value : String → β} (table : Table ids map value) (id : String) (new : β) :
    Table ids (map.insert id new) (Function.update value id new) := by
  intro other member
  rcases eq_or_ne other id with rfl | apart
  · rw [AList.lookup_insert, Function.update_self]
  · rw [AList.lookup_insert_ne apart, Function.update_of_ne apart, table other member]

theorem addEdges_of_known {ids : List String} (edges : List (String × String))
    {inDegree : InDegree} {adj : Adjacency} {degree : String → ℕ}
    {targets : String → List String} (counted : Table ids inDegree degree)
    (listed : Table ids adj targets) (known : ∀ e ∈ edges, e.1 ∈ ids ∧ e.2 ∈ ids) :
    ∃ inDegree' adj', addEdges ids edges (inDegree, adj) = some (.ok (inDegree', adj')) ∧
      Table ids inDegree' (fun v => degree v + Kahn.incoming edges [] v) ∧
      Table ids adj' (fun v => targets v ++ Kahn.targets edges v) := by
  induction edges generalizing inDegree adj degree targets with
  | nil =>
    refine ⟨inDegree, adj, rfl, counted, ?_⟩
    intro v member
    beta_reduce
    rw [listed v member, Kahn.targets, List.filter_nil, List.map_nil, List.append_nil]
  | cons edge edges ih =>
    obtain ⟨source, target⟩ := known edge List.mem_cons_self
    have step : addEdge ids (inDegree, adj) edge =
        some (.ok (inDegree.insert edge.2 (degree edge.2 + 1),
          adj.insert edge.1 (targets edge.1 ++ [edge.2]))) := by
      simp [addEdge, source, target, counted edge.2 target, listed edge.1 source]
    obtain ⟨inDegree', adj', run, counted', listed'⟩ := ih
      (counted.insert edge.2 (degree edge.2 + 1))
      (listed.insert edge.1 (targets edge.1 ++ [edge.2]))
      fun e member => known e (List.mem_cons_of_mem _ member)
    refine ⟨inDegree', adj', ?_, fun v member => ?_, fun v member => ?_⟩
    · simpa only [addEdges, step] using run
    · rw [counted' v member]
      beta_reduce
      rw [Kahn.incoming, Kahn.incoming, List.countP_cons]
      rcases eq_or_ne v edge.2 with rfl | apart
      · rw [Function.update_self]
        simp
        omega
      · rw [Function.update_of_ne apart]
        simp [apart.symm]
    · rw [listed' v member]
      beta_reduce
      rw [Kahn.targets, Kahn.targets]
      rcases eq_or_ne v edge.1 with rfl | apart
      · rw [Function.update_self]
        simp
      · rw [Function.update_of_ne apart]
        simp [apart.symm]

theorem addEdges_of_unknown {ids : List String} (edges : List (String × String))
    {inDegree : InDegree} {adj : Adjacency} {degree : String → ℕ}
    {targets : String → List String} (counted : Table ids inDegree degree)
    (listed : Table ids adj targets) (unknown : ¬∀ e ∈ edges, e.1 ∈ ids ∧ e.2 ∈ ids) :
    addEdges ids edges (inDegree, adj) = some (.error .emptyGraph) := by
  induction edges generalizing inDegree adj degree targets with
  | nil => exact absurd (fun e member => absurd member List.not_mem_nil) unknown
  | cons edge edges ih =>
    by_cases source : edge.1 ∈ ids
    · by_cases target : edge.2 ∈ ids
      · have step : addEdge ids (inDegree, adj) edge =
            some (.ok (inDegree.insert edge.2 (degree edge.2 + 1),
              adj.insert edge.1 (targets edge.1 ++ [edge.2]))) := by
          simp [addEdge, source, target, counted edge.2 target, listed edge.1 source]
        have later : ¬∀ e ∈ edges, e.1 ∈ ids ∧ e.2 ∈ ids := by
          intro known
          apply unknown
          simpa only [List.forall_mem_cons] using ⟨⟨source, target⟩, known⟩
        have run := ih (counted.insert edge.2 (degree edge.2 + 1))
          (listed.insert edge.1 (targets edge.1 ++ [edge.2])) later
        simpa only [addEdges, step] using run
      · simp [addEdges, addEdge, source, target]
    · simp [addEdges, addEdge, source]

/-! ## The queue -/

/-- The neighbors of a phase lose one predecessor for each edge, and those that lose the last one
are queued. -/
theorem foldlM_release {ids : List String} (ts queue : List String) {inDegree : InDegree}
    {degree : String → ℕ} (counted : Table ids inDegree degree)
    (inside : ∀ t ∈ ts, t ∈ ids) (enough : ∀ v, ts.count v ≤ degree v) :
    ∃ inDegree' added, ts.foldlM release (inDegree, queue) = some (inDegree', queue ++ added) ∧
      Table ids inDegree' (fun v => degree v - ts.count v) ∧ added.Nodup ∧
      ∀ v, v ∈ added ↔ v ∈ ts ∧ degree v = ts.count v := by
  induction ts generalizing inDegree queue degree with
  | nil =>
    refine ⟨inDegree, [], ?_, counted, List.nodup_nil, by simp⟩
    rw [List.append_nil]
    rfl
  | cons t ts ih =>
    -- no count goes below zero, so that the subtraction does not panic
    have positive : degree t ≠ 0 := by
      have := enough t
      rw [List.count_cons_self] at this
      omega
    have stepped : release (inDegree, queue) t =
        some (inDegree.insert t (degree t - 1),
          if degree t - 1 = 0 then queue ++ [t] else queue) := by
      simp [release, counted t (inside t List.mem_cons_self), positive]
    have counted' := counted.insert t (degree t - 1)
    have enough' : ∀ v, ts.count v ≤ Function.update degree t (degree t - 1) v := by
      intro v
      have bound := enough v
      rcases eq_or_ne v t with rfl | apart
      · rw [List.count_cons_self] at bound
        rw [Function.update_self]
        omega
      · rw [List.count_cons_of_ne apart.symm] at bound
        rwa [Function.update_of_ne apart]
    obtain ⟨inDegree', added, run, counted'', once, fresh⟩ :=
      ih (if degree t - 1 = 0 then queue ++ [t] else queue) counted'
        (fun v member => inside v (List.mem_cons_of_mem _ member)) enough'
    have left : ∀ v, Function.update degree t (degree t - 1) v - ts.count v =
        degree v - (t :: ts).count v := by
      intro v
      rcases eq_or_ne v t with rfl | apart
      · rw [Function.update_self, List.count_cons_self]
        omega
      · rw [Function.update_of_ne apart, List.count_cons_of_ne apart.symm]
    refine ⟨inDegree', (if degree t - 1 = 0 then [t] else []) ++ added, ?_, ?_, ?_, ?_⟩
    · rw [List.foldlM_cons, stepped]
      refine Eq.trans run ?_
      split <;> simp
    · intro v member
      rw [counted'' v member]
      exact congrArg some (left v)
    · split
      next last =>
        -- a phase without predecessors left has no entry among the rest
        have gone : t ∉ added := by
          intro member
          have there := ((fresh t).mp member).1
          have bound := enough t
          rw [List.count_cons_self] at bound
          have := List.count_pos_iff.mpr there
          omega
        simpa using ⟨gone, once⟩
      next => simpa using once
    · intro v
      rw [List.mem_append, fresh, List.mem_cons]
      rcases eq_or_ne v t with rfl | apart
      · rw [Function.update_self, List.count_cons_self]
        have bound := enough v
        rw [List.count_cons_self] at bound
        -- the last edge into a phase queues it, and no earlier one
        constructor
        · rintro (queued | ⟨there, all⟩)
          · split at queued
            next last => exact ⟨.inl rfl, by omega⟩
            next => cases queued
          · exact ⟨.inl rfl, by omega⟩
        · rintro ⟨-, all⟩
          rcases Nat.eq_zero_or_pos (ts.count v) with none | some
          · left
            rw [if_pos (by omega)]
            exact List.mem_cons_self
          · exact .inr ⟨List.count_pos_iff.mp some, by omega⟩
      · rw [Function.update_of_ne apart, List.count_cons_of_ne apart.symm]
        have other : v ∉ if degree t - 1 = 0 then [t] else [] := by
          split
          · simpa using apart
          · exact List.not_mem_nil
        simp [other, apart]

/-- The loop takes phases until none is ready, and never runs out of turns. -/
theorem drain_spec {ids : List String} {edges : List (String × String)} {adj : Adjacency}
    (listed : Table ids adj (Kahn.targets edges)) (closed : ∀ e ∈ edges, e.2 ∈ ids)
    (turns : ℕ) {inDegree : InDegree} {queue done : List String} {degree : String → ℕ}
    (counted : Table ids inDegree degree) (peeled : Kahn.Peeled edges ids degree queue done)
    (enough : ids.length ≤ turns + done.length) :
    ∃ degree' done', drain adj turns inDegree queue done.length = some done'.length ∧
      Kahn.Peeled edges ids degree' [] done' := by
  induction turns generalizing inDegree queue done degree with
  | zero =>
    -- every phase is done
    have full := (peeled.nodup.subperm peeled.inside).length_le
    rw [List.length_append] at full
    have empty : queue = [] := List.length_eq_zero_iff.mp (by omega)
    subst empty
    exact ⟨degree, done, rfl, peeled⟩
  | succ turns ih =>
    cases queue with
    | nil => exact ⟨degree, done, rfl, peeled⟩
    | cons node queue =>
      have phase : node ∈ ids := peeled.inside node List.mem_cons_self
      have targets : ∀ t ∈ Kahn.targets edges node, t ∈ ids := by
        intro t member
        obtain ⟨edge, there, rfl⟩ := List.mem_map.mp member
        exact closed edge (List.mem_filter.mp there).1
      have first : node ∉ done := by
        intro member
        have split : (node :: (queue ++ done)).Nodup := peeled.nodup
        exact (List.nodup_cons.mp split).1 (List.mem_append_right _ member)
      obtain ⟨inDegree', added, released, counted', once, fresh⟩ := foldlM_release
        (Kahn.targets edges node) queue counted targets (by
          intro v
          rw [peeled.counts, Kahn.incoming_cons first v]
          exact Nat.le_add_left ..)
      have peeled' := peeled.next closed (fun v => rfl) once fresh
      obtain ⟨degree'', done', run, last⟩ := ih counted' peeled' (by
        rw [List.length_cons]
        omega)
      refine ⟨degree'', done', ?_, last⟩
      -- every phase has an entry, so that the default is not used
      have known : (adj.lookup node).getD [] = Kahn.targets edges node := by
        rw [listed node phase]
        rfl
      rw [drain, known, released]
      exact run

/-! ## The validation -/

variable (order : List String)

/-- The phases that no edge comes into are what the loop starts from, in any order. -/
theorem peeled_ready {ids order : List String} {edges : List (String × String)}
    {inDegree : InDegree} (distinct : ids.Nodup) (perm : order.Perm ids)
    (counted : Table ids inDegree (Kahn.incoming edges [])) :
    Kahn.Peeled edges ids (Kahn.incoming edges [])
      (order.filter fun id => inDegree.lookup id = some 0) [] := by
  refine Kahn.peeled_start ((perm.nodup_iff.mpr distinct).filter _) (fun v => rfl) ?_
  intro v
  rw [List.mem_filter, perm.mem_iff]
  constructor
  · rintro ⟨member, none⟩
    have there := counted v member
    exact ⟨member, by simpa [there] using none⟩
  · rintro ⟨member, none⟩
    have there := counted v member
    exact ⟨member, by simpa [there] using none⟩

/-- What the validation comes to. It never panics, and the order of the maps does not matter. -/
theorem validate_eq [Decidable (Kahn.Acyclic graph.edges)]
    (perm : order.Perm graph.phases.keys) :
    graph.validate order = some (
      if graph.phases.keys = [] then .error .emptyGraph
      else if ∀ e ∈ graph.edges, e.1 ∈ graph.phases.keys ∧ e.2 ∈ graph.phases.keys then
        if Kahn.Acyclic graph.edges then .ok () else .error (.cycleDetected [])
      else .error .emptyGraph) := by
  unfold validate
  split
  next => rfl
  next =>
    have zero := table_collect graph.phases.keys 0
    have empty := table_collect graph.phases.keys ([] : List String)
    split
    next known =>
      obtain ⟨inDegree, adj, run, counted, listed⟩ :=
        addEdges_of_known graph.edges zero empty known
      have counted' : Table graph.phases.keys inDegree (Kahn.incoming graph.edges []) := by
        simpa using counted
      have listed' : Table graph.phases.keys adj (Kahn.targets graph.edges) := by
        simpa using listed
      have distinct : graph.phases.keys.Nodup := graph.phases.keys_nodup
      have peeled := peeled_ready distinct perm counted'
      obtain ⟨degree, done, drained, last⟩ := drain_spec listed' (fun e member => (known e member).2)
        graph.phases.keys.length counted' peeled (by simp)
      have all := last.length_eq_iff distinct known
      simp only [run, Option.bind_eq_bind, Option.bind_some]
      rw [List.length_nil] at drained
      rw [drained, Option.bind_some]
      split
      next cyclic => rw [if_neg (fun acyclic => cyclic (all.mpr acyclic))]
      next complete => rw [if_pos (all.mp (not_not.mp complete))]
    next unknown =>
      have run := addEdges_of_unknown graph.edges zero empty unknown
      simp only [run, Option.bind_eq_bind, Option.bind_some]

/-- A graph is valid exactly if it has a phase, all ends of its edges are phases, and its edges
have no cycle, whatever the order of the maps. -/
theorem valid_iff_acyclic (perm : order.Perm graph.phases.keys) :
    graph.validate order = some (.ok ()) ↔
      graph.phases.keys ≠ [] ∧ (∀ e ∈ graph.edges, e.1 ∈ graph.phases ∧ e.2 ∈ graph.phases) ∧
        ∀ v, ¬Relation.TransGen (fun a b => (a, b) ∈ graph.edges) v v := by
  classical
  rw [validate_eq graph order perm]
  change _ ↔ _ ∧ (∀ e ∈ graph.edges, e.1 ∈ graph.phases.keys ∧ e.2 ∈ graph.phases.keys) ∧
    Kahn.Acyclic graph.edges
  split
  next none => exact iff_of_false (by simp) fun valid => valid.1 none
  next nonempty =>
    split
    next known =>
      split
      next acyclic => exact iff_of_true rfl ⟨nonempty, known, acyclic⟩
      next cyclic => exact iff_of_false (by simp) fun valid => cyclic valid.2.2
    next unknown => exact iff_of_false (by simp) fun valid => unknown valid.2.1

def pipeline : PhaseGraph Unit where
  phases := collect ["decode", "prefill", "embed"] ()
  edges := [("embed", "prefill"), ("prefill", "decode"), ("embed", "prefill")]

theorem pipeline_valid :
    (∀ e ∈ pipeline.edges, e.1 ∈ pipeline.phases ∧ e.2 ∈ pipeline.phases) ∧
      ∀ v, ¬Relation.TransGen (fun a b => (a, b) ∈ pipeline.edges) v v :=
  ((valid_iff_acyclic pipeline ["prefill", "embed", "decode"] (by decide)).mp (by decide)).2

/-- An edge from a phase to itself is a cycle. -/
example : ({ pipeline with edges := [("decode", "decode")] } : PhaseGraph Unit).validate
    ["decode", "prefill", "embed"] = some (.error (.cycleDetected [])) := by
  decide

end PhaseGraph

end TribunusCompute.Scheduling
