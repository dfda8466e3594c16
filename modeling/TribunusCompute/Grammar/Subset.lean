import TribunusCompute.Grammar.Fsm

/-!
# Subset construction

The states of the DFA are numbered sets of NFA states. Once a set is expanded its
edges lead to the sets that the NFA steps to, so that the DFA accepts what the NFA
accepts.
-/
namespace TribunusCompute.Gbnf

structure Numbered (nfa : List NFAState) (sets : List StateSet) (b : DfaBuilder) : Prop where
  length : b.dfaStates.length = sets.length
  lookup : ∀ set i, b.stateMap.lookup set = some i ↔ sets[i]? = some set
  accepts : ∀ (i : ℕ) (state : DFAState) (set : StateSet), b.dfaStates[i]? = some state → sets[i]? = some set →
    state.isAccept = accepting nfa set
  inside : ∀ set ∈ sets, InStates nfa set

/-- The edges of a set for the given characters: one for each that leads somewhere. -/
structure EdgesOf (nfa : List NFAState) (sets : List StateSet) (set : StateSet)
    (edges : List (Char × ℕ)) (chars : List Char) : Prop where
  labels : edges.map Prod.fst = chars.filter fun ch => nfaTransition nfa set ch ≠ ∅
  targets : ∀ edge ∈ edges, sets[edge.2]? = some (nfaTransition nfa set edge.1)

theorem getElem?_concat {α : Type*} {l : List α} {x y : α} {i : ℕ} :
    (l ++ [x])[i]? = some y ↔ l[i]? = some y ∨ i = l.length ∧ y = x := by
  rw [List.getElem?_append]
  split
  next early =>
    constructor
    · exact .inl
    · rintro (there | ⟨rfl, -⟩)
      · exact there
      · exact absurd early (lt_irrefl _)
  next late =>
    rw [List.getElem?_eq_none_iff.mpr (Nat.le_of_not_lt late), List.getElem?_singleton]
    split
    next first =>
      simp only [Option.some.injEq, reduceCtorEq, false_or, show i = l.length by omega, true_and]
      exact eq_comm
    next beyond =>
      simp only [reduceCtorEq, false_or, false_iff, not_and]
      omega

def DfaBuilder.edges (b : DfaBuilder) (i : ℕ) : List (Char × ℕ) :=
  match b.dfaStates[i]? with
  | some state => state.transitions
  | none => []

section
variable {nfa : List NFAState} {sets : List StateSet} {b : DfaBuilder}

theorem edges_modify (states : List DFAState) (stateMap : AList fun _ : StateSet => ℕ)
    (queue : List StateSet) (source i : ℕ) (inside : source < states.length)
    (f : List (Char × ℕ) → List (Char × ℕ)) :
    (DfaBuilder.mk (states.modify source fun state =>
        { state with transitions := f state.transitions }) stateMap queue).edges i =
      if i = source then f ((DfaBuilder.mk states stateMap queue).edges source)
      else (DfaBuilder.mk states stateMap queue).edges i := by
  simp only [DfaBuilder.edges, List.getElem?_modify]
  rcases eq_or_ne i source with rfl | apart
  · simp [inside]
  · cases states[i]? with
    | none => simp [apart]
    | some state => simp [apart, apart.symm]

theorem Numbered.modify (numbered : Numbered nfa sets b) (source : ℕ)
    (f : List (Char × ℕ) → List (Char × ℕ)) :
    Numbered nfa sets { b with
      dfaStates := b.dfaStates.modify source fun state =>
        { state with transitions := f state.transitions } } where
  length := (List.length_modify ..).trans numbered.length
  lookup := numbered.lookup
  accepts i state set at_i there := by
    simp only [List.getElem?_modify] at at_i
    cases before : b.dfaStates[i]? with
    | none => simp [before] at at_i
    | some old =>
      rw [before] at at_i
      have kept := numbered.accepts i old set before there
      split at at_i
      next =>
        cases at_i
        exact kept
      next =>
        cases at_i
        exact kept
  inside := numbered.inside

theorem Numbered.addSet (numbered : Numbered nfa sets b) {set : StateSet}
    (fresh : b.stateMap.lookup set = none) (inside : InStates nfa set) :
    Numbered nfa (sets ++ [set]) (b.addSet nfa set) where
  length := by
    rw [DfaBuilder.addSet, List.length_append, List.length_append, numbered.length]
    rfl
  lookup other i := by
    rw [DfaBuilder.addSet, getElem?_concat]
    rcases eq_or_ne other set with rfl | apart
    · have absent : sets[i]? ≠ some other := fun there =>
        Option.some_ne_none i (((numbered.lookup other i).mpr there).symm.trans fresh)
      simp [absent, numbered.length, eq_comm]
    · simp [AList.lookup_insert_ne apart, numbered.lookup, apart]
  accepts i state other at_i there := by
    rw [DfaBuilder.addSet, getElem?_concat, numbered.length] at at_i
    rcases getElem?_concat.mp there with early | ⟨rfl, rfl⟩
    · rcases at_i with at_i | ⟨rfl, -⟩
      · exact numbered.accepts i state other at_i early
      · exact absurd (List.getElem?_eq_some_iff.mp early).1 (lt_irrefl _)
    · rcases at_i with at_i | ⟨-, rfl⟩
      · have early := (List.getElem?_eq_some_iff.mp at_i).1
        rw [numbered.length] at early
        exact absurd early (lt_irrefl _)
      · rfl
  inside other member := by
    rcases List.mem_append.mp member with old | new
    · exact numbered.inside other old
    · rwa [List.mem_singleton.mp new]

theorem edges_addSet (set : StateSet) (i : ℕ) : (b.addSet nfa set).edges i = b.edges i := by
  unfold DfaBuilder.edges
  cases after : (b.addSet nfa set).dfaStates[i]? with
  | none =>
    have beyond := List.getElem?_eq_none_iff.mp after
    rw [DfaBuilder.addSet, List.length_append] at beyond
    rw [List.getElem?_eq_none_iff.mpr (by omega)]
  | some state =>
    rcases getElem?_concat.mp after with old | ⟨rfl, rfl⟩
    · rw [old]
    · rw [List.getElem?_eq_none_iff.mpr le_rfl]

theorem EdgesOf.mono {set : StateSet} {edges : List (Char × ℕ)} {chars : List Char}
    (edgesOf : EdgesOf nfa sets set edges chars) (more : List StateSet) :
    EdgesOf nfa (sets ++ more) set edges chars where
  labels := edgesOf.labels
  targets edge member := by
    have there := edgesOf.targets edge member
    rw [List.getElem?_append_left (List.getElem?_eq_some_iff.mp there).1, there]

theorem EdgesOf.append {set : StateSet} {edges edges' : List (Char × ℕ)}
    {chars chars' : List Char} (edgesOf : EdgesOf nfa sets set edges chars)
    (edgesOf' : EdgesOf nfa sets set edges' chars') :
    EdgesOf nfa sets set (edges ++ edges') (chars ++ chars') where
  labels := by rw [List.map_append, List.filter_append, edgesOf.labels, edgesOf'.labels]
  targets edge member := by
    rcases List.mem_append.mp member with early | late
    · exact edgesOf.targets edge early
    · exact edgesOf'.targets edge late

/-- One character: the sets that become known, and the edges that the current state gains. -/
theorem visitChar_spec (inRange : InRange nfa) (numbered : Numbered nfa sets b) (set : StateSet)
    {k : ℕ} (inside : k < sets.length) (ch : Char) :
    ∃ more new, Numbered nfa (sets ++ more) (b.visitChar nfa set k ch) ∧
      (b.visitChar nfa set k ch).queue = b.queue ++ more ∧
      EdgesOf nfa (sets ++ more) set new [ch] ∧
      ∀ i, (b.visitChar nfa set k ch).edges i = b.edges i ++ if i = k then new else [] := by
  have addEdge (b : DfaBuilder) (length : k < b.dfaStates.length) (target i : ℕ) :
      (b.addEdge k ch target).edges i =
        b.edges i ++ if i = k then [(ch, target)] else [] := by
    refine (edges_modify b.dfaStates b.stateMap b.queue k i length (· ++ [(ch, target)])).trans ?_
    split
    next here => rw [here]
    next => rw [List.append_nil]
  unfold DfaBuilder.visitChar
  simp only
  split
  next nowhere =>
    refine ⟨[], [], ?_, (List.append_nil _).symm, ⟨?_, ?_⟩, fun i => ?_⟩
    · rwa [List.append_nil]
    · simp [nowhere]
    · simp
    · rw [ite_self, List.append_nil]
  next somewhere =>
    split
    next id found =>
      -- The target is numbered already.
      refine ⟨[], [(ch, id)], ?_, (List.append_nil _).symm, ⟨?_, ?_⟩, fun i => ?_⟩
      · rw [List.append_nil]
        exact numbered.modify k (· ++ [(ch, id)])
      · simp [somewhere]
      · rw [List.append_nil]
        rintro edge member
        rw [List.mem_singleton.mp member]
        exact (numbered.lookup _ _).mp found
      · exact addEdge b (numbered.length ▸ inside) id i
    next fresh =>
      have grown := numbered.addSet fresh (inStates_nfaTransition inRange set ch)
      refine ⟨[nfaTransition nfa set ch], [(ch, b.dfaStates.length)],
        grown.modify k (· ++ [(ch, b.dfaStates.length)]), rfl, ⟨?_, ?_⟩, fun i => ?_⟩
      · simp [somewhere]
      · rintro edge member
        rw [List.mem_singleton.mp member, numbered.length]
        simp
      · refine (addEdge (b.addSet nfa (nfaTransition nfa set ch)) ?_ _ i).trans ?_
        · rw [grown.length, List.length_append]
          omega
        · rw [edges_addSet]

theorem visitChars_spec (inRange : InRange nfa) (numbered : Numbered nfa sets b) (set : StateSet)
    {k : ℕ} (inside : k < sets.length) (chars : List Char) :
    ∃ more new, Numbered nfa (sets ++ more) (chars.foldl (DfaBuilder.visitChar nfa set k) b) ∧
      (chars.foldl (DfaBuilder.visitChar nfa set k) b).queue = b.queue ++ more ∧
      EdgesOf nfa (sets ++ more) set new chars ∧
      ∀ i, (chars.foldl (DfaBuilder.visitChar nfa set k) b).edges i =
        b.edges i ++ if i = k then new else [] := by
  induction chars generalizing sets b with
  | nil =>
    refine ⟨[], [], ?_, (List.append_nil _).symm, ⟨rfl, by simp⟩, fun i => ?_⟩
    · rwa [List.append_nil]
    · rw [ite_self, List.append_nil]
      rfl
  | cons ch chars ih =>
    obtain ⟨more, new, numbered', queue, edgesOf, edges⟩ :=
      visitChar_spec inRange numbered set inside ch
    obtain ⟨more', new', numbered'', queue', edgesOf', edges'⟩ :=
      ih numbered' (by rw [List.length_append]; omega)
    rw [List.append_assoc] at numbered'' edgesOf'
    refine ⟨more ++ more', new ++ new', numbered'', ?_, ?_, fun i => ?_⟩
    · rw [List.foldl_cons, queue', queue, List.append_assoc]
    · rw [← List.append_assoc]
      exact (edgesOf.mono more').append (List.append_assoc sets more more' ▸ edgesOf')
    · rw [List.foldl_cons, edges', edges, List.append_assoc]
      split <;> simp

/-- Edges with increasing labels are sorted and free of duplicates already. -/
theorem sortTransitions_eq {edges : List (Char × ℕ)}
    (sorted : edges.Pairwise fun a b => a.1 < b.1) : DfaBuilder.sortTransitions edges = edges := by
  have inOrder : edges.insertionSort (fun a b => a.1 ≤ b.1) = edges :=
    (sorted.imp fun below => below.le).insertionSort_eq
  rw [DfaBuilder.sortTransitions, inOrder]
  exact List.destutter_of_isChain _ _ (sorted.imp fun below => below.ne).isChain

/-- The sets expanded so far, and the queue behind them. -/
structure Progress (nfa : List NFAState) (chars : List Char) (done : List StateSet)
    (b : DfaBuilder) : Prop where
  numbered : Numbered nfa (done ++ b.queue) b
  expanded : ∀ i set, done[i]? = some set → EdgesOf nfa (done ++ b.queue) set (b.edges i) chars
  pending : ∀ i, done.length ≤ i → b.edges i = []

theorem EdgesOf.pairwise {set : StateSet} {edges : List (Char × ℕ)} {chars : List Char}
    (edgesOf : EdgesOf nfa sets set edges chars) (sorted : chars.Pairwise (· < ·)) :
    edges.Pairwise fun a b => a.1 < b.1 := by
  rw [← List.pairwise_map (f := Prod.fst) (R := (· < ·)), edgesOf.labels]
  exact sorted.filter _

theorem Progress.visitSet (inRange : InRange nfa) {chars : List Char}
    (sorted : chars.Pairwise (· < ·)) {done queue : List StateSet} {set : StateSet}
    (progress : Progress nfa chars done b) (front : b.queue = set :: queue) :
    Progress nfa chars (done ++ [set])
        (DfaBuilder.visitSet nfa chars { b with queue := queue } set) ∧
      queue <+: (DfaBuilder.visitSet nfa chars { b with queue := queue } set).queue := by
  obtain ⟨numbered, expanded, pending⟩ := progress
  rw [front] at numbered expanded
  have number : b.stateMap.lookup set = some done.length := by
    rw [numbered.lookup]
    simp
  have numbered₀ : Numbered nfa (done ++ set :: queue) { b with queue := queue } :=
    ⟨numbered.length, numbered.lookup, numbered.accepts, numbered.inside⟩
  have inside : done.length < (done ++ set :: queue).length := by simp
  obtain ⟨more, new, numbered', queue', edgesOf, edges⟩ :=
    visitChars_spec inRange numbered₀ set inside chars
  unfold DfaBuilder.visitSet
  simp only [number]
  -- the edges of the set are new, and those of the others unchanged
  generalize chars.foldl (DfaBuilder.visitChar nfa set done.length) { b with queue := queue } =
    b' at numbered' queue' edges
  have known : (done ++ [set]) ++ b'.queue = done ++ set :: queue ++ more := by
    rw [queue']
    simp
  have here : b'.edges done.length = new := by
    rw [edges, if_pos rfl]
    exact congrArg (· ++ new) (pending done.length le_rfl)
  have length : done.length < b'.dfaStates.length := by
    rw [numbered'.length]
    simp
  have after (i : ℕ) : (DfaBuilder.mk (b'.dfaStates.modify done.length fun state =>
      { state with transitions := DfaBuilder.sortTransitions state.transitions })
      b'.stateMap b'.queue).edges i = b'.edges i := by
    rw [edges_modify _ _ _ _ _ length]
    split
    -- they were made in the order of the characters, so that the sort leaves them
    next same =>
      rw [same]
      exact sortTransitions_eq (here ▸ edgesOf.pairwise sorted)
    next => rfl
  refine ⟨⟨?_, fun i other there => ?_, fun i beyond => ?_⟩, ⟨more, queue'.symm⟩⟩
  · rw [known]
    exact numbered'.modify done.length DfaBuilder.sortTransitions
  · simp only [known, after]
    rcases getElem?_concat.mp there with early | ⟨rfl, rfl⟩
    · rw [edges, if_neg (List.getElem?_eq_some_iff.mp early).1.ne, List.append_nil]
      exact (expanded i other early).mono more
    · rw [here]
      exact edgesOf
  · rw [List.length_append, List.length_singleton] at beyond
    rw [after, edges, if_neg (by omega), List.append_nil]
    exact pending i (by omega)

theorem Numbered.nodup (numbered : Numbered nfa sets b) : sets.Nodup := by
  rw [List.nodup_iff_injective_get]
  intro i j same
  have atI := (numbered.lookup _ _).mpr (List.getElem?_eq_getElem i.isLt)
  have atJ := (numbered.lookup _ _).mpr (List.getElem?_eq_getElem j.isLt)
  rw [show sets[i.val] = sets[j.val] from same] at atI
  exact Fin.ext (Option.some.inj (atI.symm.trans atJ))

/-- Every set is numbered at most once, so the turns suffice. -/
theorem run_progress (inRange : InRange nfa) {chars : List Char} (sorted : chars.Pairwise (· < ·))
    (turns : ℕ) {done : List StateSet} (progress : Progress nfa chars done b)
    (enough : 2 ^ nfa.length ≤ turns + done.length) :
    ∃ sets, Progress nfa chars sets (DfaBuilder.run nfa chars turns b) ∧
      (DfaBuilder.run nfa chars turns b).queue = [] ∧ done ++ b.queue <+: sets := by
  induction turns generalizing done b with
  | zero =>
    have bound := SortedSet.length_le_two_pow (U := Finset.range nfa.length)
      progress.numbered.nodup fun set member i there =>
        Finset.mem_range.mpr (progress.numbered.inside set member i there)
    rw [Finset.card_range, List.length_append] at bound
    have empty : b.queue = [] := List.length_eq_zero_iff.mp (by omega)
    refine ⟨done, progress, empty, ?_⟩
    rw [empty, List.append_nil]
  | succ turns ih =>
    rw [DfaBuilder.run]
    split
    next empty =>
      refine ⟨done, progress, empty, ?_⟩
      rw [empty, List.append_nil]
    next set queue front =>
      obtain ⟨next, rest, queue'⟩ := progress.visitSet inRange sorted front
      obtain ⟨sets, final, empty, extends_⟩ := ih next (by
        rw [List.length_append, List.length_singleton]
        omega)
      refine ⟨sets, final, empty, List.IsPrefix.trans ⟨rest, ?_⟩ extends_⟩
      rw [front, ← queue']
      simp

end

/-! ## The finished DFA -/

def walk (states : List DFAState) : ℕ → List Char → Option ℕ
  | i, [] => some i
  | i, ch :: chars => (findTransition states i ch).bind fun next => walk states next chars

/-- The states of the DFA are sets of NFA states, the first the closure of the start, and all
their edges are there. -/
structure Simulates (nfa : List NFAState) (start : ℕ) (sets : List StateSet)
    (dfa : List DFAState) : Prop where
  length : dfa.length = sets.length
  first : sets[0]? = some (epsilonClosure nfa (.ofList [start]))
  accepts : ∀ (i : ℕ) (state : DFAState) (set : StateSet), dfa[i]? = some state →
    sets[i]? = some set → state.isAccept = accepting nfa set
  edges : ∀ (i : ℕ) (state : DFAState) (set : StateSet), dfa[i]? = some state →
    sets[i]? = some set → EdgesOf nfa sets set state.transitions (alphabet nfa)

theorem pairwise_alphabet (nfa : List NFAState) : (alphabet nfa).Pairwise (· < ·) := by
  unfold alphabet
  simp only
  split
  next => exact SortedSet.sorted _
  next => exact SortedSet.sorted _

theorem mem_alphabet {nfa : List NFAState} (inRange : InRange nfa) {set : StateSet} {ch : Char}
    (somewhere : nfaTransition nfa set ch ≠ ∅) : ch ∈ alphabet nfa := by
  have own : ∃ state ∈ nfa, ∃ target, (some ch, target) ∈ state.transitions := by
    by_contra none_
    refine somewhere (SortedSet.eq_empty_iff.mpr fun i member => ?_)
    have step : i ∈ (toεNFA nfa 0).stepSet (StateSet.coe set) ch := by
      rw [← coe_nfaTransition inRange]
      exact member
    rw [εNFA.mem_stepSet_iff] at step
    obtain ⟨j, -, closure⟩ := step
    obtain ⟨target, edge, -⟩ := (εNFA.mem_εClosure_iff_exists _).mp closure
    obtain ⟨state, there, edge⟩ := exists_state_of_mem edge
    exact none_ ⟨state, there, target, edge⟩
  obtain ⟨state, there, target, edge⟩ := own
  have found : ch ∈ SortedSet.ofList
      (nfa.flatMap fun state => state.transitions.filterMap (·.1)) :=
    SortedSet.mem_ofList.mpr
      (List.mem_flatMap.mpr ⟨state, there, List.mem_filterMap.mpr ⟨_, edge, rfl⟩⟩)
  unfold alphabet
  simp only
  rw [if_neg fun empty => SortedSet.eq_empty_iff.mp empty ch found]
  exact found

theorem exists_progress {nfa : List NFAState} (inRange : InRange nfa) {start : ℕ}
    (inside : start < nfa.length) :
    let built := DfaBuilder.run nfa (alphabet nfa) (2 ^ nfa.length)
      (.init nfa (epsilonClosure nfa (.ofList [start])))
    ∃ sets, Progress nfa (alphabet nfa) sets built ∧ built.queue = [] ∧
      [epsilonClosure nfa (.ofList [start])] <+: sets := by
  have startIn : InStates nfa (.ofList [start]) := by
    intro i member
    rw [List.mem_singleton.mp (SortedSet.mem_ofList.mp member)]
    exact inside
  generalize closureEq : epsilonClosure nfa (.ofList [start]) = closure
  have initial : Progress nfa (alphabet nfa) [] (.init nfa closure) := by
    refine ⟨⟨rfl, fun set i => ?_, fun i state set at_i there => ?_, fun set member => ?_⟩,
      fun i set there => by simp at there, fun i _ => ?_⟩
    -- the numbering, the accepting flags, the range of the states, and no edges yet
    · rw [DfaBuilder.init, List.nil_append, List.getElem?_singleton]
      rcases eq_or_ne set closure with rfl | apart
      · rw [AList.lookup_insert]
        split
        next first => simp [first]
        next later => simp [Ne.symm later]
      · rw [AList.lookup_insert_ne apart, AList.lookup_empty]
        split <;> simp [apart.symm]
    · rw [DfaBuilder.init, List.getElem?_singleton] at at_i
      rw [DfaBuilder.init, List.nil_append, List.getElem?_singleton] at there
      split at at_i
      next first =>
        rw [if_pos first] at there
        cases at_i
        cases there
        rfl
      next => cases at_i
    · rw [List.mem_singleton.mp member, ← closureEq]
      exact inStates_epsilonClosure inRange startIn
    · unfold DfaBuilder.edges DfaBuilder.init
      rcases Nat.eq_zero_or_pos i with rfl | later
      · rfl
      · rw [List.getElem?_eq_none_iff.mpr later]
  exact run_progress inRange (pairwise_alphabet nfa) (2 ^ nfa.length) initial (by omega)

theorem exists_simulates {nfa : List NFAState} (inRange : InRange nfa) {start : ℕ}
    (inside : start < nfa.length) : ∃ sets, Simulates nfa start sets (nfaToDfa nfa start) := by
  obtain ⟨sets, final, empty, ⟨rest, known⟩⟩ := exists_progress inRange inside
  have numbered := final.numbered
  rw [empty, List.append_nil] at numbered
  unfold nfaToDfa
  refine ⟨sets, numbered.length, ?_, numbered.accepts, fun i state set at_i there => ?_⟩
  · rw [← known]
    rfl
  · have edgesOf := final.expanded i set there
    rw [empty, List.append_nil, DfaBuilder.edges, at_i] at edgesOf
    exact edgesOf

section
variable {nfa : List NFAState} {start : ℕ} {sets : List StateSet} {dfa : List DFAState}

theorem Simulates.findTransition (simulates : Simulates nfa start sets dfa)
    (inRange : InRange nfa) {i : ℕ} {set : StateSet} (there : sets[i]? = some set) (ch : Char) :
    match Gbnf.findTransition dfa i ch with
    | some next => sets[next]? = some (nfaTransition nfa set ch)
    | none => nfaTransition nfa set ch = ∅ := by
  have inside : i < dfa.length := by
    rw [simulates.length]
    exact (List.getElem?_eq_some_iff.mp there).1
  have at_i := List.getElem?_eq_getElem inside
  have edgesOf := simulates.edges i _ set at_i there
  have sorted := edgesOf.pairwise (pairwise_alphabet nfa)
  have search (idx : ℕ) := BinarySearch.search_eq_some_iff (k := ch) (i := idx) sorted 0 le_rfl
  cases found : Gbnf.findTransition dfa i ch with
  | some next =>
    simp only [Gbnf.findTransition, at_i, Option.bind_eq_bind, Option.bind_some,
      Option.bind_eq_some_iff, Option.map_eq_some_iff] at found
    obtain ⟨idx, searched, edge, at_idx, rfl⟩ := found
    obtain ⟨-, -, edge', at_idx', rfl⟩ := (search idx).mp searched
    obtain rfl : edge = edge' := Option.some.inj (at_idx.symm.trans at_idx')
    exact edgesOf.targets edge (List.mem_of_getElem? at_idx)
  | none =>
    by_contra somewhere
    have label : ch ∈ dfa[i].transitions.map Prod.fst := by
      rw [edgesOf.labels]
      exact List.mem_filter.mpr ⟨mem_alphabet inRange somewhere, by simpa using somewhere⟩
    obtain ⟨edge, member, rfl⟩ := List.mem_map.mp label
    obtain ⟨idx, at_idx⟩ := List.mem_iff_getElem?.mp member
    have searched := (search idx).mpr
      ⟨Nat.zero_le _, (List.getElem?_eq_some_iff.mp at_idx).1, edge, at_idx, rfl⟩
    simp [Gbnf.findTransition, at_i, searched, at_idx] at found

/-- After any characters the DFA is in the set of states that the NFA can be in. -/
theorem Simulates.walk (simulates : Simulates nfa start sets dfa) (inRange : InRange nfa)
    (chars : List Char) {i : ℕ} {set : StateSet} (there : sets[i]? = some set) :
    match Gbnf.walk dfa i chars with
    | some j => ∃ final, sets[j]? = some final ∧
        StateSet.coe final = chars.foldl (toεNFA nfa start).stepSet (StateSet.coe set)
    | none => chars.foldl (toεNFA nfa start).stepSet (StateSet.coe set) = ∅ := by
  induction chars generalizing i set with
  | nil => exact ⟨set, there, rfl⟩
  | cons ch chars ih =>
    have step := simulates.findTransition inRange there ch
    rw [Gbnf.walk, List.foldl_cons, ← coe_nfaTransition inRange]
    cases found : Gbnf.findTransition dfa i ch with
    | some next =>
      rw [found] at step
      exact ih step
    | none =>
      rw [found] at step
      have empty : StateSet.coe (nfaTransition nfa set ch) = ∅ :=
        Set.eq_empty_of_forall_notMem (SortedSet.eq_empty_iff.mp step)
      simp only [empty, Option.bind_none]
      clear ih step found empty
      induction chars with
      | nil => rfl
      | cons ch chars ih => rw [List.foldl_cons, εNFA.stepSet_empty, ih]

theorem accepting_iff {set : StateSet} : accepting nfa set = true ↔
    ∃ i ∈ (toεNFA nfa start).accept, i ∈ StateSet.coe set := by
  rw [accepting, List.any_eq_true]
  constructor
  · rintro ⟨i, member, accept⟩
    exact ⟨i, accept, member⟩
  · rintro ⟨i, accept, member⟩
    exact ⟨i, member, accept⟩

/-- The DFA reaches an accept state exactly on what the NFA accepts. -/
theorem walk_accepts_iff (inRange : InRange nfa) (inside : start < nfa.length)
    (chars : List Char) :
    (∃ j state, Gbnf.walk (nfaToDfa nfa start) 0 chars = some j ∧
        (nfaToDfa nfa start)[j]? = some state ∧ state.isAccept) ↔
      chars ∈ (toεNFA nfa start).accepts := by
  obtain ⟨sets, simulates⟩ := exists_simulates inRange inside
  have startIn : InStates nfa (.ofList [start]) := by
    intro i member
    rw [List.mem_singleton.mp (SortedSet.mem_ofList.mp member)]
    exact inside
  have closure : StateSet.coe (epsilonClosure nfa (.ofList [start])) =
      (toεNFA nfa start).εClosure {start} := by
    have single : StateSet.coe (.ofList [start]) = {start} := by
      ext i
      exact SortedSet.mem_ofList.trans List.mem_singleton
    ext i
    rw [← single]
    exact mem_epsilonClosure inRange start startIn i
  -- both automata start in corresponding states and read the same characters
  have walked := simulates.walk inRange chars simulates.first
  rw [closure] at walked
  change _ ↔ ∃ i ∈ (toεNFA nfa start).accept,
    i ∈ chars.foldl (toεNFA nfa start).stepSet ((toεNFA nfa start).εClosure {start})
  cases found : Gbnf.walk (nfaToDfa nfa start) 0 chars with
  | none =>
    rw [found] at walked
    simp [walked]
  | some j =>
    rw [found] at walked
    obtain ⟨final, there, coe⟩ := walked
    have insideJ : j < (nfaToDfa nfa start).length := by
      rw [simulates.length]
      exact (List.getElem?_eq_some_iff.mp there).1
    rw [← coe, ← accepting_iff, ← simulates.accepts j _ final
      (List.getElem?_eq_getElem insideJ) there]
    constructor
    · rintro ⟨j', state, same, at_j, accept⟩
      obtain rfl : j = j' := Option.some.inj same
      rw [List.getElem?_eq_getElem insideJ, Option.some.injEq] at at_j
      rwa [at_j]
    · intro accept
      exact ⟨j, _, rfl, List.getElem?_eq_getElem insideJ, accept⟩

end

theorem advanceChars_accepts_iff (fsm : GrammarFSM) (chars : List Char) :
    ((fsm.advanceChars chars).1.isOk ∧ (fsm.advanceChars chars).2.isAccepting) ↔
      ∃ j state, walk fsm.states fsm.currentState chars = some j ∧ fsm.states[j]? = some state ∧
        state.isAccept := by
  induction chars generalizing fsm with
  | nil =>
    rw [GrammarFSM.advanceChars, walk, GrammarFSM.isAccepting]
    cases there : fsm.states[fsm.currentState]? with
    | none => simp [there]
    | some state => simp [there, Except.isOk, Except.toBool]
  | cons ch chars ih =>
    rw [GrammarFSM.advanceChars, walk]
    cases found : findTransition fsm.states fsm.currentState ch with
    | none => simp [Except.isOk, Except.toBool]
    | some next => exact ih { fsm with currentState := next }

theorem accepts_nfaToDfa {nfa : List NFAState} (inRange : InRange nfa) {start : ℕ}
    (inside : start < nfa.length) (text : String) :
    (GrammarFSM.new (nfaToDfa nfa start) 0).Accepts text ↔
      text.toList ∈ (toεNFA nfa start).accepts :=
  (advanceChars_accepts_iff _ _).trans (walk_accepts_iff inRange inside _)

/-! ## Spellings

A path of an NFA spells the characters of the edges that it reads. The DFA has the spellings of
the paths that end in an accepting state, whatever cycles the NFA has. -/

/-- A path from the first state to the second spells the characters. -/
inductive Spells (nfa : List NFAState) : ℕ → List Char → ℕ → Prop
  | stop (i : ℕ) : Spells nfa i [] i
  | epsilon {i j k : ℕ} {chars : List Char} (edge : (none, j) ∈ (stateAt nfa i).transitions)
      (rest : Spells nfa j chars k) : Spells nfa i chars k
  | read {i j k : ℕ} {ch : Char} {chars : List Char}
      (edge : (some ch, j) ∈ (stateAt nfa i).transitions) (rest : Spells nfa j chars k) :
      Spells nfa i (ch :: chars) k

variable {nfa : List NFAState} {start : ℕ}

/-- The labels of a path without the epsilons are what it spells. -/
theorem spells_iff (start : ℕ) {i k : ℕ} {chars : List Char} :
    Spells nfa i chars k ↔
      ∃ labels : List (Option Char), labels.reduceOption = chars ∧
        (toεNFA nfa start).IsPath i k labels := by
  constructor
  · intro path
    induction path with
    | stop i => exact ⟨[], rfl, .nil i⟩
    | @epsilon i j k chars edge rest ih =>
      obtain ⟨labels, reduced, path⟩ := ih
      exact ⟨none :: labels, by simpa using reduced, .cons j i k none labels edge path⟩
    | @read i j k ch chars edge rest ih =>
      obtain ⟨labels, reduced, path⟩ := ih
      exact ⟨some ch :: labels, by simpa using reduced, .cons j i k (some ch) labels edge path⟩
  · rintro ⟨labels, rfl, path⟩
    induction path with
    | nil i => exact .stop i
    | cons j i k label labels edge path ih =>
      cases label with
      | none => exact .epsilon edge (by simpa using ih)
      | some ch =>
        rw [List.reduceOption_cons_of_some]
        exact .read edge ih

theorem mem_accepts_iff_spells {chars : List Char} :
    chars ∈ (toεNFA nfa start).accepts ↔
      ∃ i, Spells nfa start chars i ∧ (stateAt nfa i).isAccept := by
  rw [εNFA.mem_accepts_iff_exists_path]
  constructor
  · rintro ⟨first, last, labels, rfl, accept, reduced, path⟩
    exact ⟨last, (spells_iff _).mpr ⟨labels, reduced, path⟩, accept⟩
  · rintro ⟨last, path, accept⟩
    obtain ⟨labels, reduced, path⟩ := (spells_iff start).mp path
    exact ⟨start, last, labels, rfl, accept, reduced, path⟩

theorem Simulates.targets_lt {sets : List StateSet} {dfa : List DFAState}
    (simulates : Simulates nfa start sets dfa) {state : DFAState} (there : state ∈ dfa)
    {edge : Char × ℕ} (member : edge ∈ state.transitions) : edge.2 < dfa.length := by
  obtain ⟨i, inside, rfl⟩ := List.getElem_of_mem there
  have number : i < sets.length := simulates.length ▸ inside
  have edges := simulates.edges i _ _ (List.getElem?_eq_getElem inside)
    (List.getElem?_eq_getElem number)
  rw [simulates.length]
  exact (List.getElem?_eq_some_iff.mp (edges.targets edge member)).1

theorem Simulates.sorted {sets : List StateSet} {dfa : List DFAState}
    (simulates : Simulates nfa start sets dfa) {state : DFAState} (there : state ∈ dfa) :
    state.transitions.Pairwise fun edge edge' => edge.1 < edge'.1 := by
  obtain ⟨i, inside, rfl⟩ := List.getElem_of_mem there
  have number : i < sets.length := simulates.length ▸ inside
  have edges := simulates.edges i _ _ (List.getElem?_eq_getElem inside)
    (List.getElem?_eq_getElem number)
  exact edges.pairwise (pairwise_alphabet nfa)

/-- The subset construction of any NFA in range empties its queue. The DFA follows the characters
to an accepting state exactly where some path of the NFA spells them and ends in one, its edges
lead to its states, and the edges of each state go up by their characters, one for each. -/
theorem nfaToDfa_spells (inRange : InRange nfa) (inside : start < nfa.length) :
    (DfaBuilder.run nfa (alphabet nfa) (2 ^ nfa.length)
        (.init nfa (epsilonClosure nfa (.ofList [start])))).queue = [] ∧
      (∀ chars : List Char,
        (∃ i state, walk (nfaToDfa nfa start) 0 chars = some i ∧
            (nfaToDfa nfa start)[i]? = some state ∧ state.isAccept) ↔
          ∃ i, Spells nfa start chars i ∧ (stateAt nfa i).isAccept) ∧
      ∀ state ∈ nfaToDfa nfa start,
        (∀ edge ∈ state.transitions, edge.2 < (nfaToDfa nfa start).length) ∧
          state.transitions.Pairwise fun edge edge' => edge.1 < edge'.1 := by
  obtain ⟨sets, simulates⟩ := exists_simulates inRange inside
  obtain ⟨-, -, empty, -⟩ := exists_progress inRange inside
  refine ⟨empty, fun chars => ?_, fun state there => ?_⟩
  · exact (walk_accepts_iff inRange inside chars).trans mem_accepts_iff_spells
  · exact ⟨fun edge member => simulates.targets_lt there member, simulates.sorted there⟩

/-- An NFA with a cycle of epsilon edges, and two edges for one character. -/
theorem nfaToDfa_spells_cycle :
    let nfa : List NFAState :=
      [⟨[(none, 1), (some 'a', 0)], false⟩, ⟨[(none, 0), (some 'a', 2)], false⟩, ⟨[], true⟩]
    (DfaBuilder.run nfa (alphabet nfa) (2 ^ nfa.length)
        (.init nfa (epsilonClosure nfa (.ofList [0])))).queue = [] ∧
      (∀ chars : List Char,
        (∃ i state, walk (nfaToDfa nfa 0) 0 chars = some i ∧
            (nfaToDfa nfa 0)[i]? = some state ∧ state.isAccept) ↔
          ∃ i, Spells nfa 0 chars i ∧ (stateAt nfa i).isAccept) ∧
      ∀ state ∈ nfaToDfa nfa 0,
        (∀ edge ∈ state.transitions, edge.2 < (nfaToDfa nfa 0).length) ∧
          state.transitions.Pairwise fun edge edge' => edge.1 < edge'.1 := by
  intro nfa
  exact nfaToDfa_spells (by unfold InRange; decide) (by decide)

end TribunusCompute.Gbnf
