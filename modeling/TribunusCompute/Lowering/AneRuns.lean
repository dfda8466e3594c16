import TribunusCompute.Lowering.AneFusion

/-!
# The runs of the ANE fusion pass

The pass speaks of its runs by index. Here a schedule is a list of stretches, each a gap of other
regions and a body on the ANE, and a tail; the indices are the positions of the bodies. Bridging
joins two stretches with the gap between them, which is how a fused region comes to swallow
regions of other backends.
-/
namespace TribunusCompute.Lowering

/-! ## What the pass is to keep -/

def aneRuns (regions : List FusableRegion) : List (List FusableRegion) :=
  (regions.splitOnP fun region => !region.isAne).filter (· ≠ [])

def fusedRegion (parts : List FusableRegion) : Option FusableRegion :=
  mergeRun parts ⟨0, parts.length - 1, parts.length⟩

/-- A region of the result stands for itself or for a long enough run on the ANE. -/
inductive Replaces (config : AneFusionConfig) : FusableRegion → List FusableRegion → Prop
  | kept (region : FusableRegion) : Replaces config region [region]
  | fused {region : FusableRegion} {parts : List FusableRegion}
      (adjacent : ∀ part ∈ parts, part.isAne) (enough : config.minOpsToFuse ≤ parts.length)
      (merged : fusedRegion parts = some region) : Replaces config region parts

def placed (regions : List FusableRegion) : List (OperationId × BackendId) :=
  regions.flatMap fun region => region.operations.map fun op => (op, region.selectedBackend)

structure KeepsOperations (config : AneFusionConfig) (regions result : List FusableRegion) :
    Prop where
  operations : result.flatMap (fun region => region.operations) =
    regions.flatMap fun region => region.operations
  backends : placed result = placed regions
  runs : ∃ blocks : List (List FusableRegion), blocks.flatten = regions ∧
    List.Forall₂ (Replaces config) result blocks

/-- A run is followed by runs of one region, and these by another run, and with them it is long
enough to be fused. -/
def Bridges (config : AneFusionConfig) (regions : List FusableRegion) : Prop :=
  config.bridgeSingletons ∧ ∃ earlier length singletons next later,
    (aneRuns regions).map List.length =
      earlier ++ length :: (List.replicate (singletons + 1) 1 ++ next :: later) ∧
    config.minOpsToFuse ≤ length + (singletons + 1)

/-- The temporary memory of every run to be fused has a sum of 64 bits. -/
def MemoryFits (config : AneFusionConfig) (regions : List FusableRegion) : Prop :=
  ∀ run ∈ aneRuns regions, config.minOpsToFuse ≤ run.length →
    (run.map fun part => part.tempMemoryBytes).sum < 2 ^ 64

/-! ## Stretches -/

/-- Regions of other backends, then regions of which `len` are on the ANE. -/
structure Stretch where
  gap : List FusableRegion
  body : List FusableRegion
  len : ℕ

namespace Stretch

def all (stretch : Stretch) : List FusableRegion := stretch.gap ++ stretch.body

/-- The body is one run. -/
structure Plain (stretch : Stretch) : Prop where
  nonempty : stretch.body ≠ []
  ane : ∀ region ∈ stretch.body, region.isAne
  off : ∀ region ∈ stretch.gap, ¬region.isAne
  counted : stretch.len = stretch.body.length

end Stretch

/-- The stretches of a schedule and its tail, after a gap and an open run. -/
def stretchesFrom (gap run : List FusableRegion) :
    List FusableRegion → List Stretch × List FusableRegion
  | [] => if run = [] then ([], gap) else ([⟨gap, run, run.length⟩], [])
  | region :: rest =>
    if region.isAne then stretchesFrom gap (run ++ [region]) rest
    else if run = [] then stretchesFrom (gap ++ [region]) [] rest
    else
      let (later, tail) := stretchesFrom [region] [] rest
      (⟨gap, run, run.length⟩ :: later, tail)

section StretchesFrom

variable {gap run regions : List FusableRegion}

theorem stretchesFrom_flatten (gap run regions : List FusableRegion) :
    (stretchesFrom gap run regions).1.flatMap Stretch.all ++ (stretchesFrom gap run regions).2 =
      gap ++ run ++ regions := by
  induction regions generalizing gap run with
  | nil =>
    unfold stretchesFrom
    split
    next empty => simp [empty]
    next => simp [Stretch.all]
  | cons region rest ih =>
    unfold stretchesFrom
    split
    next => rw [ih, List.append_assoc, List.append_assoc, List.append_assoc]; rfl
    next =>
      split
      next empty => rw [ih, empty]; simp
      next =>
        dsimp only
        rw [List.flatMap_cons, List.append_assoc, ih]
        simp [Stretch.all]

theorem stretchesFrom_plain (off : ∀ region ∈ gap, ¬region.isAne)
    (ane : ∀ region ∈ run, region.isAne) :
    (∀ stretch ∈ (stretchesFrom gap run regions).1, stretch.Plain) ∧
      ∀ region ∈ (stretchesFrom gap run regions).2, ¬region.isAne := by
  induction regions generalizing gap run with
  | nil =>
    unfold stretchesFrom
    split
    next empty => exact ⟨by simp, off⟩
    next nonempty =>
      refine ⟨fun stretch member => ?_, by simp⟩
      obtain rfl := List.mem_singleton.mp member
      exact ⟨nonempty, ane, off, rfl⟩
  | cons region rest ih =>
    unfold stretchesFrom
    split
    next on =>
      apply ih off
      intro other member
      obtain earlier | last := List.mem_append.mp member
      · exact ane other earlier
      · rwa [List.mem_singleton.mp last]
    next elsewhere =>
      split
      next empty =>
        apply ih _ (by simp)
        intro other member
        obtain earlier | last := List.mem_append.mp member
        · exact off other earlier
        · rwa [List.mem_singleton.mp last]
      next nonempty =>
        obtain ⟨later, tail⟩ := @ih [region] [] (by simpa using elsewhere)
          (by simp)
        refine ⟨fun stretch member => ?_, tail⟩
        obtain rfl | there := List.mem_cons.mp member
        · exact ⟨nonempty, ane, off, rfl⟩
        · exact later stretch there

theorem stretchesFrom_gap (gapped : gap ≠ []) :
    ∀ stretch ∈ (stretchesFrom gap run regions).1, stretch.gap ≠ [] := by
  induction regions generalizing gap run with
  | nil =>
    unfold stretchesFrom
    split
    next => simp
    next => simpa using gapped
  | cons region rest ih =>
    unfold stretchesFrom
    split
    next => exact ih gapped
    next =>
      split
      next => exact ih (by simp)
      next =>
        intro stretch member
        obtain rfl | there := List.mem_cons.mp member
        · exact gapped
        · exact @ih [region] [] (by simp) stretch there

theorem stretchesFrom_tail_gap :
    ∀ stretch ∈ (stretchesFrom gap run regions).1.tail, stretch.gap ≠ [] := by
  induction regions generalizing gap run with
  | nil =>
    unfold stretchesFrom
    split <;> simp
  | cons region rest ih =>
    unfold stretchesFrom
    split
    next => exact ih
    next =>
      split
      next => exact ih
      next => exact stretchesFrom_gap (by simp)

theorem stretchesFrom_bodies :
    (stretchesFrom gap run regions).1.map Stretch.body =
      (List.splitOnPPrepend (fun region => !region.isAne) regions run.reverse).filter
        (· ≠ []) := by
  induction regions generalizing gap run with
  | nil =>
    unfold stretchesFrom
    split
    next empty => simp [empty]
    next nonempty => simp [nonempty]
  | cons region rest ih =>
    unfold stretchesFrom
    split
    next on =>
      rw [ih, List.splitOnPPrepend_cons_neg (by simp [on])]
      simp
    next elsewhere =>
      rw [List.splitOnPPrepend_cons_pos (by simpa using elsewhere)]
      split
      next empty =>
        rw [ih]
        simp [empty]
      next nonempty =>
        dsimp only
        rw [List.map_cons, ih]
        simp [nonempty]

end StretchesFrom

/-! ## Positions -/

def covered (stretches : List Stretch) : List FusableRegion := stretches.flatMap Stretch.all

/-- The runs of the stretches, the first of which begins at the offset. -/
def positions (offset : ℕ) : List Stretch → List AneRun
  | [] => []
  | stretch :: later =>
    ⟨offset + stretch.gap.length, offset + stretch.all.length - 1, stretch.len⟩ ::
      positions (offset + stretch.all.length) later

theorem covered_cons (stretch : Stretch) (later : List Stretch) :
    covered (stretch :: later) = stretch.all ++ covered later := List.flatMap_cons

theorem covered_append (earlier later : List Stretch) :
    covered (earlier ++ later) = covered earlier ++ covered later := List.flatMap_append

theorem length_positions (offset : ℕ) (stretches : List Stretch) :
    (positions offset stretches).length = stretches.length := by
  induction stretches generalizing offset with
  | nil => rfl
  | cons stretch later ih => simp [positions, ih]

theorem positions_append (offset : ℕ) (earlier later : List Stretch) :
    positions offset (earlier ++ later) =
      positions offset earlier ++ positions (offset + (covered earlier).length) later := by
  induction earlier generalizing offset with
  | nil => rfl
  | cons stretch rest ih =>
    rw [List.cons_append, positions, ih, positions, List.cons_append, covered_cons,
      List.length_append, Nat.add_assoc]

/-- The end of the scan: an open run is closed. -/
def closeRun (state : List AneRun × Option ℕ) (length : ℕ) : List AneRun :=
  match state.2 with
  | some start => state.1 ++ [⟨start, length - 1, length - start⟩]
  | none => state.1

/-- The scan after a gap and an open run finds the stretches from there. -/
theorem scan_eq (runs : List AneRun) (offset : ℕ) (gap run regions : List FusableRegion) :
    closeRun ((regions.zipIdx (offset + gap.length + run.length)).foldl scanRegion
        (runs, if run = [] then none else some (offset + gap.length)))
        (offset + gap.length + run.length + regions.length) =
      runs ++ positions offset (stretchesFrom gap run regions).1 := by
  induction regions generalizing runs offset gap run with
  | nil =>
    by_cases empty : run = []
    case pos => simp [empty, closeRun, stretchesFrom, positions]
    case neg =>
      simp only [List.zipIdx_nil, List.foldl_nil, if_neg empty, closeRun, stretchesFrom,
        positions, Stretch.all, List.length_nil, List.length_append]
      congr 3 <;> omega
  | cons region rest ih =>
    have step : offset + gap.length + run.length + (region :: rest).length =
        offset + gap.length + run.length + 1 + rest.length := by
      rw [List.length_cons]
      omega
    rw [List.zipIdx_cons, List.foldl_cons, step]
    by_cases on : region.isAne
    -- The open run grows, or one is opened at this region.
    case pos =>
      have opened : scanRegion (runs, if run = [] then none else some (offset + gap.length))
          (region, offset + gap.length + run.length) =
          (runs, if run ++ [region] = [] then none else some (offset + gap.length)) := by
        by_cases empty : run = []
        · simp [scanRegion, on, empty]
        · simp [scanRegion, on, empty]
      have longer := ih runs offset gap (run ++ [region])
      rw [List.length_append, List.length_singleton, ← Nat.add_assoc] at longer
      rw [opened, longer, stretchesFrom, if_pos on]
    case neg =>
      by_cases empty : run = []
      -- No run is open, and the region belongs to the gap.
      case pos =>
        have stays : scanRegion (runs, if run = [] then none else some (offset + gap.length))
            (region, offset + gap.length + run.length) = (runs, none) := by
          simp [scanRegion, on, empty]
        have longer := ih runs offset (gap ++ [region]) []
        simp only [List.length_append, List.length_singleton, List.length_nil, Nat.add_zero,
          if_true, ← Nat.add_assoc] at longer
        rw [stays, stretchesFrom, if_neg on, if_pos empty, ← longer, empty, List.length_nil]
      case neg =>
        -- The run is closed here, and the region begins the next gap.
        have closed : scanRegion (runs, if run = [] then none else some (offset + gap.length))
            (region, offset + gap.length + run.length) =
            (runs ++ [⟨offset + gap.length, offset + (gap ++ run).length - 1, run.length⟩],
              none) := by
          simp only [scanRegion, on, if_neg empty, List.length_append]
          congr 4 <;> omega
        have later := ih (runs ++ [⟨offset + gap.length, offset + (gap ++ run).length - 1,
          run.length⟩]) (offset + (gap ++ run).length) [region] []
        simp only [List.length_singleton, List.length_nil, Nat.add_zero, if_true] at later
        rw [closed, stretchesFrom, if_neg on, if_neg empty]
        dsimp only
        rw [← List.append_cons] at later
        refine Eq.trans ?_ later
        simp only [List.length_append, ← Nat.add_assoc]

/-! ## Bridging -/

/-- Two stretches as one. The gap between them goes into the body. -/
def Stretch.join (prev curr : Stretch) : Stretch :=
  ⟨prev.gap, prev.body ++ curr.all, prev.len + 1⟩

theorem Stretch.join_all (prev curr : Stretch) : (prev.join curr).all = prev.all ++ curr.all := by
  simp [Stretch.join, Stretch.all]

/-- The bridging of the stretches after `prev`, without the last one. -/
def absorb (prev : Stretch) : List Stretch → List Stretch
  | [] | [_] => [prev]
  | curr :: next :: later =>
    if curr.len = 1 then absorb (prev.join curr) (next :: later)
    else prev :: absorb curr (next :: later)

def bridge : List Stretch → List Stretch
  | [] => []
  | prev :: rest => absorb prev rest ++ rest.getLast?.toList

theorem getLast_positions (offset : ℕ) (earlier : List Stretch) (last : Stretch) :
    (positions offset (earlier ++ [last])).getLast? =
      some ⟨offset + (covered earlier).length + last.gap.length,
        offset + (covered (earlier ++ [last])).length - 1, last.len⟩ := by
  rw [positions_append, covered_append, List.length_append]
  simp [positions, covered, Nat.add_assoc]

theorem absorb_ne_nil (prev : Stretch) (rest : List Stretch) : absorb prev rest ≠ [] := by
  induction rest generalizing prev with
  | nil => simp [absorb]
  | cons curr rest ih =>
    cases rest with
    | nil => simp [absorb]
    | cons next later =>
      rw [absorb]
      split
      · exact ih _
      · simp

theorem covered_absorb (prev last : Stretch) (rest : List Stretch) :
    covered (absorb prev (rest ++ [last])) = covered (prev :: rest) := by
  induction rest generalizing prev with
  | nil => rfl
  | cons curr rest ih =>
    obtain ⟨next, later, same⟩ : ∃ next later, rest ++ [last] = next :: later :=
      List.exists_cons_of_ne_nil (by simp)
    rw [List.cons_append, same, absorb, ← same]
    split
    · rw [ih, covered_cons, covered_cons, covered_cons, Stretch.join_all, List.append_assoc]
    · rw [covered_cons, ih, covered_cons, covered_cons, covered_cons]

theorem covered_bridge (stretches : List Stretch) :
    covered (bridge stretches) = covered stretches := by
  cases stretches with
  | nil => rfl
  | cons prev rest =>
    obtain rfl | ⟨front, last, rfl⟩ := List.eq_nil_or_concat rest
    · simp [bridge, absorb]
    · rw [List.concat_eq_append, bridge, covered_append, covered_absorb]
      simp [covered_cons, covered_append]

/-- The lengths that bridging compares are positive and the bodies it spans have regions. -/
def Stretch.Solid (stretch : Stretch) : Prop := stretch.body ≠ [] ∧ 0 < stretch.len

theorem Stretch.Plain.solid {stretch : Stretch} (plain : stretch.Plain) : stretch.Solid := by
  refine ⟨plain.nonempty, ?_⟩
  rw [plain.counted]
  exact List.length_pos_iff.mpr plain.nonempty

theorem Stretch.Solid.join {prev : Stretch} (solid : prev.Solid) (curr : Stretch) :
    (prev.join curr).Solid :=
  ⟨by simp [Stretch.join, solid.1], Nat.succ_pos _⟩

theorem absorb_solid {prev : Stretch} {rest : List Stretch} (solid : prev.Solid)
    (solids : ∀ stretch ∈ rest, stretch.Solid) : ∀ stretch ∈ absorb prev rest, stretch.Solid := by
  induction rest generalizing prev with
  | nil => simpa [absorb] using solid
  | cons curr rest ih =>
    cases rest with
    | nil => simpa [absorb] using solid
    | cons next later =>
      have solids' : ∀ stretch ∈ next :: later, stretch.Solid := (List.forall_mem_cons.mp solids).2
      rw [absorb]
      split
      · exact ih (solid.join curr) solids'
      · intro stretch member
        obtain rfl | there := List.mem_cons.mp member
        · exact solid
        · exact ih (solids curr (by simp)) solids' stretch there

theorem foldl_bridgeRun (offset : ℕ) (done : List Stretch) (prev : Stretch) (rest : List Stretch)
    (solid : prev.Solid) (solids : ∀ stretch ∈ rest, stretch.Solid) :
    let runs := positions (offset + (covered (done ++ [prev])).length) rest
    (runs.zip runs.tail).foldl bridgeRun (positions offset (done ++ [prev])) =
      positions offset (done ++ absorb prev rest) := by
  induction rest generalizing done prev with
  | nil => rfl
  | cons curr rest ih =>
    cases rest with
    | nil => rfl
    | cons next later =>
      have solid' := solids curr (by simp)
      have solidNext := solids next (by simp)
      have solids' : ∀ stretch ∈ next :: later, stretch.Solid := (List.forall_mem_cons.mp solids).2
      -- The last run of the result is that of `prev`, which one turn of the loop extends or leaves.
      have at_ : positions offset (done ++ [prev]) = positions offset done ++
          [⟨offset + (covered done).length + prev.gap.length,
            offset + (covered done).length + prev.all.length - 1, prev.len⟩] :=
        positions_append offset done [prev]
      dsimp only
      rw [positions, positions, List.tail_cons, List.zip_cons_cons, List.foldl_cons, absorb]
      by_cases single : curr.len = 1
      case pos =>
        have joined := ih done (prev.join curr) (solid.join curr) solids'
        have ends : (covered (done ++ [prev.join curr])).length =
            (covered (done ++ [prev])).length + curr.all.length := by
          simp only [covered_append, covered_cons, Stretch.join_all, List.length_append]
          simp [covered]
          omega
        have turn : bridgeRun (positions offset (done ++ [prev]))
            (⟨offset + (covered (done ++ [prev])).length + curr.gap.length,
              offset + (covered (done ++ [prev])).length + curr.all.length - 1, curr.len⟩,
             ⟨offset + (covered (done ++ [prev])).length + curr.all.length + next.gap.length,
              offset + (covered (done ++ [prev])).length + curr.all.length + next.all.length - 1,
              next.len⟩) = positions offset (done ++ [prev.join curr]) := by
          rw [at_, bridgeRun, List.getLast?_concat]
          dsimp only
          rw [if_pos ⟨single, solid.2, solidNext.2⟩, List.dropLast_concat, positions_append]
          congr 3
          simp only [covered_append, covered_cons, Stretch.join_all, List.length_append]
          simp [covered]
          omega
        rw [if_pos single, ← joined, turn, ends, ← Nat.add_assoc]
        rfl
      case neg =>
        have moved := ih (done ++ [prev]) curr solid' solids'
        have ends : (covered (done ++ [prev] ++ [curr])).length =
            (covered (done ++ [prev])).length + curr.all.length := by
          simp [covered]
          omega
        have turn : bridgeRun (positions offset (done ++ [prev]))
            (⟨offset + (covered (done ++ [prev])).length + curr.gap.length,
              offset + (covered (done ++ [prev])).length + curr.all.length - 1, curr.len⟩,
             ⟨offset + (covered (done ++ [prev])).length + curr.all.length + next.gap.length,
              offset + (covered (done ++ [prev])).length + curr.all.length + next.all.length - 1,
              next.len⟩) = positions offset (done ++ [prev] ++ [curr]) := by
          rw [positions_append offset (done ++ [prev]) [curr], at_, bridgeRun,
            List.getLast?_concat]
          dsimp only
          rw [if_neg fun all => single all.1]
          rfl
        have parted : done ++ prev :: absorb curr (next :: later) =
            done ++ [prev] ++ absorb curr (next :: later) := List.append_cons _ _ _
        rw [if_neg single, parted, ← moved, turn, ends, ← Nat.add_assoc]
        rfl

theorem Stretch.Solid.all_pos {stretch : Stretch} (solid : stretch.Solid) :
    0 < stretch.all.length := by
  have body := List.length_pos_iff.mpr solid.1
  simp only [Stretch.all, List.length_append]
  omega

/-- The last run, which the loop leaves out, is not yet in the result. -/
theorem getLast_absorb_ne (prev last : Stretch) (rest : List Stretch) (solid : prev.Solid)
    (solid' : last.Solid) :
    (positions 0 (absorb prev (rest ++ [last]))).getLast?.map AneRun.stop ≠
      (positions 0 (prev :: (rest ++ [last]))).getLast?.map AneRun.stop := by
  obtain ⟨front, ending, parted⟩ : ∃ front ending, absorb prev (rest ++ [last]) =
      front ++ [ending] :=
    ⟨_, _, (List.dropLast_append_getLast (absorb_ne_nil prev _)).symm⟩
  have ends : (positions 0 (absorb prev (rest ++ [last]))).getLast?.map AneRun.stop =
      some ((covered (prev :: rest)).length - 1) := by
    have same := covered_absorb prev last rest
    rw [parted] at same ⊢
    rw [getLast_positions, same]
    simp
  rw [ends, ← List.cons_append, getLast_positions, covered_append]
  -- The last stretch has a region, so that its run stops later than the others.
  have first := solid.all_pos
  have second := solid'.all_pos
  simp only [Option.map_some, covered, List.flatMap_cons, List.flatMap_nil,
    List.length_append, List.length_nil, ne_eq, Option.some.injEq]
  omega

/-- The bridging of the pass is that of the stretches. -/
theorem bridgeSingletonRuns_positions (stretches : List Stretch)
    (solids : ∀ stretch ∈ stretches, stretch.Solid) :
    bridgeSingletonRuns (positions 0 stretches) = positions 0 (bridge stretches) := by
  match stretches, solids with
  | [], _ => rfl
  | [_], _ => rfl
  | [_, _], _ => rfl
  | prev :: curr :: next :: later, solids =>
    -- Fewer than three runs are returned as they are.
    have long : ¬(positions 0 (prev :: curr :: next :: later)).length < 3 := by
      simp [length_positions]
    obtain ⟨front, last, parted⟩ : ∃ front last, curr :: next :: later = front ++ [last] :=
      ⟨_, _, (List.dropLast_append_getLast (by simp)).symm⟩
    have solid := solids prev (by simp)
    have solid' := solids last (by simp [parted])
    have folded := foldl_bridgeRun 0 [] prev (curr :: next :: later) solid
      (List.forall_mem_cons.mp solids).2
    have result : ((positions 0 (prev :: curr :: next :: later)).tail.zip
        ((positions 0 (prev :: curr :: next :: later)).drop 2)).foldl bridgeRun
          ((positions 0 (prev :: curr :: next :: later)).take 1) =
        positions 0 (absorb prev (curr :: next :: later)) := by
      simpa [covered, positions] using folded
    rw [bridgeSingletonRuns, if_neg long]
    dsimp only
    rw [result, bridge, parted, if_pos (getLast_absorb_ne prev last front solid solid'),
      positions_append, covered_absorb, ← List.cons_append, getLast_positions,
      List.getLast?_concat]
    simp [positions, covered, Nat.add_assoc]

/-! ## The runs that the pass finds -/

/-- The stretches of a schedule, bridged where the configuration says so. -/
def stretches (config : AneFusionConfig) (regions : List FusableRegion) : List Stretch :=
  let found := (stretchesFrom [] [] regions).1
  if config.bridgeSingletons then bridge found else found

def tailOf (regions : List FusableRegion) : List FusableRegion :=
  (stretchesFrom [] [] regions).2

section Schedule

variable (config : AneFusionConfig) (regions : List FusableRegion)

theorem found_plain : ∀ stretch ∈ (stretchesFrom [] [] regions).1, stretch.Plain :=
  (stretchesFrom_plain (by simp) (by simp)).1

theorem found_bodies : (stretchesFrom [] [] regions).1.map Stretch.body = aneRuns regions :=
  stretchesFrom_bodies

theorem found_lengths : (stretchesFrom [] [] regions).1.map Stretch.len =
    (aneRuns regions).map List.length := by
  rw [← found_bodies, List.map_map]
  exact List.map_congr_left fun stretch member => (found_plain regions stretch member).counted

theorem covered_stretches : covered (stretches config regions) ++ tailOf regions = regions := by
  have whole := stretchesFrom_flatten [] [] regions
  unfold stretches tailOf
  split
  · rw [covered_bridge]
    exact whole
  · exact whole

theorem bridge_solid {found : List Stretch} (solids : ∀ stretch ∈ found, stretch.Solid) :
    ∀ stretch ∈ bridge found, stretch.Solid := by
  cases found with
  | nil => simp [bridge]
  | cons prev rest =>
    intro stretch member
    obtain absorbed | last := List.mem_append.mp member
    · exact absorb_solid (solids prev (by simp))
        (fun other there => solids other (List.mem_cons_of_mem _ there)) stretch absorbed
    · have there := List.mem_of_getLast? (Option.mem_toList.mp last)
      exact solids stretch (List.mem_cons_of_mem _ there)

theorem stretches_solid : ∀ stretch ∈ stretches config regions, stretch.Solid := by
  have solids : ∀ stretch ∈ (stretchesFrom [] [] regions).1, stretch.Solid :=
    fun stretch member => (found_plain regions stretch member).solid
  unfold stretches
  split
  · exact bridge_solid solids
  · exact solids

theorem bridge_of_short {found : List Stretch} (short : found.length < 2) :
    bridge found = found := by
  match found, short with
  | [], _ => rfl
  | [_], _ => rfl

theorem findAneRuns_eq : findAneRuns config regions = positions 0 (stretches config regions) := by
  have scanned := scan_eq [] 0 [] [] regions
  simp only [List.length_nil, Nat.add_zero, if_true, Nat.zero_add, List.nil_append] at scanned
  have solids : ∀ stretch ∈ (stretchesFrom [] [] regions).1, stretch.Solid :=
    fun stretch member => (found_plain regions stretch member).solid
  have closed : findAneRuns config regions =
      if config.bridgeSingletons && (positions 0 (stretchesFrom [] [] regions).1).length ≥ 2 then
        bridgeSingletonRuns (positions 0 (stretchesFrom [] [] regions).1)
      else positions 0 (stretchesFrom [] [] regions).1 := by
    rw [← scanned]
    rfl
  rw [closed, length_positions, bridgeSingletonRuns_positions _ solids]
  unfold stretches
  cases config.bridgeSingletons with
  | false => rfl
  | true =>
    by_cases long : (stretchesFrom [] [] regions).1.length ≥ 2
    · simp [long]
    · simp [long, bridge_of_short (Nat.lt_of_not_ge long)]

end Schedule

/-! ## What the pass emits -/

section Emission

variable (config : AneFusionConfig)

def emit (stretch : Stretch) : Option (List FusableRegion) :=
  if config.minOpsToFuse ≤ stretch.len then
    (fusedRegion stretch.body).map fun region => stretch.gap ++ [region]
  else some stretch.all

theorem extract_middle {α : Type*} (before middle after : List α) (start stop : ℕ)
    (inside : stop ≤ middle.length) :
    (before ++ middle ++ after).extract (before.length + start) (before.length + stop) =
      middle.extract start stop := by
  rw [List.extract_eq_take_drop, List.extract_eq_take_drop, List.append_assoc, List.drop_append,
    Nat.add_sub_add_left]
  by_cases order : start ≤ stop
  case pos =>
    have short : stop - start ≤ (middle.drop start).length := by
      rw [List.length_drop]
      omega
    rw [Nat.add_sub_cancel_left, List.drop_eq_nil_of_le (Nat.le_add_right _ _),
      List.nil_append, List.drop_append_of_le_length (Nat.le_trans order inside),
      List.take_append_of_le_length short]
  case neg =>
    have none_ : stop - start = 0 := by omega
    rw [none_, List.take_zero, List.take_zero]

theorem mergeRun_middle (before after : List FusableRegion) {body : List FusableRegion}
    (nonempty : body ≠ []) (len : ℕ) : mergeRun (before ++ body ++ after)
      ⟨before.length, before.length + body.length - 1, len⟩ = fusedRegion body := by
  have some_ := List.length_pos_iff.mpr nonempty
  have last : before.length + body.length - 1 = before.length + (body.length - 1) := by omega
  have at_ (i : ℕ) (inside : i < body.length) :
      (before ++ body ++ after)[before.length + i]? = body[i]? := by
    rw [List.append_assoc, List.getElem?_append_right (Nat.le_add_right _ _),
      Nat.add_sub_cancel_left, List.getElem?_append_left inside]
  have parts := extract_middle before body after 0 (body.length - 1 + 1) (by omega)
  have others := extract_middle before body after 1 (body.length - 1 + 1) (by omega)
  have first := at_ 0 some_
  have ending := at_ (body.length - 1) (by omega)
  rw [Nat.add_zero] at parts first
  simp only [mergeRun, fusedRegion, last, first, ending, Nat.add_assoc, parts, others]

/-- One turn of the loop emits the regions of its stretch. -/
theorem fuseRun_eq (before after : List FusableRegion) {stretch : Stretch}
    (nonempty : stretch.body ≠ []) (emitted : List FusableRegion) (descriptions : List String) :
    ∃ describe : List FusableRegion → List String,
      fuseRun config (before ++ stretch.all ++ after) ⟨before.length, emitted, descriptions⟩
        ⟨before.length + stretch.gap.length, before.length + stretch.all.length - 1, stretch.len⟩ =
      (emit config stretch).map fun out =>
        ⟨before.length + stretch.all.length, emitted ++ out, describe out⟩ := by
  have some_ := List.length_pos_iff.mpr nonempty
  -- where the stretch starts, stops and goes on, counted over the whole list
  have stop : before.length + stretch.all.length - 1 =
      (before ++ stretch.gap).length + stretch.body.length - 1 := by
    simp only [Stretch.all, List.length_append, Nat.add_assoc]
  have next : (before ++ stretch.gap).length + stretch.body.length - 1 + 1 =
      before.length + stretch.all.length := by
    simp only [Stretch.all, List.length_append]
    omega
  have parted : before ++ stretch.all ++ after =
      before ++ stretch.gap ++ stretch.body ++ after := by
    simp [Stretch.all]
  have gap : (before ++ stretch.all ++ after).extract before.length
      (before.length + stretch.gap.length) = stretch.gap := by
    simp [Stretch.all]
  have body : (before ++ stretch.all ++ after).extract (before ++ stretch.gap).length
      ((before ++ stretch.gap).length + stretch.body.length) = stretch.body := by
    rw [parted]
    simp
  have whole : (before ++ stretch.gap).length + stretch.body.length =
      before.length + stretch.all.length := by
    simp only [Stretch.all, List.length_append, Nat.add_assoc]
  have start : before.length + stretch.gap.length = (before ++ stretch.gap).length :=
    List.length_append.symm
  simp only [fuseRun, emit, gap, stop]
  split
  -- enough operations: the body becomes one region
  case isTrue enough =>
    refine ⟨fun out => descriptions ++ ["fused ANE regions " ++
      toString (before.length + stretch.gap.length) ++ "-" ++
      toString ((before ++ stretch.gap).length + stretch.body.length - 1) ++ " (" ++
      toString stretch.len ++ " ops) into region " ++
      toString ((out.getLast?.map fun region => region.regionId.id).getD 0)], ?_⟩
    rw [start, parted, mergeRun_middle (before ++ stretch.gap) after nonempty]
    cases fusedRegion stretch.body with
    | none => rfl
    | some region =>
      rw [Option.map_some, Option.map_some, Option.map_some, next]
      simp
  -- too few: the body is kept
  case isFalse short =>
    refine ⟨fun _ => if stretch.len > 1 then descriptions ++ ["skipped fusion of " ++
      toString stretch.len ++ " ops (below min_ops_to_fuse=" ++
      toString config.minOpsToFuse ++ ")"] else descriptions, ?_⟩
    rw [start, next, ← whole, body]
    simp [Stretch.all]

theorem foldlM_fuseRun (before tail : List FusableRegion) (rest : List Stretch)
    (bodies : ∀ stretch ∈ rest, stretch.body ≠ []) (emitted : List FusableRegion)
    (descriptions : List String) :
    ∃ describe : List (List FusableRegion) → List String,
      (positions before.length rest).foldlM (fuseRun config (before ++ covered rest ++ tail))
        ⟨before.length, emitted, descriptions⟩ =
      (rest.mapM (emit config)).map fun outs =>
        ⟨before.length + (covered rest).length, emitted ++ outs.flatten, describe outs⟩ := by
  induction rest generalizing before emitted descriptions with
  | nil => exact ⟨fun _ => descriptions, by simp [positions, covered]⟩
  | cons stretch later ih =>
    have whole : before ++ covered (stretch :: later) ++ tail =
        before ++ stretch.all ++ (covered later ++ tail) := by
      simp [covered_cons]
    have whole' : before ++ covered (stretch :: later) ++ tail =
        (before ++ stretch.all) ++ covered later ++ tail := by
      simp [covered_cons]
    obtain ⟨describe, turn⟩ := fuseRun_eq config before (covered later ++ tail)
      (bodies stretch (by simp)) emitted descriptions
    rw [← whole] at turn
    rw [positions, List.foldlM_cons, turn, List.mapM_cons]
    cases emits : emit config stretch with
    | none => exact ⟨fun _ => [], rfl⟩
    | some out =>
      obtain ⟨describe', rest⟩ := ih (before ++ stretch.all)
        (fun other member => bodies other (List.mem_cons_of_mem _ member)) (emitted ++ out)
        (describe out)
      rw [List.length_append, ← whole'] at rest
      refine ⟨fun outs => describe' outs.tail, ?_⟩
      simp only [Option.map_some, Option.bind_eq_bind, Option.bind_some, rest]
      cases later.mapM (emit config) with
      | none => rfl
      | some outs => simp [covered_cons, Nat.add_assoc]

/-- The pass emits the regions of each stretch, and then the tail. -/
theorem fuse_eq (regions : List FusableRegion) :
    (fuse config regions).map Prod.fst =
      ((stretches config regions).mapM (emit config)).map fun outs =>
        outs.flatten ++ tailOf regions := by
  by_cases empty : regions = []
  case pos =>
    subst empty
    cases bridges : config.bridgeSingletons <;>
      simp [fuse, stretches, bridges, stretchesFrom, bridge, tailOf]
  case neg =>
    have whole := covered_stretches config regions
    have bodies : ∀ stretch ∈ stretches config regions, stretch.body ≠ [] :=
      fun stretch member => (stretches_solid config regions stretch member).1
    obtain ⟨describe, loop⟩ := foldlM_fuseRun config [] (tailOf regions) (stretches config regions)
      bodies [] []
    rw [List.nil_append, whole, List.length_nil, Nat.zero_add] at loop
    have rest : regions.extract (covered (stretches config regions)).length regions.length =
        tailOf regions := by
      have parts := extract_middle (covered (stretches config regions)) (tailOf regions) [] 0
        (tailOf regions).length (Nat.le_refl _)
      rw [List.append_nil, whole, Nat.add_zero, ← List.length_append, whole] at parts
      simpa using parts
    simp only [fuse, if_neg empty, findAneRuns_eq, loop]
    cases (stretches config regions).mapM (emit config) with
    | none => rfl
    | some outs => simp [rest]

end Emission

end TribunusCompute.Lowering
