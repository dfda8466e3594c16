import TribunusCompute.Lowering.AneRuns

/-!
# What the ANE fusion pass keeps

Without a bridge the pass replaces runs by their merged regions and keeps all operations on their
backends. With a bridge that reaches the minimum it moves the regions of a gap onto the ANE.
-/
namespace TribunusCompute.Lowering

/-! ## Bridges -/

/-- The body has a region of another backend. -/
def Stretch.Swallows (stretch : Stretch) : Prop := ∃ region ∈ stretch.body, ¬region.isAne

theorem Stretch.Plain.not_swallows {stretch : Stretch} (plain : stretch.Plain) :
    ¬stretch.Swallows := by
  rintro ⟨region, member, off⟩
  exact off (plain.ane region member)

/-- The run of length `l` that `prev` began with, with the `k` runs of one that it absorbed, and
the runs after it: a stretch that swallows a region is a bridge of these. -/
theorem bridge_of_swallows {prev stretch : Stretch} {rest : List Stretch} {l k : ℕ}
    (counted : prev.len = l + k) (plain : k = 0 → prev.Plain) (followed : k ≠ 0 → rest ≠ [])
    (plains : ∀ stretch ∈ rest, stretch.Plain) (member : stretch ∈ absorb prev rest)
    (swallows : stretch.Swallows) :
    ∃ earlier length singletons next later,
      l :: (List.replicate k 1 ++ rest.map Stretch.len) =
        earlier ++ length :: (List.replicate (singletons + 1) 1 ++ next :: later) ∧
      stretch.len = length + (singletons + 1) := by
  induction rest generalizing prev l k with
  | nil =>
    obtain rfl := List.mem_singleton.mp member
    have none_ : k = 0 := by
      by_contra some_
      exact followed some_ rfl
    exact ((plain none_).not_swallows swallows).elim
  | cons curr rest ih =>
    -- The first stretch ends here: it is a bridge where it has absorbed a run.
    have here (first : stretch = prev) : ∃ earlier length singletons next later,
        l :: (List.replicate k 1 ++ (curr :: rest).map Stretch.len) =
          earlier ++ length :: (List.replicate (singletons + 1) 1 ++ next :: later) ∧
        stretch.len = length + (singletons + 1) := by
      subst first
      cases k with
      | zero => exact ((plain rfl).not_swallows swallows).elim
      | succ singletons =>
        exact ⟨[], l, singletons, curr.len, rest.map Stretch.len, rfl, counted⟩
    cases rest with
    | nil => exact here (List.mem_singleton.mp member)
    | cons next later =>
      have plains' : ∀ stretch ∈ next :: later, stretch.Plain := (List.forall_mem_cons.mp plains).2
      rw [absorb] at member
      split at member
      -- One more run is absorbed by the first stretch.
      case isTrue single =>
        obtain ⟨earlier, length, singletons, last, after, parted, same⟩ :=
          @ih (prev.join curr) l (k + 1) (by simp [Stretch.join, counted, Nat.add_assoc])
            (fun none_ => by simp at none_) (by simp) plains' member
        refine ⟨earlier, length, singletons, last, after, ?_, same⟩
        rw [← parted, List.replicate_succ', List.append_assoc, List.map_cons, single]
        rfl
      case isFalse =>
        obtain first | there := List.mem_cons.mp member
        · exact here first
        · obtain ⟨earlier, length, singletons, last, after, parted, same⟩ :=
            @ih curr curr.len 0 rfl (fun _ => plains curr (by simp)) (by simp) plains' there
          refine ⟨l :: List.replicate k 1 ++ earlier, length, singletons, last, after, ?_, same⟩
          rw [List.append_assoc, ← parted]
          rfl

theorem absorb_grows (prev : Stretch) (rest : List Stretch) :
    ∃ stretch ∈ absorb prev rest, prev.len ≤ stretch.len ∧
      ∀ region ∈ prev.body, region ∈ stretch.body := by
  induction rest generalizing prev with
  | nil => exact ⟨prev, by simp [absorb], Nat.le_refl _, fun _ => id⟩
  | cons curr rest ih =>
    cases rest with
    | nil => exact ⟨prev, by simp [absorb], Nat.le_refl _, fun _ => id⟩
    | cons next later =>
      rw [absorb]
      split
      · obtain ⟨stretch, member, longer, larger⟩ := ih (prev.join curr)
        refine ⟨stretch, member, by simp [Stretch.join] at longer; omega, fun region there => ?_⟩
        exact larger region (by simp [Stretch.join, there])
      · exact ⟨prev, by simp, Nat.le_refl _, fun _ => id⟩

/-- Every stretch has a gap, and nothing of it is on the ANE. -/
def Gapped (stretches : List Stretch) : Prop :=
  ∀ stretch ∈ stretches, stretch.gap ≠ [] ∧ ∀ region ∈ stretch.gap, ¬region.isAne

theorem join_swallows (prev : Stretch) {curr : Stretch} {rest : List Stretch}
    (gapped : Gapped (curr :: rest)) : (prev.join curr).Swallows := by
  obtain ⟨nonempty, off⟩ := gapped curr (by simp)
  obtain ⟨region, others, same⟩ := List.exists_cons_of_ne_nil nonempty
  exact ⟨region, by simp [Stretch.join, Stretch.all, same], off region (by simp [same])⟩

/-- A stretch absorbs the runs of one after it, where another run follows. -/
theorem absorb_singletons {prev : Stretch} {rest : List Stretch} {k next : ℕ} {later : List ℕ}
    (gapped : Gapped rest)
    (lengths : rest.map Stretch.len = List.replicate (k + 1) 1 ++ next :: later) :
    ∃ stretch ∈ absorb prev rest, prev.len + (k + 1) ≤ stretch.len ∧ stretch.Swallows := by
  induction k generalizing prev rest with
  | zero =>
    obtain ⟨curr, rest, rfl, single, lengths⟩ := List.map_eq_cons_iff.mp lengths
    obtain ⟨follows, after, rfl, -, -⟩ := List.map_eq_cons_iff.mp lengths
    obtain ⟨stretch, member, longer, larger⟩ := absorb_grows (prev.join curr) (follows :: after)
    obtain ⟨region, inside, off⟩ := join_swallows prev gapped
    rw [absorb, if_pos single]
    exact ⟨stretch, member, longer, region, larger region inside, off⟩
  | succ k ih =>
    obtain ⟨curr, rest, rfl, single, lengths⟩ := List.map_eq_cons_iff.mp lengths
    have gapped' : Gapped rest := (List.forall_mem_cons.mp gapped).2
    obtain ⟨stretch, member, longer, swallows⟩ := @ih (prev.join curr) rest gapped' lengths
    obtain ⟨follows, after, rfl⟩ : ∃ follows after, rest = follows :: after := by
      apply List.exists_cons_of_ne_nil
      rintro rfl
      simp at lengths
    rw [absorb, if_pos single]
    refine ⟨stretch, member, ?_, swallows⟩
    simp only [Stretch.join] at longer
    omega

theorem absorb_bridge {prev : Stretch} {rest : List Stretch} {earlier later : List ℕ}
    {length k next : ℕ} (gapped : Gapped rest)
    (lengths : rest.map Stretch.len =
      earlier ++ length :: (List.replicate (k + 1) 1 ++ next :: later)) :
    ∃ stretch ∈ absorb prev rest, length + (k + 1) ≤ stretch.len ∧ stretch.Swallows := by
  induction rest generalizing prev earlier with
  | nil => simp at lengths
  | cons curr rest ih =>
    have gapped' : Gapped rest := (List.forall_mem_cons.mp gapped).2
    obtain ⟨follows, after, rfl⟩ : ∃ follows after, rest = follows :: after := by
      apply List.exists_cons_of_ne_nil
      rintro rfl
      cases earlier <;> simp [List.replicate_succ] at lengths
    rw [absorb]
    cases earlier with
    -- The bridge begins at `curr`, whether the stretch before absorbs it or not.
    | nil =>
      obtain ⟨same, lengths'⟩ := List.cons_eq_cons.mp lengths
      split
      case isTrue single =>
        obtain ⟨stretch, member, longer, swallows⟩ :=
          @absorb_singletons (prev.join curr) _ _ _ _ gapped' lengths'
        refine ⟨stretch, member, ?_, swallows⟩
        simp only [Stretch.join] at longer
        omega
      case isFalse =>
        obtain ⟨stretch, member, longer, swallows⟩ :=
          @absorb_singletons curr _ _ _ _ gapped' lengths'
        exact ⟨stretch, List.mem_cons_of_mem _ member, by omega, swallows⟩
    | cons first earlier =>
      have lengths' := (List.cons_eq_cons.mp lengths).2
      split
      case isTrue => exact ih gapped' lengths'
      case isFalse =>
        obtain ⟨stretch, member, bridges⟩ := @ih curr earlier gapped' lengths'
        exact ⟨stretch, List.mem_cons_of_mem _ member, bridges⟩

/-- The length is the number of regions on the ANE. -/
def Stretch.Counted (stretch : Stretch) : Prop :=
  stretch.len = stretch.body.countP FusableRegion.isAne

theorem Stretch.Plain.countP {stretch : Stretch} (plain : stretch.Plain) : stretch.Counted := by
  unfold Stretch.Counted
  rw [plain.counted, List.countP_eq_length.mpr plain.ane]

theorem Stretch.Counted.join {prev curr : Stretch} (counted : prev.Counted) (plain : curr.Plain)
    (single : curr.len = 1) : (prev.join curr).Counted := by
  have body : curr.body.countP FusableRegion.isAne = 1 := plain.countP.symm.trans single
  have gap : curr.gap.countP FusableRegion.isAne = 0 := List.countP_eq_zero.mpr plain.off
  unfold Stretch.Counted at *
  simp [Stretch.join, Stretch.all, counted, body, gap]

theorem absorb_counted {prev : Stretch} {rest : List Stretch} (counted : prev.Counted)
    (plains : ∀ stretch ∈ rest, stretch.Plain) : ∀ stretch ∈ absorb prev rest, stretch.Counted := by
  induction rest generalizing prev with
  | nil => simpa [absorb] using counted
  | cons curr rest ih =>
    cases rest with
    | nil => simpa [absorb] using counted
    | cons next later =>
      have plain := plains curr (by simp)
      have plains' : ∀ stretch ∈ next :: later, stretch.Plain := (List.forall_mem_cons.mp plains).2
      rw [absorb]
      split
      case isTrue single => exact ih (counted.join plain single) plains'
      case isFalse =>
        intro stretch member
        obtain rfl | there := List.mem_cons.mp member
        · exact counted
        · exact ih plain.countP plains' stretch there

section Schedule

variable {config : AneFusionConfig} {regions : List FusableRegion}

theorem stretches_counted : ∀ stretch ∈ stretches config regions, stretch.Counted := by
  have plains := found_plain regions
  unfold stretches
  split
  case isFalse => exact fun stretch member => (plains stretch member).countP
  case isTrue =>
    intro stretch member
    cases found : (stretchesFrom [] [] regions).1 with
    | nil => simp [found, bridge] at member
    | cons prev rest =>
      rw [found] at plains member
      have plains' : ∀ stretch ∈ rest, stretch.Plain := (List.forall_mem_cons.mp plains).2
      obtain absorbed | last := List.mem_append.mp member
      · exact absorb_counted (plains prev (by simp)).countP plains' stretch absorbed
      · exact (plains' stretch (List.mem_of_getLast? (Option.mem_toList.mp last))).countP

theorem found_gapped : Gapped (stretchesFrom [] [] regions).1.tail := by
  intro stretch member
  exact ⟨stretchesFrom_tail_gap stretch member,
    (found_plain regions stretch (List.mem_of_mem_tail member)).off⟩

/-- Without a bridge, a stretch that is long enough is one run. -/
theorem plain_of_enough (bridgeless : ¬Bridges config regions) {stretch : Stretch}
    (member : stretch ∈ stretches config regions) (enough : config.minOpsToFuse ≤ stretch.len) :
    ¬stretch.Swallows := by
  have plains := found_plain regions
  have lengths := found_lengths regions
  unfold stretches at member
  split at member
  case isFalse => exact (plains stretch member).not_swallows
  case isTrue bridging =>
    intro swallows
    cases found : (stretchesFrom [] [] regions).1 with
    | nil => simp [found, bridge] at member
    | cons prev rest =>
      rw [found] at plains lengths member
      obtain absorbed | last := List.mem_append.mp member
      · obtain ⟨earlier, length, singletons, next, later, parted, same⟩ :=
          @bridge_of_swallows prev stretch rest prev.len 0 rfl (fun _ => plains prev (by simp))
            (by simp) (List.forall_mem_cons.mp plains).2 absorbed
            swallows
        refine bridgeless ⟨bridging, earlier, length, singletons, next, later, ?_, same ▸ enough⟩
        rw [← parted, ← lengths]
        rfl
      · have there := List.mem_of_getLast? (Option.mem_toList.mp last)
        exact (plains stretch (List.mem_cons_of_mem _ there)).not_swallows swallows

/-- With a bridge, a stretch that is long enough swallows a region. -/
theorem swallows_of_bridges (bridges : Bridges config regions) :
    ∃ stretch ∈ stretches config regions, config.minOpsToFuse ≤ stretch.len ∧
      stretch.Swallows := by
  obtain ⟨bridging, earlier, length, k, next, later, lengths, enough⟩ := bridges
  have gapped := @found_gapped regions
  rw [← found_lengths] at lengths
  unfold stretches
  rw [if_pos bridging]
  cases found : (stretchesFrom [] [] regions).1 with
  | nil =>
    rw [found] at lengths
    simp at lengths
  | cons prev rest =>
    rw [found] at lengths gapped
    have absorbed : ∃ stretch ∈ absorb prev rest, length + (k + 1) ≤ stretch.len ∧
        stretch.Swallows := by
      cases earlier with
      | nil =>
        obtain ⟨same, lengths⟩ := List.cons_eq_cons.mp lengths
        rw [← same]
        exact absorb_singletons gapped lengths
      | cons first earlier => exact absorb_bridge gapped (List.cons_eq_cons.mp lengths).2
    obtain ⟨stretch, member, longer, swallows⟩ := absorbed
    exact ⟨stretch, List.mem_append_left _ member, Nat.le_trans enough longer, swallows⟩

end Schedule

/-! ## A merged run -/

/-- The region for parts with these ends, where their memory fits. -/
def merged (first last : FusableRegion) (parts : List FusableRegion) : FusableRegion where
  regionId := fusedRegionId first.regionId last.regionId
  name := "ane_fused_r" ++ toString first.regionId.id ++ "-r" ++ toString last.regionId.id
  operations := parts.flatMap fun part => part.operations
  selectedBackend := aneId
  physicalTensors := parts.flatMap fun part => part.physicalTensors
  inputs := first.inputs
  outputs := last.outputs
  dependencies := first.dependencies
  fusions := parts.tail.map fun part => ⟨part.operations, .mlpBlock, true, some aneId⟩
  fusionRegions := []
  stateEffects := parts.flatMap fun part => part.stateEffects
  tempMemoryBytes := (parts.map fun part => part.tempMemoryBytes).sum
  isFence := false

theorem fusedRegion_eq {parts : List FusableRegion} (nonempty : parts ≠ []) :
    fusedRegion parts =
      if (parts.map fun part => part.tempMemoryBytes).sum < 2 ^ 64 then
        some (merged (parts.head nonempty) (parts.getLast nonempty) parts)
      else none := by
  have some_ := List.length_pos_iff.mpr nonempty
  have first : parts[0]? = some (parts.head nonempty) := by
    rw [← List.head?_eq_getElem?, List.head?_eq_some_head]
  have last : parts[parts.length - 1]? = some (parts.getLast nonempty) := by
    rw [← List.getLast?_eq_getElem?, List.getLast?_eq_some_getLast]
  have stop : parts.length - 1 + 1 = parts.length := by omega
  have whole : parts.extract 0 parts.length = parts := by simp
  have others : parts.extract (0 + 1) parts.length = parts.tail := by
    cases parts <;> simp
  simp only [fusedRegion, mergeRun, first, last, stop, whole, others, Option.bind_eq_bind,
    Option.bind_some]
  rfl

/-! ## What is kept -/

section Kept

variable {config : AneFusionConfig}

theorem KeepsOperations.refl (regions : List FusableRegion) :
    KeepsOperations config regions regions where
  operations := rfl
  backends := rfl
  runs := by
    refine ⟨regions.map fun region => [region], ?_, ?_⟩
    · rw [← List.flatMap_def, List.flatMap_singleton']
    · rw [List.forall₂_map_right_iff, List.forall₂_same]
      exact fun region _ => .kept region

theorem KeepsOperations.append {regions regions' result result' : List FusableRegion}
    (keeps : KeepsOperations config regions result)
    (keeps' : KeepsOperations config regions' result') :
    KeepsOperations config (regions ++ regions') (result ++ result') where
  operations := by
    rw [List.flatMap_append, List.flatMap_append, keeps.operations, keeps'.operations]
  backends := by
    simp only [placed, List.flatMap_append]
    exact congrArg₂ _ keeps.backends keeps'.backends
  runs := by
    obtain ⟨blocks, parted, replaced⟩ := keeps.runs
    obtain ⟨blocks', parted', replaced'⟩ := keeps'.runs
    refine ⟨blocks ++ blocks', ?_, List.rel_append replaced replaced'⟩
    rw [List.flatten_append, parted, parted']

theorem keeps_merged {body : List FusableRegion} {region : FusableRegion} (nonempty : body ≠ [])
    (ane : ∀ part ∈ body, part.isAne) (enough : config.minOpsToFuse ≤ body.length)
    (fused : fusedRegion body = some region) : KeepsOperations config body [region] := by
  have same := fused
  rw [fusedRegion_eq nonempty] at same
  split at same
  case isFalse => cases same
  case isTrue =>
    cases same
    refine ⟨by simp [merged], ?backends, [body], by simp, ?runs⟩
    case backends =>
      have on (part : FusableRegion) (member : part ∈ body) : part.selectedBackend = aneId := by
        simpa [FusableRegion.isAne] using ane part member
      simp only [placed, merged, List.flatMap_cons, List.flatMap_nil, List.append_nil,
        List.map_flatMap]
      exact List.flatMap_congr fun part member => by rw [on part member]
    case runs => exact .cons (.fused ane enough fused) .nil

theorem keeps_emit {stretch : Stretch} {out : List FusableRegion} (solid : stretch.Solid)
    (counted : stretch.Counted) (pure_ : config.minOpsToFuse ≤ stretch.len → ¬stretch.Swallows)
    (emitted : emit config stretch = some out) : KeepsOperations config stretch.all out := by
  unfold emit at emitted
  split at emitted
  case isTrue enough =>
    obtain ⟨region, fused, rfl⟩ := Option.map_eq_some_iff.mp emitted
    have clean := pure_ enough
    have ane : ∀ part ∈ stretch.body, part.isAne := by
      intro part member
      by_contra off
      exact clean ⟨part, member, off⟩
    rw [counted, List.countP_eq_length.mpr ane] at enough
    exact (KeepsOperations.refl stretch.gap).append (keeps_merged solid.1 ane enough fused)
  case isFalse =>
    cases emitted
    exact .refl _

/-- The regions of other backends. -/
def others (regions : List FusableRegion) : ℕ := regions.countP fun region => !region.isAne

theorem others_append (regions regions' : List FusableRegion) :
    others (regions ++ regions') = others regions + others regions' := List.countP_append

theorem merged_isAne {body : List FusableRegion} {region : FusableRegion} (nonempty : body ≠ [])
    (fused : fusedRegion body = some region) : region.isAne := by
  rw [fusedRegion_eq nonempty] at fused
  split at fused
  · cases fused
    simp [merged, FusableRegion.isAne]
  · cases fused

theorem others_eq_zero {regions : List FusableRegion} :
    others regions = 0 ↔ ∀ region ∈ regions, region.isAne := by
  simp [others, List.countP_eq_zero]

theorem KeepsOperations.others {regions result : List FusableRegion}
    (keeps : KeepsOperations config regions result) : others result = others regions := by
  obtain ⟨blocks, rfl, replaced⟩ := keeps.runs
  clear keeps
  induction replaced with
  | nil => rfl
  | @cons out block outs rest replaces later ih =>
    rw [← List.singleton_append, others_append, List.flatten_cons, others_append, ih]
    congr 1
    cases replaces with
    | kept => rfl
    -- Neither the run nor the region in its place has one.
    | fused adjacent enough fused =>
      have nonempty : block ≠ [] := by
        rintro rfl
        simp [fusedRegion, mergeRun] at fused
      rw [others_eq_zero.mpr adjacent]
      simpa [others_eq_zero] using merged_isAne nonempty fused

theorem others_emit {stretch : Stretch} {out : List FusableRegion} (solid : stretch.Solid)
    (emitted : emit config stretch = some out) : others out ≤ others stretch.all ∧
      (config.minOpsToFuse ≤ stretch.len → stretch.Swallows → others out < others stretch.all) := by
  unfold emit at emitted
  split at emitted
  case isTrue enough =>
    obtain ⟨region, fused, rfl⟩ := Option.map_eq_some_iff.mp emitted
    have on : others [region] = 0 := by
      simpa [others_eq_zero] using merged_isAne solid.1 fused
    rw [Stretch.all, others_append, others_append, on]
    refine ⟨by omega, fun _ swallows => ?_⟩
    -- The region that is swallowed is of another backend.
    have some_ : others stretch.body ≠ 0 := by
      intro none_
      obtain ⟨part, member, off⟩ := swallows
      exact off (others_eq_zero.mp none_ part member)
    omega
  case isFalse short =>
    cases emitted
    exact ⟨Nat.le_refl _, fun enough => (short enough).elim⟩

end Kept

/-! ## The pass -/

theorem mapM_some_iff {α β : Type*} {f : α → Option β} {as : List α} {bs : List β} :
    as.mapM f = some bs ↔ List.Forall₂ (fun a b => f a = some b) as bs := by
  induction as generalizing bs with
  | nil => cases bs <;> simp
  | cons a as ih =>
    rw [List.mapM_cons]
    cases first : f a with
    | none => cases bs <;> simp [first]
    | some b =>
      cases rest : as.mapM f with
      | none => cases bs <;> simp [← ih, rest, first]
      | some others => cases bs <;> simp [← ih, rest, first]

section Pass

variable {config : AneFusionConfig} {regions : List FusableRegion}

theorem fuse_eq_some {result : List FusableRegion} :
    (∃ descriptions, fuse config regions = some (result, descriptions)) ↔
      ∃ outs, List.Forall₂ (fun stretch out => emit config stretch = some out)
        (stretches config regions) outs ∧ result = outs.flatten ++ tailOf regions := by
  have same := fuse_eq config regions
  constructor
  case mp =>
    rintro ⟨descriptions, fused⟩
    rw [fused, Option.map_some] at same
    obtain ⟨outs, each, parts⟩ := Option.map_eq_some_iff.mp same.symm
    exact ⟨outs, mapM_some_iff.mp each, parts.symm⟩
  case mpr =>
    rintro ⟨outs, each, rfl⟩
    rw [mapM_some_iff.mpr each, Option.map_some] at same
    obtain ⟨⟨result, descriptions⟩, fused, rfl⟩ := Option.map_eq_some_iff.mp same
    exact ⟨descriptions, fused⟩

theorem keeps_outs {found : List Stretch} {outs : List (List FusableRegion)}
    (each : List.Forall₂ (fun stretch out => emit config stretch = some out) found outs)
    (keeps : ∀ stretch ∈ found, ∀ out, emit config stretch = some out →
      KeepsOperations config stretch.all out) :
    KeepsOperations config (covered found) outs.flatten := by
  induction each with
  | nil => exact .refl _
  | @cons stretch out found outs emitted later ih =>
    rw [covered_cons, List.flatten_cons]
    exact (keeps stretch (by simp) out emitted).append
      (ih fun other member => keeps other (List.mem_cons_of_mem _ member))

theorem others_outs {found : List Stretch} {outs : List (List FusableRegion)}
    (each : List.Forall₂ (fun stretch out => emit config stretch = some out) found outs)
    (solids : ∀ stretch ∈ found, stretch.Solid) :
    others outs.flatten ≤ others (covered found) ∧
      ((∃ stretch ∈ found, config.minOpsToFuse ≤ stretch.len ∧ stretch.Swallows) →
        others outs.flatten < others (covered found)) := by
  induction each with
  | nil => exact ⟨Nat.le_refl _, by simp⟩
  | @cons stretch out found outs emitted later ih =>
    obtain ⟨fewer, less⟩ := others_emit (solids stretch (by simp)) emitted
    obtain ⟨fewer', less'⟩ := ih fun other member => solids other (List.mem_cons_of_mem _ member)
    rw [covered_cons, List.flatten_cons, others_append, others_append]
    refine ⟨by omega, ?_⟩
    rintro ⟨other, member, enough, swallows⟩
    obtain rfl | there := List.mem_cons.mp member
    · have smaller := less enough swallows
      omega
    · have smaller := less' ⟨other, there, enough, swallows⟩
      omega

theorem absorb_mem {prev stretch : Stretch} {rest : List Stretch} (gapped : Gapped rest)
    (member : stretch ∈ absorb prev rest) :
    stretch.Swallows ∨ stretch = prev ∨ stretch ∈ rest := by
  induction rest generalizing prev with
  | nil => exact .inr (.inl (List.mem_singleton.mp member))
  | cons curr rest ih =>
    cases rest with
    | nil => exact .inr (.inl (List.mem_singleton.mp member))
    | cons next later =>
      have gapped' : Gapped (next :: later) := (List.forall_mem_cons.mp gapped).2
      rw [absorb] at member
      split at member
      case isTrue =>
        obtain swallows | rfl | there := ih gapped' member
        · exact .inl swallows
        · exact .inl (join_swallows prev gapped)
        · exact .inr (.inr (List.mem_cons_of_mem _ there))
      case isFalse =>
        obtain rfl | there := List.mem_cons.mp member
        · exact .inr (.inl rfl)
        · obtain swallows | rfl | there := ih gapped' there
          · exact .inl swallows
          · exact .inr (.inr (by simp))
          · exact .inr (.inr (List.mem_cons_of_mem _ there))

/-- A stretch that was found is still there, is the last one, or was absorbed. -/
theorem absorb_holds {prev : Stretch} {rest : List Stretch} (gapped : Gapped rest) :
    ∀ stretch ∈ prev :: rest, (stretch ∈ absorb prev rest ∨ rest.getLast? = some stretch) ∨
      ∃ larger ∈ absorb prev rest, larger.Swallows ∧ stretch.len ≤ larger.len := by
  induction rest generalizing prev with
  | nil => simp [absorb]
  | cons curr rest ih =>
    cases rest with
    | nil =>
      intro stretch member
      obtain rfl | there := List.mem_cons.mp member
      · simp [absorb]
      · simp [List.mem_singleton.mp there]
    | cons next later =>
      have gapped' : Gapped (next :: later) := (List.forall_mem_cons.mp gapped).2
      intro stretch member
      rw [absorb, List.getLast?_cons_cons]
      split
      case isTrue single =>
        obtain ⟨larger, inside, longer, bodies⟩ := absorb_grows (prev.join curr) (next :: later)
        obtain ⟨region, there, off⟩ := join_swallows prev gapped
        have swallows : larger.Swallows := ⟨region, bodies region there, off⟩
        simp only [Stretch.join] at longer
        obtain rfl | rest := List.mem_cons.mp member
        · exact .inr ⟨larger, inside, swallows, by omega⟩
        · obtain rfl | later := List.mem_cons.mp rest
          · exact .inr ⟨larger, inside, swallows, by omega⟩
          · exact ih gapped' stretch (List.mem_cons_of_mem _ later)
      case isFalse =>
        obtain rfl | rest := List.mem_cons.mp member
        · exact .inl (.inl (by simp))
        · obtain (there | last) | ⟨larger, inside, holds⟩ := ih gapped' stretch rest
          · exact .inl (.inl (List.mem_cons_of_mem _ there))
          · exact .inl (.inr last)
          · exact .inr ⟨larger, List.mem_cons_of_mem _ inside, holds⟩

/-- Without a bridge, the stretches that are long enough are those that were found. -/
theorem mem_stretches_iff (bridgeless : ¬Bridges config regions) {stretch : Stretch}
    (enough : config.minOpsToFuse ≤ stretch.len) :
    stretch ∈ stretches config regions ↔ stretch ∈ (stretchesFrom [] [] regions).1 := by
  have pure_ : ∀ stretch ∈ stretches config regions, config.minOpsToFuse ≤ stretch.len →
      ¬stretch.Swallows := fun stretch member => plain_of_enough bridgeless member
  have gapped := @found_gapped regions
  unfold stretches at *
  split at pure_ <;> rename_i bridging
  -- Nothing is absorbed where bridging is off.
  case isFalse => rw [if_neg bridging]
  case isTrue =>
    rw [if_pos bridging]
    cases found : (stretchesFrom [] [] regions).1 with
    | nil => rfl
    | cons prev rest =>
      rw [found] at pure_ gapped
      constructor
      case mp =>
        intro member
        obtain absorbed | last := List.mem_append.mp member
        · obtain swallows | rfl | there := absorb_mem gapped absorbed
          · exact (pure_ stretch member enough swallows).elim
          · simp
          · exact List.mem_cons_of_mem _ there
        · exact List.mem_cons_of_mem _ (List.mem_of_getLast? (Option.mem_toList.mp last))
      case mpr =>
        intro member
        obtain (there | last) | ⟨larger, inside, swallows, longer⟩ :=
          absorb_holds gapped stretch member
        · exact List.mem_append_left _ there
        · exact List.mem_append_right _ (Option.mem_toList.mpr last)
        · exact (pure_ larger (List.mem_append_left _ inside) (Nat.le_trans enough longer)
            swallows).elim

theorem exists_forall₂ {α β : Type*} {r : α → β → Prop} {as : List α}
    (each : ∀ a ∈ as, ∃ b, r a b) : ∃ bs, List.Forall₂ r as bs := by
  induction as with
  | nil => exact ⟨[], .nil⟩
  | cons a as ih =>
    obtain ⟨b, first⟩ := each a (by simp)
    obtain ⟨bs, rest⟩ := ih fun other member => each other (List.mem_cons_of_mem _ member)
    exact ⟨b :: bs, .cons first rest⟩

theorem exists_of_forall₂ {α β : Type*} {r : α → β → Prop} {as : List α} {bs : List β} {a : α}
    (each : List.Forall₂ r as bs) (member : a ∈ as) : ∃ b, r a b := by
  induction each with
  | nil => cases member
  | cons first rest ih =>
    obtain rfl | there := List.mem_cons.mp member
    · exact ⟨_, first⟩
    · exact ih there

theorem emit_iff {stretch : Stretch} (solid : stretch.Solid) :
    (∃ out, emit config stretch = some out) ↔ (config.minOpsToFuse ≤ stretch.len →
      (stretch.body.map fun part => part.tempMemoryBytes).sum < 2 ^ 64) := by
  unfold emit
  rw [fusedRegion_eq solid.1]
  by_cases enough : config.minOpsToFuse ≤ stretch.len
  · by_cases fits : (stretch.body.map fun part => part.tempMemoryBytes).sum < 2 ^ 64 <;>
      simp only [enough, fits, if_true, if_false] <;> simp
  · simp [enough]

/-- The pass keeps the operations exactly where no bridge is long enough to be fused and the
memory of what it fuses fits. -/
theorem fuse_keepsOperations_iff (config : AneFusionConfig) (regions : List FusableRegion) :
    (∃ result descriptions, fuse config regions = some (result, descriptions) ∧
      KeepsOperations config regions result) ↔
        ¬Bridges config regions ∧ MemoryFits config regions := by
  have solids := stretches_solid config regions
  have whole := covered_stretches config regions
  constructor
  case mp =>
    rintro ⟨result, descriptions, fused, keeps⟩
    obtain ⟨outs, each, rfl⟩ := fuse_eq_some.mp ⟨descriptions, fused⟩
    -- a bridge swallows an operation, which the count would miss
    have bridgeless : ¬Bridges config regions := by
      intro bridges
      have less := (others_outs each solids).2 (swallows_of_bridges bridges)
      have same := keeps.others.trans (congrArg others whole.symm)
      rw [others_append, others_append] at same
      omega
    refine ⟨bridgeless, fun run member enough => ?_⟩
    rw [← found_bodies] at member
    obtain ⟨stretch, found, rfl⟩ := List.mem_map.mp member
    rw [← (found_plain regions stretch found).counted] at enough
    have member' := (mem_stretches_iff bridgeless enough).mpr found
    obtain ⟨out, emitted⟩ := exists_of_forall₂ each member'
    exact (emit_iff (solids stretch member')).mp ⟨out, emitted⟩ enough
  case mpr =>
    rintro ⟨bridgeless, fits⟩
    have emits : ∀ stretch ∈ stretches config regions, ∃ out, emit config stretch = some out := by
      intro stretch member
      refine (emit_iff (solids stretch member)).mpr fun enough => ?_
      have found := (mem_stretches_iff bridgeless enough).mp member
      rw [(found_plain regions stretch found).counted] at enough
      apply fits stretch.body _ enough
      rw [← found_bodies]
      exact List.mem_map.mpr ⟨stretch, found, rfl⟩
    obtain ⟨outs, each⟩ := exists_forall₂ emits
    obtain ⟨descriptions, fused⟩ := fuse_eq_some.mpr ⟨outs, each, rfl⟩
    have keeps := keeps_outs each fun stretch member out emitted =>
      keeps_emit (solids stretch member) (stretches_counted stretch member)
        (plain_of_enough bridgeless member) emitted
    refine ⟨_, descriptions, fused, ?_⟩
    have kept := keeps.append (KeepsOperations.refl (tailOf regions))
    rwa [whole] at kept

end Pass

def smallRegion (id backend : ℕ) : FusableRegion where
  regionId := ⟨id⟩
  name := ""
  operations := [⟨id⟩]
  selectedBackend := ⟨backend⟩
  physicalTensors := []
  inputs := []
  outputs := []
  dependencies := []
  stateEffects := []
  tempMemoryBytes := 4096
  isFence := false
  fusions := []
  fusionRegions := []

def interleaved : List FusableRegion :=
  [smallRegion 1 3, smallRegion 2 0, smallRegion 3 3, smallRegion 4 0, smallRegion 5 3]

theorem interleaved_swallowed : ∃ result descriptions,
    fuse .default interleaved = some (result, descriptions) ∧
      placed result = [(⟨1⟩, aneId), (⟨2⟩, aneId), (⟨3⟩, aneId), (⟨4⟩, ⟨0⟩), (⟨5⟩, aneId)] ∧
      ¬KeepsOperations .default interleaved result := by
  refine ⟨_, _, rfl, rfl, fun keeps => ?_⟩
  have moved : (⟨2⟩, aneId) ∈ placed interleaved := by
    rw [← keeps.backends]
    exact .tail _ (.head _)
  exact absurd moved (by decide)

end TribunusCompute.Lowering
