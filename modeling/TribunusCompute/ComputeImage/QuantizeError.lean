import TribunusCompute.Library.Codebook
import TribunusCompute.ComputeImage.HalfPrecision
import TribunusCompute.ComputeImage.QuantizedSource

/-!
# The error of quantization

Over exact arithmetic, how far the dequantized codes of a group are from its values, and how
far a dequantized weight is from the source.
-/
namespace TribunusCompute.ComputeImage

variable {toLeBytes : ℚ → List UInt8} {values : List ℚ}

/-! ## The codebook -/

/-- The levels a normalized value lies between. -/
def innerLevels : List ℚ := nf4Codebook.filter fun level => -1 ≤ level ∧ level ≤ 1

/-- The largest gap of the codebook inside `[-1, 1]`. -/
def largestGap : ℚ :=
  (List.zipWith (fun upper lower => upper - lower) innerLevels.tail innerLevels).foldl max 0

theorem innerLevels_eq : innerLevels = [-1, -0.848, -0.5698, -0.394, -0.2419, -0.1057, 0, 0.1057,
    0.2419, 0.394, 0.5698, 0.848, 1] := by
  norm_num [innerLevels, nf4Codebook]

theorem largestGap_eq : largestGap = 0.2782 := by
  rw [largestGap, innerLevels_eq]
  norm_num

theorem gapsAtMost_innerLevels : Codebook.GapsAtMost largestGap innerLevels := by
  rw [innerLevels_eq, largestGap_eq]
  unfold Codebook.GapsAtMost
  norm_num

theorem nearerLevel_foldl (toLeBytes : ℚ → List UInt8) (value : ℚ) (candidates : List (ℚ × ℕ)) (best : ℕ × ℚ) :
    let found := candidates.foldl (nearerLevel (F32.exact toLeBytes) value) best
    found.2 ≤ best.2 ∧ (∀ candidate ∈ candidates, found.2 ≤ |value - candidate.1|) ∧
      (found = best ∨ ∃ candidate ∈ candidates, found = (candidate.2, |value - candidate.1|)) := by
  induction candidates generalizing best with
  | nil => simp
  | cons candidate candidates ih =>
    intro found
    obtain ⟨lower, least, reached⟩ := ih (nearerLevel (F32.exact toLeBytes) value best candidate)
    have step : (nearerLevel (F32.exact toLeBytes) value best candidate).2 ≤ best.2 ∧
        (nearerLevel (F32.exact toLeBytes) value best candidate).2 ≤ |value - candidate.1| ∧
        (nearerLevel (F32.exact toLeBytes) value best candidate = best ∨
          nearerLevel (F32.exact toLeBytes) value best candidate =
            (candidate.2, |value - candidate.1|)) := by
      unfold nearerLevel
      simp only [F32.exact, decide_eq_true_eq]
      split
      next nearer => exact ⟨nearer.le, le_refl _, .inr rfl⟩
      next further => exact ⟨le_refl _, not_lt.mp further, .inl rfl⟩
    refine ⟨lower.trans step.1, ?_, ?_⟩
    · rw [List.forall_mem_cons]
      exact ⟨lower.trans step.2.1, least⟩
    · rcases reached with same | ⟨other, member, same⟩
      · rcases step.2.2 with kept | taken
        · exact .inl (same.trans kept)
        · exact .inr ⟨candidate, List.mem_cons_self, same.trans taken⟩
      · exact .inr ⟨other, List.mem_cons_of_mem _ member, same⟩

/-- The search of a whole codebook ends at the index of the nearest level. -/
theorem nearerLevel_search (toLeBytes : ℚ → List UInt8) {book : List ℚ} {first : ℚ}
    (rest : List (ℚ × ℕ)) (split : book.zipIdx = (first, 0) :: rest) (value : ℚ) :
    ∃ level, book[(rest.foldl (nearerLevel (F32.exact toLeBytes) value)
        (0, |value - first|)).1]? = some level ∧
      ∀ other ∈ book, |value - level| ≤ |value - other| := by
  obtain ⟨lower, least, reached⟩ := nearerLevel_foldl toLeBytes value rest
    (0, |value - first|)
  have indexed : ∀ level i, (level, i) ∈ book.zipIdx → book[i]? = some level :=
    fun level i member => List.mem_zipIdx_iff_getElem?.mp member
  rw [split] at indexed
  have all : ∀ other ∈ book, (rest.foldl (nearerLevel (F32.exact toLeBytes) value)
      (0, |value - first|)).2 ≤ |value - other| := by
    intro other member
    obtain ⟨i, there⟩ := List.mem_iff_getElem?.mp member
    have member : (other, i) ∈ book.zipIdx := List.mem_zipIdx_iff_getElem?.mpr there
    rw [split] at member
    rcases List.mem_cons.mp member with same | later
    · obtain ⟨rfl, -⟩ := (Prod.mk.injEq ..).mp same
      exact lower
    · exact least (other, i) later
  rcases reached with same | ⟨⟨level, i⟩, member, same⟩
  · rw [same] at all ⊢
    exact ⟨first, indexed first 0 List.mem_cons_self, all⟩
  · rw [same] at all ⊢
    exact ⟨level, indexed level i (List.mem_cons_of_mem _ member), all⟩

theorem quantizeNf4Value_nearest (toLeBytes : ℚ → List UInt8) (value : ℚ) :
    ∃ level, nf4Codebook[quantizeNf4Value (F32.exact toLeBytes) value]? = some level ∧
      ∀ other ∈ nf4Codebook, |value - level| ≤ |value - other| :=
  nearerLevel_search toLeBytes (nf4Codebook.zipIdx.drop 1) rfl value

theorem quantizeNf4Value_lt (value : ℚ) :
    quantizeNf4Value (F32.exact toLeBytes) value < 16 := by
  obtain ⟨level, there, -⟩ := quantizeNf4Value_nearest toLeBytes value
  exact (List.getElem?_eq_some_iff.mp there).1

/-- A normalized value is within half the largest gap of its level. -/
theorem quantizeNf4Value_error (toLeBytes : ℚ → List UInt8) {value : ℚ} (lower : -1 ≤ value) (upper : value ≤ 1) :
    ∃ level, nf4Codebook[quantizeNf4Value (F32.exact toLeBytes) value]? = some level ∧
      |value - level| ≤ largestGap / 2 := by
  obtain ⟨level, there, nearest⟩ := quantizeNf4Value_nearest toLeBytes value
  have gaps := gapsAtMost_innerLevels
  rw [innerLevels_eq] at gaps
  obtain ⟨other, member, near⟩ := Codebook.exists_near (by rw [largestGap_eq]; norm_num) gaps lower
    (by simpa using upper)
  rw [← innerLevels_eq] at member
  exact ⟨level, there, (nearest other (List.mem_of_mem_filter member)).trans near⟩

/-! ## Extremes of a group -/

theorem foldl_max_spec (start : ℚ) (values : List ℚ) :
    start ≤ values.foldl max start ∧ (∀ v ∈ values, v ≤ values.foldl max start) ∧
      ∀ bound, start ≤ bound → (∀ v ∈ values, v ≤ bound) → values.foldl max start ≤ bound := by
  induction values generalizing start with
  | nil => simp
  | cons v values ih =>
    obtain ⟨grows, above, least⟩ := ih (max start v)
    refine ⟨(le_max_left _ _).trans grows, ?_, fun bound initial below => ?_⟩
    · rw [List.forall_mem_cons]
      exact ⟨(le_max_right _ _).trans grows, above⟩
    · rw [List.forall_mem_cons] at below
      exact least bound (max_le initial below.1) below.2

theorem foldl_min_spec (start : ℚ) (values : List ℚ) :
    values.foldl min start ≤ start ∧ (∀ v ∈ values, values.foldl min start ≤ v) ∧
      ∀ bound, bound ≤ start → (∀ v ∈ values, bound ≤ v) → bound ≤ values.foldl min start := by
  induction values generalizing start with
  | nil => simp
  | cons v values ih =>
    obtain ⟨shrinks, below, greatest⟩ := ih (min start v)
    refine ⟨shrinks.trans (min_le_left _ _), ?_, fun bound initial above => ?_⟩
    · rw [List.forall_mem_cons]
      exact ⟨shrinks.trans (min_le_right _ _), below⟩
    · rw [List.forall_mem_cons] at above
      exact greatest bound (le_min initial above.1) above.2

/-! ## 4-bit groups -/

/-- A group's scale is positive, and in proportion to the bound of its values. -/
structure ScaleBounded (factor scale : ℚ) (values : List ℚ) : Prop where
  positive : 0 < scale
  bounded : ∀ bound, 1 ≤ bound → (∀ v ∈ values, |v| ≤ bound) → scale ≤ factor * bound

theorem clamp_exact {x lower upper : ℚ} (above : lower ≤ x) (below : x ≤ upper) :
    (F32.exact toLeBytes).clamp x lower upper = x := by
  simp [F32.clamp, F32.exact, not_lt.mpr above, not_lt.mpr below]

def nf4Scale (values : List ℚ) : ℚ :=
  let absmax := (values.map fun v => |v|).foldl max 0
  if 1e-12 < absmax then absmax else 1

theorem nf4Scale_spec (values : List ℚ) :
    ScaleBounded 1 (nf4Scale values) values ∧ ∀ v ∈ values, |v| ≤ nf4Scale values := by
  obtain ⟨-, above, least⟩ := foldl_max_spec 0 (values.map fun v => |v|)
  have inside : ∀ v ∈ values, |v| ≤ (values.map fun v => |v|).foldl max 0 := fun v member =>
    above |v| (List.mem_map_of_mem member)
  have smallest : ∀ bound, 1 ≤ bound → (∀ v ∈ values, |v| ≤ bound) →
      (values.map fun v => |v|).foldl max 0 ≤ bound := by
    intro bound one below
    apply least bound (by linarith)
    intro x member
    obtain ⟨v, value, rfl⟩ := List.mem_map.mp member
    exact below v value
  unfold nf4Scale
  dsimp only
  split
  next large =>
    refine ⟨⟨by linarith, fun bound one below => ?_⟩, inside⟩
    rw [one_mul]
    exact smallest bound one below
  next small =>
    refine ⟨⟨one_pos, fun bound one _ => by rwa [one_mul]⟩, fun v member => ?_⟩
    have := inside v member
    linarith

/-- The words of a group hold the codes of its values, each near its value. -/
theorem nf4Group_spec (toLeBytes : ℚ → List UInt8) (nonempty : values ≠ []) :
    ∃ words, quantizeNf4Group (F32.exact toLeBytes) values = (words, nf4Scale values, 0) ∧
      words.length = (values.length + 7) / 8 ∧
      ∀ i v, values[i]? = some v → ∃ word level, words[i / 8]? = some word ∧ word < 2 ^ 32 ∧
        nf4Codebook[Nibbles.nibble word (i % 8)]? = some level ∧
        |level * nf4Scale values - v| ≤ largestGap / 2 * nf4Scale values := by
  obtain ⟨scaled, inside⟩ := nf4Scale_spec values
  have positive := scaled.positive
  -- The clamp does nothing to a value below the scale.
  have codes : ∀ v ∈ values, -1 ≤ v * (1 / nf4Scale values) ∧ v * (1 / nf4Scale values) ≤ 1 := by
    intro v member
    rw [← abs_le, mul_one_div, abs_div, abs_of_pos positive, div_le_one positive]
    exact inside v member
  refine ⟨Nibbles.pack (values.map fun v => quantizeNf4Value (F32.exact toLeBytes)
    ((F32.exact toLeBytes).clamp (v * (1 / nf4Scale values)) (-1) 1)) ((values.length + 7) / 8),
    ?_, Nibbles.length_pack _ _, ?_⟩
  · rw [quantizeNf4Group, if_neg (by simpa using nonempty)]
    simp only [F32.exact, nf4Scale, decide_eq_true_eq]
  · intro i v there
    have member : v ∈ values := List.mem_of_getElem? there
    have short : i < values.length := (List.getElem?_eq_some_iff.mp there).1
    obtain ⟨lower, upper⟩ := codes v member
    obtain ⟨level, coded, error⟩ := quantizeNf4Value_error toLeBytes lower upper
    have small : ∀ code ∈ values.map (fun v => quantizeNf4Value (F32.exact toLeBytes)
        ((F32.exact toLeBytes).clamp (v * (1 / nf4Scale values)) (-1) 1)), code < 16 := by
      intro code member
      obtain ⟨v, -, rfl⟩ := List.mem_map.mp member
      exact quantizeNf4Value_lt _
    have inWords : i / 8 < (values.length + 7) / 8 := by omega
    obtain ⟨word, holds⟩ := Nibbles.holds_pack small inWords
    refine ⟨word, level, holds.there, ?_, ?_, ?_⟩
    · calc word < 16 ^ _ := holds.below
        _ ≤ 16 ^ 8 := Nat.pow_le_pow_right (by decide) (Nat.min_le_left _ _)
        _ = 2 ^ 32 := by norm_num
    · have packed := holds.codes (i % 8) (Nat.mod_lt _ (by decide))
        (quantizeNf4Value (F32.exact toLeBytes) (v * (1 / nf4Scale values))) (by
          rw [Nat.div_add_mod, List.getElem?_map, there, Option.map_some,
            clamp_exact lower upper])
      rw [packed, coded]
    · have factor : level * nf4Scale values - v =
          (level - v * (1 / nf4Scale values)) * nf4Scale values := by
        field_simp
      rw [factor, abs_mul, abs_of_pos positive, abs_sub_comm]
      exact mul_le_mul_of_nonneg_right error positive.le

/-! ## 8-bit groups -/

theorem roundHalfAway_spec {x : ℚ} (nonneg : 0 ≤ x) :
    |(roundHalfAway x : ℚ) - x| ≤ 1 / 2 ∧ 0 ≤ roundHalfAway x ∧
      ∀ n : ℕ, x ≤ n → roundHalfAway x ≤ n := by
  rw [roundHalfAway, if_pos nonneg]
  have lower := Int.floor_le (x + 1 / 2)
  have upper := Int.lt_floor_add_one (x + 1 / 2)
  refine ⟨?_, ?_, fun n below => ?_⟩
  · rw [abs_le]
    constructor <;> linarith
  · exact Int.floor_nonneg.mpr (by linarith)
  · have strict : ⌊x + 1 / 2⌋ < (n : ℤ) + 1 := by
      rw [Int.floor_lt]
      push_cast
      linarith
    omega

/-- The smallest value of an 8-bit group. -/
def af8Bias (values : List ℚ) : ℚ := values.foldl min f32Max

def af8Scale (values : List ℚ) : ℚ :=
  let range := values.foldl max (-f32Max) - af8Bias values
  if 1e-12 < range then range / 255 else 1 / 255

theorem af8Scale_spec (values : List ℚ) :
    ScaleBounded (2 / 255) (af8Scale values) values ∧
      ∀ v ∈ values, 0 ≤ (v - af8Bias values) / af8Scale values ∧
        (v - af8Bias values) / af8Scale values ≤ 255 := by
  obtain ⟨-, above, least⟩ := foldl_max_spec (-f32Max) values
  obtain ⟨-, below, greatest⟩ := foldl_min_spec f32Max values
  have inside : ∀ v ∈ values, af8Bias values ≤ v ∧ v ≤ values.foldl max (-f32Max) :=
    fun v member => ⟨below v member, above v member⟩
  unfold af8Scale
  dsimp only
  split
  next large =>
    have positive : 0 < (values.foldl max (-f32Max) - af8Bias values) / 255 := by linarith
    refine ⟨⟨positive, fun bound one within => ?_⟩, fun v member => ⟨?_, ?_⟩⟩
    · have cap : (0 : ℚ) < f32Max := by norm_num [f32Max]
      have upper : values.foldl max (-f32Max) ≤ bound :=
        least bound (by linarith) fun v member => (abs_le.mp (within v member)).2
      have lower : -bound ≤ af8Bias values :=
        greatest (-bound) (by linarith) fun v member => (abs_le.mp (within v member)).1
      linarith
    · apply div_nonneg _ positive.le
      linarith [(inside v member).1]
    · rw [div_le_iff₀ positive]
      linarith [(inside v member).2]
  next small =>
    refine ⟨⟨by norm_num, fun bound one within => by linarith⟩, fun v member => ?_⟩
    obtain ⟨low, high⟩ := inside v member
    constructor
    · apply div_nonneg _ (by norm_num)
      linarith
    · rw [div_le_iff₀ (by norm_num)]
      linarith

theorem af8Group_spec (toLeBytes : ℚ → List UInt8) (nonempty : values ≠ []) :
    ∃ codes : List UInt8, quantizeAf8Group (F32.exact toLeBytes) values =
        (codes, af8Scale values, af8Bias values) ∧
      codes.length = values.length ∧
      ∀ (i : ℕ) v, values[i]? = some v → ∃ code : UInt8, codes[i]? = some code ∧
        |(code.toNat * af8Scale values + af8Bias values) - v| ≤ 1 / 2 * af8Scale values := by
  obtain ⟨scaled, inside⟩ := af8Scale_spec values
  have positive := scaled.positive
  refine ⟨values.map fun v => (F32.exact toLeBytes).toU8 ((F32.exact toLeBytes).clamp
    (roundHalfAway ((v - af8Bias values) / af8Scale values)) 0 255), ?_, List.length_map _, ?_⟩
  · rw [quantizeAf8Group, if_neg (by simpa using nonempty)]
    simp only [F32.exact, af8Scale, af8Bias, decide_eq_true_eq]
    norm_num
  · intro i v there
    obtain ⟨low, high⟩ := inside v (List.mem_of_getElem? there)
    obtain ⟨error, nonneg, small⟩ := roundHalfAway_spec low
    have top : roundHalfAway ((v - af8Bias values) / af8Scale values) ≤ 255 :=
      small 255 (by exact_mod_cast high)
    refine ⟨_, by rw [List.getElem?_map, there, Option.map_some], ?_⟩
    rw [clamp_exact (by exact_mod_cast nonneg) (by exact_mod_cast top)]
    generalize roundHalfAway ((v - af8Bias values) / af8Scale values) = code at error nonneg top
    have stored : (((F32.exact toLeBytes).toU8 (code : ℚ)).toNat : ℚ) = code := by
      lift code to ℕ using nonneg
      have cap : code ≤ 255 := by exact_mod_cast top
      have same : (F32.exact toLeBytes).toU8 ((code : ℤ) : ℚ) = UInt8.ofNat code := by
        simp [F32.exact, Nat.min_eq_right cap]
      rw [same, UInt8.toNat_ofNat', Nat.mod_eq_of_lt (by omega)]
      push_cast
      rfl
    rw [stored]
    have factor : (code * af8Scale values + af8Bias values) - v =
        (code - (v - af8Bias values) / af8Scale values) * af8Scale values := by
      field_simp
      ring
    rw [factor, abs_mul, abs_of_pos positive]
    exact mul_le_mul_of_nonneg_right error positive.le

end TribunusCompute.ComputeImage
