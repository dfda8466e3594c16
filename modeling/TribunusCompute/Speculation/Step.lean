import Mathlib.Logic.Function.Iterate
import TribunusCompute.Library.Outcome

/-!
# One step of speculative decoding

A draft model proposes tokens, the target scores them, and rejection sampling commits those up to
the first that it rejects. A step that ends with every token accepted reads the last candidate and
the last logit, so that an empty draft has no place to read from; and the draft's list of
log-probabilities is indexed without a look at its length.
-/
namespace TribunusCompute.Speculation

open Outcome

/-- What a step uses of `f32`. -/
structure LogitOps (F : Type) where
  zero : F
  one : F
  thousand : F
  /-- `1.0 / 8388608.0`. -/
  unit : F
  exp : F → F
  mul : F → F → F
  div : F → F → F
  min : F → F → F
  gt : F → F → Bool
  ofU32 : UInt32 → F
  /-- The saturating cast to `u64`. -/
  toU64 : F → UInt64
  toBits : F → UInt32

/-- The machine's arithmetic; a NaN gives way to the other operand of a minimum. -/
def LogitOps.machine : LogitOps Float32 where
  zero := 0
  one := 1
  thousand := 1000
  unit := 1 / 8388608
  exp := Float32.exp
  mul := (· * ·)
  div := (· / ·)
  min x y := if x.isNaN then y else if y < x then y else x
  gt x y := x > y
  ofU32 := UInt32.toFloat32
  toU64 := Float32.toUInt64
  toBits := Float32.toBits

structure XorShift32 where
  state : UInt32
  deriving DecidableEq, Repr

def XorShift32.advance (rng : XorShift32) : XorShift32 :=
  let state := rng.state ^^^ rng.state <<< 13
  let state := state ^^^ state >>> 17
  let state := state ^^^ state <<< 5
  ⟨state⟩

structure SpecDecodeStats where
  totalSteps : ℕ
  totalDraftTokens : ℕ
  totalAcceptedDraft : ℕ
  totalTargetTokens : ℕ
  rejectionCount : ℕ
  deriving DecidableEq, Repr

structure SpeculativeDecoding where
  speculationLength : ℕ
  stats : SpecDecodeStats
  rng : XorShift32
  deriving DecidableEq, Repr

section

variable {F : Type} (ops : LogitOps F)

def genF32 (rng : XorShift32) : F × XorShift32 :=
  let rng := rng.advance
  (ops.mul (ops.ofU32 (rng.state >>> 9)) ops.unit, rng)

def acceptProb (targetLogit draftLogProb : F) : F :=
  let pTarget := ops.exp targetLogit
  let pDraft := ops.exp draftLogProb
  if ops.gt pDraft ops.zero then ops.min (ops.div pTarget pDraft) ops.one else ops.zero

/-- The loop over the candidates from `i` on: the position that is rejected, if any. -/
def rejectionSampling (targetLogits draftLogProbs : List F) :
    ℕ → ℕ → XorShift32 → Outcome (Option ℕ × XorShift32)
  | _, 0, rng => return (none, rng)
  | i, rest + 1, rng => do
    let targetLogit ← element targetLogits i
    let draftLogProb ← element draftLogProbs i
    let (drawn, rng) := genF32 ops rng
    if ops.gt drawn (acceptProb ops targetLogit draftLogProb) then return (some i, rng)
    rejectionSampling targetLogits draftLogProbs (i + 1) rest rng

def correctedToken (targetLogit : F) (candidate : UInt32) : UInt32 :=
  if ops.gt targetLogit ops.zero then candidate
  else
    let bits := ops.toBits targetLogit
    -- the wrapping product of 64 bits, cut down to 32
    let token := (bits.toUInt64 * 6364136223846793005).toUInt32
    token % max candidate 1

def bonusToken (bonusLogit : F) (candidates : List UInt32) : Outcome UInt32 := do
  if ops.gt bonusLogit ops.zero then
    let scaled := ops.toU64 (ops.mul bonusLogit ops.thousand)
    return ((scaled * 2862933555777941757) >>> 32).toUInt32
  else
    Outcome.assert (1 ≤ candidates.length)
    element candidates (candidates.length - 1)

end

def SpecDecodeStats.drafted (stats : SpecDecodeStats) (n : ℕ) : SpecDecodeStats :=
  { stats with
    totalSteps := stats.totalSteps + 1
    totalDraftTokens := stats.totalDraftTokens + n }

section

variable {F : Type} (ops : LogitOps F)

/-- One step, on what the two models return: its result, and the calls of `accept_tokens`. -/
def SpeculativeDecoding.step (decoding : SpeculativeDecoding)
    (draft : Except String (List UInt32 × List F)) (verified : Except String (List F)) :
    Outcome (Except String UInt32 × SpeculativeDecoding × List (List UInt32)) :=
  match draft with
  | .error e => return (.error e, decoding, [])
  | .ok (candidates, draftLogProbs) => do
    let n := candidates.length
    let decoding := { decoding with stats := decoding.stats.drafted n }
    match verified with
    | .error e => return (.error e, decoding, [])
    | .ok targetLogits =>
      -- the statistics of the draft stay counted where the step fails from here on
      let verifyLen := targetLogits.length
      if verifyLen < n then
        return (.error s!"verify returned {verifyLen} logits for {n} candidates", decoding, [])
      let (rejected, rng) ← rejectionSampling ops targetLogits draftLogProbs 0 n decoding.rng
      let stats := decoding.stats
      match rejected with
      | some i =>
        let targetLogit ← element targetLogits i
        let candidate ← element candidates i
        return (.ok (correctedToken ops targetLogit candidate),
          { decoding with
            rng
            stats := { stats with
              totalAcceptedDraft := stats.totalAcceptedDraft + i
              totalTargetTokens := stats.totalTargetTokens + 1
              rejectionCount := stats.rejectionCount + 1 } },
          if i > 0 then [candidates.take i] else [])
      | none =>
        -- without a logit for the bonus the last one stands in
        let bonusLogit ← (match targetLogits[n]? with
          | some logit => pure logit
          | none => do
            Outcome.assert (1 ≤ n)
            element targetLogits (n - 1))
        let bonus ← bonusToken ops bonusLogit candidates
        return (.ok bonus,
          { decoding with
            rng
            stats := { stats with
              totalAcceptedDraft := stats.totalAcceptedDraft + n
              totalTargetTokens := stats.totalTargetTokens + 1 } },
          [candidates])

end

/-! ### What a step accepts -/

section

variable {F : Type} (ops : LogitOps F) (targetLogits draftLogProbs : List F) (rng : XorShift32)

/-- The generator before position `i`. -/
def rngAt (i : ℕ) : XorShift32 := XorShift32.advance^[i] rng

/-- Whether the candidate at a position is accepted; nothing where a list has no such position. -/
def accepts (i : ℕ) : Option Bool := do
  let targetLogit ← targetLogits[i]?
  let draftLogProb ← draftLogProbs[i]?
  return !ops.gt (genF32 ops (rngAt rng i)).1 (acceptProb ops targetLogit draftLogProb)

/-- Everything before position `i` is accepted. -/
def Reaches (i : ℕ) : Prop :=
  ∀ j < i, accepts ops targetLogits draftLogProbs rng j = some true

/-- The first `k` of `n` candidates are accepted, and the next one, if any, is not. -/
structure AcceptedPrefix (n k : ℕ) : Prop where
  within : k ≤ n
  accepted : Reaches ops targetLogits draftLogProbs rng k
  rejected : k < n → accepts ops targetLogits draftLogProbs rng k = some false

/-- There is a log-probability at every position that the sampling reaches. -/
def Covered (n : ℕ) : Prop :=
  ∀ i < n, Reaches ops targetLogits draftLogProbs rng i → i < draftLogProbs.length

end

/-- What the step committed and counted when `k` of `n` candidates were accepted. -/
structure Committed (candidates : List UInt32) (k : ℕ) (before after : SpecDecodeStats)
    (commits : List (List UInt32)) : Prop where
  commits : commits = if k = 0 then [] else [candidates.take k]
  totalDraftTokens : after.totalDraftTokens = before.totalDraftTokens + candidates.length
  totalAcceptedDraft : after.totalAcceptedDraft = before.totalAcceptedDraft + k
  totalTargetTokens : after.totalTargetTokens = before.totalTargetTokens + 1
  rejectionCount : after.rejectionCount =
    before.rejectionCount + if k < candidates.length then 1 else 0

section

variable {F : Type} (ops : LogitOps F)

/-- The step returns; with an error, and nothing committed, or with a token, and the accepted
prefix committed and counted. -/
def StepLaw (decoding : SpeculativeDecoding) (draft : Except String (List UInt32 × List F))
    (verified : Except String (List F)) : Prop :=
  ∃ result after commits, decoding.step ops draft verified = .ok (result, after, commits) ∧
    match result with
    | .error _ => commits = []
    | .ok _ => ∃ candidates draftLogProbs targetLogits k,
        draft = .ok (candidates, draftLogProbs) ∧ verified = .ok targetLogits ∧
          AcceptedPrefix ops targetLogits draftLogProbs decoding.rng candidates.length k ∧
            Committed candidates k decoding.stats after.stats commits

/-- A model fails, or the target returns too few logits; or there are candidates, and the draft
covers the positions that the sampling reaches. -/
def Served (decoding : SpeculativeDecoding) (draft : Except String (List UInt32 × List F))
    (verified : Except String (List F)) : Prop :=
  ∀ candidates draftLogProbs targetLogits, draft = .ok (candidates, draftLogProbs) →
    verified = .ok targetLogits → candidates.length ≤ targetLogits.length →
      candidates ≠ [] ∧
        Covered ops targetLogits draftLogProbs decoding.rng candidates.length

end

/-! ### The sampling -/

section

variable {F : Type} {ops : LogitOps F} {targetLogits draftLogProbs : List F} {rng : XorShift32}
  {n : ℕ}

theorem rngAt_succ (rng : XorShift32) (i : ℕ) : rngAt rng (i + 1) = (rngAt rng i).advance :=
  Function.iterate_succ_apply' _ _ _

theorem accepts_eq_some_iff {i : ℕ} {accepted : Bool} :
    accepts ops targetLogits draftLogProbs rng i = some accepted ↔
      ∃ targetLogit draftLogProb, targetLogits[i]? = some targetLogit ∧
        draftLogProbs[i]? = some draftLogProb ∧
          (!ops.gt (genF32 ops (rngAt rng i)).1 (acceptProb ops targetLogit draftLogProb)) =
            accepted := by
  unfold accepts
  simp only [Option.bind_eq_bind, Option.bind_eq_some_iff, Option.pure_def, Option.some.injEq]
  constructor
  · rintro ⟨targetLogit, found, draftLogProb, found', same⟩
    exact ⟨targetLogit, draftLogProb, found, found', same⟩
  · rintro ⟨targetLogit, draftLogProb, found, found', same⟩
    exact ⟨targetLogit, found, draftLogProb, found', same⟩

theorem lt_length_of_accepts {i : ℕ} {accepted : Bool}
    (here : accepts ops targetLogits draftLogProbs rng i = some accepted) :
    i < draftLogProbs.length := by
  obtain ⟨-, draftLogProb, -, found, -⟩ := accepts_eq_some_iff.mp here
  exact (List.getElem?_eq_some_iff.mp found).1

theorem rejectionSampling_accepted {i rest : ℕ}
    (here : accepts ops targetLogits draftLogProbs rng i = some true) :
    rejectionSampling ops targetLogits draftLogProbs i (rest + 1) (rngAt rng i) =
      rejectionSampling ops targetLogits draftLogProbs (i + 1) rest (rngAt rng (i + 1)) := by
  obtain ⟨targetLogit, draftLogProb, found, found', passes⟩ := accepts_eq_some_iff.mp here
  rw [Bool.not_eq_true'] at passes
  rw [rejectionSampling, element_ok_iff.mpr found, element_ok_iff.mpr found', rngAt_succ]
  simp only [bind, Except.bind, passes, Bool.false_eq_true, if_false]
  rfl

theorem rejectionSampling_rejected {i rest : ℕ}
    (here : accepts ops targetLogits draftLogProbs rng i = some false) :
    rejectionSampling ops targetLogits draftLogProbs i (rest + 1) (rngAt rng i) =
      .ok (some i, rngAt rng (i + 1)) := by
  obtain ⟨targetLogit, draftLogProb, found, found', fails⟩ := accepts_eq_some_iff.mp here
  rw [Bool.not_eq_false'] at fails
  rw [rejectionSampling, element_ok_iff.mpr found, element_ok_iff.mpr found', rngAt_succ]
  simp only [bind, Except.bind, fails, if_true]
  rfl

/-- The sampling finds the accepted prefix, or panics at a position without a log-probability. -/
theorem rejectionSampling_spec (ops : LogitOps F) (draftLogProbs : List F) (rng : XorShift32)
    (long : n ≤ targetLogits.length) {i rest : ℕ} (total : i + rest = n)
    (reached : Reaches ops targetLogits draftLogProbs rng i) :
    (∃ k rng', rejectionSampling ops targetLogits draftLogProbs i rest (rngAt rng i) =
        .ok (if k < n then some k else none, rng') ∧
      AcceptedPrefix ops targetLogits draftLogProbs rng n k) ∨
    rejectionSampling ops targetLogits draftLogProbs i rest (rngAt rng i) = panics ∧
      ∃ m < n, Reaches ops targetLogits draftLogProbs rng m ∧ draftLogProbs.length ≤ m := by
  -- induction on what is left of the candidates
  induction rest generalizing i with
  | zero =>
    obtain rfl : i = n := total
    refine .inl ⟨i, rngAt rng i, ?_, Nat.le_refl i, reached,
      fun below => absurd below (Nat.lt_irrefl i)⟩
    rw [if_neg (Nat.lt_irrefl i)]
    rfl
  | succ rest ih =>
    have inside : i < n := by omega
    cases here : accepts ops targetLogits draftLogProbs rng i with
    | none =>
      -- the target has a logit at every candidate, so that it is the draft that is short
      have logit := List.getElem?_eq_getElem (Nat.lt_of_lt_of_le inside long)
      have short : draftLogProbs[i]? = none := by
        cases found : draftLogProbs[i]? with
        | none => rfl
        | some draftLogProb => simp [accepts, logit, found] at here
      refine .inr ⟨?_, i, inside, reached, List.getElem?_eq_none_iff.mp short⟩
      rw [rejectionSampling, element_ok_iff.mpr logit,
        element_panics_iff.mpr (List.getElem?_eq_none_iff.mp short)]
      rfl
    | some accepted =>
      cases accepted with
      | false =>
        refine .inl ⟨i, rngAt rng (i + 1), ?_, Nat.le_of_lt inside, reached, fun _ => here⟩
        rw [if_pos inside, rejectionSampling_rejected here]
      | true =>
        -- an accepted candidate lengthens the prefix
        have further : Reaches ops targetLogits draftLogProbs rng (i + 1) := by
          intro j below
          rcases Nat.lt_succ_iff_lt_or_eq.mp below with before | rfl
          · exact reached j before
          · exact here
        rw [rejectionSampling_accepted here]
        exact ih (by omega) further

theorem AcceptedPrefix.covered {k : ℕ}
    (accepted : AcceptedPrefix ops targetLogits draftLogProbs rng n k) :
    Covered ops targetLogits draftLogProbs rng n := by
  intro m inside reached
  rcases Nat.lt_trichotomy m k with before | rfl | behind
  · exact lt_length_of_accepts (accepted.accepted m before)
  · exact lt_length_of_accepts (accepted.rejected inside)
  · -- the sampling does not get past the rejected position
    have passes := reached k behind
    rw [accepted.rejected (by omega)] at passes
    cases passes

end

/-! ### The step -/

section

variable {F : Type} {ops : LogitOps F} {decoding : SpeculativeDecoding} {candidates : List UInt32}
  {draftLogProbs targetLogits : List F} {rng' : XorShift32}

theorem step_short (ops : LogitOps F) (decoding : SpeculativeDecoding)
    (draftLogProbs : List F) (short : targetLogits.length < candidates.length) :
    ∃ e after, decoding.step ops (.ok (candidates, draftLogProbs)) (.ok targetLogits) =
      .ok (.error e, after, []) := by
  unfold SpeculativeDecoding.step
  simp only
  rw [if_pos short]
  exact ⟨_, _, rfl⟩

theorem step_panics (long : candidates.length ≤ targetLogits.length)
    (sampled : rejectionSampling ops targetLogits draftLogProbs 0 candidates.length decoding.rng =
      panics) :
    decoding.step ops (.ok (candidates, draftLogProbs)) (.ok targetLogits) = panics := by
  unfold SpeculativeDecoding.step
  simp only
  rw [if_neg (Nat.not_lt.mpr long), sampled]
  rfl

theorem step_rejected {k : ℕ} (long : candidates.length ≤ targetLogits.length)
    (inside : k < candidates.length)
    (sampled : rejectionSampling ops targetLogits draftLogProbs 0 candidates.length decoding.rng =
      .ok (some k, rng')) :
    ∃ token after, decoding.step ops (.ok (candidates, draftLogProbs)) (.ok targetLogits) =
        .ok (.ok token, after, if k > 0 then [candidates.take k] else []) ∧
      Committed candidates k decoding.stats after.stats
        (if k > 0 then [candidates.take k] else []) := by
  -- both reads at the rejected position are within bounds
  have logit := List.getElem?_eq_getElem (Nat.lt_of_lt_of_le inside long)
  have candidate := List.getElem?_eq_getElem inside
  unfold SpeculativeDecoding.step
  simp only
  rw [if_neg (Nat.not_lt.mpr long), sampled]
  simp only [bind, Except.bind, element_ok_iff.mpr logit, element_ok_iff.mpr candidate]
  refine ⟨_, _, rfl, ?_⟩
  constructor
  · rcases Nat.eq_zero_or_pos k with rfl | some
    · rfl
    · rw [if_pos some, if_neg (Nat.pos_iff_ne_zero.mp some)]
  · rfl
  · rfl
  · rfl
  · rw [if_pos inside]
    rfl

/-- A step that accepts all candidates commits them all, even where there are none. -/
theorem step_accepted {result : Except String UInt32} {after : SpeculativeDecoding}
    {commits : List (List UInt32)} (long : candidates.length ≤ targetLogits.length)
    (sampled : rejectionSampling ops targetLogits draftLogProbs 0 candidates.length decoding.rng =
      .ok (none, rng'))
    (ok : decoding.step ops (.ok (candidates, draftLogProbs)) (.ok targetLogits) =
      .ok (result, after, commits)) : (∃ token, result = .ok token) ∧ commits = [candidates] := by
  unfold SpeculativeDecoding.step at ok
  simp only at ok
  rw [if_neg (Nat.not_lt.mpr long), sampled] at ok
  obtain ⟨_, ⟨⟩, ok⟩ := bind_ok_iff.mp ok
  obtain ⟨bonusLogit, -, ok⟩ := bind_ok_iff.mp ok
  obtain ⟨bonus, -, ok⟩ := bind_ok_iff.mp ok
  obtain ⟨rfl, -, rfl⟩ : .ok bonus = result ∧ _ ∧ [candidates] = commits := by
    simpa using pure_ok_iff.mp ok
  exact ⟨⟨bonus, rfl⟩, rfl⟩

theorem bonusToken_total (ops : LogitOps F) (bonusLogit : F) (nonempty : candidates ≠ []) :
    ∃ bonus, bonusToken ops bonusLogit candidates = .ok bonus := by
  have positive := List.length_pos_iff.mpr nonempty
  have last := List.getElem?_eq_getElem (l := candidates) (i := candidates.length - 1) (by omega)
  unfold bonusToken
  split
  · exact ⟨_, rfl⟩
  · exact ⟨_, bind_ok_iff.mpr ⟨(), assert_ok_iff.mpr positive, element_ok_iff.mpr last⟩⟩

theorem step_all_accepted (nonempty : candidates ≠ [])
    (long : candidates.length ≤ targetLogits.length)
    (sampled : rejectionSampling ops targetLogits draftLogProbs 0 candidates.length decoding.rng =
      .ok (none, rng')) :
    ∃ token after, decoding.step ops (.ok (candidates, draftLogProbs)) (.ok targetLogits) =
        .ok (.ok token, after, [candidates]) ∧
      Committed candidates candidates.length decoding.stats after.stats [candidates] := by
  have positive := List.length_pos_iff.mpr nonempty
  -- both reads have a place to read from, as there is a candidate
  obtain ⟨bonusLogit, read⟩ : ∃ logit, (match targetLogits[candidates.length]? with
      | some logit => pure logit
      | none => do
        Outcome.assert (1 ≤ candidates.length)
        element targetLogits (candidates.length - 1)) = Except.ok logit := by
    have last := List.getElem?_eq_getElem (l := targetLogits) (i := candidates.length - 1)
      (by omega)
    cases targetLogits[candidates.length]? with
    | some logit => exact ⟨logit, rfl⟩
    | none => exact ⟨_, bind_ok_iff.mpr ⟨(), assert_ok_iff.mpr positive, element_ok_iff.mpr last⟩⟩
  obtain ⟨bonus, made⟩ := bonusToken_total ops bonusLogit nonempty
  let drafted := decoding.stats.drafted candidates.length
  refine ⟨bonus, { decoding with
    rng := rng'
    stats := { drafted with
      totalAcceptedDraft := drafted.totalAcceptedDraft + candidates.length
      totalTargetTokens := drafted.totalTargetTokens + 1 } }, ?_, ?_⟩
  · unfold SpeculativeDecoding.step
    simp only
    rw [if_neg (Nat.not_lt.mpr long), sampled]
    exact bind_ok_iff.mpr ⟨_, rfl, bind_ok_iff.mpr ⟨bonusLogit, read,
      bind_ok_iff.mpr ⟨bonus, made, rfl⟩⟩⟩
  · constructor
    · rw [if_neg (Nat.pos_iff_ne_zero.mp positive), List.take_length]
    · rfl
    · rfl
    · rfl
    · rw [if_neg (Nat.lt_irrefl _)]
      rfl

end

/-- A step obeys its law exactly when a model fails, or the target returns too few logits, or
there are candidates and the draft covers the positions that the sampling reaches. -/
theorem stepLaw_iff {F : Type} (ops : LogitOps F) (decoding : SpeculativeDecoding)
    (draft : Except String (List UInt32 × List F)) (verified : Except String (List F)) :
    StepLaw ops decoding draft verified ↔ Served ops decoding draft verified := by
  rcases draft with e | ⟨candidates, draftLogProbs⟩
  · exact ⟨fun _ _ _ _ drafted => (by cases drafted), fun _ => ⟨_, _, _, rfl, rfl⟩⟩
  rcases verified with e | targetLogits
  · exact ⟨fun _ _ _ _ _ scored => (by cases scored), fun _ => ⟨_, _, _, rfl, rfl⟩⟩
  rcases Nat.lt_or_ge targetLogits.length candidates.length with short | long
  · constructor
    · rintro - _ _ _ ⟨⟩ ⟨⟩ enough
      exact absurd short (Nat.not_lt.mpr enough)
    · intro _
      obtain ⟨e, after, ok⟩ := step_short ops decoding draftLogProbs short
      exact ⟨.error e, after, [], ok, rfl⟩
  -- from here on the result is that of the sampling
  have spec := rejectionSampling_spec ops draftLogProbs decoding.rng long (Nat.zero_add _)
    (fun j below => absurd below (Nat.not_lt_zero j))
  constructor
  · rintro ⟨result, after, commits, ok, law⟩ _ _ _ ⟨⟩ ⟨⟩ -
    rcases spec with ⟨k, rng', sampled, accepted⟩ | ⟨sampled, -⟩
    · refine ⟨?_, accepted.covered⟩
      -- an empty draft commits an empty list of tokens
      rintro rfl
      have none_rejected : ¬k < ([] : List UInt32).length := Nat.not_lt_zero k
      rw [if_neg none_rejected] at sampled
      obtain ⟨⟨token, rfl⟩, rfl⟩ := step_accepted long sampled ok
      obtain ⟨_, _, _, k', ⟨⟩, -, accepted', committed⟩ := law
      have zero : k' = 0 := Nat.le_zero.mp accepted'.within
      have commits := committed.commits
      rw [if_pos zero] at commits
      cases commits
    · rw [step_panics long sampled] at ok
      cases ok
  · intro served
    obtain ⟨nonempty, covered⟩ := served _ _ _ rfl rfl long
    rcases spec with ⟨k, rng', sampled, accepted⟩ | ⟨-, m, inside, reached, short⟩
    · rcases Nat.lt_or_ge k candidates.length with inside | all
      · rw [if_pos inside] at sampled
        obtain ⟨token, after, ok, committed⟩ := step_rejected long inside sampled
        exact ⟨_, _, _, ok, _, _, _, k, rfl, rfl, accepted, committed⟩
      · rw [if_neg (Nat.not_lt.mpr all)] at sampled
        obtain rfl : k = candidates.length := Nat.le_antisymm accepted.within all
        obtain ⟨token, after, ok, committed⟩ := step_all_accepted nonempty long sampled
        exact ⟨_, _, _, ok, _, _, _, _, rfl, rfl, accepted, committed⟩
    -- the sampling reaches no position that the draft does not cover
    · exact absurd (covered m inside reached) (Nat.not_lt.mpr short)

/-- A draft without candidates, and a target without logits: there is no last candidate. -/
theorem empty_draft_not_stepLaw :
    ¬ ∀ (decoding : SpeculativeDecoding) (draft : Except String (List UInt32 × List Float32))
        (verified : Except String (List Float32)), StepLaw .machine decoding draft verified := by
  intro all
  obtain ⟨result, after, commits, ok, -⟩ :=
    all ⟨0, ⟨0, 0, 0, 0, 0⟩, ⟨1⟩⟩ (.ok ([], [])) (.ok [])
  cases ok

end TribunusCompute.Speculation
