import TribunusCompute.KvCache.SlidingWindow

/-!
# The stream position of a sliding layer

`logical_start` and `evictions_count` are derived from `total_appended`, which
does not count the tokens a first append trims. They say where the window is in
the stream exactly when nothing was trimmed.
-/
namespace TribunusCompute.Layer

namespace Stream

variable {A Row : Type} (ops : ArrayOps A) (rows : A → List Row)

/-- The window is the stream from `logical_start` on, and the evicted tokens are those that are
not in it. -/
structure PositionLaw (s : Stream A Row) : Prop where
  empty : s.keys = [] → s.cache.evictionsCount = 0
  window : s.keys ≠ [] → ∃ k v, s.cache.readWindow ops = some (k, v) ∧
    s.cache.logicalStart < s.keys.length ∧ rows k = s.keys.drop s.cache.logicalStart ∧
    rows v = s.values.drop s.cache.logicalStart ∧
    s.cache.evictionsCount = s.keys.length - (rows k).length

/-- The first append is at most `capacity` tokens long, so nothing is trimmed. -/
def FitsFirst (s : Stream A Row) : CacheOp ops → Prop
  | .append chunk => s.cache.isFresh = true → ops.shape0 chunk.keys ≤ s.cache.capacity
  | _ => True

instance (s : Stream A Row) (op : CacheOp ops) : Decidable (s.FitsFirst ops op) :=
  match op with
  | .append chunk => inferInstanceAs <| Decidable <|
      s.cache.isFresh = true → ops.shape0 chunk.keys ≤ s.cache.capacity
  | .commitStep | .rollback => isTrue trivial

/-- The two counters, from the number of tokens counted and the number supplied. -/
structure Counters (s : Stream A Row) : Prop where
  fresh : s.cache.isFresh = true → s.cache.totalAppended = 0
  logicalStart : s.cache.logicalStart = s.cache.totalAppended - s.cache.capacity
  evictions : s.cache.evictionsCount =
    if s.cache.capacity < s.cache.totalAppended then s.cache.totalAppended - s.cache.capacity
    else s.keys.length - s.cache.capacity

/-- All the tokens supplied have been counted. -/
def Untrimmed (s : Stream A Row) : Prop := s.cache.totalAppended = s.keys.length

theorem counters_start (capacity nKvHeads headDim : UInt32) :
    (start capacity nKvHeads headDim : Stream A Row).Counters where
  fresh _ := rfl
  logicalStart := (Nat.zero_sub _).symm
  evictions := by simp [start, KvCache.new]

section Lawful

variable {ops rows} {heads dim : ℤ} (lawful : ops.Lawful heads dim rows)
include lawful

/-- One step keeps the counters right, and tokens go uncounted only in a first append that does
not fit. -/
theorem counters_step {s t : Stream A Row} {op : CacheOp ops} (inv : Inv rows (heads, dim) s)
    (counters : s.Counters) (admissible : s.Admissible ops op) (room : s.NoOverflow ops op)
    (taken : s.step ops rows op = some t) :
    t.Counters ∧ (s.Untrimmed → (t.Untrimmed ↔ s.FitsFirst ops op)) := by
  cases op with
  | rollback => exact admissible.elim
  | commitStep =>
    cases taken
    exact ⟨⟨counters.fresh, counters.logicalStart, counters.evictions⟩,
      fun whole => iff_of_true whole trivial⟩
  | append chunk =>
    have same := chunk.sameLength
    rw [lawful.shape0, lawful.shape0] at same
    cases inv with
    -- the first append, which may trim, and a later one, which fits
    | fresh fresh sliding sameLayer positive seqLen writePos keys values =>
      obtain ⟨sameHeads, sameDim⟩ := Prod.mk.inj sameLayer
      have some_tokens := (admissible sliding).1
      rw [lawful.shape0] at some_tokens
      rw [sameHeads, sameDim] at lawful
      obtain ⟨preK, preV, -, -, -, -, appended⟩ := KvCache.append_first_sliding lawful fresh
        sliding positive (room.1 sliding).1 some_tokens same
      rw [step, appended, Option.map_some] at taken
      cases taken
      have untouched := counters.evictions
      rw [counters.fresh fresh, keys] at untouched
      refine ⟨⟨?_, ?_, ?_⟩, fun _ => ?_⟩
      · simp [KvCache.isFresh, KvCache.initialized]
      · simp [KvCache.initialized]
      · -- At most `capacity` tokens are counted, whatever was trimmed.
        simp only [KvCache.initialized, keys, List.nil_append, untouched, List.length_nil,
          Nat.zero_sub, ite_self]
        rw [if_neg (Nat.not_lt.mpr (Nat.min_le_right ..))]
        split
        next => rfl
        next fits => exact (Nat.sub_eq_zero_of_le (Nat.le_of_not_lt fits)).symm
      · -- The counter takes the smaller of the length and the capacity.
        simp only [Untrimmed, FitsFirst, KvCache.initialized, keys, List.nil_append, fresh,
          forall_const, lawful.shape0]
        exact min_eq_left_iff
    | filled trimmed positive filled short sameLength full =>
      obtain ⟨preK, preV, buffers, -⟩ := filled.buffers
      obtain ⟨some_tokens, fits⟩ := admissible buffers.sliding
      obtain ⟨total, position, -⟩ := (room.1 buffers.sliding).2 buffers.not_fresh
      have fits := fits buffers.not_fresh
      rw [lawful.shape0] at some_tokens fits total position
      have inside : s.cache.physicalWritePos < s.cache.capacity :=
        filled.writePos ▸ Nat.mod_lt _ positive
      obtain ⟨preK', preV', -, -, appended⟩ := KvCache.append_sliding lawful _ _ buffers inside
        some_tokens fits same position
      rw [step, appended, Option.map_some] at taken
      cases taken
      have counted := filled.keysLength
      rw [List.length_drop] at counted
      have total' : u32 (s.cache.totalAppended + (rows chunk.keys).length) =
        s.cache.totalAppended + (rows chunk.keys).length := u32_of_lt total
      refine ⟨⟨?_, ?_, ?_⟩, fun whole => ?_⟩
      · simp [KvCache.isFresh, KvCache.advanced]
      · -- A later append counts every token, so both counters move on together.
        simp only [KvCache.advanced, total', counters.logicalStart]
        split <;> omega
      -- beyond the capacity the tokens counted decide, below it the tokens supplied
      · simp only [KvCache.advanced, total', counters.evictions, List.length_append]
        split
        next => rfl
        next => split <;> omega
      · refine iff_of_true ?_ fun fresh => absurd fresh (by simp [buffers.not_fresh])
        simp only [Untrimmed, KvCache.advanced, total', List.length_append] at whole ⊢
        omega

theorem positionLaw_iff_untrimmed {s : Stream A Row} (inv : Inv rows (heads, dim) s)
    (counters : s.Counters) : s.PositionLaw ops rows ↔ s.Untrimmed := by
  have window := (windowLaw_of_inv lawful inv).window
  cases inv with
  | fresh fresh sliding sameLayer positive seqLen writePos keys values =>
    have total := counters.fresh fresh
    have whole : s.Untrimmed := by simp [Untrimmed, total, keys]
    refine iff_of_true ⟨fun _ => ?_, fun some_ => absurd keys some_⟩ whole
    rw [counters.evictions, total, keys]
    simp
  | filled trimmed positive filled short sameLength full =>
    have counted := filled.keysLength
    rw [List.length_drop] at counted
    have some_tokens := filled.some_tokens
    have nonempty : s.keys ≠ [] := by
      rintro none_
      simp [none_] at counted
      omega
    obtain ⟨k, v, read, kRows, vRows⟩ := window nonempty
    have visible : (rows k).length = s.keys.length - (s.keys.length - s.cache.capacity) := by
      rw [kRows, List.length_drop]
    constructor
    · -- The trimmed tokens are the difference of the two window starts.
      intro law
      obtain ⟨k', v', read', inside, kRows', -, -⟩ := law.window nonempty
      obtain ⟨rfl, rfl⟩ := Prod.mk.inj (Option.some.inj (read.symm.trans read'))
      have length := congrArg List.length kRows'
      rw [visible, List.length_drop, counters.logicalStart] at length
      rw [counters.logicalStart] at inside
      rw [Untrimmed]
      rcases full with rfl | covered <;> omega
    · intro whole
      rw [Untrimmed] at whole
      refine ⟨fun none_ => absurd none_ nonempty, fun _ => ⟨k, v, read, ?_, ?_, ?_, ?_⟩⟩
      · rw [counters.logicalStart]
        omega
      · rw [kRows, counters.logicalStart, whole]
      · rw [vRows, counters.logicalStart, whole, sameLength]
      · rw [visible, counters.evictions, whole]
        split <;> omega

end Lawful

/-- Along a stream whose counters do not overflow, the position is right exactly if the first
append is not trimmed. -/
theorem positionLaw_iff_fitsFirst (capacity nKvHeads headDim : UInt32)
    (lawful : ops.Lawful (toI32 nKvHeads.toNat) (toI32 headDim.toNat) rows)
    (positive : 0 < capacity.toNat) (run : List (CacheOp ops))
    (admissible : Runs.Guarded (step ops rows) (Admissible ops)
      (start capacity nKvHeads headDim) run)
    (room : Runs.Guarded (step ops rows) (NoOverflow ops)
      (start capacity nKvHeads headDim) run) :
    Runs.Always (step ops rows) (PositionLaw ops rows) (start capacity nKvHeads headDim) run ↔
      Runs.Guarded (step ops rows) (FitsFirst ops) (start capacity nKvHeads headDim) run := by
  have within := Runs.guarded_and (step ops rows) admissible room
  have initial := inv_start rows capacity nKvHeads headDim positive
  obtain ⟨⟨t, finishes⟩, -⟩ := Runs.exec_of_guarded (step ops rows)
    (fun s op inv ok => inv_step lawful inv ok.1 ok.2) initial within
  refine Runs.always_iff_guarded_within (step ops rows)
    (I := fun s => Inv rows (toI32 nKvHeads.toNat, toI32 headDim.toNat) s ∧ s.Counters ∧
      s.Untrimmed) ?_ ?_ ?_ ⟨initial, counters_start _ _ _, rfl⟩ within finishes
  · rintro s ⟨inv, counters, whole⟩
    exact (positionLaw_iff_untrimmed lawful inv counters).mpr whole
  · rintro s op t ⟨inv, counters, whole⟩ ⟨ok, fits⟩ first taken
    obtain ⟨t', taken', inv'⟩ := inv_step lawful inv ok fits
    obtain rfl : t = t' := Option.some.inj (taken.symm.trans taken')
    obtain ⟨counters', counted⟩ := counters_step lawful inv counters ok fits taken
    exact ⟨inv', counters', (counted whole).mpr first⟩
  · rintro s op t ⟨inv, counters, whole⟩ ⟨ok, fits⟩ taken law
    obtain ⟨t', taken', inv'⟩ := inv_step lawful inv ok fits
    obtain rfl : t = t' := Option.some.inj (taken.symm.trans taken')
    obtain ⟨counters', counted⟩ := counters_step lawful inv counters ok fits taken
    exact (counted whole).mp ((positionLaw_iff_untrimmed lawful inv' counters').mp law)

end Stream

namespace Stream

open TokenArray

/-- A window of three tokens whose first append fits, with a wrapping append after it. -/
theorem positionLaw_fittingFirst :
    Runs.Always (step ops Subtype.val) (PositionLaw ops Subtype.val) (start 3 1 1)
      [.append (chunk [1, 2, 3] (by decide)), .append (chunk [4, 5] (by decide))] :=
  (positionLaw_iff_fitsFirst ops Subtype.val 3 1 1 (lawful _ _) (by decide) _ (by decide)
    (by decide)).mpr (by decide)

/-- A first append of five tokens into a window of three: the window starts at token 2 of the
stream, the counter says 0. -/
theorem trimmedFirst_misplaces_window :
    ¬Runs.Always (step ops Subtype.val) (PositionLaw ops Subtype.val) (start 3 1 1)
      [.append (chunk [1, 2, 3, 4, 5] (by decide))] := by
  rintro ⟨-, always⟩
  obtain ⟨k, v, -, -, kRows, -, evicted⟩ := (always _ rfl).window (by decide)
  rw [kRows] at evicted
  exact absurd evicted (by decide)

end Stream

end TribunusCompute.Layer
