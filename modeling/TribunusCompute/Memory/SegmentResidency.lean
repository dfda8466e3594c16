import TribunusCompute.Library.Lists
import TribunusCompute.Library.Runs

/-!
# The stages of resident segments

`ResidencyManager` takes a segment from prefetched to bound to executing until it retires. Its ids
are kept in a list of all and in one for each stage. A prefetch is admitted by its size alone, so
a segment that is at some stage already may be prefetched again.
-/
namespace TribunusCompute.Memory

inductive Status
  | invalidArg
  | genericFailure
  deriving DecidableEq, Repr

structure ResidencyError where
  status : Status
  reason : String
  deriving DecidableEq, Repr

structure ResidencyManager where
  memoryBudgetBytes : ℕ
  safetyReserveBytes : ℕ
  activeSegments : List String
  prefetched : List String
  bound : List String
  inFlight : Option String
  deriving DecidableEq, Repr

namespace ResidencyManager

def new (budgetBytes safetyReserveBytes : ℕ) : ResidencyManager :=
  ⟨budgetBytes, safetyReserveBytes, [], [], [], none⟩

/-- A reserve above the budget leaves room for nothing but segments of no bytes. -/
def canAdmit (m : ResidencyManager) (segmentBytes : ℕ) : Bool :=
  segmentBytes ≤ m.memoryBudgetBytes - m.safetyReserveBytes

def requestPrefetch (m : ResidencyManager) (segmentId : String) (byteSize : ℕ) :
    Bool × ResidencyManager :=
  if ¬m.canAdmit byteSize then (false, m)
  else
    (true,
      { m with
        activeSegments := m.activeSegments ++ [segmentId]
        prefetched := m.prefetched ++ [segmentId] })

def bindSegment (m : ResidencyManager) (segmentId : String) :
    Except ResidencyError ResidencyManager :=
  match m.prefetched.idxOf? segmentId with
  | none =>
    .error ⟨.invalidArg, s!"segment '{segmentId}' is not in prefetched state; cannot bind"⟩
  | some idx =>
    .ok
      { m with
        prefetched := Removal.swapRemove m.prefetched idx
        bound := m.bound ++ [segmentId] }

def markInFlight (m : ResidencyManager) (segmentId : String) :
    Except ResidencyError ResidencyManager :=
  match m.bound.idxOf? segmentId with
  | none =>
    .error ⟨.invalidArg, s!"segment '{segmentId}' is not in bound state; cannot mark in-flight"⟩
  | some idx =>
    if m.inFlight.isSome then
      .error ⟨.genericFailure, "a segment is already in-flight; retire it first"⟩
    else
      .ok
        { m with
          bound := Removal.swapRemove m.bound idx
          inFlight := some segmentId }

def retire (m : ResidencyManager) (segmentId : String) : ResidencyManager :=
  { m with
    activeSegments := m.activeSegments.filter (· ≠ segmentId)
    prefetched := m.prefetched.filter (· ≠ segmentId)
    bound := m.bound.filter (· ≠ segmentId)
    inFlight := if m.inFlight = some segmentId then none else m.inFlight }

end ResidencyManager

inductive ResidencyCall
  | requestPrefetch (segmentId : String) (byteSize : ℕ)
  | bindSegment (segmentId : String)
  | markInFlight (segmentId : String)
  | retire (segmentId : String)
  deriving DecidableEq, Repr

namespace ResidencyManager

/-- The manager after a call. A refused call changes nothing. -/
def apply (m : ResidencyManager) : ResidencyCall → Option ResidencyManager
  | .requestPrefetch segmentId byteSize => some (m.requestPrefetch segmentId byteSize).2
  | .bindSegment segmentId =>
    match m.bindSegment segmentId with
    | .ok m => some m
    | .error _ => some m
  | .markInFlight segmentId =>
    match m.markInFlight segmentId with
    | .ok m => some m
    | .error _ => some m
  | .retire segmentId => some (m.retire segmentId)

/-! ## One stage for each segment -/

/-- Every active id is listed once and is at one stage alone, and no other id is at any. -/
structure OneStage (m : ResidencyManager) : Prop where
  once : ∀ id ∈ m.activeSegments, m.activeSegments.count id = 1
  one : ∀ id ∈ m.activeSegments,
    id ∈ m.prefetched ∧ id ∉ m.bound ∧ m.inFlight ≠ some id ∨
      id ∉ m.prefetched ∧ id ∈ m.bound ∧ m.inFlight ≠ some id ∨
      id ∉ m.prefetched ∧ id ∉ m.bound ∧ m.inFlight = some id
  others : ∀ id, id ∉ m.activeSegments → id ∉ m.prefetched ∧ id ∉ m.bound ∧ m.inFlight ≠ some id

def staged (m : ResidencyManager) : List String := m.prefetched ++ (m.bound ++ m.inFlight.toList)

/-- The ids at all stages are the active ones, each of them once. -/
structure Staged (m : ResidencyManager) : Prop where
  once : m.activeSegments.Nodup
  same : m.staged.Perm m.activeSegments

variable {m : ResidencyManager}

theorem mem_staged_iff {id : String} :
    id ∈ m.staged ↔ id ∈ m.prefetched ∨ id ∈ m.bound ∨ m.inFlight = some id := by
  rw [staged, List.mem_append, List.mem_append, Option.mem_toList]

theorem Staged.oneStage (holds : Staged m) : OneStage m where
  once id member := List.count_eq_one_of_mem holds.once member
  one id member := by
    have nodup : m.staged.Nodup := holds.same.nodup_iff.mpr holds.once
    -- an id at two stages would be listed twice
    have alone : id ∈ m.prefetched → ¬(id ∈ m.bound ∨ m.inFlight = some id) := by
      intro here later
      refine List.disjoint_of_nodup_append nodup here ?_
      rwa [List.mem_append, Option.mem_toList]
    have alone' : id ∈ m.bound → m.inFlight ≠ some id := by
      intro here later
      exact List.disjoint_of_nodup_append nodup.of_append_right here (Option.mem_toList.mpr later)
    have somewhere := mem_staged_iff.mp (holds.same.mem_iff.mpr member)
    tauto
  others id absent := by
    have nowhere := mt holds.same.mem_iff.mp absent
    rw [mem_staged_iff] at nowhere
    tauto

/-! ### What each call does to the stages -/

theorem bindSegment_staged {segmentId : String} {m' : ResidencyManager}
    (done : m.bindSegment segmentId = .ok m') :
    m'.activeSegments = m.activeSegments ∧ m'.staged.Perm m.staged := by
  unfold bindSegment at done
  cases found : m.prefetched.idxOf? segmentId with
  | none =>
    rw [found] at done
    cases done
  | some idx =>
    rw [found] at done
    obtain ⟨inside, here, -⟩ := List.idxOf?_eq_some_iff.mp found
    cases done
    refine ⟨rfl, ?_⟩
    have taken := Removal.swapRemove_perm inside
    rw [here] at taken
    -- the id goes to the end of the bound ones
    calc
      Removal.swapRemove m.prefetched idx ++ (m.bound ++ [segmentId] ++ m.inFlight.toList)
      _ = Removal.swapRemove m.prefetched idx ++ m.bound ++ segmentId :: m.inFlight.toList := by
        simp only [List.append_assoc, List.singleton_append]
      List.Perm _ (segmentId :: (Removal.swapRemove m.prefetched idx ++ m.bound ++
          m.inFlight.toList)) := List.perm_middle
      _ = segmentId :: Removal.swapRemove m.prefetched idx ++ (m.bound ++ m.inFlight.toList) := by
        simp only [List.cons_append, List.append_assoc]
      List.Perm _ (m.prefetched ++ (m.bound ++ m.inFlight.toList)) := taken.append_right _

theorem markInFlight_staged {segmentId : String} {m' : ResidencyManager}
    (done : m.markInFlight segmentId = .ok m') :
    m'.activeSegments = m.activeSegments ∧ m'.staged.Perm m.staged := by
  unfold markInFlight at done
  cases found : m.bound.idxOf? segmentId with
  | none =>
    rw [found] at done
    cases done
  | some idx =>
    cases free : m.inFlight with
    | some other =>
      simp only [found, free, Option.isSome_some, if_true] at done
      cases done
    | none =>
      simp only [found, free, Option.isSome_none, Bool.false_eq_true, if_false] at done
      obtain ⟨inside, here, -⟩ := List.idxOf?_eq_some_iff.mp found
      cases done
      refine ⟨rfl, ?_⟩
      have taken := Removal.swapRemove_perm inside
      rw [here] at taken
      have whole := (List.perm_append_singleton segmentId _).trans taken
      simpa [staged, free] using whole.append_left m.prefetched

theorem retire_staged (m : ResidencyManager) (segmentId : String) :
    (m.retire segmentId).staged = m.staged.filter (· ≠ segmentId) := by
  have last : (m.retire segmentId).inFlight.toList = m.inFlight.toList.filter (· ≠ segmentId) := by
    cases free : m.inFlight with
    | none => simp [retire, free]
    | some other =>
      by_cases same : other = segmentId
      · simp [retire, free, same]
      · simp [retire, free, same]
  rw [staged, last, retire, staged, List.filter_append, List.filter_append]

/-- An admitted prefetch is of a segment at no stage. -/
def Fresh (m : ResidencyManager) : ResidencyCall → Prop
  | .requestPrefetch segmentId byteSize =>
    m.canAdmit byteSize = true → segmentId ∉ m.activeSegments
  | _ => True

theorem requestPrefetch_admitted {segmentId : String} {byteSize : ℕ}
    (admitted : m.canAdmit byteSize = true) :
    m.requestPrefetch segmentId byteSize =
      (true,
        { m with
          activeSegments := m.activeSegments ++ [segmentId]
          prefetched := m.prefetched ++ [segmentId] }) := by
  rw [requestPrefetch, if_neg (not_not_intro admitted)]

theorem staged_apply {m' : ResidencyManager} {call : ResidencyCall} (holds : Staged m)
    (fresh : m.Fresh call) (applied : m.apply call = some m') : Staged m' := by
  cases call with
  | requestPrefetch segmentId byteSize =>
    rw [apply, Option.some.injEq] at applied
    subst applied
    by_cases admitted : m.canAdmit byteSize = true
    · have absent := fresh admitted
      rw [requestPrefetch_admitted admitted]
      constructor
      · simpa using holds.once.concat absent
      · -- the id goes from the end of the prefetched ones to the end of all
        have moved : List.Perm (m.prefetched ++ segmentId :: (m.bound ++ m.inFlight.toList))
            (segmentId :: m.staged) := List.perm_middle
        have whole := (moved.trans (holds.same.cons segmentId)).trans
          (List.perm_append_singleton segmentId m.activeSegments).symm
        simpa [staged] using whole
    · rw [requestPrefetch, if_pos admitted]
      exact holds
  | bindSegment segmentId =>
    rw [apply] at applied
    split at applied
    next m₁ done =>
      cases applied
      obtain ⟨active, perm⟩ := bindSegment_staged done
      exact ⟨active ▸ holds.once, active ▸ perm.trans holds.same⟩
    next =>
      cases applied
      exact holds
  | markInFlight segmentId =>
    rw [apply] at applied
    split at applied
    next m₁ done =>
      cases applied
      obtain ⟨active, perm⟩ := markInFlight_staged done
      exact ⟨active ▸ holds.once, active ▸ perm.trans holds.same⟩
    next =>
      cases applied
      exact holds
  | retire segmentId =>
    cases applied
    refine ⟨holds.once.filter _, ?_⟩
    rw [retire_staged]
    exact holds.same.filter _

/-- After a prefetch of an active segment, its id is listed more than once. -/
theorem fresh_of_oneStage {m' : ResidencyManager} {call : ResidencyCall}
    (applied : m.apply call = some m') (after : OneStage m') : m.Fresh call := by
  cases call with
  | requestPrefetch segmentId byteSize =>
    intro admitted active
    rw [apply, requestPrefetch_admitted admitted, Option.some.injEq] at applied
    subst applied
    have once := after.once segmentId (List.mem_append_left _ active)
    have listed : 0 < m.activeSegments.count segmentId := List.count_pos_iff.mpr active
    simp only [List.count_append, List.count_singleton_self] at once
    omega
  | bindSegment segmentId | markInFlight segmentId | retire segmentId => trivial

theorem apply_total (m : ResidencyManager) (call : ResidencyCall) :
    ∃ m', m.apply call = some m' := by
  cases call with
  | requestPrefetch segmentId byteSize => exact ⟨_, rfl⟩
  | bindSegment segmentId =>
    rw [apply]
    split <;> exact ⟨_, rfl⟩
  | markInFlight segmentId =>
    rw [apply]
    split <;> exact ⟨_, rfl⟩
  | retire segmentId => exact ⟨_, rfl⟩

/-- Through a run of calls every active segment is at one stage, and no other is at any, exactly
where no admitted prefetch is of a segment that is active then. -/
theorem oneStage_iff_fresh (budgetBytes safetyReserveBytes : ℕ) (calls : List ResidencyCall) :
    Runs.Always apply OneStage (new budgetBytes safetyReserveBytes) calls ↔
      Runs.Guarded apply Fresh (new budgetBytes safetyReserveBytes) calls := by
  obtain ⟨last, run⟩ := Runs.exec_total apply apply_total (new budgetBytes safetyReserveBytes) calls
  have initial : Staged (new budgetBytes safetyReserveBytes) := ⟨List.nodup_nil, .nil⟩
  exact Runs.always_iff_guarded apply (fun _ holds => holds.oneStage)
    (fun _ _ _ holds fresh applied => staged_apply holds fresh applied)
    (fun _ _ _ _ applied after => fresh_of_oneStage applied after) initial run

/-- A segment that is bound is prefetched again: it is listed twice, and it is at two stages. -/
theorem prefetch_of_bound_not_oneStage :
    ¬Runs.Always apply OneStage (new 1024 0)
      [.requestPrefetch "seg_a" 256, .bindSegment "seg_a", .requestPrefetch "seg_a" 256] := by
  intro always
  have run : Runs.exec apply (new 1024 0)
      [.requestPrefetch "seg_a" 256, .bindSegment "seg_a", .requestPrefetch "seg_a" 256] =
        some ⟨1024, 0, ["seg_a", "seg_a"], ["seg_a"], ["seg_a"], none⟩ := by decide
  have once := (Runs.always_last apply always run).once "seg_a" (by decide)
  exact absurd once (by decide)

end ResidencyManager

end TribunusCompute.Memory
