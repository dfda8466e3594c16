import TribunusCompute.KvArena.Refcounts

/-!
# Admission of a sequence

Admission allocates one block after another and gives up at the first refusal.
The blocks it had by then stay referenced, although nobody was told their ids:
an admission is all or nothing where the arena has room for it, or no room at
all.
-/
namespace TribunusCompute.KvArena

open KvBlockArena

variable {a a' : KvBlockArena} {held : List PhysicalBlockId}

/-! ## What allocations leave alone -/

def SameTables (a a' : KvBlockArena) : Prop :=
  a'.blockSize = a.blockSize ∧ a'.logicalTables = a.logicalTables

theorem SameTables.trans {a₁ a₂ a₃ : KvBlockArena} (first : SameTables a₁ a₂)
    (second : SameTables a₂ a₃) : SameTables a₁ a₃ :=
  ⟨second.1.trans first.1, second.2.trans first.2⟩

theorem popFree_sameTables {idx : ℕ} (popped : a.popFree = some (idx, a')) : SameTables a a' := by
  obtain ⟨last, found, same⟩ := Option.map_eq_some_iff.mp popped
  cases same
  exact ⟨rfl, rfl⟩

theorem evictOne_sameTables (a : KvBlockArena) : SameTables a a.evictOne.2 := by
  unfold evictOne
  split <;> exact ⟨rfl, rfl⟩

theorem tryAllocate_sameTables {result : Except ArenaError PhysicalBlockId}
    (allocated : a.tryAllocate = some (result, a')) : SameTables a a' := by
  unfold tryAllocate at allocated
  split at allocated
  next idx popped found =>
    cases allocated
    exact (popFree_sameTables found).trans ⟨rfl, rfl⟩
  next =>
    split at allocated
    next =>
      have evicted := evictOne_sameTables a
      split at allocated
      next id e same =>
        rw [same] at evicted
        split at allocated
        next idx popped found =>
          cases allocated
          exact (evicted.trans (popFree_sameTables found)).trans ⟨rfl, rfl⟩
        next => cases allocated
      next e same =>
        cases allocated
        rwa [same] at evicted
    next =>
      cases allocated
      exact ⟨rfl, rfl⟩

theorem release_sameTables (a : KvBlockArena) (id : PhysicalBlockId) :
    SameTables a (a.release id) := by
  simp only [release]
  split
  next => split <;> exact ⟨rfl, rfl⟩
  next => exact ⟨rfl, rfl⟩

/-! ## The allocation loop -/

theorem allocateBlocks_total (n : ℕ) (a : KvBlockArena) :
    ∃ ids error a', a.allocateBlocks n = some (ids, error, a') := by
  induction n generalizing a with
  | zero => exact ⟨_, _, _, rfl⟩
  | succ n ih =>
    obtain ⟨result, a₁, first, -⟩ := tryAllocate_spec a
    cases result with
    | ok id =>
      obtain ⟨ids, error, a', later⟩ := ih a₁
      exact ⟨id :: ids, error, a', by simp [allocateBlocks, first, later]⟩
    | error e => exact ⟨[], some e, a₁, by simp [allocateBlocks, first]⟩

theorem allocateBlocks_sameTables {n : ℕ} {ids : List PhysicalBlockId}
    {error : Option ArenaError} (run : a.allocateBlocks n = some (ids, error, a')) :
    SameTables a a' := by
  induction n generalizing a ids with
  | zero =>
    cases run
    exact ⟨rfl, rfl⟩
  | succ n ih =>
    rcases allocateBlocks_succ run with ⟨id, a₁, rest, first, -, later⟩ | ⟨e, first, -, -⟩
    · exact (tryAllocate_sameTables first).trans (ih later)
    · exact tryAllocate_sameTables first

/-- Every block allocated is one less available; an error comes when none is left. -/
theorem allocateBlocks_available {n : ℕ} {ids : List PhysicalBlockId} {error : Option ArenaError}
    (h : System.Counted a held) (run : a.allocateBlocks n = some (ids, error, a')) :
    a.availableBlocks = a'.availableBlocks + ids.length ∧
      (error ≠ none → a'.availableBlocks = 0) ∧ (ids = [] → a' = a) := by
  induction n generalizing a held ids with
  | zero =>
    cases run
    exact ⟨rfl, fun failed => absurd rfl failed, fun _ => rfl⟩
  | succ n ih =>
    rcases allocateBlocks_succ run with ⟨id, a₁, rest, first, rfl, later⟩ | ⟨e, first, rfl, rfl⟩
    · obtain ⟨h₁, -, room⟩ := h.allocation (tryAllocate_some first)
      obtain ⟨lost, empty, -⟩ := ih h₁ later
      refine ⟨?_, empty, by simp⟩
      rw [room, lost, List.length_cons, Nat.add_assoc]
    · obtain ⟨rfl, full⟩ := System.refused_allocation (tryAllocate_some first)
      exact ⟨rfl, fun _ => full, fun _ => rfl⟩

/-! ## Admission -/

theorem admitSequence_eq (tokenCount : UInt32) (seq : SequenceId) {needed : ℕ}
    (blocks : tokensToBlocks tokenCount.toNat a.blockSize = some needed) :
    a.admitSequence tokenCount seq = (a.allocateBlocks needed).bind fun (allocated, error, a') =>
      match error with
      | some e => some (.error e, a')
      | none => some (.ok
          { sequenceId := seq
            allocatedBlocks := allocated
            totalTokens := tokenCount.toUInt64
            totalBlocks := needed
            bytesAllocated := allocated.length * (a'.blockSize * 4 * 2)
            prefixHits := 0
            newBlocks := needed },
          { a' with logicalTables := a'.logicalTables ++
              [⟨seq, allocated, tokenCount.toUInt64, a'.capacity⟩] }) := by
  simp only [admitSequence, blocks, Option.bind_eq_bind, Option.bind_some]
  congr 1
  funext outcome
  obtain ⟨allocated, error, a'⟩ := outcome
  cases error <;> rfl

/-- A refusal keeps what the loop did; a success adds the table of its blocks. -/
theorem admitSequence_of_run {tokenCount : UInt32} (seq : SequenceId) {needed : ℕ}
    {ids : List PhysicalBlockId} {error : Option ArenaError}
    (blocks : tokensToBlocks tokenCount.toNat a.blockSize = some needed)
    (run : a.allocateBlocks needed = some (ids, error, a')) :
    (∃ e, error = some e ∧ a.admitSequence tokenCount seq = some (.error e, a')) ∨
    (error = none ∧ ∃ receipt table, receipt.allocatedBlocks = ids ∧
      table.logicalToPhysical = ids ∧ table.sequenceId = seq ∧
      a.admitSequence tokenCount seq =
        some (.ok receipt, { a' with logicalTables := a'.logicalTables ++ [table] })) := by
  cases error with
  | some e =>
    left
    have refused := admitSequence_eq tokenCount seq blocks
    rw [run] at refused
    exact ⟨e, rfl, refused⟩
  | none =>
    right
    have admitted := admitSequence_eq tokenCount seq blocks
    rw [run] at admitted
    exact ⟨rfl, _, ⟨seq, ids, tokenCount.toUInt64, a'.capacity⟩, rfl, rfl, rfl, admitted⟩

/-- The number of blocks an admission needs; `none` is the division by zero. -/
def blocksNeeded (a : KvBlockArena) (tokenCount : UInt32) : Option ℕ :=
  tokensToBlocks tokenCount.toNat a.blockSize

/-- An admission succeeds exactly if its blocks are available. Then it returns as many distinct
blocks, which are no longer available, and adds one table of them; a refused one leaves the
arena as it was. -/
def AdmissionLaw (a : KvBlockArena) (tokenCount : UInt32) (seq : SequenceId) : Prop :=
  ∃ needed result a', blocksNeeded a tokenCount = some needed ∧
    a.admitSequence tokenCount seq = some (result, a') ∧
    ((∃ receipt, result = .ok receipt) ↔ needed ≤ a.availableBlocks) ∧
    (∀ receipt, result = .ok receipt →
      receipt.allocatedBlocks.length = needed ∧ receipt.allocatedBlocks.Nodup ∧
      a.availableBlocks = a'.availableBlocks + needed ∧
      ∃ table, table.sequenceId = seq ∧ table.logicalToPhysical = receipt.allocatedBlocks ∧
        a'.logicalTables = a.logicalTables ++ [table]) ∧
    (∀ e, result = .error e → a' = a)

/-- In a counted arena admission is all or nothing exactly if it finds all its blocks or none. -/
theorem admissionLaw_iff_of_counted (h : System.Counted a held) (positive : 0 < a.blockSize)
    (tokenCount : UInt32) (seq : SequenceId) :
    AdmissionLaw a tokenCount seq ↔
      ∀ needed ∈ blocksNeeded a tokenCount,
        needed ≤ a.availableBlocks ∨ a.availableBlocks = 0 := by
  obtain ⟨needed, blocks⟩ : ∃ needed, tokensToBlocks tokenCount.toNat a.blockSize = some needed :=
    ⟨_, if_neg positive.ne'⟩
  obtain ⟨ids, error, a₁, run⟩ := allocateBlocks_total needed a
  obtain ⟨-, nodup, -, length, success⟩ := h.allocateBlocks run
  obtain ⟨available, exhausted, untouched⟩ := allocateBlocks_available h run
  have tables := (allocateBlocks_sameTables run).2
  simp only [blocksNeeded, blocks, Option.mem_def, Option.some.injEq, forall_eq']
  rcases admitSequence_of_run seq blocks run with
    ⟨e, rfl, refused⟩ | ⟨rfl, receipt, table, listed, own, sameSeq, admitted⟩
  · have short : ¬needed ≤ a.availableBlocks := fun enough => by
      simpa using success.mpr enough
    constructor
    · -- The blocks of the refused admission are gone, unless there were none.
      rintro ⟨needed', result, a₂, -, same, -, -, kept⟩
      obtain ⟨rfl, rfl⟩ := Prod.mk.inj (Option.some.inj (refused.symm.trans same))
      right
      rw [← kept e rfl]
      exact exhausted (by simp)
    · rintro (enough | none_left)
      · exact absurd enough short
      -- With no block available the first allocation is refused, and nothing has been taken.
      · have nothing : ids = [] := List.eq_nil_of_length_eq_zero (by omega)
        refine ⟨needed, .error e, a₁, blocks, refused, ?_, by simp, fun _ _ => untouched nothing⟩
        exact iff_of_false (by simp) short
  · have enough := success.mp rfl
    refine iff_of_true ?_ (.inl enough)
    refine ⟨needed, .ok receipt, _, blocks, admitted, iff_of_true ⟨receipt, rfl⟩ enough, ?_,
      by simp⟩
    rintro receipt' same
    cases same
    rw [listed, length, Nat.min_eq_left enough]
    refine ⟨rfl, nodup, ?_, table, sameSeq, own, by rw [tables]⟩
    rw [length, Nat.min_eq_left enough] at available
    exact available

/-! ## Runs -/

/-- The operations that take no prefix into account: allocation, admission, release. -/
def ArenaOp.Plain : ArenaOp → Prop
  | .tryAllocate | .admitSequence .. | .release _ => True
  | .allocatePrefixed _ | .evictOne => False

instance (op : ArenaOp) : Decidable op.Plain := by
  cases op <;> unfold ArenaOp.Plain <;> infer_instance

namespace System

/-- The references are those of the holders and of blocks that refused admissions dropped. -/
def Accounted (s : System) : Prop := ∃ dropped, Counted s.arena (s.held ++ dropped)

theorem accounted_step {s t : System} {op : ArenaOp} (plain : op.Plain) (h : s.Accounted)
    (taken : s.step op = some t) :
    t.Accounted ∧ t.arena.blockSize = s.arena.blockSize := by
  obtain ⟨dropped, counted⟩ := h
  cases op with
  | allocatePrefixed hash => exact plain.elim
  | evictOne => exact plain.elim
  | tryAllocate =>
    simp only [step, Option.bind_eq_bind] at taken
    obtain ⟨⟨result, a⟩, allocated, taken⟩ := Option.bind_eq_some_iff.mp taken
    have size := (tryAllocate_sameTables allocated).1
    cases result with
    | ok id =>
      cases taken
      exact ⟨⟨dropped, (counted.allocation (tryAllocate_some allocated)).1⟩, size⟩
    | error e =>
      cases taken
      obtain ⟨rfl, -⟩ := refused_allocation (tryAllocate_some allocated)
      exact ⟨⟨dropped, counted⟩, size⟩
  | admitSequence tokenCount seq =>
    simp only [step, Option.bind_eq_bind] at taken
    obtain ⟨⟨result, a⟩, admitted, taken⟩ := Option.bind_eq_some_iff.mp taken
    cases taken
    obtain ⟨needed, blocks⟩ : ∃ n, tokensToBlocks tokenCount.toNat s.arena.blockSize = some n := by
      obtain ⟨n, -, -, -, blocks, -⟩ := admitSequence_cases admitted
      exact ⟨n, blocks⟩
    obtain ⟨ids, error, a₁, run⟩ := allocateBlocks_total needed s.arena
    -- what the loop has allocated is counted, whether or not it is handed out
    have after := (counted.allocateBlocks run).1
    have size := (allocateBlocks_sameTables run).1
    rcases admitSequence_of_run seq blocks run with
      ⟨e, -, refused⟩ | ⟨-, receipt, table, listed, -, -, success⟩
    · -- The blocks of a refused admission keep their references: they join the dropped ones.
      obtain ⟨rfl, rfl⟩ := Prod.mk.inj (Option.some.inj (admitted.symm.trans refused))
      refine ⟨⟨ids ++ dropped, after.perm ?_⟩, size⟩
      rw [← List.append_assoc, ← List.append_assoc]
      exact List.perm_append_comm.append_right dropped
    · obtain ⟨rfl, rfl⟩ := Prod.mk.inj (Option.some.inj (admitted.symm.trans success))
      refine ⟨⟨dropped, ?_⟩, size⟩
      simp only [listed, List.append_assoc]
      exact after.congr rfl rfl
  | release id =>
    simp only [step] at taken
    split at taken
    next member =>
      cases taken
      have released := counted.release (List.mem_append_left dropped member)
      rw [List.erase_append_left _ member] at released
      exact ⟨⟨dropped, released⟩, (release_sameTables _ _).1⟩
    next => cases taken

theorem accounted_start (plan : KvCachePlan) (backend : BackendAffinity) :
    (start plan backend).Accounted :=
  ⟨[], counted_start plan backend⟩

theorem accounted_run {plan : KvCachePlan} {backend : BackendAffinity} {ops : List ArenaOp}
    (plain : ∀ op ∈ ops, op.Plain) {t : System}
    (run : Runs.exec step (start plan backend) ops = some t) :
    t.Accounted ∧ t.arena.blockSize = plan.blockTokens.toNat := by
  refine Runs.exec_keeps step (P := fun s => s.Accounted ∧
    s.arena.blockSize = plan.blockTokens.toNat) ?_ ⟨accounted_start plan backend, rfl⟩ run
  rintro s op member t ⟨accounted, size⟩ taken
  obtain ⟨next, same⟩ := accounted_step (plain op member) accounted taken
  exact ⟨next, same.trans size⟩

/-- In every state allocations, admissions and releases reach, admission is all or nothing
exactly if it finds all its blocks or none. -/
theorem admissionLaw_iff (plan : KvCachePlan) (backend : BackendAffinity)
    (positive : 0 < plan.blockTokens.toNat) (ops : List ArenaOp) (plain : ∀ op ∈ ops, op.Plain)
    (t : System) (run : Runs.exec step (start plan backend) ops = some t) (tokenCount : UInt32)
    (seq : SequenceId) :
    AdmissionLaw t.arena tokenCount seq ↔
      ∀ needed ∈ blocksNeeded t.arena tokenCount,
        needed ≤ t.arena.availableBlocks ∨ t.arena.availableBlocks = 0 := by
  obtain ⟨⟨dropped, counted⟩, size⟩ := accounted_run plain run
  exact admissionLaw_iff_of_counted counted (size ▸ positive) tokenCount seq

/-- A full arena refuses an admission and stays as it is. -/
theorem admissionLaw_fullArena :
    ∃ t, Runs.exec step (start { KvCachePlan.default with maxBlocks := 2 } .hostPinned)
        [.admitSequence 40 1] = some t ∧ AdmissionLaw t.arena 1 2 := by
  refine ⟨_, rfl, ?_⟩
  exact (admissionLaw_iff { KvCachePlan.default with maxBlocks := 2 } .hostPinned (by decide)
    [.admitSequence 40 1] (by decide) _ rfl 1 2).mpr (by decide)

/-- Three blocks asked of an arena of two: the admission is refused and both are gone. -/
theorem refusedAdmission_dropsBlocks :
    ¬AdmissionLaw (fromPlan { KvCachePlan.default with maxBlocks := 2 } .hostPinned) 96 1 := by
  rintro ⟨needed, result, a', -, admitted, -, -, kept⟩
  cases admitted
  exact absurd (congrArg availableBlocks (kept _ rfl)) (by decide)

end System

end TribunusCompute.KvArena
