import TribunusCompute.Library.Runs
import TribunusCompute.Memory.BlockAllocator

/-!
# Use-after-free protection of block handles

Runs over one shared allocator: every allocated block is wrapped in a handle,
blocks are freed by index, handles are dropped. A valid handle's block is never
free, since every free moves the generation on. What protects a block from other
handles is weaker: dropping a stale handle frees by page index alone, so it takes
the block from whoever holds it now.
-/
namespace TribunusCompute.Memory

/-- The allocator, the live handles, and how many frees have hit each page so far (which only
the claims about runs read). -/
structure System where
  allocator : KvCacheBlockAllocator
  handles : List BlockHandle
  frees : ℕ → ℕ

inductive BlockOp
  | alloc
  | free (index : ℕ)
  | drop (k : ℕ)
  deriving DecidableEq, Repr

namespace System

def start (numPages pageSize : ℕ) : System where
  allocator := .new (.new numPages pageSize)
  handles := []
  frees := fun _ => 0

def countFree (s : System) (index : ℕ) : ℕ → ℕ :=
  fun q => if q = index then s.frees q + 1 else s.frees q

/-- One operation; `none` when it panics or names no live handle. A failed allocation changes
nothing. -/
def step (s : System) : BlockOp → Option System
  | .alloc =>
    match s.allocator.allocBlock with
    | .error _ => some s
    | .ok ((index, generation), allocator) =>
      some { s with
        allocator := allocator
        handles := s.handles ++ [BlockHandle.new index generation] }
  | .free index => do
    let allocator ← s.allocator.freeBlock index
    some { s with allocator := allocator, frees := s.countFree index }
  | .drop k => do
    let handle ← s.handles[k]?
    let allocator ← (← handle.drop (some s.allocator))
    some { allocator := allocator, handles := s.handles.eraseIdx k,
           frees := if handle.freed then s.frees else s.countFree handle.pageIndex }

/-- The handle is live and reports itself valid. -/
def Holds (s : System) (j : ℕ) (h : BlockHandle) : Prop :=
  s.handles[j]? = some h ∧ h.isValid (some s.allocator) = some true

/-- A held block is neither free nor about to be handed out. -/
def HeldBlocksSafe (s : System) : Prop :=
  ∀ j h, s.Holds j h → s.allocator.pager.isFree h.pageIndex = false ∧
    ∀ idx generation a', s.allocator.allocBlock = .ok ((idx, generation), a') → idx ≠ h.pageIndex

/-- A step that neither frees the block by its index nor drops its handle leaves a held block's
bit and generation alone. -/
def KeepsHeldBlocks (s : System) (op : BlockOp) (t : System) : Prop :=
  ∀ j h, s.Holds j h → op ≠ .free h.pageIndex → op ≠ .drop j →
    t.allocator.pager.isFree h.pageIndex = s.allocator.pager.isFree h.pageIndex ∧
      t.allocator.generationOf h.pageIndex = s.allocator.generationOf h.pageIndex

/-- No stale handle is dropped while another handle holds its page. -/
def NoStaleDrop (s : System) : BlockOp → Prop
  | .drop k => ∀ h ∈ s.handles[k]?, h.isValid (some s.allocator) = some false →
      ∀ held ∈ s.handles, held.isValid (some s.allocator) = some true →
        held.pageIndex ≠ h.pageIndex
  | _ => True

instance (s : System) (op : BlockOp) : Decidable (s.NoStaleDrop op) :=
  match op with
  | .alloc | .free _ => isTrue trivial
  | .drop k => inferInstanceAs <| Decidable <|
      ∀ h ∈ s.handles[k]?, h.isValid (some s.allocator) = some false →
        ∀ held ∈ s.handles, held.isValid (some s.allocator) = some true →
          held.pageIndex ≠ h.pageIndex

/-! ## The invariant -/

/-- Generations count frees (below `2^32` exactly); handles carry past generations; valid
handles sit on distinct allocated pages. -/
structure Inv (s : System) : Prop where
  counted : ∀ q, q < s.allocator.pager.numPages → (s.allocator.generationOf q).toNat = s.frees q
  past : ∀ h ∈ s.handles, h.pageIndex < s.allocator.pager.numPages ∧
    h.generation.toNat ≤ s.frees h.pageIndex ∧ h.freed = false
  allocated : ∀ j h, s.Holds j h → s.allocator.pager.isFree h.pageIndex = false
  distinct : ∀ i j h h', s.Holds i h → s.Holds j h' → h.pageIndex = h'.pageIndex → i = j

theorem inv_start (numPages pageSize : ℕ) : (start numPages pageSize).Inv where
  counted := by
    intro q inside
    simp [start, KvCacheBlockAllocator.new, KvCacheBlockAllocator.generationOf,
      List.getD_eq_getElem?_getD, List.getElem?_replicate]
    split <;> rfl
  past := by simp [start]
  allocated := by simp [start, Holds]
  distinct := by simp [start, Holds]

/-- Freeing a page, whatever happens to the handles as long as the live ones are old ones. -/
private theorem inv_of_free {s : System} (inv : s.Inv) {index : ℕ} {a' : KvCacheBlockAllocator}
    (freed : s.allocator.freeBlock index = some a') {handles : List BlockHandle}
    (old : ∀ (j : ℕ) h, handles[j]? = some h → ∃ i : ℕ, s.handles[i]? = some h)
    (apart : ∀ (i j : ℕ) h h', handles[i]? = some h → handles[j]? = some h' → i ≠ j →
      ∃ i' j' : ℕ, i' ≠ j' ∧ s.handles[i']? = some h ∧ s.handles[j']? = some h')
    (room : s.frees index + 1 < 2 ^ 32) :
    Inv { allocator := a', handles := handles, frees := s.countFree index } := by
  obtain ⟨inside, sameSize, freeAfter, genAfter⟩ := KvCacheBlockAllocator.freeBlock_some freed
  have counted' : ∀ q, q < s.allocator.pager.numPages →
      (a'.generationOf q).toNat = s.countFree index q := by
    intro q hq
    rw [genAfter, countFree]
    split
    next same =>
      subst same
      rw [UInt32.toNat_add, inv.counted q hq]
      exact Nat.mod_eq_of_lt room
    next => exact inv.counted q hq
  -- No handle on the freed page stays valid: its generation is in the past.
  have holds_before : ∀ j h, Holds ⟨a', handles, s.countFree index⟩ j h →
      h.pageIndex ≠ index ∧ h.isValid (some s.allocator) = some true := by
    rintro j h ⟨live, valid⟩
    obtain ⟨i, before⟩ := old j h live
    obtain ⟨bound, generation, -⟩ := inv.past h (List.mem_of_getElem? before)
    rw [BlockHandle.isValid_iff, sameSize] at valid
    have elsewhere : h.pageIndex ≠ index := by
      intro same
      have current := counted' h.pageIndex bound
      rw [valid.2, countFree, if_pos same] at current
      omega
    refine ⟨elsewhere, ?_⟩
    rw [BlockHandle.isValid_iff]
    rw [genAfter, if_neg elsewhere] at valid
    exact valid
  refine ⟨?_, ?_, ?_, ?_⟩
  · intro q hq
    exact counted' q (sameSize ▸ hq)
  · intro h member
    obtain ⟨j, live⟩ := List.mem_iff_getElem?.mp member
    obtain ⟨i, before⟩ := old j h live
    obtain ⟨bound, generation, unfreed⟩ := inv.past h (List.mem_of_getElem? before)
    refine ⟨sameSize ▸ bound, ?_, unfreed⟩
    simp only [countFree]
    split <;> omega
  · intro j h holds
    obtain ⟨elsewhere, valid⟩ := holds_before j h holds
    obtain ⟨i, before⟩ := old j h holds.1
    have allocated := inv.allocated i h ⟨before, valid⟩
    rw [freeAfter, allocated, decide_eq_false elsewhere, Bool.or_false]
  · intro i j h h' holds holds' same
    by_contra different
    obtain ⟨i', j', ne, before, before'⟩ := apart i j h h' holds.1 holds'.1 different
    exact ne (inv.distinct i' j' h h' ⟨before, (holds_before i h holds).2⟩
      ⟨before', (holds_before j h' holds').2⟩ same)

theorem erased_handle {handles : List BlockHandle} {k j : ℕ} {h : BlockHandle}
    (live : (handles.eraseIdx k)[j]? = some h) :
    handles[if j < k then j else j + 1]? = some h := by
  rw [List.getElem?_eraseIdx] at live
  split at live
  next before => rwa [if_pos before]
  next after => rwa [if_neg after]

theorem step_cases {s t : System} {op : BlockOp} (h : s.step op = some t) :
    (op = .alloc ∧ t = s) ∨
    (∃ index generation a', op = .alloc ∧
      s.allocator.allocBlock = .ok ((index, generation), a') ∧
      t = { s with allocator := a', handles := s.handles ++ [BlockHandle.new index generation] }) ∨
    (∃ index a', op = .free index ∧ s.allocator.freeBlock index = some a' ∧
      t = { s with allocator := a', frees := s.countFree index }) ∨
    (∃ k handle, op = .drop k ∧ s.handles[k]? = some handle ∧
      ((handle.freed = true ∧ t = { s with handles := s.handles.eraseIdx k }) ∨
        (handle.freed = false ∧ ∃ a', s.allocator.freeBlock handle.pageIndex = some a' ∧
          t = { allocator := a', handles := s.handles.eraseIdx k,
                frees := s.countFree handle.pageIndex }))) := by
  cases op with
  | alloc =>
    simp only [step] at h
    split at h
    next =>
      cases h
      exact Or.inl ⟨rfl, rfl⟩
    next index generation a' found =>
      cases h
      exact Or.inr (Or.inl ⟨index, generation, a', rfl, found, rfl⟩)
  | free index =>
    simp only [step, Option.bind_eq_bind, Option.bind_eq_some_iff, Option.some.injEq] at h
    obtain ⟨a', freed, rfl⟩ := h
    exact Or.inr (Or.inr (Or.inl ⟨index, a', rfl, freed, rfl⟩))
  | drop k =>
    simp only [step, Option.bind_eq_bind, Option.bind_eq_some_iff, Option.some.injEq] at h
    obtain ⟨handle, live, upgraded, dropped, a', rfl, rfl⟩ := h
    refine Or.inr (Or.inr (Or.inr ⟨k, handle, rfl, live, ?_⟩))
    unfold BlockHandle.drop at dropped
    cases freed : handle.freed with
    | true =>
      rw [if_pos freed] at dropped
      cases dropped
      exact Or.inl ⟨rfl, rfl⟩
    | false =>
      rw [if_neg (by simp [freed])] at dropped
      simp only [Option.map_eq_some_iff, Option.some.injEq, exists_eq_right] at dropped
      exact Or.inr ⟨rfl, a', dropped, rfl⟩

theorem frees_le {s t : System} {op : BlockOp} (h : s.step op = some t) (q : ℕ) :
    s.frees q ≤ t.frees q := by
  rcases step_cases h with ⟨-, rfl⟩ | ⟨_, _, _, -, -, rfl⟩ | ⟨index, a', -, -, rfl⟩ |
    ⟨k, handle, -, -, ⟨-, rfl⟩ | ⟨-, a', -, rfl⟩⟩
  · exact Nat.le_refl _
  · exact Nat.le_refl _
  · simp only [countFree]
    split <;> omega
  · exact Nat.le_refl _
  · simp only [countFree]
    split <;> omega

theorem frees_le_exec {ops : List BlockOp} {s u : System} (run : Runs.exec step s ops = some u)
    (q : ℕ) : s.frees q ≤ u.frees q := by
  induction ops generalizing s with
  | nil =>
    cases run
    exact Nat.le_refl _
  | cons op ops ih =>
    obtain ⟨t, taken, rest⟩ := (Runs.exec_cons_iff step s u op ops).mp run
    exact Nat.le_trans (frees_le taken q) (ih rest)

private theorem inv_alloc {s : System} (inv : s.Inv) {index : ℕ} {generation : UInt32}
    {a' : KvCacheBlockAllocator} (found : s.allocator.allocBlock = .ok ((index, generation), a')) :
    Inv { s with allocator := a', handles := s.handles ++ [BlockHandle.new index generation] } := by
  obtain ⟨free, current, sameSize, sameGen, freeAfter⟩ := KvCacheBlockAllocator.allocBlock_ok found
  have inside := s.allocator.pager.isFree_lt free
  have same_valid : ∀ h : BlockHandle,
      h.isValid (some a') = some true ↔ h.isValid (some s.allocator) = some true := by
    intro h
    rw [BlockHandle.isValid_iff, BlockHandle.isValid_iff, sameSize, sameGen]
  -- An older handle holds what it held before, which was not free and so is another page.
  have holds_cases : ∀ j h, Holds
      { s with allocator := a', handles := s.handles ++ [BlockHandle.new index generation] } j h →
      (s.Holds j h ∧ h.pageIndex ≠ index ∧ j < s.handles.length) ∨
        (j = s.handles.length ∧ h = BlockHandle.new index generation) := by
    rintro j h ⟨live, valid⟩
    rw [same_valid] at valid
    by_cases older : j < s.handles.length
    · have holds : s.Holds j h := ⟨by simpa [List.getElem?_append_left older] using live, valid⟩
      refine Or.inl ⟨holds, fun same => ?_, older⟩
      have := inv.allocated j h holds
      rw [same, free] at this
      cases this
    · rw [List.getElem?_append_right (Nat.le_of_not_lt older)] at live
      have position : j - s.handles.length = 0 := by
        have := (List.getElem?_eq_some_iff.mp live).1
        rw [List.length_singleton] at this
        omega
      rw [position, List.getElem?_cons_zero, Option.some.injEq] at live
      exact Or.inr ⟨by omega, live.symm⟩
  refine ⟨?_, ?_, ?_, ?_⟩
  · intro q hq
    rw [sameGen]
    exact inv.counted q (sameSize ▸ hq)
  · intro h member
    rcases List.mem_append.mp member with old | new
    · obtain ⟨bound, rest⟩ := inv.past h old
      exact ⟨sameSize ▸ bound, rest⟩
    · rw [List.mem_singleton.mp new]
      refine ⟨sameSize ▸ inside, ?_, rfl⟩
      rw [BlockHandle.new, current, inv.counted index inside]
  · intro j h holds
    rcases holds_cases j h holds with ⟨before, elsewhere, -⟩ | ⟨-, rfl⟩
    · rw [freeAfter, inv.allocated j h before, Bool.false_and]
    · simp [freeAfter, BlockHandle.new]
  · intro i j h h' holds holds' same
    rcases holds_cases i h holds with ⟨before, elsewhere, -⟩ | ⟨rfl, rfl⟩ <;>
      rcases holds_cases j h' holds' with ⟨before', elsewhere', -⟩ | ⟨rfl, rfl⟩
    · exact inv.distinct i j h h' before before' same
    · exact absurd same elsewhere
    · exact absurd same.symm elsewhere'
    · rfl

theorem inv_step {s t : System} {op : BlockOp} (inv : s.Inv) (h : s.step op = some t)
    (room : ∀ q, t.frees q < 2 ^ 32) : t.Inv := by
  rcases step_cases h with ⟨-, rfl⟩ | ⟨_, _, _, -, found, rfl⟩ | ⟨index, a', -, freed, rfl⟩ |
    ⟨k, handle, -, live, ⟨marked, rfl⟩ | ⟨-, a', freed, rfl⟩⟩
  · exact inv
  · exact inv_alloc inv found
  · have count := room index
    simp only [countFree, if_true] at count
    exact inv_of_free inv freed (fun j h live => ⟨j, live⟩)
      (fun i j h h' live live' ne => ⟨i, j, ne, live, live'⟩) count
  · have unmarked := (inv.past handle (List.mem_of_getElem? live)).2.2
    rw [marked] at unmarked
    cases unmarked
  · have count := room handle.pageIndex
    simp only [countFree, if_true] at count
    refine inv_of_free inv freed (fun j h live => ⟨_, erased_handle live⟩) ?_ count
    intro i j h h' live live' ne
    refine ⟨_, _, ?_, erased_handle live, erased_handle live'⟩
    split <;> split <;> omega

theorem always_inv {ops : List BlockOp} {s u : System} (inv : s.Inv)
    (run : Runs.exec step s ops = some u) (room : ∀ q, u.frees q < 2 ^ 32) :
    Runs.Always step Inv s ops := by
  induction ops generalizing s with
  | nil => exact inv
  | cons op ops ih =>
    obtain ⟨t, taken, rest⟩ := (Runs.exec_cons_iff step s u op ops).mp run
    have next := inv_step inv taken fun q => Nat.lt_of_le_of_lt (frees_le_exec rest q) (room q)
    refine ⟨inv, fun t' taken' => ?_⟩
    obtain rfl : t = t' := Option.some.inj (taken.symm.trans taken')
    exact ih next rest

theorem Inv.heldBlocksSafe {s : System} (inv : s.Inv) : s.HeldBlocksSafe := by
  intro j h holds
  refine ⟨inv.allocated j h holds, fun idx generation a' found same => ?_⟩
  have free := (KvCacheBlockAllocator.allocBlock_ok found).1
  rw [same, inv.allocated j h holds] at free
  cases free

/-! ## Which drops keep the blocks of other handles -/

private theorem keeps_of_free {s : System} {index : ℕ} {a' : KvCacheBlockAllocator}
    (freed : s.allocator.freeBlock index = some a') {page : ℕ} (other : page ≠ index) :
    a'.pager.isFree page = s.allocator.pager.isFree page ∧
      a'.generationOf page = s.allocator.generationOf page := by
  obtain ⟨-, -, freeAfter, genAfter⟩ := KvCacheBlockAllocator.freeBlock_some freed
  rw [freeAfter, genAfter, if_neg other, decide_eq_false other, Bool.or_false]
  exact ⟨rfl, rfl⟩

theorem keepsHeldBlocks_iff {s t : System} {op : BlockOp} (inv : s.Inv) (h : s.step op = some t) :
    s.KeepsHeldBlocks op t ↔ s.NoStaleDrop op := by
  rcases step_cases h with ⟨rfl, rfl⟩ | ⟨_, _, _, rfl, found, rfl⟩ | ⟨index, a', rfl, freed, rfl⟩ |
    ⟨k, handle, rfl, live, ⟨marked, rfl⟩ | ⟨-, a', freed, rfl⟩⟩
  · exact iff_of_true (fun j h _ _ _ => ⟨rfl, rfl⟩) trivial
  · obtain ⟨free, -, -, sameGen, freeAfter⟩ := KvCacheBlockAllocator.allocBlock_ok found
    refine iff_of_true (fun j h holds _ _ => ⟨?_, by rw [sameGen]⟩) trivial
    rw [freeAfter, inv.allocated j h holds, Bool.false_and]
  · refine iff_of_true (fun j h _ notFreed _ => ?_) trivial
    exact keeps_of_free freed fun same => notFreed (by rw [same])
  · have unmarked := (inv.past handle (List.mem_of_getElem? live)).2.2
    rw [marked] at unmarked
    cases unmarked
  · constructor
    · -- A stale drop of a held page sets the page's bit.
      intro keeps h' live' stale held member valid same
      obtain rfl : handle = h' := Option.some.inj (live.symm.trans live')
      obtain ⟨j, at_j⟩ := List.mem_iff_getElem?.mp member
      have holds : s.Holds j held := ⟨at_j, valid⟩
      have notSelf : j ≠ k := by
        rintro rfl
        obtain rfl : handle = held := Option.some.inj (live.symm.trans holds.1)
        rw [stale] at valid
        cases valid
      have kept := (keeps j held holds (by simp) (by simpa using notSelf.symm)).1
      obtain ⟨-, -, freeAfter, -⟩ := KvCacheBlockAllocator.freeBlock_some freed
      rw [inv.allocated j held holds, freeAfter, decide_eq_true same, Bool.or_true] at kept
      cases kept
    · intro quiet j held holds _ notDropped
      apply keeps_of_free freed
      intro same
      have notSelf : j ≠ k := fun eq => notDropped (by rw [eq])
      have inside := (inv.past handle (List.mem_of_getElem? live)).1
      by_cases valid : handle.isValid (some s.allocator) = some true
      · exact notSelf (inv.distinct j k held handle holds ⟨live, valid⟩ same)
      · have stale : handle.isValid (some s.allocator) = some false := by
          cases read : handle.isValid (some s.allocator) with
          | none => simp [BlockHandle.isValid] at read
          | some b =>
            cases b with
            | false => rfl
            | true => exact absurd read valid
        exact quiet handle live stale held (List.mem_of_getElem? holds.1) holds.2 same

/-- In runs that free no page `2^32` times, held blocks are never free and never handed out
again; and every step leaves the blocks of other holders alone exactly when no stale handle is
dropped while its page is held. -/
theorem held_blocks_iff_noStaleDrop (numPages pageSize : ℕ) (ops : List BlockOp) (u : System)
    (run : Runs.exec step (start numPages pageSize) ops = some u)
    (room : ∀ page, u.frees page < 2 ^ 32) :
    (Runs.Always step HeldBlocksSafe (start numPages pageSize) ops ∧
        Runs.Throughout step KeepsHeldBlocks (start numPages pageSize) ops) ↔
      Runs.Guarded step NoStaleDrop (start numPages pageSize) ops := by
  have invariant := always_inv (inv_start numPages pageSize) run room
  have safe := Runs.always_mono step (fun _ inv => inv.heldBlocksSafe) invariant
  have exact_ := Runs.throughout_iff_guarded step (fun s op t inv => keepsHeldBlocks_iff inv)
    invariant run
  exact ⟨fun both => exact_.mp both.2, fun guarded => ⟨safe, exact_.mpr guarded⟩⟩

theorem frees_le_length {ops : List BlockOp} {s u : System} (run : Runs.exec step s ops = some u)
    (q : ℕ) : u.frees q ≤ s.frees q + ops.length := by
  induction ops generalizing s with
  | nil =>
    cases run
    simp
  | cons op ops ih =>
    obtain ⟨t, taken, rest⟩ := (Runs.exec_cons_iff step s u op ops).mp run
    have one : t.frees q ≤ s.frees q + 1 := by
      rcases step_cases taken with ⟨-, rfl⟩ | ⟨_, _, _, -, -, rfl⟩ | ⟨index, a', -, -, rfl⟩ |
        ⟨k, handle, -, -, ⟨-, rfl⟩ | ⟨-, a', -, rfl⟩⟩
      · omega
      · exact Nat.le_succ _
      · simp only [countFree]
        split <;> omega
      · exact Nat.le_succ _
      · simp only [countFree]
        split <;> omega
    have more := ih rest
    rw [List.length_cons]
    omega

/-- Two handles on two pages, dropped in the order they came; a free by index in between. -/
theorem held_blocks_two_handles :
    Runs.Always step HeldBlocksSafe (start 2 512) [.alloc, .alloc, .free 0, .drop 0, .drop 0] ∧
      Runs.Throughout step KeepsHeldBlocks (start 2 512)
        [.alloc, .alloc, .free 0, .drop 0, .drop 0] := by
  have runs : (Runs.exec step (start 2 512)
      [.alloc, .alloc, .free 0, .drop 0, .drop 0]).isSome = true := by decide
  obtain ⟨u, run⟩ := Option.isSome_iff_exists.mp runs
  have room : ∀ page, u.frees page < 2 ^ 32 := fun page =>
    Nat.lt_of_le_of_lt (frees_le_length run page) (by simp [start])
  exact (held_blocks_iff_noStaleDrop 2 512 _ u run room).mpr (by decide)

/-- A block is freed by index and allocated again; then the first handle, now stale, is
dropped. -/
def staleDropRun : List BlockOp := [.alloc, .free 0, .alloc, .drop 0]

theorem staleDropRun_takes_held_block :
    ¬ Runs.Throughout step KeepsHeldBlocks (start 1 512) staleDropRun := by
  have runs : (Runs.exec step (start 1 512) staleDropRun).isSome = true := by decide
  obtain ⟨u, run⟩ := Option.isSome_iff_exists.mp runs
  have room : ∀ page, u.frees page < 2 ^ 32 := fun page =>
    Nat.lt_of_le_of_lt (frees_le_length run page) (by simp [start, staleDropRun])
  rw [Runs.throughout_iff_guarded step (fun s op t inv => keepsHeldBlocks_iff inv)
    (always_inv (inv_start 1 512) run room) run]
  decide

end System

end TribunusCompute.Memory
