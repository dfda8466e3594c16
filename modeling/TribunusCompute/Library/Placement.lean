import Mathlib.Data.List.Basic
import Mathlib.Tactic.Ring

/-!
# Blocks placed one after another

A block starts where the running offset is, rounded up to its lead alignment, and the running
offset moves on by its size. What is reported of a block is its start rounded up once more, to
its trail alignment, so that a reported range can reach past where the next block starts.
-/
namespace Placement

/-- The least multiple of `align` that is not below `offset`. -/
def roundUp (offset align : ℕ) : ℕ := (offset + (align - 1)) / align * align

theorem dvd_roundUp (offset align : ℕ) : align ∣ roundUp offset align := Nat.dvd_mul_left _ _

theorem le_roundUp {align : ℕ} (positive : 0 < align) (offset : ℕ) :
    offset ≤ roundUp offset align := by
  have split := Nat.div_add_mod (offset + (align - 1)) align
  have short := Nat.mod_lt (offset + (align - 1)) positive
  rw [Nat.mul_comm] at split
  show offset ≤ (offset + (align - 1)) / align * align
  omega

theorem roundUp_of_dvd {offset align : ℕ} (divides : align ∣ offset) :
    roundUp offset align = offset := by
  obtain ⟨count, rfl⟩ := divides
  rcases Nat.eq_zero_or_pos align with rfl | positive
  · simp [roundUp]
  · rw [roundUp, Nat.mul_add_div positive, Nat.div_eq_of_lt (Nat.sub_lt positive Nat.one_pos),
      Nat.add_zero, Nat.mul_comm]

@[simp] theorem roundUp_one (offset : ℕ) : roundUp offset 1 = offset :=
  roundUp_of_dvd (Nat.one_dvd offset)

/-- Clearing the low bits after adding the mask rounds up to a power of two. -/
theorem land_clear {raised width bits : ℕ} (fits : raised < 2 ^ width) (within : bits ≤ width) :
    raised &&& (2 ^ width - 2 ^ bits) = raised / 2 ^ bits * 2 ^ bits := by
  have ones : 2 ^ width - 2 ^ bits = (2 ^ (width - bits) - 1) <<< bits := by
    rw [Nat.shiftLeft_eq, Nat.sub_mul, Nat.one_mul, ← Nat.pow_add, Nat.sub_add_cancel within]
  apply Nat.eq_of_testBit_eq
  intro i
  rw [ones, Nat.testBit_and, Nat.testBit_shiftLeft, ← Nat.shiftLeft_eq, Nat.testBit_shiftLeft]
  rcases Nat.lt_or_ge i bits with low | above
  · simp [Nat.not_le.mpr low]
  · rw [Nat.testBit_two_pow_sub_one, ← Nat.shiftRight_eq_div_pow, Nat.testBit_shiftRight,
      Nat.add_sub_cancel' above]
    by_cases inside : i - bits < width - bits
    · simp [above, inside]
    · have none : raised.testBit i = false := by
        apply Nat.testBit_lt_two_pow
        exact Nat.lt_of_lt_of_le fits (Nat.pow_le_pow_right (by decide) (by omega))
      simp [none]

theorem toNat_land_not {x mask width : ℕ} (fits : x < 2 ^ width) (within : mask < 2 ^ width) :
    (BitVec.ofNat width x &&& ~~~BitVec.ofNat width mask).toNat = x &&& (2 ^ width - 1 - mask) := by
  rw [BitVec.toNat_and, BitVec.toNat_not, BitVec.toNat_ofNat, BitVec.toNat_ofNat,
    Nat.mod_eq_of_lt fits, Nat.mod_eq_of_lt within]

theorem le_clear_add {x mask width : ℕ} (fits : x < 2 ^ width) (within : mask < 2 ^ width) :
    x ≤ (x &&& (2 ^ width - 1 - mask)) + mask := by
  let v := BitVec.ofNat width x
  let m := BitVec.ofNat width mask
  have apart : (v &&& ~~~m) &&& (v &&& m) = BitVec.ofNat width 0 := by
    ext i
    simp only [BitVec.getElem_and, BitVec.getElem_not, BitVec.getElem_zero]
    cases v[i] <;> cases m[i] <;> rfl
  have whole : (v &&& ~~~m) + (v &&& m) = v := by
    rw [BitVec.add_eq_or_of_and_eq_zero _ _ apart]
    ext i
    simp only [BitVec.getElem_and, BitVec.getElem_not, BitVec.getElem_or]
    cases v[i] <;> cases m[i] <;> rfl
  have sum := BitVec.toNat_add_of_and_eq_zero apart
  have value : v.toNat = x := by rw [BitVec.toNat_ofNat, Nat.mod_eq_of_lt fits]
  have masked : (v &&& m).toNat ≤ mask := by
    rw [BitVec.toNat_and, BitVec.toNat_ofNat, BitVec.toNat_ofNat, Nat.mod_eq_of_lt within]
    exact Nat.and_le_right
  rw [whole, value, toNat_land_not fits within] at sum
  omega

theorem clear_add_clear {x mask width : ℕ} (fits : x < 2 ^ width) (within : mask < 2 ^ width) :
    (x &&& (2 ^ width - 1 - mask)) + mask < 2 ^ width ∧
      ((x &&& (2 ^ width - 1 - mask)) + mask) &&& (2 ^ width - 1 - mask) =
        x &&& (2 ^ width - 1 - mask) := by
  let v := BitVec.ofNat width x
  let m := BitVec.ofNat width mask
  have apart : (v &&& ~~~m) &&& m = BitVec.ofNat width 0 := by
    ext i
    simp only [BitVec.getElem_and, BitVec.getElem_not, BitVec.getElem_zero]
    cases v[i] <;> cases m[i] <;> rfl
  have sum := BitVec.toNat_add_of_and_eq_zero apart
  have again : ((v &&& ~~~m) + m) &&& ~~~m = v &&& ~~~m := by
    rw [BitVec.add_eq_or_of_and_eq_zero _ _ apart]
    ext i
    simp only [BitVec.getElem_and, BitVec.getElem_not, BitVec.getElem_or]
    cases v[i] <;> cases m[i] <;> rfl
  have cleared : (v &&& ~~~m).toNat = x &&& (2 ^ width - 1 - mask) := toNat_land_not fits within
  have value : m.toNat = mask := by rw [BitVec.toNat_ofNat, Nat.mod_eq_of_lt within]
  rw [cleared, value] at sum
  have less := ((v &&& ~~~m) + m).isLt
  have clearedAgain := congrArg BitVec.toNat again
  rw [BitVec.toNat_and, BitVec.toNat_not, sum, value, cleared] at clearedAgain
  exact ⟨sum ▸ less, clearedAgain⟩
/-- A block to be placed: its size, the alignment of its start and that of its report. -/
structure Block where
  size : ℕ
  lead : ℕ
  trail : ℕ
  trail_pos : 0 < trail
  lead_pos : 0 < lead

namespace Block

variable (block : Block) (running : ℕ)

def start : ℕ := roundUp running block.lead

def stop : ℕ := block.start running + block.size

/-- How far the report lies behind the start. -/
def pad : ℕ := roundUp (block.start running) block.trail - block.start running

/-- The reported range, an offset and a length. -/
def range : ℕ × ℕ := (roundUp (block.start running) block.trail, block.size)

theorem range_eq : (block.range running).1 = block.start running + block.pad running := by
  have later := le_roundUp block.trail_pos (block.start running)
  show roundUp (block.start running) block.trail = _
  unfold pad
  omega

theorem le_start : running ≤ block.start running := le_roundUp block.lead_pos running

theorem le_stop : running ≤ block.stop running :=
  Nat.le_trans (block.le_start running) (Nat.le_add_right _ _)

end Block

def finish (running : ℕ) (blocks : List Block) : ℕ :=
  blocks.foldl (fun running block => block.stop running) running

def starts : ℕ → List Block → List ℕ
  | _, [] => []
  | running, block :: rest => block.start running :: starts (block.stop running) rest

def ranges : ℕ → List Block → List (ℕ × ℕ)
  | _, [] => []
  | running, block :: rest => block.range running :: ranges (block.stop running) rest

/-- Two ranges share no byte. -/
def Apart (left right : ℕ × ℕ) : Prop :=
  left.1 + left.2 ≤ right.1 ∨ right.1 + right.2 ≤ left.1

instance (left right : ℕ × ℕ) : Decidable (Apart left right) :=
  inferInstanceAs (Decidable (_ ∨ _))

/-- A block of `size` bytes that ended at `stop` and is reported `pad` bytes behind its start is
not pushed into the later blocks: its padding fits into the bytes up to a later block's report,
or carries it past that block. -/
def Misses (pad size stop : ℕ) : ℕ → List Block → Prop
  | _, [] => True
  | running, block :: rest =>
    (block.size ≠ 0 →
      pad ≤ block.start running - stop + block.pad running ∨
        size + (block.start running - stop + block.pad running) + block.size ≤ pad) ∧
      Misses pad size stop (block.stop running) rest

/-- No padding pushes a block into a later one. -/
def Clear : ℕ → List Block → Prop
  | _, [] => True
  | running, block :: rest =>
    (block.size ≠ 0 →
      Misses (block.pad running) block.size (block.stop running) (block.stop running) rest) ∧
      Clear (block.stop running) rest

instance decidableMisses (pad size stop : ℕ) :
    ∀ running blocks, Decidable (Misses pad size stop running blocks)
  | _, [] => inferInstanceAs (Decidable True)
  | running, block :: rest =>
    have := decidableMisses pad size stop (block.stop running) rest
    inferInstanceAs (Decidable ((_ → _ ∨ _) ∧ Misses pad size stop (block.stop running) rest))

instance decidableClear : ∀ running blocks, Decidable (Clear running blocks)
  | _, [] => inferInstanceAs (Decidable True)
  | running, block :: rest =>
    have := decidableClear (block.stop running) rest
    inferInstanceAs (Decidable ((_ → Misses _ _ _ _ rest) ∧ Clear (block.stop running) rest))

theorem misses_iff {block : Block} {running : ℕ} {rest : List Block} {later : ℕ}
    (reached : block.stop running ≤ later) :
    Misses (block.pad running) block.size (block.stop running) later rest ↔
      ∀ range ∈ ranges later rest, range.2 ≠ 0 → Apart (block.range running) range := by
  induction rest generalizing later with
  | nil => simp [Misses, ranges]
  | cons next rest ih =>
    have moved := next.le_start later
    have mine := block.range_eq running
    have theirs := next.range_eq later
    have stopped : block.stop running = block.start running + block.size := rfl
    -- both ranges lie behind the block's start, so that only the distances matter
    have here : Apart (block.range running) (next.range later) ↔
        block.pad running ≤ next.start later - block.stop running + next.pad later ∨
          block.size + (next.start later - block.stop running + next.pad later) + next.size ≤
            block.pad running := by
      have sizes : (block.range running).2 = block.size ∧ (next.range later).2 = next.size :=
        ⟨rfl, rfl⟩
      unfold Apart
      rw [mine, theirs, sizes.1, sizes.2]
      omega
    rw [Misses, ranges, List.forall_mem_cons, ih (Nat.le_trans reached (next.le_stop later)), here]
    rfl

/-- The non-empty reported ranges are disjoint exactly when every padding is clear. -/
theorem clear_iff {running : ℕ} {blocks : List Block} :
    Clear running blocks ↔
      (ranges running blocks).Pairwise fun left right =>
        left.2 ≠ 0 → right.2 ≠ 0 → Apart left right := by
  induction blocks generalizing running with
  | nil => simp [Clear, ranges]
  | cons block rest ih =>
    rw [Clear, ranges, List.pairwise_cons, ih, misses_iff (Nat.le_refl _)]
    apply and_congr_left
    intro _
    constructor
    · intro apart range member mine theirs
      exact apart mine range member theirs
    · intro apart mine range member theirs
      exact apart range member mine theirs

end Placement
