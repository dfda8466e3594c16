import Mathlib.Data.List.Basic
import Mathlib.Tactic.Ring

/-!
# Codes of bytes

Little-endian byte strings of a fixed width, and codes that end by themselves: what a text starts
with is known from the text, and so is what comes after it. Such codes can be written one after
another, and a list of them after its length.
-/
namespace LittleEndian

/-- The `width` low-order base-256 digits, least significant first. -/
def encode : ℕ → ℕ → List UInt8
  | 0, _ => []
  | width + 1, n => UInt8.ofNat (n % 256) :: encode width (n / 256)

def decode : List UInt8 → ℕ
  | [] => 0
  | b :: bs => b.toNat + 256 * decode bs

@[simp] theorem length_encode (width n : ℕ) : (encode width n).length = width := by
  induction width generalizing n with
  | zero => rfl
  | succ width ih => simp [encode, ih]

theorem decode_encode (width n : ℕ) (fits : n < 256 ^ width) : decode (encode width n) = n := by
  induction width generalizing n with
  | zero =>
    have zero : n = 0 := by simpa using fits
    simp [encode, decode, zero]
  | succ width ih =>
    have high : n / 256 < 256 ^ width := by
      apply Nat.div_lt_of_lt_mul
      rwa [Nat.pow_succ, Nat.mul_comm] at fits
    have low : (UInt8.ofNat (n % 256)).toNat = n % 256 := by
      rw [UInt8.toNat_ofNat']
      omega
    simp only [encode, decode, ih _ high, low]
    omega

theorem decode_lt (bs : List UInt8) : decode bs < 256 ^ bs.length := by
  induction bs with
  | nil => simp [decode]
  | cons b bs ih =>
    have byte := b.toNat_lt
    simp only [decode, List.length_cons, Nat.pow_succ]
    omega

theorem encode_decode (bs : List UInt8) : encode bs.length (decode bs) = bs := by
  induction bs with
  | nil => rfl
  | cons b bs ih =>
    have byte := b.toNat_lt
    have low : (b.toNat + 256 * decode bs) % 256 = b.toNat := by omega
    have high : (b.toNat + 256 * decode bs) / 256 = decode bs := by omega
    simp only [List.length_cons, encode, decode, low, high, ih, UInt8.ofNat_toNat]

end LittleEndian

namespace Delimited

variable {α β σ : Type*}

/-- Of any text there is one value at most whose code it starts with. -/
def Code (valid : α → Prop) (f : α → List σ) : Prop :=
  ∀ a b, valid a → valid b → ∀ r s, f a ++ r = f b ++ s → a = b ∧ r = s

variable {valid : α → Prop} {valid' : β → Prop} {f : α → List σ} {g : β → List σ}

theorem Code.injective (code : Code valid f) {a b : α} (left : valid a) (right : valid b) :
    f a = f b ↔ a = b := by
  constructor
  · intro same
    exact (code a b left right [] [] (by rw [same])).1
  · rintro rfl
    rfl

theorem Code.of_length (length : ℕ) (long : ∀ a, valid a → (f a).length = length)
    (apart : ∀ a b, valid a → valid b → f a = f b → a = b) : Code valid f := by
  intro a b left right r s same
  have halves := List.append_inj same ((long a left).trans (long b right).symm)
  exact ⟨apart a b left right halves.1, halves.2⟩

theorem Code.append (first : Code valid f) (second : Code valid' g) :
    Code (fun p : α × β => valid p.1 ∧ valid' p.2) fun p => f p.1 ++ g p.2 := by
  rintro ⟨a, a'⟩ ⟨b, b'⟩ left right r s same
  simp only [List.append_assoc] at same
  obtain ⟨rfl, middle⟩ := first a b left.1 right.1 _ _ same
  obtain ⟨rfl, rest⟩ := second a' b' left.2 right.2 _ _ middle
  exact ⟨rfl, rest⟩

theorem Code.comap (code : Code valid f) {h : β → α} (apart : Function.Injective h) :
    Code (fun b => valid (h b)) fun b => f (h b) := by
  intro a b left right r s same
  obtain ⟨equal, rest⟩ := code (h a) (h b) left right r s same
  exact ⟨apart equal, rest⟩

theorem Code.mono {narrow : α → Prop} (code : Code valid f) (within : ∀ a, narrow a → valid a) :
    Code narrow f :=
  fun a b left right => code a b (within a left) (within b right)

theorem Code.flatMap (code : Code valid f) {as bs : List α} (same : as.length = bs.length)
    (left : ∀ a ∈ as, valid a) (right : ∀ b ∈ bs, valid b) {r s : List σ}
    (equal : as.flatMap f ++ r = bs.flatMap f ++ s) : as = bs ∧ r = s := by
  induction as generalizing bs with
  | nil =>
    obtain rfl := List.length_eq_zero_iff.mp same.symm
    exact ⟨rfl, equal⟩
  | cons a as ih =>
    cases bs with
    | nil => simp at same
    | cons b bs =>
      simp only [List.flatMap_cons, List.append_assoc] at equal
      obtain ⟨rfl, middle⟩ := code a b (left a List.mem_cons_self) (right b List.mem_cons_self) _ _
        equal
      obtain ⟨rfl, rest⟩ := ih (Nat.succ.inj same)
        (fun a member => left a (List.mem_cons_of_mem _ member))
        (fun b member => right b (List.mem_cons_of_mem _ member)) middle
      exact ⟨rfl, rest⟩

theorem word (width : ℕ) : Code (· < 256 ^ width) (LittleEndian.encode width) := by
  refine Code.of_length width (fun n _ => LittleEndian.length_encode width n) ?_
  intro m n left right same
  rw [← LittleEndian.decode_encode width m left, same, LittleEndian.decode_encode width n right]

/-- A list after its length. -/
def counted (width : ℕ) (f : α → List UInt8) (as : List α) : List UInt8 :=
  LittleEndian.encode width as.length ++ as.flatMap f

theorem Code.counted {f : α → List UInt8} (code : Code valid f) (width : ℕ) :
    Code (fun as : List α => as.length < 256 ^ width ∧ ∀ a ∈ as, valid a)
      (Delimited.counted width f) := by
  intro as bs left right r s same
  simp only [Delimited.counted, List.append_assoc] at same
  -- the lengths agree first, and the elements are compared one by one
  obtain ⟨lengths, rest⟩ := word width _ _ left.1 right.1 _ _ same
  exact code.flatMap lengths left.2 right.2 rest

end Delimited
