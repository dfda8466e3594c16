import Mathlib.Data.List.Infix

/-!
# Texts

A text without its suffix. A number can be read back from its numeral, from a numeral padded
with zeros, and from a numeral that something other than a digit follows.
-/
namespace Suffix

/-- The text without the suffix, where it ends with it. -/
def strip (suffix text : String) : Option String :=
  if suffix.toList.isSuffixOf text.toList then
    some (String.ofList (text.toList.take (text.toList.length - suffix.toList.length)))
  else none

theorem strip_eq_some_iff {suffix text stem : String} :
    strip suffix text = some stem ↔ text = stem ++ suffix := by
  unfold strip
  constructor
  · intro found
    split at found
    next ends =>
      obtain ⟨before, same⟩ := List.isSuffixOf_iff_suffix.mp ends
      cases found
      rw [← String.toList_inj, String.toList_append, String.toList_ofList, ← same]
      simp
    next not => cases found
  · rintro rfl
    have ends : suffix.toList.isSuffixOf (stem ++ suffix).toList = true := by
      rw [List.isSuffixOf_iff_suffix, String.toList_append]
      exact List.suffix_append _ _
    rw [if_pos ends, String.toList_append]
    simp

theorem append_left_inj {stem stem' suffix : String} :
    stem ++ suffix = stem' ++ suffix ↔ stem = stem' := by
  rw [← String.toList_inj, ← String.toList_inj, String.toList_append, String.toList_append,
    List.append_left_inj]

/-- Suffixes of one length are told apart by the end of the text. -/
theorem append_ne {stem stem' suffix suffix' : String}
    (lengths : suffix.toList.length = suffix'.toList.length) (apart : suffix ≠ suffix') :
    stem ++ suffix ≠ stem' ++ suffix' := by
  intro same
  rw [← String.toList_inj, String.toList_append, String.toList_append] at same
  have ends := (List.append_inj' same lengths).2
  exact apart (String.toList_inj.mp ends)

end Suffix

namespace Decimal

/-- The numeral of `n`, padded with zeros to at least `width` digits. -/
def padded (width n : ℕ) : List Char :=
  let digits := Nat.toDigits 10 n
  List.replicate (width - digits.length) '0' ++ digits

theorem padded_injective (width : ℕ) : (padded width).Injective := by
  intro m n same
  have values := congrArg (fun l => Nat.ofDigitChars 10 l 0) same
  simpa [padded, Nat.ofDigitChars_append, Nat.ofDigitChars_replicate_zero,
    Nat.ofDigitChars_ten_toDigits] using values

theorem toList_toString (n : ℕ) : (toString n).toList = Nat.toDigits 10 n := by
  rw [Nat.toString_eq_ofList_toDigits, String.toList_ofList]

theorem toDigits_injective : (Nat.toDigits 10).Injective := by
  intro m n same
  have values := congrArg (fun l => Nat.ofDigitChars 10 l 0) same
  simpa [Nat.ofDigitChars_ten_toDigits] using values

/-- Texts that do not go on with a digit. -/
def Stops (text : List Char) : Prop := ∀ c ∈ text.head?, c.isDigit = false

theorem digits_append_inj {xs ys xs' ys' : List Char} (digits : ∀ c ∈ xs, c.isDigit = true)
    (digits' : ∀ c ∈ xs', c.isDigit = true) (stops : Stops ys) (stops' : Stops ys')
    (same : xs ++ ys = xs' ++ ys') : xs = xs' ∧ ys = ys' := by
  induction xs generalizing xs' with
  | nil =>
    cases xs' with
    | nil => exact ⟨rfl, same⟩
    | cons c xs' =>
      -- A digit of the second numeral would have to open what follows the first.
      rw [List.nil_append] at same
      have digit := digits' c List.mem_cons_self
      rw [stops c (by rw [same]; simp)] at digit
      cases digit
  | cons c xs ih =>
    cases xs' with
    | nil =>
      rw [List.nil_append] at same
      have digit := digits c List.mem_cons_self
      rw [stops' c (by rw [← same]; simp)] at digit
      cases digit
    | cons c' xs' =>
      rw [List.cons_append, List.cons_append, List.cons.injEq] at same
      obtain ⟨rfl, tails⟩ := same
      obtain ⟨rfl, rest⟩ := ih (fun d member => digits d (List.mem_cons_of_mem _ member))
        (fun d member => digits' d (List.mem_cons_of_mem _ member)) tails
      exact ⟨rfl, rest⟩

/-- A numeral ends where something other than a digit begins. -/
theorem toString_append_inj {m n : ℕ} {xs ys : List Char} (stops : Stops xs) (stops' : Stops ys)
    (same : (toString m).toList ++ xs = (toString n).toList ++ ys) : m = n ∧ xs = ys := by
  rw [toList_toString, toList_toString] at same
  have digits : ∀ k, ∀ c ∈ Nat.toDigits 10 k, c.isDigit = true := fun k c member =>
    Nat.isDigit_of_mem_toDigits (by decide) (by decide) member
  obtain ⟨numerals, rest⟩ := digits_append_inj (digits m) (digits n) stops stops' same
  exact ⟨toDigits_injective numerals, rest⟩

end Decimal
