import Mathlib.Algebra.GroupWithZero.Nat
import Mathlib.Data.List.Forall2

/-!
# Outcomes

A call returns a value, reports an error, or panics. Machine arithmetic panics where its
result does not fit, as it does in a build with overflow checks.
-/

inductive Fault
  | reported (reason : String)
  | panicked
  deriving DecidableEq, Repr

abbrev Outcome (α : Type) := Except Fault α

namespace Outcome

variable {α β : Type}

def report (reason : String) : Outcome α := .error (.reported reason)

def panics : Outcome α := .error .panicked

/-- The value, or the error where there is none. -/
def orReport (reason : String) : Option α → Outcome α
  | some a => .ok a
  | none => report reason

/-- A result whose error is reported after what was being done. -/
def reportIn (doing : String) : Except String α → Outcome α
  | .ok a => .ok a
  | .error e => report (doing ++ ": " ++ e)

/-- A check that reports where it fails. -/
def require (holds : Prop) [Decidable holds] (reason : String) : Outcome Unit :=
  if holds then .ok () else report reason

/-- A check that panics where it fails. -/
def assert (holds : Prop) [Decidable holds] : Outcome Unit := if holds then .ok () else panics

/-- A result of at most `width` bits. -/
def fit (width n : ℕ) : Outcome ℕ := if n < 2 ^ width then .ok n else panics

/-- Division panics on a zero divisor. -/
def quotient (a b : ℕ) : Outcome ℕ := if b = 0 then panics else .ok (a / b)

/-- An addition in 64 bits that stops at the largest number. -/
def saturatingAdd (a b : ℕ) : ℕ := min (a + b) (2 ^ 64 - 1)

/-- Indexing panics out of bounds. -/
def element (as : List α) (i : ℕ) : Outcome α :=
  match as[i]? with
  | some a => .ok a
  | none => panics

theorem bind_ok_iff {ε : Type} {x : Except ε α} {f : α → Except ε β} {b : β} :
    (x >>= f) = .ok b ↔ ∃ a, x = .ok a ∧ f a = .ok b := by
  cases x with
  | error e =>
    constructor
    · intro h
      cases h
    · rintro ⟨a, h, -⟩
      cases h
  | ok a =>
    constructor
    · intro h
      exact ⟨a, rfl, h⟩
    · rintro ⟨a', h, there⟩
      cases h
      exact there

theorem bind_panics_iff {x : Outcome α} {f : α → Outcome β} :
    (x >>= f) = panics ↔ x = panics ∨ ∃ a, x = .ok a ∧ f a = panics := by
  cases x with
  | error e =>
    constructor
    · intro h
      cases h
      exact .inl rfl
    · rintro (h | ⟨a, h, -⟩)
      · cases h
        rfl
      · cases h
  | ok a =>
    constructor
    · intro h
      exact .inr ⟨a, rfl, h⟩
    · rintro (h | ⟨a', h, there⟩)
      · cases h
      · cases h
        exact there

@[simp] theorem pure_ne_panics {a : α} : (pure a : Outcome α) ≠ panics := by
  intro h
  cases h

@[simp] theorem pure_ok_iff {a b : α} : (pure a : Outcome α) = .ok b ↔ a = b := by
  constructor
  · intro h
    cases h
    rfl
  · rintro rfl
    rfl

theorem exists_ok_of_isSome {x : Outcome α} (some : x.toOption.isSome = true) :
    ∃ a, x = .ok a := by
  cases x with
  | ok a => exact ⟨a, rfl⟩
  | error e => cases some

@[simp] theorem orReport_ok_iff {reason : String} {o : Option α} {a : α} :
    orReport reason o = .ok a ↔ o = some a := by
  cases o with
  | none => simp [orReport, report]
  | some b => simp [orReport]

@[simp] theorem reportIn_ok_iff {doing : String} {x : Except String α} {a : α} :
    reportIn doing x = .ok a ↔ x = .ok a := by
  cases x with
  | ok b => simp [reportIn]
  | error e => simp [reportIn, report]

@[simp] theorem require_ok_iff {holds : Prop} [Decidable holds] {reason : String} {u : Unit} :
    require holds reason = .ok u ↔ holds := by
  unfold require
  split
  next yes => simp [yes]
  next no => simp [no, report]

@[simp] theorem require_ne_panics {holds : Prop} [Decidable holds] {reason : String} :
    require holds reason ≠ panics := by
  unfold require
  split <;> simp [panics, report]

@[simp] theorem assert_ok_iff {holds : Prop} [Decidable holds] {u : Unit} :
    assert holds = .ok u ↔ holds := by
  unfold assert
  split
  next yes => simp [yes]
  next no => simp [no, panics]

@[simp] theorem fit_panics_iff {width n : ℕ} : fit width n = panics ↔ 2 ^ width ≤ n := by
  unfold fit
  split
  next fits => simp [panics, fits]
  next large => simp [Nat.not_lt.mp large]

@[simp] theorem fit_ok_iff {width n m : ℕ} : fit width n = .ok m ↔ n < 2 ^ width ∧ n = m := by
  unfold fit
  split
  next fits => simp [fits]
  next large => simp [large, panics]

@[simp] theorem quotient_ok_iff {a b c : ℕ} : quotient a b = .ok c ↔ b ≠ 0 ∧ a / b = c := by
  unfold quotient
  split
  next zero => simp [zero, panics]
  next divides => simp [divides]

@[simp] theorem element_ok_iff {as : List α} {i : ℕ} {a : α} :
    element as i = .ok a ↔ as[i]? = some a := by
  unfold element
  cases as[i]? with
  | none => simp [panics]
  | some b => simp

@[simp] theorem element_panics_iff {as : List α} {i : ℕ} :
    element as i = panics ↔ as.length ≤ i := by
  unfold element
  cases found : as[i]? with
  | none => simpa [panics] using found
  | some b =>
    obtain ⟨inside, -⟩ := List.getElem?_eq_some_iff.mp found
    simp [panics, inside]

theorem mapM_ok_iff {f : α → Outcome β} {as : List α} {bs : List β} :
    as.mapM f = .ok bs ↔ List.Forall₂ (fun a b => f a = .ok b) as bs := by
  induction as generalizing bs with
  | nil =>
    rw [List.mapM_nil, pure_ok_iff]
    constructor
    · rintro rfl
      exact .nil
    · intro h
      cases h
      rfl
  | cons a as ih =>
    rw [List.mapM_cons, bind_ok_iff]
    constructor
    · rintro ⟨b, first, rest⟩
      obtain ⟨bs, later, done⟩ := bind_ok_iff.mp rest
      obtain rfl := pure_ok_iff.mp done
      exact .cons first (ih.mp later)
    · intro h
      cases h with
      | cons first later => exact ⟨_, first, bind_ok_iff.mpr ⟨_, ih.mpr later, rfl⟩⟩

theorem exists_of_mapM_ok {f : α → Outcome β} {as : List α} {bs : List β} {b : β}
    (ok : as.mapM f = .ok bs) (member : b ∈ bs) : ∃ a ∈ as, f a = .ok b := by
  induction mapM_ok_iff.mp ok with
  | nil => cases member
  | cons first later ih =>
    rcases List.mem_cons.mp member with rfl | rest
    · exact ⟨_, List.mem_cons_self, first⟩
    · obtain ⟨a, there, result⟩ := ih (mapM_ok_iff.mpr later) rest
      exact ⟨a, List.mem_cons_of_mem _ there, result⟩

theorem mem_of_mapM_ok {f : α → Outcome β} {as : List α} {bs : List β} {a : α}
    (ok : as.mapM f = .ok bs) (member : a ∈ as) : ∃ b ∈ bs, f a = .ok b := by
  induction mapM_ok_iff.mp ok with
  | nil => cases member
  | cons first later ih =>
    rcases List.mem_cons.mp member with rfl | rest
    · exact ⟨_, List.mem_cons_self, first⟩
    · obtain ⟨b, there, result⟩ := ih (mapM_ok_iff.mpr later) rest
      exact ⟨b, List.mem_cons_of_mem _ there, result⟩

theorem exists_mapM_ok {f : α → Outcome β} {as : List α} (each : ∀ a ∈ as, ∃ b, f a = .ok b) :
    ∃ bs, as.mapM f = .ok bs := by
  induction as with
  | nil => exact ⟨[], rfl⟩
  | cons a as ih =>
    obtain ⟨b, first⟩ := each a List.mem_cons_self
    obtain ⟨bs, later⟩ := ih fun a member => each a (List.mem_cons_of_mem _ member)
    exact ⟨b :: bs, mapM_ok_iff.mpr (.cons first (mapM_ok_iff.mp later))⟩

theorem exists_mapM_ok_iff {f : α → Outcome β} {as : List α} {P : β → Prop} :
    (∃ bs, as.mapM f = .ok bs ∧ ∀ b ∈ bs, P b) ↔ ∀ a ∈ as, ∃ b, f a = .ok b ∧ P b := by
  constructor
  · rintro ⟨bs, ok, good⟩ a member
    obtain ⟨b, there, result⟩ := mem_of_mapM_ok ok member
    exact ⟨b, result, good b there⟩
  · intro each
    obtain ⟨bs, ok⟩ := exists_mapM_ok fun a member => (each a member).imp fun b good => good.1
    refine ⟨bs, ok, fun b member => ?_⟩
    obtain ⟨a, there, result⟩ := exists_of_mapM_ok ok member
    obtain ⟨b', result', good⟩ := each a there
    obtain rfl := Except.ok.inj (result.symm.trans result')
    exact good

/-- A relation that depends on the elements traversed only holds along a traversal where it holds
of each. -/
theorem forall₂_iff_of_mapM_ok {f : α → Outcome β} {as : List α} {bs : List β}
    {S : α → β → Prop} {P : α → Prop} (ok : as.mapM f = .ok bs)
    (each : ∀ a b, f a = .ok b → (S a b ↔ P a)) : List.Forall₂ S as bs ↔ ∀ a ∈ as, P a := by
  induction mapM_ok_iff.mp ok with
  | nil => simp
  | cons first later ih =>
    rw [List.forall₂_cons, List.forall_mem_cons, each _ _ first, ih (mapM_ok_iff.mpr later)]

theorem forM_ok_iff {check : α → Outcome Unit} {as : List α} {u : Unit} :
    forM as check = .ok u ↔ ∀ a ∈ as, check a = .ok () := by
  induction as with
  | nil =>
    rw [List.forM_nil]
    simp
  | cons a as ih =>
    rw [List.forM_cons, bind_ok_iff]
    simp only [ih, List.forall_mem_cons]
    constructor
    · rintro ⟨_, first, later⟩
      exact ⟨first, later⟩
    · rintro ⟨first, later⟩
      exact ⟨_, first, later⟩

theorem foldlM_cons_ok_iff {turn : β → α → Outcome β} {a : α} {as : List α} {s s' : β} :
    (a :: as).foldlM turn s = .ok s' ↔
      ∃ middle, turn s a = .ok middle ∧ as.foldlM turn middle = .ok s' := by
  rw [List.foldlM_cons, bind_ok_iff]

theorem foldlM_range_succ_ok_iff {turn : β → ℕ → Outcome β} {count : ℕ} {s s' : β} :
    (List.range (count + 1)).foldlM turn s = .ok s' ↔
      ∃ middle, (List.range count).foldlM turn s = .ok middle ∧ turn middle count = .ok s' := by
  rw [List.range_succ, List.foldlM_append, bind_ok_iff]
  simp only [List.foldlM_cons, List.foldlM_nil, bind_pure]

/-- The rule of loops: what every turn keeps, the whole loop keeps. -/
theorem foldlM_keeps (kept : β → Prop) {turn : β → α → Outcome β}
    (one : ∀ s a s', kept s → turn s a = .ok s' → kept s') {as : List α} {s s' : β}
    (start : kept s) (ok : as.foldlM turn s = .ok s') : kept s' := by
  induction as generalizing s with
  | nil =>
    obtain rfl := pure_ok_iff.mp ok
    exact start
  | cons a as ih =>
    obtain ⟨middle, first, later⟩ := foldlM_cons_ok_iff.mp ok
    exact ih (one s a middle start first) later

/-- A loop whose every turn succeeds and keeps its invariant succeeds and keeps it. -/
theorem foldlM_total (kept : β → Prop) {turn : β → α → Outcome β} {as : List α}
    (one : ∀ s, ∀ a ∈ as, kept s → ∃ s', turn s a = .ok s' ∧ kept s') {s : β} (start : kept s) :
    ∃ s', as.foldlM turn s = .ok s' ∧ kept s' := by
  induction as generalizing s with
  | nil => exact ⟨s, rfl, start⟩
  | cons a as ih =>
    obtain ⟨middle, first, keeps⟩ := one s a List.mem_cons_self start
    obtain ⟨s', later, done⟩ := ih (fun s a member => one s a (List.mem_cons_of_mem _ member)) keeps
    exact ⟨s', foldlM_cons_ok_iff.mpr ⟨middle, first, later⟩, done⟩

end Outcome
