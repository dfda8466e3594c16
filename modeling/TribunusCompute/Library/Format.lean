import TribunusCompute.Library.LittleEndian
import TribunusCompute.Library.Outcome

/-!
# Formats and their readers

A reader takes a value off the front of what is left, reports that there is none, or panics. A
format says which fronts stand for which values, and what is demanded on the way to a value,
whether or not there is one. A reader of a format panics exactly where something is demanded that
is not granted.
-/

/-- What takes a value off the front of a list. -/
abbrev Reader (σ : Type) := StateT (List σ) Outcome

namespace Reader

variable {σ α : Type}

def call (x : Outcome α) : Reader σ α := fun xs => x.map fun a => (a, xs)

/-- Take this many, or report that there are too few. -/
def exactly (n : ℕ) (reason : String) : Reader σ (List σ) := fun xs =>
  if n ≤ xs.length then .ok (xs.take n, xs.drop n) else Outcome.report reason

/-- A number of this many bytes, the least significant first. -/
def word (width : ℕ) (reason : String) : Reader UInt8 ℕ := do
  let bytes ← exactly width reason
  return LittleEndian.decode bytes

def times (r : Reader σ α) : ℕ → Reader σ (List α)
  | 0 => pure []
  | n + 1 => do
    let a ← r
    let rest ← r.times n
    return a :: rest

end Reader

/-- Which value a front stands for, with what is left, and what is demanded on the way. -/
structure Format (σ δ α : Type) where
  takes : List σ → α → List σ → Prop
  demands : List σ → δ → Prop

namespace Format

variable {σ δ α β : Type}

def value (a : α) : Format σ δ α := ⟨fun xs b rest => b = a ∧ rest = xs, fun _ _ => False⟩

/-- One value after another; the second format may depend on the first value. -/
def andThen (f : Format σ δ α) (g : α → Format σ δ β) : Format σ δ β where
  takes xs b rest := ∃ a middle, f.takes xs a middle ∧ (g a).takes middle b rest
  demands xs d := f.demands xs d ∨ ∃ a middle, f.takes xs a middle ∧ (g a).demands middle d

instance : Monad (Format σ δ) where
  pure := value
  bind := andThen

/-- An empty front, for any value of a kind, with demands. -/
def here (holds : α → Prop) (demands : δ → Prop) : Format σ δ α :=
  ⟨fun xs a rest => holds a ∧ rest = xs, fun _ d => demands d⟩

def demand (d : δ) : Format σ δ Unit := here (fun _ => True) (· = d)

/-- An empty front, where something holds. -/
def guarded (holds : Prop) : Format σ δ Unit := here (fun _ => holds) fun _ => False

/-- A front of this many. -/
def exactly (n : ℕ) : Format σ δ (List σ) :=
  ⟨fun xs front rest => xs = front ++ rest ∧ front.length = n, fun _ _ => False⟩

def times (f : Format σ δ α) : ℕ → Format σ δ (List α)
  | 0 => pure []
  | n + 1 => do
    let a ← f
    let rest ← f.times n
    return a :: rest

/-- A number of this many bytes. -/
def word (width : ℕ) : Format UInt8 δ ℕ :=
  ⟨fun xs n rest => n < 256 ^ width ∧ xs = LittleEndian.encode width n ++ rest, fun _ _ => False⟩

end Format

/-- A reader of a format, where it is known what is granted. -/
structure Reads {σ δ α : Type} (granted : δ → Prop) (r : Reader σ α) (f : Format σ δ α) : Prop where
  sound : ∀ xs a rest, r xs = .ok (a, rest) → f.takes xs a rest
  complete : ∀ xs a rest, f.takes xs a rest → r xs = .ok (a, rest) ∨ r xs = Outcome.panics
  panics : ∀ xs, r xs = Outcome.panics ↔ ∃ d, f.demands xs d ∧ ¬granted d

namespace Reads

open Outcome

variable {σ δ α β : Type} {granted : δ → Prop} {r : Reader σ α} {f : Format σ δ α}

theorem bind_apply (r : Reader σ α) (k : α → Reader σ β) (xs : List σ) :
    (r >>= k) xs = r xs >>= fun taken => k taken.1 taken.2 := rfl

/-- The rule of sequences. -/
theorem bind {k : α → Reader σ β} {g : α → Format σ δ β} (first : Reads granted r f)
    (rest : ∀ a, Reads granted (k a) (g a)) : Reads granted (r >>= k) (f >>= g) where
  sound xs b left ok := by
    obtain ⟨⟨a, middle⟩, taken, ok⟩ := bind_ok_iff.mp ok
    exact ⟨a, middle, first.sound xs a middle taken, (rest a).sound middle b left ok⟩
  complete xs b left takes := by
    obtain ⟨a, middle, taken, takes⟩ := takes
    rw [bind_apply]
    rcases first.complete xs a middle taken with ok | panicked
    · rw [ok]
      exact (rest a).complete middle b left takes
    · rw [panicked]
      exact .inr rfl
  panics xs := by
    rw [bind_apply, bind_panics_iff]
    constructor
    · rintro (panicked | ⟨⟨a, middle⟩, ok, panicked⟩)
      · obtain ⟨d, demanded, refused⟩ := (first.panics xs).mp panicked
        exact ⟨d, .inl demanded, refused⟩
      · obtain ⟨d, demanded, refused⟩ := ((rest a).panics middle).mp panicked
        exact ⟨d, .inr ⟨a, middle, first.sound xs a middle ok, demanded⟩, refused⟩
    · rintro ⟨d, demanded | ⟨a, middle, taken, demanded⟩, refused⟩
      · exact .inl ((first.panics xs).mpr ⟨d, demanded, refused⟩)
      · -- What comes before the demand is read, unless it panics itself.
        rcases first.complete xs a middle taken with ok | panicked
        · exact .inr ⟨(a, middle), ok, ((rest a).panics middle).mpr ⟨d, demanded, refused⟩⟩
        · exact .inl panicked

theorem pure (a : α) : Reads granted (pure a : Reader σ α) (Pure.pure a : Format σ δ α) where
  sound xs b rest ok := by
    cases ok
    exact ⟨rfl, rfl⟩
  complete xs b rest takes := by
    obtain ⟨rfl, rfl⟩ := takes
    exact .inl rfl
  panics xs := by
    constructor
    · intro panicked
      cases panicked
    · rintro ⟨_, demanded, -⟩
      cases demanded

theorem times (one : Reads granted r f) (n : ℕ) : Reads granted (r.times n) (f.times n) := by
  induction n with
  | zero => exact Reads.pure []
  | succ n ih => exact one.bind fun a => ih.bind fun rest => Reads.pure (a :: rest)

/-- The rule of calls. -/
theorem call {x : Outcome α} {holds : α → Prop} {demands : δ → Prop}
    (sound : ∀ a, x = .ok a → holds a) (complete : ∀ a, holds a → x = .ok a ∨ x = Outcome.panics)
    (panics : x = Outcome.panics ↔ ∃ d, demands d ∧ ¬granted d) :
    Reads granted (Reader.call x : Reader σ α) (Format.here holds demands) where
  sound xs a rest ok := by
    cases x with
    | error e => cases ok
    | ok a =>
      cases ok
      exact ⟨sound a rfl, rfl⟩
  complete xs a rest takes := by
    obtain ⟨there, rfl⟩ := takes
    rcases complete a there with ok | panicked
    · exact .inl (by rw [Reader.call, ok]; rfl)
    · exact .inr (by rw [Reader.call, panicked]; rfl)
  panics xs := by
    refine Iff.trans ?_ panics
    constructor
    · intro panicked
      cases x with
      | error e =>
        cases panicked
        rfl
      | ok a => cases panicked
    · rintro rfl
      rfl

/-- A call that panics unless what it demands is granted. -/
theorem demand {d : δ} {x : Outcome Unit} (ok : granted d → x = .ok ())
    (panics : ¬granted d → x = Outcome.panics) :
    Reads granted (Reader.call x : Reader σ Unit) (Format.demand d) := by
  by_cases grant : granted d
  · apply call
    · exact fun _ _ => trivial
    · exact fun _ _ => .inl (ok grant)
    · simp [ok grant, grant, Outcome.panics]
  · apply call
    · exact fun _ _ => trivial
    · exact fun _ _ => .inr (panics grant)
    · simp [panics grant, grant]

theorem exactly (n : ℕ) (reason : String) :
    Reads granted (Reader.exactly n reason : Reader σ (List σ)) (Format.exactly n) where
  sound xs front rest ok := by
    unfold Reader.exactly at ok
    split at ok
    next enough =>
      cases ok
      exact ⟨(List.take_append_drop n xs).symm, by simp [enough]⟩
    next => cases ok
  complete xs front rest takes := by
    obtain ⟨rfl, rfl⟩ := takes
    exact .inl (by simp [Reader.exactly])
  panics xs := by
    constructor
    · intro panicked
      unfold Reader.exactly at panicked
      split at panicked <;> cases panicked
    · rintro ⟨_, demanded, -⟩
      cases demanded

/-- A check that reports where it fails. -/
theorem require (holds : Prop) [Decidable holds] (reason : String) :
    Reads granted (Reader.call (Outcome.require holds reason) : Reader σ Unit)
      (Format.guarded holds) := by
  apply call
  · exact fun _ ok => require_ok_iff.mp ok
  · exact fun _ yes => .inl (require_ok_iff.mpr yes)
  · simp

/-- A reader of a format reads every other that says the same. -/
theorem congr {f' : Format σ δ α} (reads : Reads granted r f)
    (takes : ∀ xs a rest, f'.takes xs a rest ↔ f.takes xs a rest)
    (demands : ∀ xs d, f'.demands xs d ↔ f.demands xs d) : Reads granted r f' where
  sound xs a rest ok := (takes xs a rest).mpr (reads.sound xs a rest ok)
  complete xs a rest there := reads.complete xs a rest ((takes xs a rest).mp there)
  panics xs := by
    rw [reads.panics xs]
    simp only [demands]

theorem word (width : ℕ) (reason : String) :
    Reads granted (Reader.word width reason) (Format.word width) := by
  have bytes : Reads granted (Reader.exactly width reason : Reader UInt8 _)
      (Format.exactly width) := Reads.exactly width reason
  have decoded := bytes.bind fun front => Reads.pure (LittleEndian.decode front)
  refine decoded.congr (fun xs n rest => ?_) fun xs d => ?_
  · constructor
    · rintro ⟨fits, rfl⟩
      exact ⟨LittleEndian.encode width n, rest, ⟨rfl, LittleEndian.length_encode width n⟩,
        (LittleEndian.decode_encode width n fits).symm, rfl⟩
    · rintro ⟨front, _, ⟨rfl, rfl⟩, rfl, rfl⟩
      exact ⟨LittleEndian.decode_lt front, by rw [LittleEndian.encode_decode]⟩
  · constructor
    · intro demanded
      cases demanded
    · rintro (demanded | ⟨_, _, -, demanded⟩) <;> cases demanded

end Reads
