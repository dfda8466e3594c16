import Mathlib.Data.List.Basic

/-!
# Runs of partial transition systems

A step function returns `none` where the step is not defined (the program
panics, or the environment may not take it). A run takes a list of steps in
order. Invariants are proved once, from what one step preserves.
-/
namespace Runs

variable {σ ε : Type*}

/-- Take the steps of a run one after another. -/
def exec (step : σ → ε → Option σ) : σ → List ε → Option σ
  | s, [] => some s
  | s, e :: es => (step s e).bind fun t => exec step t es

/-- `P` holds in every state the run passes through, the first and the last included. -/
def Always (step : σ → ε → Option σ) (P : σ → Prop) : σ → List ε → Prop
  | s, [] => P s
  | s, e :: es => P s ∧ ∀ t, step s e = some t → Always step P t es

/-- Every step of the run is taken in a state that admits it. -/
def Guarded (step : σ → ε → Option σ) (ok : σ → ε → Prop) : σ → List ε → Prop
  | _, [] => True
  | s, e :: es => ok s e ∧ ∀ t, step s e = some t → Guarded step ok t es

instance decidableGuarded (step : σ → ε → Option σ) (ok : σ → ε → Prop)
    [∀ s e, Decidable (ok s e)] : (s : σ) → (es : List ε) → Decidable (Guarded step ok s es)
  | _, [] => isTrue trivial
  | s, e :: es =>
    match taken : step s e with
    | none => decidable_of_iff (ok s e) (by simp [Guarded, taken])
    | some t =>
      have := decidableGuarded step ok t es
      decidable_of_iff (ok s e ∧ Guarded step ok t es) (by simp [Guarded, taken])

/-- `Q` relates the states before and after every step of the run. -/
def Throughout (step : σ → ε → Option σ) (Q : σ → ε → σ → Prop) : σ → List ε → Prop
  | _, [] => True
  | s, e :: es => ∀ t, step s e = some t → Q s e t ∧ Throughout step Q t es

variable (step : σ → ε → Option σ)

theorem exec_cons_iff (s u : σ) (e : ε) (es : List ε) :
    exec step s (e :: es) = some u ↔ ∃ t, step s e = some t ∧ exec step t es = some u := by
  simp only [exec, Option.bind_eq_some_iff]

theorem exec_append (s : σ) (es fs : List ε) :
    exec step s (es ++ fs) = (exec step s es).bind fun t => exec step t fs := by
  induction es generalizing s with
  | nil => rfl
  | cons e es ih =>
    simp only [List.cons_append, exec, Option.bind_assoc]
    exact congrArg _ (funext fun t => ih t)

/-- Where every step is defined, so is every run. -/
theorem exec_total (total : ∀ s e, ∃ t, step s e = some t) (s : σ) (es : List ε) :
    ∃ t, exec step s es = some t := by
  induction es generalizing s with
  | nil => exact ⟨s, rfl⟩
  | cons e es ih =>
    obtain ⟨t, taken⟩ := total s e
    obtain ⟨u, rest⟩ := ih t
    exact ⟨u, (exec_cons_iff step s u e es).mpr ⟨t, taken, rest⟩⟩

theorem always_head {P : σ → Prop} {s : σ} {es : List ε} (h : Always step P s es) : P s := by
  cases es with
  | nil => exact h
  | cons e es => exact h.1

/-- What holds throughout a run holds in the state it ends in. -/
theorem always_last {P : σ → Prop} {es : List ε} {s t : σ} (h : Always step P s es)
    (run : exec step s es = some t) : P t := by
  induction es generalizing s with
  | nil =>
    cases run
    exact h
  | cons e es ih =>
    obtain ⟨u, taken, rest⟩ := (exec_cons_iff step s t e es).mp run
    exact ih (h.2 u taken) rest

/-- What every step of the run keeps, the run keeps. -/
theorem exec_keeps {P : σ → Prop} {es : List ε}
    (keeps : ∀ s, ∀ e ∈ es, ∀ t, P s → step s e = some t → P t) {s t : σ} (initial : P s)
    (run : exec step s es = some t) : P t := by
  induction es generalizing s with
  | nil =>
    cases run
    exact initial
  | cons e es ih =>
    obtain ⟨u, taken, rest⟩ := (exec_cons_iff step s t e es).mp run
    have next := keeps s e List.mem_cons_self u initial taken
    exact ih (fun s e member => keeps s e (List.mem_cons_of_mem _ member)) next rest

/-- The invariant rule: an invariant kept by every admitted step holds throughout each
guarded run. -/
theorem always_of_guarded {P : σ → Prop} {ok : σ → ε → Prop}
    (keeps : ∀ s e t, P s → ok s e → step s e = some t → P t)
    {es : List ε} {s : σ} (initial : P s) (guarded : Guarded step ok s es) :
    Always step P s es := by
  induction es generalizing s with
  | nil => exact initial
  | cons e es ih =>
    exact ⟨initial, fun t taken => ih (keeps s e t initial guarded.1 taken) (guarded.2 t taken)⟩

/-- The progress rule: where admitted steps are defined and keep the invariant, guarded runs
reach their end. -/
theorem exec_of_guarded {P : σ → Prop} {ok : σ → ε → Prop}
    (advances : ∀ s e, P s → ok s e → ∃ t, step s e = some t ∧ P t)
    {es : List ε} {s : σ} (initial : P s) (guarded : Guarded step ok s es) :
    (∃ t, exec step s es = some t) ∧ Always step P s es := by
  induction es generalizing s with
  | nil => exact ⟨⟨s, rfl⟩, initial⟩
  | cons e es ih =>
    obtain ⟨t, taken, kept⟩ := advances s e initial guarded.1
    obtain ⟨⟨u, rest⟩, always⟩ := ih kept (guarded.2 t taken)
    refine ⟨⟨u, (exec_cons_iff step s u e es).mpr ⟨t, taken, rest⟩⟩, initial, fun t' taken' => ?_⟩
    obtain rfl : t = t' := Option.some.inj (taken.symm.trans taken')
    exact always

/-- Along a run whose states satisfy an invariant, a step property holds exactly where its
guard does. -/
theorem throughout_iff_guarded {P : σ → Prop} {Q : σ → ε → σ → Prop} {ok : σ → ε → Prop}
    (agree : ∀ s e t, P s → step s e = some t → (Q s e t ↔ ok s e))
    {es : List ε} {s u : σ} (always : Always step P s es) (run : exec step s es = some u) :
    Throughout step Q s es ↔ Guarded step ok s es := by
  induction es generalizing s with
  | nil => exact Iff.rfl
  | cons e es ih =>
    obtain ⟨t, taken, rest⟩ := (exec_cons_iff step s u e es).mp run
    have next := ih (always.2 t taken) rest
    have here := agree s e t always.1 taken
    constructor
    · intro h
      refine ⟨here.mp (h t taken).1, fun t' taken' => ?_⟩
      obtain rfl : t = t' := Option.some.inj (taken.symm.trans taken')
      exact next.mp (h t taken).2
    · intro h t' taken'
      obtain rfl : t = t' := Option.some.inj (taken.symm.trans taken')
      exact ⟨here.mpr h.1, next.mpr (h.2 t taken)⟩

/-- The invariant rule with a step property, which every admitted step has. -/
theorem throughout_of_guarded {P : σ → Prop} {Q : σ → ε → σ → Prop} {ok : σ → ε → Prop}
    (keeps : ∀ s e t, P s → ok s e → step s e = some t → P t ∧ Q s e t)
    {es : List ε} {s : σ} (initial : P s) (guarded : Guarded step ok s es) :
    Always step P s es ∧ Throughout step Q s es := by
  induction es generalizing s with
  | nil => exact ⟨initial, trivial⟩
  | cons e es ih =>
    refine ⟨⟨initial, fun t taken => ?_⟩, fun t taken => ?_⟩
    · exact (ih (keeps s e t initial guarded.1 taken).1 (guarded.2 t taken)).1
    · obtain ⟨next, here⟩ := keeps s e t initial guarded.1 taken
      exact ⟨here, (ih next (guarded.2 t taken)).2⟩

/-- A run is guarded when an invariant admits each of its steps and each step keeps it. -/
theorem guarded_of_keeps {P : σ → Prop} {ok : σ → ε → Prop} {es : List ε}
    (admits : ∀ s, ∀ e ∈ es, P s → ok s e)
    (keeps : ∀ s, ∀ e ∈ es, ∀ t, P s → step s e = some t → P t) {s : σ} (initial : P s) :
    Guarded step ok s es := by
  induction es generalizing s with
  | nil => trivial
  | cons e es ih =>
    refine ⟨admits s e List.mem_cons_self initial, fun t taken => ?_⟩
    have next := keeps s e List.mem_cons_self t initial taken
    exact ih (fun s e member => admits s e (List.mem_cons_of_mem _ member))
      (fun s e member => keeps s e (List.mem_cons_of_mem _ member)) next

theorem guarded_of_forall {ok : ε → Prop} {es : List ε} (each : ∀ e ∈ es, ok e) (s : σ) :
    Guarded step (fun _ e => ok e) s es :=
  guarded_of_keeps step (fun _ e member _ => each e member) (fun _ _ _ _ _ _ => trivial)
    (P := fun _ => True) trivial

/-- The exact form of the invariant rule, in runs every step of which meets a background
condition: where no unadmitted step leaves the property true, the runs along which it holds are
the guarded ones. -/
theorem always_iff_guarded_within {I P : σ → Prop} {within ok : σ → ε → Prop}
    (holds : ∀ s, I s → P s)
    (keeps : ∀ s e t, I s → within s e → ok s e → step s e = some t → I t)
    (only : ∀ s e t, I s → within s e → step s e = some t → P t → ok s e)
    {es : List ε} {s u : σ} (initial : I s) (inside : Guarded step within s es)
    (run : exec step s es = some u) : Always step P s es ↔ Guarded step ok s es := by
  induction es generalizing s with
  | nil => exact iff_of_true (holds s initial) trivial
  | cons e es ih =>
    obtain ⟨t, taken, rest⟩ := (exec_cons_iff step s u e es).mp run
    constructor
    · intro always
      have next : Always step P t es := always.2 t taken
      have admitted := only s e t initial inside.1 taken (always_head step next)
      refine ⟨admitted, fun t' taken' => ?_⟩
      obtain rfl : t = t' := Option.some.inj (taken.symm.trans taken')
      exact (ih (keeps s e t initial inside.1 admitted taken) (inside.2 t taken) rest).mp next
    · intro guarded
      refine ⟨holds s initial, fun t' taken' => ?_⟩
      obtain rfl : t = t' := Option.some.inj (taken.symm.trans taken')
      have next := keeps s e t initial inside.1 guarded.1 taken
      exact (ih next (inside.2 t taken) rest).mpr (guarded.2 t taken)

/-- The exact form of the invariant rule: where no unadmitted step leaves the property true,
the runs along which it holds are the guarded ones. -/
theorem always_iff_guarded {I P : σ → Prop} {ok : σ → ε → Prop} (holds : ∀ s, I s → P s)
    (keeps : ∀ s e t, I s → ok s e → step s e = some t → I t)
    (only : ∀ s e t, I s → step s e = some t → P t → ok s e)
    {es : List ε} {s u : σ} (initial : I s) (run : exec step s es = some u) :
    Always step P s es ↔ Guarded step ok s es :=
  have inside : Guarded step (fun _ _ => True) s es :=
    guarded_of_forall step (fun _ _ => trivial) s
  always_iff_guarded_within step holds
    (fun s e t inv _ admitted taken => keeps s e t inv admitted taken)
    (fun s e t inv _ taken after => only s e t inv taken after) initial inside run

/-- A run in two parts is guarded where the first part is, and the second is from where it
ends. -/
theorem guarded_append_iff {ok : σ → ε → Prop} {es fs : List ε} {s : σ} :
    Guarded step ok s (es ++ fs) ↔
      Guarded step ok s es ∧ ∀ t, exec step s es = some t → Guarded step ok t fs := by
  induction es generalizing s with
  | nil => simp [Guarded, exec]
  | cons e es ih =>
    simp only [List.cons_append, Guarded, ih, exec_cons_iff]
    constructor
    · rintro ⟨here, rest⟩
      refine ⟨⟨here, fun t taken => (rest t taken).1⟩, ?_⟩
      rintro u ⟨t, taken, run⟩
      exact (rest t taken).2 u run
    · rintro ⟨⟨here, first⟩, second⟩
      exact ⟨here, fun t taken => ⟨first t taken, fun u run => second u ⟨t, taken, run⟩⟩⟩

theorem guarded_and {ok ok' : σ → ε → Prop} {es : List ε} {s : σ}
    (guarded : Guarded step ok s es) (guarded' : Guarded step ok' s es) :
    Guarded step (fun s e => ok s e ∧ ok' s e) s es := by
  induction es generalizing s with
  | nil => trivial
  | cons e es ih =>
    exact ⟨⟨guarded.1, guarded'.1⟩, fun t taken => ih (guarded.2 t taken) (guarded'.2 t taken)⟩

theorem always_mono {P Q : σ → Prop} (weaker : ∀ s, P s → Q s)
    {es : List ε} {s : σ} (always : Always step P s es) : Always step Q s es := by
  induction es generalizing s with
  | nil => exact weaker s always
  | cons e es ih => exact ⟨weaker s always.1, fun t taken => ih (always.2 t taken)⟩

end Runs
