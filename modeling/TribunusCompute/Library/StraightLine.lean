import Mathlib.Data.List.Basic

/-!
# Straight-line programs

A program is a list of definitions, each of which names the result of an operation on values
named before. A pass that gives every name another keeps the meaning where it reads each operand
under the name it gave, and gives every result a name of its own.
-/
namespace StraightLine

variable {ν μ ω V : Type}

/-- One definition: what is named, the operation, and the names it reads. -/
structure Instr (ν ω : Type) where
  dest : ν
  operation : ω
  operands : List ν
  deriving DecidableEq, Repr

abbrev Env (ν V : Type) := ν → Option V

/-- Execute one definition; there is no value where an operand is not named. -/
def step [DecidableEq ν] (meaning : ω → List V → Option V) (env : Env ν V) (instr : Instr ν ω) :
    Option (Env ν V) := do
  let values ← instr.operands.mapM env
  let value ← meaning instr.operation values
  return Function.update env instr.dest (some value)

def eval [DecidableEq ν] (meaning : ω → List V → Option V) (env : Env ν V)
    (program : List (Instr ν ω)) : Option (Env ν V) :=
  program.foldlM (step meaning) env

/-- What is read was named before, and nothing is named twice. -/
def Scoped (named : List ν) : List (Instr ν ω) → Prop
  | [] => True
  | instr :: rest => (∀ operand ∈ instr.operands, operand ∈ named) ∧ instr.dest ∉ named ∧
      Scoped (instr.dest :: named) rest

/-- The second program is the first under the names that a growing binding gives. -/
inductive Renamed [DecidableEq ν] : Env ν μ → List μ → List (Instr ν ω) → List (Instr μ ω) → Env ν μ → Prop
  | nil {binding : Env ν μ} {named : List μ} : Renamed binding named [] [] binding
  | cons {binding final : Env ν μ} {named : List μ} {instr : Instr ν ω} {instr' : Instr μ ω}
      {rest : List (Instr ν ω)} {rest' : List (Instr μ ω)}
      (operands : instr.operands.mapM binding = some instr'.operands)
      (operation : instr'.operation = instr.operation)
      (fresh : instr'.dest ∉ named)
      (later : Renamed (Function.update binding instr.dest (some instr'.dest))
        (instr'.dest :: named) rest rest' final) :
      Renamed binding named (instr :: rest) (instr' :: rest') final

/-- Two environments give a value to every name that is bound, and the same one. -/
def Agree (binding : Env ν μ) (env : Env ν V) (env' : Env μ V) : Prop :=
  ∀ x y, binding x = some y → ∃ value, env x = some value ∧ env' y = some value

/-- An operation of the program has a value wherever it has as many operands as it reads. -/
def Total (meaning : ω → List V → Option V) (program : List (Instr ν ω)) : Prop :=
  ∀ instr ∈ program, ∀ values, values.length = instr.operands.length →
    ∃ value, meaning instr.operation values = some value

/-! ### Scopes -/

theorem mem_of_mapM_some {α β : Type} {f : α → Option β} {xs : List α} {ys : List β}
    (mapped : xs.mapM f = some ys) {y : β} (member : y ∈ ys) : ∃ x ∈ xs, f x = some y := by
  induction xs generalizing ys with
  | nil =>
    obtain rfl : ys = [] := by simpa using mapped.symm
    cases member
  | cons x xs ih =>
    rw [List.mapM_cons] at mapped
    simp only [Option.bind_eq_bind, Option.bind_eq_some_iff, Option.pure_def,
      Option.some.injEq] at mapped
    obtain ⟨first, found, rest, later, rfl⟩ := mapped
    rcases List.mem_cons.mp member with rfl | member
    · exact ⟨x, List.mem_cons_self, found⟩
    · obtain ⟨x', there, found'⟩ := ih later member
      exact ⟨x', List.mem_cons_of_mem _ there, found'⟩

theorem mapM_congr {α β : Type} {f g : α → Option β} {xs : List α}
    (same : ∀ x ∈ xs, f x = g x) : xs.mapM f = xs.mapM g := by
  induction xs with
  | nil => rfl
  | cons x xs ih =>
    rw [List.mapM_cons, List.mapM_cons, same x List.mem_cons_self,
      ih fun y member => same y (List.mem_cons_of_mem _ member)]

theorem exists_of_mapM_some {α β : Type} {f : α → Option β} {xs : List α} {ys : List β}
    (mapped : xs.mapM f = some ys) {x : α} (member : x ∈ xs) : ∃ y, f x = some y := by
  induction xs generalizing ys with
  | nil => cases member
  | cons first xs ih =>
    rw [List.mapM_cons] at mapped
    simp only [Option.bind_eq_bind, Option.bind_eq_some_iff, Option.pure_def,
      Option.some.injEq] at mapped
    obtain ⟨y, found, rest, later, rfl⟩ := mapped
    rcases List.mem_cons.mp member with rfl | member
    · exact ⟨y, found⟩
    · exact ih later member

theorem getElem?_of_mapM_some {α β : Type} {f : α → Option β} {xs : List α} {ys : List β}
    (mapped : xs.mapM f = some ys) {k : ℕ} {x : α} (there : xs[k]? = some x) :
    ∃ y, ys[k]? = some y ∧ f x = some y := by
  induction xs generalizing ys k with
  | nil => cases there
  | cons first xs ih =>
    rw [List.mapM_cons] at mapped
    simp only [Option.bind_eq_bind, Option.bind_eq_some_iff, Option.pure_def,
      Option.some.injEq] at mapped
    obtain ⟨y, found, rest, later, rfl⟩ := mapped
    cases k with
    | zero =>
      obtain rfl := Option.some.inj there
      exact ⟨y, rfl, found⟩
    | succ k => exact ih later there

/-- A renamed program is in scope, where the binding binds to names in scope. -/
theorem Renamed.scoped [DecidableEq ν] {binding final : Env ν μ} {named : List μ} {program : List (Instr ν ω)}
    {program' : List (Instr μ ω)} (renamed : Renamed binding named program program' final)
    (inScope : ∀ x y, binding x = some y → y ∈ named) : Scoped named program' := by
  induction renamed with
  | nil => trivial
  | @cons binding _ named instr instr' _ _ operands _ fresh _ ih =>
    refine ⟨?_, fresh, ?_⟩
    · intro operand member
      obtain ⟨x, -, bound⟩ := mem_of_mapM_some operands member
      exact inScope x operand bound
    · apply ih
      intro x y bound
      by_cases here : x = instr.dest
      · subst x
        rw [Function.update_self, Option.some.injEq] at bound
        subst y
        exact List.mem_cons_self
      · rw [Function.update_of_ne here] at bound
        exact List.mem_cons_of_mem _ (inScope x y bound)

theorem Scoped.nodup {named : List ν} {program : List (Instr ν ω)}
    (inOrder : Scoped named program) (distinct : named.Nodup) :
    (named ++ program.map Instr.dest).Nodup := by
  induction program generalizing named with
  | nil => simpa using distinct
  | cons instr rest ih =>
    have later := ih inOrder.2.2 (List.nodup_cons.mpr ⟨inOrder.2.1, distinct⟩)
    rw [List.map_cons]
    exact (List.perm_middle.symm.nodup_iff).mp later

/-- Bound names are read alike on both sides. -/
theorem Agree.operands {binding : Env ν μ} {env : Env ν V} {env' : Env μ V}
    (agree : Agree binding env env') {xs : List ν} {ys : List μ}
    (bound : xs.mapM binding = some ys) :
    ∃ values, values.length = xs.length ∧ xs.mapM env = some values ∧
      ys.mapM env' = some values := by
  induction xs generalizing ys with
  | nil =>
    obtain rfl : ys = [] := by simpa using bound.symm
    exact ⟨[], rfl, rfl, rfl⟩
  | cons x xs ih =>
    rw [List.mapM_cons] at bound
    simp only [Option.bind_eq_bind, Option.bind_eq_some_iff, Option.pure_def,
      Option.some.injEq] at bound
    obtain ⟨y, first, ys, later, rfl⟩ := bound
    obtain ⟨value, left, right⟩ := agree x y first
    obtain ⟨values, lengths, lefts, rights⟩ := ih later
    refine ⟨value :: values, by rw [List.length_cons, List.length_cons, lengths], ?_, ?_⟩
    · simp [List.mapM_cons, left, lefts]
    · simp [List.mapM_cons, right, rights]

/-- Bound names have the same values on both sides, one by one. -/
theorem Agree.map_eq {binding : Env ν μ} {env : Env ν V} {env' : Env μ V}
    (agree : Agree binding env env') {xs : List ν} {ys : List μ}
    (bound : xs.mapM binding = some ys) : xs.map env = ys.map env' := by
  induction xs generalizing ys with
  | nil =>
    obtain rfl : ys = [] := by simpa using bound.symm
    rfl
  | cons x xs ih =>
    rw [List.mapM_cons] at bound
    simp only [Option.bind_eq_bind, Option.bind_eq_some_iff, Option.pure_def,
      Option.some.injEq] at bound
    obtain ⟨y, first, ys, later, rfl⟩ := bound
    obtain ⟨value, left, right⟩ := agree x y first
    rw [List.map_cons, List.map_cons, left, right, ih later]

/-! ### Meaning -/

section Meaning

variable [DecidableEq ν] [DecidableEq μ] {meaning : ω → List V → Option V}

theorem step_eq_some_iff {env env' : Env ν V} {instr : Instr ν ω} :
    step meaning env instr = some env' ↔
      ∃ values, instr.operands.mapM env = some values ∧
        ∃ value, meaning instr.operation values = some value ∧
          env' = Function.update env instr.dest (some value) := by
  unfold step
  simp only [Option.bind_eq_bind, Option.bind_eq_some_iff, Option.pure_def, Option.some.injEq]
  constructor
  · rintro ⟨values, read, value, means, rfl⟩
    exact ⟨values, read, value, means, rfl⟩
  · rintro ⟨values, read, value, means, rfl⟩
    exact ⟨values, read, value, means, rfl⟩

theorem eval_cons_eq_some_iff {env final : Env ν V} {instr : Instr ν ω}
    {rest : List (Instr ν ω)} :
    eval meaning env (instr :: rest) = some final ↔
      ∃ next, step meaning env instr = some next ∧ eval meaning next rest = some final := by
  unfold eval
  rw [List.foldlM_cons]
  simp only [Option.bind_eq_bind, Option.bind_eq_some_iff]

theorem Agree.update {binding : Env ν μ} {env : Env ν V} {env' : Env μ V}
    (agree : Agree binding env env') {x : ν} {y : μ} (fresh : ∀ z, binding z ≠ some y)
    (value : V) :
    Agree (Function.update binding x (some y)) (Function.update env x (some value))
      (Function.update env' y (some value)) := by
  intro z w bound
  by_cases here : z = x
  · subst z
    rw [Function.update_self, Option.some.injEq] at bound
    subst w
    exact ⟨value, Function.update_self .., Function.update_self ..⟩
  · rw [Function.update_of_ne here] at bound
    obtain ⟨old, left, right⟩ := agree z w bound
    have apart : w ≠ y := by
      rintro rfl
      exact fresh z bound
    refine ⟨old, ?_, ?_⟩
    · rw [Function.update_of_ne here, left]
    · rw [Function.update_of_ne apart, right]

/-- Renaming keeps the meaning: both programs run to the end, and agree on every bound name. -/
theorem Renamed.eval {binding final : Env ν μ} {named : List μ} {program : List (Instr ν ω)}
    {program' : List (Instr μ ω)} (renamed : Renamed binding named program program' final)
    (inScope : ∀ x y, binding x = some y → y ∈ named) (total : Total meaning program)
    {env : Env ν V} {env' : Env μ V} (agree : Agree binding env env') :
    ∃ done done', StraightLine.eval meaning env program = some done ∧
      StraightLine.eval meaning env' program' = some done' ∧ Agree final done done' := by
  induction renamed generalizing env env' with
  | nil => exact ⟨env, env', rfl, rfl, agree⟩
  | @cons binding _ named instr instr' rest rest' operands operation fresh _ ih =>
    obtain ⟨values, lengths, left, right⟩ := agree.operands operands
    obtain ⟨value, means⟩ := total instr List.mem_cons_self values lengths
    have unused : ∀ z, binding z ≠ some instr'.dest := by
      intro z bound
      exact fresh (inScope z _ bound)
    have inScope' : ∀ x y,
        Function.update binding instr.dest (some instr'.dest) x = some y →
          y ∈ instr'.dest :: named := by
      intro x y bound
      by_cases here : x = instr.dest
      · subst x
        rw [Function.update_self, Option.some.injEq] at bound
        subst y
        exact List.mem_cons_self
      · rw [Function.update_of_ne here] at bound
        exact List.mem_cons_of_mem _ (inScope x y bound)
    obtain ⟨done, done', lefts, rights, agreed⟩ := ih inScope'
      (fun later member => total later (List.mem_cons_of_mem _ member))
      (agree.update (x := instr.dest) unused value)
    refine ⟨done, done', ?_, ?_, agreed⟩
    · exact eval_cons_eq_some_iff.mpr
        ⟨_, step_eq_some_iff.mpr ⟨values, left, value, means, rfl⟩, lefts⟩
    · rw [← operation] at means
      exact eval_cons_eq_some_iff.mpr
        ⟨_, step_eq_some_iff.mpr ⟨values, right, value, means, rfl⟩, rights⟩

end Meaning

end StraightLine
