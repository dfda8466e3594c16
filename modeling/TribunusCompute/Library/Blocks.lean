import Mathlib.Data.List.ProdSigma
import Mathlib.Tactic.Ring
import TribunusCompute.Library.Outcome

/-!
# Blocks of equal length

Grids walked row by row, buffers made of blocks of one width, and buffers filled by single
writes.
-/
namespace Blocks

variable {α β : Type}

/-- The cells of a grid, row by row. -/
def cells (rows columns : ℕ) : List (ℕ × ℕ) := List.range rows ×ˢ List.range columns

theorem cells_eq_map (rows columns : ℕ) :
    cells rows columns = (List.range (rows * columns)).map fun k => (k / columns, k % columns) := by
  induction rows with
  | zero => simp [cells]
  | succ rows ih =>
    have last : (List.range columns).map (Prod.mk rows) =
        (List.range columns).map fun j =>
          ((rows * columns + j) / columns, (rows * columns + j) % columns) := by
      apply List.map_congr_left
      intro j member
      have inside := List.mem_range.mp member
      rw [Nat.mul_comm, Nat.mul_add_div (by omega), Nat.mul_add_mod, Nat.div_eq_of_lt inside,
        Nat.mod_eq_of_lt inside, Nat.add_zero]
    have split : (rows + 1) * columns = rows * columns + columns := by ring
    have step : cells (rows + 1) columns =
        cells rows columns ++ (List.range columns).map (Prod.mk rows) := by
      simp [cells, List.range_succ, List.product, SProd.sprod]
    rw [step, ih, split, List.range_add, List.map_append, List.map_map, last]
    rfl

theorem mem_cells {rows columns row column : ℕ} :
    (row, column) ∈ cells rows columns ↔ row < rows ∧ column < columns := by
  simp [cells]

@[simp] theorem length_cells (rows columns : ℕ) :
    (cells rows columns).length = rows * columns := by
  rw [cells_eq_map, List.length_map, List.length_range]

theorem getElem?_map_cells (f : ℕ × ℕ → α) {rows columns row column : ℕ} (inRow : row < rows)
    (inColumn : column < columns) :
    ((cells rows columns).map f)[row * columns + column]? = some (f (row, column)) := by
  have inside : row * columns + column < rows * columns := by
    have := Nat.mul_le_mul_right columns (show row + 1 ≤ rows by omega)
    rw [Nat.add_mul, Nat.one_mul] at this
    omega
  have quotient : (row * columns + column) / columns = row := by
    rw [Nat.mul_comm, Nat.mul_add_div (by omega), Nat.div_eq_of_lt inColumn, Nat.add_zero]
  have rest : (row * columns + column) % columns = column := by
    rw [Nat.mul_comm, Nat.mul_add_mod, Nat.mod_eq_of_lt inColumn]
  rw [cells_eq_map, List.map_map, List.getElem?_map, List.getElem?_range inside]
  simp only [Option.map_some, Function.comp_apply, quotient, rest]

/-! ## Blocks of one width -/

theorem length_flatMap {f : α → List β} {width : ℕ} (uniform : ∀ a, (f a).length = width)
    (as : List α) : (as.flatMap f).length = as.length * width := by
  induction as with
  | nil => simp
  | cons a as ih =>
    rw [List.flatMap_cons, List.length_append, uniform, ih, List.length_cons]
    ring

theorem take_drop_flatMap {f : α → List β} {width : ℕ} (uniform : ∀ a, (f a).length = width)
    {as : List α} {i : ℕ} {a : α} (there : as[i]? = some a) :
    ((as.flatMap f).drop (i * width)).take width = f a := by
  induction as generalizing i with
  | nil => cases there
  | cons b as ih =>
    cases i with
    | zero =>
      obtain rfl : b = a := by simpa using there
      rw [Nat.zero_mul, List.drop_zero, List.flatMap_cons, List.take_append_of_le_length
        (uniform b).ge, List.take_of_length_le (uniform b).le]
    | succ i =>
      have later : as[i]? = some a := by simpa using there
      have skip : (i + 1) * width = (f b).length + i * width := by rw [uniform]; ring
      rw [List.flatMap_cons, skip, List.drop_length_add_append, ih later]

/-! ## Single writes -/

/-- A write at an index; `outside` is what happens beyond the end. -/
def store (outside : Fault) (buffer : List α) (i : ℕ) (a : α) : Outcome (List α) :=
  if i < buffer.length then .ok (buffer.set i a) else .error outside

theorem store_ok_iff {outside : Fault} {buffer buffer' : List α} {i : ℕ} {a : α} :
    store outside buffer i a = .ok buffer' ↔ i < buffer.length ∧ buffer.set i a = buffer' := by
  unfold store
  split
  next inside => simp [inside]
  next beyond => simp [beyond]

def written (buffer : List α) (writes : List (ℕ × α)) : List α :=
  writes.foldl (fun buffer write => buffer.set write.1 write.2) buffer

@[simp] theorem length_written (buffer : List α) (writes : List (ℕ × α)) :
    (written buffer writes).length = buffer.length := by
  induction writes generalizing buffer with
  | nil => rfl
  | cons write writes ih =>
    unfold written at ih ⊢
    rw [List.foldl_cons, ih, List.length_set]

theorem written_append (buffer : List α) (writes more : List (ℕ × α)) :
    written buffer (writes ++ more) = written (written buffer writes) more := by
  unfold written
  rw [List.foldl_append]

theorem foldlM_store_ok {γ : Type} {outside : List α → γ → Fault} (index : γ → ℕ)
    (value : γ → α) {cs : List γ} {buffer buffer' : List α}
    (ok : cs.foldlM (fun buffer c => store (outside buffer c) buffer (index c) (value c)) buffer =
      .ok buffer') :
    buffer' = written buffer (cs.map fun c => (index c, value c)) ∧
      ∀ c ∈ cs, index c < buffer.length := by
  induction cs generalizing buffer with
  | nil =>
    rw [List.foldlM_nil, Outcome.pure_ok_iff] at ok
    exact ⟨ok.symm, by simp⟩
  | cons c cs ih =>
    rw [List.foldlM_cons, Outcome.bind_ok_iff] at ok
    obtain ⟨middle, first, later⟩ := ok
    obtain ⟨inside, rfl⟩ := store_ok_iff.mp first
    obtain ⟨rfl, rest⟩ := ih later
    refine ⟨rfl, ?_⟩
    rw [List.forall_mem_cons]
    refine ⟨inside, fun d member => ?_⟩
    have there := rest d member
    rwa [List.length_set] at there

/-- Writes that all agree on what belongs at each index leave just that. -/
theorem getElem?_written {value : ℕ → α} {buffer : List α} {writes : List (ℕ × α)} {i : ℕ}
    (agree : ∀ write ∈ writes, write.2 = value write.1) (inside : i < buffer.length)
    (reached : i ∈ writes.map Prod.fst ∨ buffer[i]? = some (value i)) :
    (written buffer writes)[i]? = some (value i) := by
  induction writes generalizing buffer with
  | nil =>
    rcases reached with none | already
    · cases none
    · exact already
  | cons write writes ih =>
    have later : ∀ w ∈ writes, w.2 = value w.1 := fun w member =>
      agree w (List.mem_cons_of_mem _ member)
    have step : written buffer (write :: writes) = written (buffer.set write.1 write.2) writes :=
      rfl
    rw [step]
    apply ih later
    · rwa [List.length_set]
    · by_cases same : write.1 = i
      · right
        subst same
        rw [List.getElem?_set_self inside, agree write List.mem_cons_self]
      · rcases reached with reached | already
        · left
          rw [List.map_cons, List.mem_cons] at reached
          exact reached.resolve_left (Ne.symm same)
        · right
          rw [List.getElem?_set_ne same, already]

/-- The writes of the cells of a grid: the codes of a cell from where its row and its column
start. -/
def cellWrites (codes : ℕ × ℕ → List α) (width step : ℕ) (cell : ℕ × ℕ) : List (ℕ × α) :=
  (codes cell).zipIdx.map fun code => (cell.1 * width + cell.2 * step + code.2, code.1)

/-- Where the codes of a cell stay within its step and its row, they end up where they were
written. -/
theorem getElem?_written_cells {codes : ℕ × ℕ → List α} {width step rows columns : ℕ}
    {buffer : List α} (length : buffer.length = rows * width)
    (fits : ∀ cell ∈ cells rows columns,
      (codes cell).length ≤ step ∧ cell.2 * step + (codes cell).length ≤ width)
    {cell : ℕ × ℕ} (member : cell ∈ cells rows columns) {i : ℕ} {code : α}
    (there : (codes cell)[i]? = some code) :
    (written buffer ((cells rows columns).flatMap (cellWrites codes width step)))[
      cell.1 * width + cell.2 * step + i]? = some code := by
  -- What belongs at an index, told from the index alone.
  let value := fun k : ℕ => ((codes (k / width, k % width / step))[k % width % step]?).getD code
  have locate : ∀ cell ∈ cells rows columns, ∀ i < (codes cell).length,
      (cell.1 * width + cell.2 * step + i) / width = cell.1 ∧
        (cell.1 * width + cell.2 * step + i) % width = cell.2 * step + i ∧
        (cell.2 * step + i) / step = cell.2 ∧ (cell.2 * step + i) % step = i := by
    intro cell member i inside
    obtain ⟨short, inRow⟩ := fits cell member
    have inWidth : cell.2 * step + i < width := by omega
    have inStep : i < step := by omega
    refine ⟨?_, ?_, ?_, ?_⟩
    · rw [Nat.add_assoc, Nat.mul_comm, Nat.mul_add_div (by omega), Nat.div_eq_of_lt inWidth,
        Nat.add_zero]
    · rw [Nat.add_assoc, Nat.mul_comm, Nat.mul_add_mod, Nat.mod_eq_of_lt inWidth]
    · rw [Nat.mul_comm, Nat.mul_add_div (by omega), Nat.div_eq_of_lt inStep, Nat.add_zero]
    · rw [Nat.mul_comm, Nat.mul_add_mod, Nat.mod_eq_of_lt inStep]
  have valued : ∀ cell ∈ cells rows columns, ∀ i code', (codes cell)[i]? = some code' →
      value (cell.1 * width + cell.2 * step + i) = code' := by
    intro cell member i code' there
    obtain ⟨row, rest, column, offset⟩ := locate cell member i (List.getElem?_eq_some_iff.mp there).1
    simp only [value, row, rest, column, offset, there, Option.getD_some]
  have inside : i < (codes cell).length := (List.getElem?_eq_some_iff.mp there).1
  rw [← valued cell member i code there]
  apply getElem?_written
  · intro write written
    obtain ⟨cell', member', written⟩ := List.mem_flatMap.mp written
    obtain ⟨⟨code', j⟩, coded, rfl⟩ := List.mem_map.mp written
    exact (valued cell' member' j code' (List.mem_zipIdx_iff_getElem?.mp coded)).symm
  · obtain ⟨short, inRow⟩ := fits cell member
    have inRows := (mem_cells.mp member).1
    have bound := Nat.mul_le_mul_right width (show cell.1 + 1 ≤ rows by omega)
    rw [Nat.add_mul, Nat.one_mul] at bound
    omega
  · left
    refine List.mem_map.mpr ⟨(_, code), List.mem_flatMap.mpr ⟨cell, member, ?_⟩, rfl⟩
    exact List.mem_map.mpr ⟨(code, i), List.mem_zipIdx_iff_getElem?.mpr there, rfl⟩

end Blocks
