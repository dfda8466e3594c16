import TribunusCompute.ComputeImage.Prepack

/-!
# Prepacking as moves of ranges

The rewriting pass changes nothing of the table that its tests read. What it does to a segment is
told by the ranges of the tensors alone.
-/
namespace TribunusCompute.ComputeImage

open Outcome LayoutTransform

/-! ## What the pass leaves as it is -/

/-- An entry less what the pass changes. -/
def TensorEntry.still (t : TensorEntry) : TensorEntry :=
  { t with offset := 0, byteLength := 0, physicalShape := [], layoutVersion := 0 }

/-- The tables have the same entries, less what the pass changes. -/
def SameStill (tensors tensors' : List TensorEntry) : Prop :=
  tensors.map TensorEntry.still = tensors'.map TensorEntry.still

section Still

variable {tensors tensors' : List TensorEntry} {t t' : TensorEntry} {i : ℕ}

theorem SameStill.length (same : SameStill tensors tensors') :
    tensors.length = tensors'.length := by
  have lengths := congrArg List.length same
  rwa [List.length_map, List.length_map] at lengths

theorem SameStill.getElem (same : SameStill tensors tensors') (there : tensors'[i]? = some t') :
    ∃ t, tensors[i]? = some t ∧ t.still = t'.still := by
  have entries := congrArg (fun entries => entries[i]?) same
  simp only [List.getElem?_map, there, Option.map_some] at entries
  obtain ⟨t, found, still⟩ := Option.map_eq_some_iff.mp entries
  exact ⟨t, found, still⟩

/-- Searches that do not look at what changes find the same position. -/
theorem SameStill.findIdx (same : SameStill tensors tensors') {test : TensorEntry → Bool}
    (blind : ∀ t : TensorEntry, test t.still = test t) :
    tensors.findIdx? test = tensors'.findIdx? test := by
  have through : ∀ table : List TensorEntry,
      (table.map TensorEntry.still).findIdx? test = table.findIdx? test := by
    intro table
    rw [List.findIdx?_map]
    congr 1
    funext t
    exact blind t
  rw [← through tensors, ← through tensors', same]

theorem companionsOf_still (same : SameStill tensors tensors') (still : t.still = t'.still) :
    companionsOf tensors t = companionsOf tensors' t' := by
  have name : t.name = t'.name := congrArg (fun e => e.name) still
  have segment : t.segment = t'.segment := congrArg (fun e => e.segment) still
  have dtype : t.storageDtype = t'.storageDtype := congrArg (fun e => e.storageDtype) still
  have position : ∀ name, tensors.findIdx? (fun e => e.name == name && e.segment == t'.segment) =
      tensors'.findIdx? fun e => e.name == name && e.segment == t'.segment :=
    fun _ => same.findIdx fun _ => rfl
  unfold companionsOf
  rw [name, segment, dtype]
  simp only [position]

theorem tripletOf_still (same : SameStill tensors tensors') (still : t.still = t'.still) :
    tripletOf tensors t = tripletOf tensors' t' := by
  have shape : t.logicalShape = t'.logicalShape := congrArg (fun e => e.logicalShape) still
  have quantization : t.quantization = t'.quantization :=
    congrArg (fun e => e.quantization) still
  unfold tripletOf groupSizeOf
  rw [companionsOf_still same still, shape, quantization]

end Still

/-! ## Tables and their ranges -/

section Tables

variable {tensors orig : List TensorEntry} {t : TensorEntry} {i : ℕ}
  {f : TensorEntry → TensorEntry}

theorem rangeAt_of (there : tensors[i]? = some t) : rangeAt tensors i = t.range := by
  rw [rangeAt, there]
  rfl

theorem rangeAt_modify (there : tensors[i]? = some t) :
    rangeAt (tensors.modify i f) = Function.update (rangeAt tensors) i (f t).range := by
  funext j
  by_cases same : j = i
  · subst same
    rw [Function.update_self, rangeAt, List.getElem?_modify_eq, there]
    rfl
  · rw [Function.update_of_ne same, rangeAt, List.getElem?_modify_ne f tensors (Ne.symm same)]
    rfl

theorem sameStill_modify (still : ∀ t, tensors[i]? = some t → (f t).still = t.still) :
    SameStill (tensors.modify i f) tensors := by
  apply List.ext_getElem?
  intro j
  rw [List.getElem?_map, List.getElem?_map]
  by_cases same : i = j
  · subst same
    rw [List.getElem?_modify_eq]
    cases there : tensors[i]? with
    | none => rfl
    | some t => exact congrArg some (still t there)
  · rw [List.getElem?_modify_ne f tensors same]

theorem find_of_distinct (distinct : (tensors.map TensorEntry.id).Nodup)
    (there : tensors[i]? = some t) :
    tensors.findIdx? (·.id == t.id) = some i ∧ tensors.find? (·.id == t.id) = some t := by
  obtain ⟨inside, same⟩ := List.getElem?_eq_some_iff.mp there
  have earlier : ∀ j (less : j < i), (tensors[j].id == t.id) = false := by
    intro j less
    rw [beq_eq_false_iff_ne, ← same]
    have apart := List.pairwise_iff_getElem.mp distinct j i
      (by rw [List.length_map]; omega) (by rw [List.length_map]; omega) less
    rwa [List.getElem_map, List.getElem_map] at apart
  constructor
  · rw [List.findIdx?_eq_some_iff_getElem]
    exact ⟨inside, by simp [same], fun j less => by simp [earlier j less]⟩
  · rw [List.find?_eq_some_iff_getElem]
    exact ⟨by simp, i, inside, same, fun j less => by simp [earlier j less]⟩

/-- The tests find companions in the table, and weights are not companions. -/
theorem companionsOf_lt {scales biases : ℕ}
    (found : companionsOf tensors t = some (scales, biases)) :
    scales < tensors.length ∧ biases < tensors.length := by
  unfold companionsOf at found
  obtain ⟨base, -, rest⟩ := Option.bind_eq_some_iff.mp found
  split at rest
  · obtain ⟨s, scaled, rest⟩ := Option.bind_eq_some_iff.mp rest
    obtain ⟨b, biased, rest⟩ := Option.bind_eq_some_iff.mp rest
    cases rest
    obtain ⟨inside, -⟩ := List.findIdx?_eq_some_iff_getElem.mp scaled
    obtain ⟨inside', -⟩ := List.findIdx?_eq_some_iff_getElem.mp biased
    exact ⟨inside, inside'⟩
  · cases rest

theorem tripletOf_ok {triplet : Triplet} (ok : tripletOf tensors t = .ok (some triplet)) :
    companionsOf tensors t = some (triplet.scales, triplet.biases) ∧ triplet.groupSize ≠ 0 ∧
      triplet.k % triplet.groupSize = 0 := by
  unfold tripletOf at ok
  split at ok
  next => cases ok
  next scales biases found =>
    split at ok
    next =>
      split at ok
      next => cases ok
      next positive =>
        split at ok
        next divides =>
          cases ok
          exact ⟨found, positive, divides⟩
        next => cases ok
    next => cases ok

end Tables

/-! ## One turn -/

abbrev Ranges := ℕ → ℕ × ℕ

/-- A packed weight goes to the end of the new payload; its companions are left there without
any bytes. -/
def Ranges.pack (ranges : Ranges) (i : ℕ) (triplet : Triplet) (here length : ℕ) : Ranges :=
  Function.update (Function.update (Function.update ranges i (here, length))
    triplet.scales (here, 0)) triplet.biases (here, 0)

def turnRanges (payload : List UInt8) (i : ℕ) (eligible : Option Triplet)
    (state : Ranges × List UInt8) : Outcome (Ranges × List UInt8) :=
  let (ranges, newPayload) := state
  match eligible with
  | some triplet => do
    let packed ← packTriplet payload (ranges i) (ranges triplet.scales) (ranges triplet.biases)
      triplet
    let _ ← Outcome.fit 63 (newPayload.length + packed.length)
    let _ ← packedShape triplet
    return (ranges.pack i triplet newPayload.length packed.length, newPayload ++ packed)
  | none =>
    if (ranges i).2 = 0 then return (ranges, newPayload)
    else do
      let piece ← slicePayload payload (ranges i)
      let _ ← Outcome.fit 63 (newPayload.length + piece.length)
      return (Function.update ranges i (newPayload.length, (ranges i).2), newPayload ++ piece)

section Turn

variable {tensors orig tensors' : List TensorEntry} {t : TensorEntry} {i : ℕ}
  {payload newPayload newPayload' : List UInt8}

theorem dtype_of_companions {companions : ℕ × ℕ} (found : companionsOf tensors t = some companions) :
    t.storageDtype = "U8" := by
  unfold companionsOf at found
  obtain ⟨base, -, rest⟩ := Option.bind_eq_some_iff.mp found
  split at rest
  next dtype => exact dtype
  next => cases rest

theorem packEntries_spec {triplet : Triplet} (there : tensors[i]? = some t)
    (eligible : tripletOf tensors t = .ok (some triplet)) (here length shape : ℕ) :
    rangeAt (packEntries tensors i triplet here length shape) =
        Ranges.pack (rangeAt tensors) i triplet here length ∧
      SameStill (packEntries tensors i triplet here length shape) tensors := by
  obtain ⟨found, -⟩ := tripletOf_ok eligible
  obtain ⟨scalesIn, biasesIn⟩ := companionsOf_lt found
  have first : SameStill (tensors.modify i (packEntry here length shape)) tensors := by
    apply sameStill_modify
    intro t' there'
    rw [there] at there'
    cases there'
    simp [TensorEntry.still, packEntry, dtype_of_companions found]
  have absorbed : ∀ (table : List TensorEntry) j,
      SameStill (table.modify j (absorbEntry here)) table :=
    fun table j => sameStill_modify fun _ _ => rfl
  have second := absorbed (tensors.modify i (packEntry here length shape)) triplet.scales
  have third := absorbed ((tensors.modify i (packEntry here length shape)).modify triplet.scales
    (absorbEntry here)) triplet.biases
  refine ⟨?_, (third.trans second).trans first⟩
  obtain ⟨s, sAt⟩ : ∃ s, (tensors.modify i (packEntry here length shape))[triplet.scales]? =
      some s := ⟨_, List.getElem?_eq_getElem (by rw [first.length]; exact scalesIn)⟩
  obtain ⟨b, bAt⟩ : ∃ b, ((tensors.modify i (packEntry here length shape)).modify triplet.scales
      (absorbEntry here))[triplet.biases]? = some b :=
    ⟨_, List.getElem?_eq_getElem (by rw [second.length, first.length]; exact biasesIn)⟩
  rw [packEntries, rangeAt_modify bAt, rangeAt_modify sAt, rangeAt_modify there]
  rfl

theorem SameStill.ids (same : SameStill tensors orig) :
    tensors.map TensorEntry.id = orig.map TensorEntry.id := by
  have ids := congrArg (List.map TensorEntry.id) same
  rw [List.map_map, List.map_map] at ids
  exact ids

theorem find_of_same (same : SameStill tensors orig)
    (distinct : (orig.map TensorEntry.id).Nodup) (there : orig[i]? = some t) :
    ∃ t', tensors[i]? = some t' ∧ tripletOf tensors t' = tripletOf orig t ∧
      tensors.findIdx? (·.id == t.id) = some i ∧ tensors.find? (·.id == t.id) = some t' := by
  obtain ⟨t', found, still⟩ := same.getElem there
  have id : t'.id = t.id := congrArg (fun e => e.id) still
  have searches := find_of_distinct (same.ids ▸ distinct) found
  rw [id] at searches
  exact ⟨t', found, tripletOf_still same still, searches⟩

theorem moveEntry_spec (there : tensors[i]? = some t) (here : ℕ) :
    rangeAt (moveEntry tensors i t here) =
        Function.update (rangeAt tensors) i (here, (rangeAt tensors i).2) ∧
      SameStill (moveEntry tensors i t here) tensors := by
  unfold moveEntry
  rw [rangeAt_of there]
  split
  next => exact ⟨rangeAt_modify there, sameStill_modify fun _ _ => rfl⟩
  next same =>
    have range : (here, t.range.2) = rangeAt tensors i := by
      rw [rangeAt_of there, Decidable.not_not.mp same]
      rfl
    rw [range, Function.update_eq_self]
    exact ⟨rfl, rfl⟩

theorem rewriteEntry_spec {eligible : Option Triplet} (there : tensors[i]? = some t)
    (tested : tripletOf tensors t = .ok eligible) :
    turnRanges payload i eligible (rangeAt tensors, newPayload) =
        (rewriteEntry payload tensors newPayload i t eligible).map
          (fun state => (rangeAt state.1, state.2)) ∧
      ∀ state, rewriteEntry payload tensors newPayload i t eligible = .ok state →
        SameStill state.1 tensors := by
  cases eligible with
  | some triplet =>
    -- Every call that can fail is the same on both sides, and is taken in its order.
    have spec := packEntries_spec there tested newPayload.length
    simp only [turnRanges, rewriteEntry, rangeAt_of there]
    cases packTriplet payload t.range (rangeAt tensors triplet.scales)
        (rangeAt tensors triplet.biases) triplet with
    | error e =>
      refine ⟨rfl, fun state done => ?_⟩
      cases done
    | ok packed =>
      cases fits : Outcome.fit 63 (newPayload.length + packed.length) with
      | error e =>
        simp only [bind, Except.bind, fits]
        refine ⟨rfl, fun state done => ?_⟩
        cases done
      | ok size =>
        cases shaped : packedShape triplet with
        | error e =>
          simp only [bind, Except.bind, fits]
          refine ⟨rfl, fun state done => ?_⟩
          cases done
        | ok shape =>
          obtain ⟨ranges, still⟩ := spec packed.length shape
          simp only [bind, Except.bind, fits, pure, Except.pure, Except.map, ranges, true_and]
          intro state done
          cases done
          exact still
  | none =>
    obtain ⟨ranges, still⟩ := moveEntry_spec there newPayload.length
    have byteLength : t.range.2 = t.byteLength := rfl
    rw [rangeAt_of there, byteLength] at ranges
    simp only [turnRanges, rewriteEntry, rangeAt_of there, byteLength]
    by_cases empty : t.byteLength = 0
    · simp only [if_pos empty]
      refine ⟨rfl, fun state done => ?_⟩
      cases done
      rfl
    · simp only [if_neg empty]
      cases slicePayload payload t.range with
      | error e =>
        refine ⟨rfl, fun state done => ?_⟩
        cases done
      | ok piece =>
        cases fits : Outcome.fit 63 (newPayload.length + piece.length) with
        | error e =>
          simp only [bind, Except.bind, fits]
          refine ⟨rfl, fun state done => ?_⟩
          cases done
        | ok size =>
          simp only [bind, Except.bind, fits, pure, Except.pure, Except.map, ranges, true_and]
          intro state done
          cases done
          exact still

end Turn

end TribunusCompute.ComputeImage
