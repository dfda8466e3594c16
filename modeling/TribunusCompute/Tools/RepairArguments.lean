import TribunusCompute.Tools.ToolCall

/-!
# The arguments in a repair

A required field that has no value is filled in once, and a value is converted to its type once.
-/
namespace TribunusCompute.Tools

open Gbnf (Json Number schemaProperties)

/-! ## Required fields -/

def schemaTypes : List Text :=
  ["string".toList, "number".toList, "integer".toList, "boolean".toList, "array".toList,
    "object".toList]

/-- Every required field is a property with a default or one of the types. -/
def Fillable (tool : ToolDefinition) : Prop :=
  ∀ field ∈ tool.required, ∃ property,
    ((schemaProperties tool.parameters).getD []).lookup field = some property ∧
      ((∃ default, property.get "default".toList = some default ∧ default ≠ .null) ∨
        ∃ type ∈ schemaTypes, property.get "type".toList = some (.string type))

section Default

variable {schema property value : Json Number} {field : Text}

theorem isNull_iff : isNull value = true ↔ value = .null := by
  cases value <;> simp [isNull]

theorem get_properties_of_lookup
    (there : ((schemaProperties schema).getD []).lookup field = some property) :
    ((schema.get "properties".toList).bind fun properties => properties.get field) =
      some property := by
  rw [schemaProperties] at there
  generalize schema.get "properties".toList = found at there ⊢
  cases found with
  | none => cases there
  | some properties =>
    cases properties with
    | object members => exact there
    | null | bool b | number n | string s | array items => cases there

theorem exists_getDefaultFor
    (there : ((schemaProperties schema).getD []).lookup field = some property)
    (known : (∃ default, property.get "default".toList = some default ∧ default ≠ .null) ∨
      ∃ type ∈ schemaTypes, property.get "type".toList = some (.string type)) :
    ∃ default, getDefaultFor schema field = some default ∧ isNull default = false := by
  rw [getDefaultFor, get_properties_of_lookup there, Option.bind_some]
  cases explicit : (property.get "default".toList).filter fun default => !isNull default with
  | some default =>
    refine ⟨default, rfl, ?_⟩
    simpa using (Option.filter_eq_some_iff.mp explicit).2
  | none =>
    rcases known with ⟨default, given, present⟩ | ⟨type, member, typed⟩
    -- A default that is not null is not passed over.
    · rw [given] at explicit
      have null : isNull default = true := by simpa [Option.filter] using explicit
      exact absurd (isNull_iff.mp null) present
    · simp only [typed, Option.bind_some, Json.asStr]
      simp only [schemaTypes, List.mem_cons, List.not_mem_nil, or_false] at member
      rcases member with rfl | rfl | rfl | rfl | rfl | rfl <;> exact ⟨_, rfl, rfl⟩

end Default

def supplied (default : Json Number) (given : Option (Json Number)) : Json Number :=
  (given.filter fun value => !isNull value).getD default

section Fill

variable {schema default value : Json Number} {field other : Text} {fields : List Text}
  {filled : List (Text × Json Number) × List Text}

theorem supplied_of_given (given : isNull value = false) :
    supplied default (some value) = value := by
  simp [supplied, Option.filter, given]

theorem supplied_of_null (null : isNull value = true) :
    supplied default (some value) = default := by
  simp [supplied, Option.filter, null]

theorem supplied_idem {given : Option (Json Number)} :
    supplied default (some (supplied default given)) = supplied default given := by
  have again : supplied default (some default) = default := by
    cases null : isNull default with
    | false => exact supplied_of_given null
    | true => exact supplied_of_null null
  cases given with
  | none => exact again
  | some value =>
    cases null : isNull value with
    | false => rw [supplied_of_given null, supplied_of_given null]
    | true => rw [supplied_of_null null, again]

theorem supplied_ne_null (given : Option (Json Number)) (default_ne : isNull default = false) :
    isNull (supplied default given) = false := by
  cases given with
  | none => exact default_ne
  | some value =>
    cases null : isNull value with
    | false => rw [supplied_of_given null, null]
    | true => rw [supplied_of_null null, default_ne]

theorem lookup_fillField_of_ne (apart : other ≠ field) :
    (fillField schema filled field).1.lookup other = filled.1.lookup other := by
  unfold fillField
  split
  · rfl
  · split
    · exact Members.lookup_insert_of_ne apart
    · rfl

theorem lookup_fillField (known : getDefaultFor schema field = some default) :
    (fillField schema filled field).1.lookup field =
      some (supplied default (filled.1.lookup field)) := by
  unfold fillField
  split
  case isTrue given =>
    cases found : filled.1.lookup field with
    | none => simp [hasValue, found] at given
    | some value =>
      rw [supplied_of_given (by simpa [hasValue, found] using given)]
  case isFalse missing =>
    simp only [known, Members.lookup_insert_self]
    cases found : filled.1.lookup field with
    | none => rfl
    | some value =>
      rw [supplied_of_null (by simpa [hasValue, found] using missing)]

theorem lookup_fillFields_of_notMem (absent : field ∉ fields) :
    (fields.foldl (fillField schema) filled).1.lookup field = filled.1.lookup field := by
  induction fields generalizing filled with
  | nil => rfl
  | cons first rest ih =>
    rw [List.mem_cons, not_or] at absent
    rw [List.foldl_cons, ih absent.2, lookup_fillField_of_ne absent.1]

theorem lookup_fillFields (known : getDefaultFor schema field = some default)
    (required : field ∈ fields) :
    (fields.foldl (fillField schema) filled).1.lookup field =
      some (supplied default (filled.1.lookup field)) := by
  induction fields generalizing filled with
  | nil => cases required
  | cons first rest ih =>
    rw [List.foldl_cons]
    -- The last time a field is required decides, and the turns before it give the same value.
    by_cases again : field ∈ rest
    · rw [ih again]
      by_cases same : field = first
      · rw [← same, lookup_fillField known, supplied_idem]
      · rw [lookup_fillField_of_ne same]
    · have same : field = first := by simpa [again] using required
      rw [lookup_fillFields_of_notMem again, ← same, lookup_fillField known]

theorem fillFields_of_hasValue (given : ∀ field ∈ fields, hasValue filled.1 field = true) :
    fields.foldl (fillField schema) filled = filled := by
  induction fields with
  | nil => rfl
  | cons first rest ih =>
    have there : fillField schema filled first = filled := by
      rw [fillField, if_pos (given first List.mem_cons_self)]
    rw [List.foldl_cons, there]
    exact ih fun field member => given field (List.mem_cons_of_mem _ member)

end Fill

/-! ## Types -/

section Fix

variable {std : Std} {value property : Json Number} {field other : Text}
  {properties : List (Text × Json Number)} {fixed : List (Text × Json Number) × List Text}

def settled (std : Std) (property value : Json Number) : Json Number :=
  (fixSingleValue std value property).getD value

/-- A number stays, and a double without one has become null. -/
theorem fixSingleValue_jsonOfF64 (number : expectedType property = "number".toList)
    (bits : UInt64) : fixSingleValue std (jsonOfF64 bits) property = none := by
  unfold jsonOfF64
  split
  · simp [fixSingleValue, number]
  · rfl

theorem fixSingleValue_settled :
    fixSingleValue std (settled std property value) property = none := by
  cases fix : fixSingleValue std value property with
  | none => rw [settled, fix, Option.getD_none, fix]
  | some value' =>
    rw [settled, fix, Option.getD_some]
    -- a repair gives a value of the expected type, and such a value is not repaired
    cases value with
    | string s =>
      simp only [fixSingleValue] at fix
      split at fix
      case isTrue number =>
        obtain ⟨bits, -, rfl⟩ := Option.map_eq_some_iff.mp fix
        exact fixSingleValue_jsonOfF64 number bits
      case isFalse =>
        split at fix
        case isTrue integer =>
          obtain ⟨bits, -, rfl⟩ := Option.map_eq_some_iff.mp fix
          simp [fixSingleValue, jsonOfI64, integer]
        case isFalse =>
          split at fix
          case isTrue boolean =>
            obtain ⟨b, -, rfl⟩ := Option.map_eq_some_iff.mp fix
            simp [fixSingleValue, boolean]
          case isFalse => cases fix
    | number n =>
      simp only [fixSingleValue] at fix
      split at fix
      case isTrue string =>
        cases fix
        simp [fixSingleValue, string]
      case isFalse => cases fix
    | bool b =>
      simp only [fixSingleValue] at fix
      split at fix
      case isTrue string =>
        cases fix
        simp [fixSingleValue, string]
      case isFalse notString =>
        split at fix
        case isTrue =>
          cases fix
          simp only [fixSingleValue, if_neg notString]
        case isFalse => cases fix
    | null | array items | object members => cases fix

/-- Only a text for a number that is not finite becomes null. -/
theorem isNull_settled : isNull (settled std property value) = true ↔
    isNull value = true ∨ expectedType property = "number".toList ∧
      ∃ s bits, value = .string s ∧ std.parseF64 s = some bits ∧ ¬ IsFinite bits := by
  -- only a number that is read from a string, and is not finite, becomes a null
  cases value with
  | string s =>
    by_cases number : expectedType property = "number".toList
    · cases parsed : std.parseF64 s with
      | none => simp [settled, fixSingleValue, number, parsed, isNull]
      | some bits =>
        by_cases finite : IsFinite bits <;>
          simp [settled, fixSingleValue, number, parsed, isNull, jsonOfF64, finite]
    · have present : isNull (settled std property (.string s)) = false := by
        simp only [settled, fixSingleValue, if_neg number]
        split
        · cases std.parseF64 s <;> rfl
        · split
          · cases parseBool s <;> rfl
          · rfl
      refine iff_of_false (by rw [present]; decide) ?_
      rintro (null | ⟨here, -⟩)
      · cases null
      · exact number here
  | number n =>
    have present : isNull (settled std property (.number n)) = false := by
      simp only [settled, fixSingleValue]
      split <;> rfl
    refine iff_of_false (by rw [present]; decide) ?_
    rintro (null | ⟨-, s, bits, text, -⟩)
    · cases null
    · cases text
  | bool b =>
    have present : isNull (settled std property (.bool b)) = false := by
      simp only [settled, fixSingleValue]
      split
      · rfl
      · split <;> rfl
    refine iff_of_false (by rw [present]; decide) ?_
    rintro (null | ⟨-, s, bits, text, -⟩)
    · cases null
    · cases text
  | null | array items | object members => simp [settled, fixSingleValue, isNull]

theorem lookup_fixField_of_ne (apart : other ≠ field) :
    (fixField std fixed (field, property)).1.lookup other = fixed.1.lookup other := by
  unfold fixField
  split
  · exact Members.lookup_insert_of_ne apart
  · rfl

theorem lookup_fixField : (fixField std fixed (field, property)).1.lookup field =
    (fixed.1.lookup field).map (settled std property) := by
  cases found : fixed.1.lookup field with
  | none => simp [fixField, found]
  | some value =>
    cases fix : fixSingleValue std value property with
    | none => simp [fixField, found, fix, settled]
    | some value' => simp [fixField, found, fix, settled, Members.lookup_insert_self]

theorem lookup_fixFields_of_notMem (absent : field ∉ properties.map Prod.fst) :
    (properties.foldl (fixField std) fixed).1.lookup field = fixed.1.lookup field := by
  induction properties generalizing fixed with
  | nil => rfl
  | cons first rest ih =>
    rw [List.map_cons, List.mem_cons, not_or] at absent
    rw [List.foldl_cons, ih absent.2]
    exact lookup_fixField_of_ne absent.1

theorem lookup_fixFields (distinct : (properties.map Prod.fst).Nodup)
    (member : (field, property) ∈ properties) :
    (properties.foldl (fixField std) fixed).1.lookup field =
      (fixed.1.lookup field).map (settled std property) := by
  induction properties generalizing fixed with
  | nil => cases member
  | cons first rest ih =>
    rw [List.map_cons, List.nodup_cons] at distinct
    rw [List.foldl_cons]
    rcases List.mem_cons.mp member with rfl | later
    -- No later property has the same key.
    · rw [lookup_fixFields_of_notMem distinct.1, lookup_fixField]
    · have apart : field ≠ first.1 := by
        rintro rfl
        exact distinct.1 (List.mem_map.mpr ⟨_, later, rfl⟩)
      rw [ih distinct.2 later, lookup_fixField_of_ne apart]

theorem fixFields_of_settled (right : ∀ field property, (field, property) ∈ properties →
    ((fixed.1.lookup field).bind fun value => fixSingleValue std value property) = none) :
    properties.foldl (fixField std) fixed = fixed := by
  induction properties with
  | nil => rfl
  | cons first rest ih =>
    have there : fixField std fixed first = fixed := by
      rw [fixField, right first.1 first.2 List.mem_cons_self]
    rw [List.foldl_cons, there]
    exact ih fun field property member => right field property (List.mem_cons_of_mem _ member)

theorem fixTypeMismatchesInObject_idem {args : List (Text × Json Number)} {schema : Json Number}
    (distinct : (((schemaProperties schema).getD []).map Prod.fst).Nodup) :
    fixTypeMismatchesInObject std (fixTypeMismatchesInObject std args schema).1 schema =
      ((fixTypeMismatchesInObject std args schema).1, []) := by
  apply fixFields_of_settled
  intro field property member
  rw [fixTypeMismatchesInObject, lookup_fixFields distinct member]
  cases args.lookup field with
  | none => rfl
  | some value => exact fixSingleValue_settled

end Fix

end TribunusCompute.Tools
