import TribunusCompute.Tools.RepairArguments
import TribunusCompute.Tools.RepairStages

/-!
# One pass of repair

A repaired call is valid as it is, with a value for every required argument, unless taking off a
wrapper brings a misspelled name back, or a required number is given as a text that stands for no
finite one, which JSON turns into null.
-/
namespace TribunusCompute.Tools

open Gbnf (Json Number schemaProperties)

/-! ## The whole repair -/

section Repair

variable {std : Std} {tool : ToolDefinition} {v : Json Number} {call : FunctionCall}
  {members args : List (Text × Json Number)}

def repairedArguments (std : Std) (tool : ToolDefinition) (v : Json Number) :
    List (Text × Json Number) :=
  (fixTypeMismatchesInObject std (fillRequired tool (givenArguments std v)).1 tool.parameters).1

def FunctionCall.of (std : Std) (tool : ToolDefinition) (val : Json Number) : FunctionCall :=
  { name := tool.name, arguments := val, raw := std.toText val }

theorem call_validateAndFix : (validateAndFix std v tool).call? =
    some (.of std tool (insertMember "arguments".toList
      (.object (fixTypeMismatchesInObject std
        (fillRequired tool (argumentsObject (prepared std tool v))).1 tool.parameters).1)
      (prepared std tool v))) := by
  unfold validateAndFix
  simp only
  split <;> rfl

theorem validateAndFix_object (std : Std) (tool : ToolDefinition)
    (members : List (Text × Json Number)) : ∃ final,
    (validateAndFix std (.object members) tool).call? = some (.of std tool (.object final)) ∧
    Members.insert "arguments".toList (.object (repairedArguments std tool (.object members)))
      final = final ∧
    final.lookup "arguments".toList =
      some (.object (repairedArguments std tool (.object members))) ∧
    wrapped? (.object final) = none ∧
    currentName (.object final) = finalName tool (.object members) := by
  obtain ⟨ready, prepare, written, bare, name⟩ := prepared_object std tool members
  have given : argumentsObject (.object ready) = givenArguments std (.object members) := by
    rw [argumentsObject, get_object, written, givenArguments]
  refine ⟨Members.insert "arguments".toList
    (.object (repairedArguments std tool (.object members))) ready, ?_,
    Members.insert_insert_self, Members.lookup_insert_self, ?_, ?_⟩
  · rw [call_validateAndFix, prepare, given]
    rfl
  · rw [← bare]
    exact wrapped?_congr (Members.lookup_insert_of_ne (by decide))
      (Members.lookup_insert_of_ne (by decide))
  · rw [← name]
    exact currentName_congr (Members.lookup_insert_of_ne (by decide))
      (Members.lookup_insert_of_ne (by decide))

theorem validateAndFix_of_settled (right : ¬ Typo tool (currentName (.object members)))
    (bare : wrapped? (.object members) = none)
    (there : members.lookup "arguments".toList = some (.object args))
    (same : Members.insert "arguments".toList (.object args) members = members)
    (given : ∀ field ∈ tool.required, hasValue args field = true)
    (typed : fixTypeMismatchesInObject std args tool.parameters = (args, [])) :
    validateAndFix std (.object members) tool = .valid (.of std tool (.object members)) := by
  have plain : reparseArguments std (.object members) = (.object members, []) := by
    apply reparseArguments_of_none
    rw [get_object, there]
    rfl
  have read : argumentsObject (.object members) = args := by
    rw [argumentsObject, get_object, there]
    rfl
  have filled : fillRequired tool args = (args, []) := fillFields_of_hasValue given
  unfold validateAndFix
  simp only [correctName_of_not_typo right, normalizeWrapper_of_not_wrapped bare, plain, read,
    filled, typed, insertMember, same]
  rfl

theorem not_typo_of_valid (valid : validateAndFix std (.object members) tool = .valid call) :
    ¬ Typo tool (currentName (.object members)) := by
  intro typo
  obtain ⟨fix, corrected⟩ := correctName_of_typo typo
  unfold validateAndFix at valid
  simp only [corrected, List.cons_append, List.isEmpty_cons, Bool.false_eq_true, if_false,
    reduceCtorEq] at valid

/-! ### What a required field ends with -/

section Required

variable {field : Text} {property default : Json Number}

def requiredValue (std : Std) (tool : ToolDefinition) (v : Json Number) (field : Text) :
    Option (Json Number) :=
  (((givenArguments std v).lookup field).filter fun value => !isNull value).or
    (getDefaultFor tool.parameters field)

theorem requiredValue_eq (std : Std) (v : Json Number)
    (known : getDefaultFor tool.parameters field = some default) :
    requiredValue std tool v field =
      some (supplied default ((givenArguments std v).lookup field)) := by
  rw [requiredValue, known, supplied]
  cases ((givenArguments std v).lookup field).filter fun value => !isNull value with
  | none => rfl
  | some value => rfl

theorem lookup_repairedArguments (required : field ∈ tool.required)
    (there : ((schemaProperties tool.parameters).getD []).lookup field = some property)
    (known : getDefaultFor tool.parameters field = some default) :
    (repairedArguments std tool v).lookup field =
      (requiredValue std tool v field).map (settled std property) := by
  have member := Members.mem_of_lookup_eq_some there
  rw [repairedArguments, fixTypeMismatchesInObject, lookup_fixFields tool.distinct member,
    fillRequired, lookup_fillFields known required, requiredValue_eq std v known]

def GivenNotFinite (std : Std) (tool : ToolDefinition) (v : Json Number) (field : Text) : Prop :=
  ∃ property, ((schemaProperties tool.parameters).getD []).lookup field = some property ∧
    expectedType property = "number".toList ∧
    ∃ s bits, requiredValue std tool v field = some (.string s) ∧
      std.parseF64 s = some bits ∧ ¬ IsFinite bits

theorem hasValue_repairedArguments (fillable : Fillable tool) (required : field ∈ tool.required) :
    hasValue (repairedArguments std tool v) field = true ↔
      ¬ GivenNotFinite std tool v field := by
  obtain ⟨property, there, known⟩ := fillable field required
  obtain ⟨default, filled, present⟩ := exists_getDefaultFor there known
  have value := requiredValue_eq std v filled
  have notNull := supplied_ne_null ((givenArguments std v).lookup field) present
  rw [hasValue, lookup_repairedArguments required there filled, value]
  simp only [Option.map_some, Option.getD_some, Bool.not_eq_true', ← Bool.not_eq_true,
    isNull_settled]
  apply not_congr
  constructor
  case mp =>
    rintro (null | ⟨number, s, bits, text, parsed, infinite⟩)
    · rw [null] at notNull
      cases notNull
    · exact ⟨property, there, number, s, bits, by rw [value, text], parsed, infinite⟩
  case mpr =>
    rintro ⟨property', there', number, s, bits, text, parsed, infinite⟩
    obtain rfl : property = property' := Option.some.inj (there.symm.trans there')
    rw [value] at text
    exact .inr ⟨number, s, bits, Option.some.inj text, parsed, infinite⟩

end Required

end Repair

/-! ## One pass is enough -/

/-- The function of a wrapper does not bring back a name that would be corrected. -/
def NameStays (tool : ToolDefinition) (v : Json Number) : Prop :=
  ∀ name, wrappedName? v = some name → ¬ Typo tool name

/-- Where the value names the function, a name in its wrapper is the tool's. -/
def WrapperAgrees (tool : ToolDefinition) (v : Json Number) : Prop :=
  currentName v ≠ [] → Within tool (currentName v) →
    ∀ name, wrappedName? v = some name → name = tool.name

def NumbersFinite (std : Std) (tool : ToolDefinition) (v : Json Number) : Prop :=
  ∀ field ∈ tool.required, ¬ GivenNotFinite std tool v field

/-- The call has the tool's name and a value for every required field, and is valid again. -/
structure OnePass (std : Std) (tool : ToolDefinition) (call : FunctionCall) : Prop where
  named : call.name = tool.name
  filled : ∃ args, call.arguments.get "arguments".toList = some (.object args) ∧
    ∀ field ∈ tool.required, ∃ value, args.lookup field = some value ∧ value ≠ .null
  again : validateAndFix std call.arguments tool = .valid call

def NameRepaired (tool : ToolDefinition) (v : Json Number) (call : FunctionCall) : Prop :=
  currentName v ≠ [] → Within tool (currentName v) → currentName call.arguments = tool.name

theorem hasValue_iff {args : List (Text × Json Number)} {field : Text} :
    hasValue args field = true ↔ ∃ value, args.lookup field = some value ∧ value ≠ .null := by
  rw [hasValue]
  cases args.lookup field with
  | none => simp
  | some value => simp [← isNull_iff]

theorem not_typo_finalName {tool : ToolDefinition} {v : Json Number} :
    ¬ Typo tool (finalName tool v) ↔ NameStays tool v := by
  rw [finalName, NameStays]
  cases wrappedName? v with
  | some name => simp
  -- Without a name in a wrapper, the corrected name stays.
  | none =>
    refine iff_of_true ?_ (by simp)
    rw [Option.getD_none]
    split
    case isTrue => exact fun typo => typo.2.1 rfl
    case isFalse right => exact right

/-- A name near enough ends as the tool's, unless that of a wrapped function takes its place. -/
theorem nameRepaired_iff {tool : ToolDefinition} {v : Json Number} :
    (currentName v ≠ [] → Within tool (currentName v) → finalName tool v = tool.name) ↔
      WrapperAgrees tool v := by
  rw [finalName, WrapperAgrees]
  cases wrappedName? v with
  | some name => simp
  | none =>
    refine iff_of_true ?_ (by simp)
    intro given near
    rw [Option.getD_none]
    split
    case isTrue => rfl
    case isFalse right =>
      by_contra apart
      exact right ⟨given, apart, near⟩

/-- One pass of repair is enough for an object exactly where the wrapper does not bring a
misspelled name back and each required number is finite. -/
theorem validateAndFix_onePass_iff (std : Std) (tool : ToolDefinition) (fillable : Fillable tool)
    (members : List (Text × Json Number)) :
    ∃ call, (validateAndFix std (.object members) tool).call? = some call ∧
      (OnePass std tool call ↔
        NameStays tool (.object members) ∧ NumbersFinite std tool (.object members)) ∧
      (NameRepaired tool (.object members) call ↔ WrapperAgrees tool (.object members)) := by
  obtain ⟨final, called, same, there, bare, name⟩ := validateAndFix_object std tool members
  have given : (∀ field ∈ tool.required,
      hasValue (repairedArguments std tool (.object members)) field = true) ↔
        NumbersFinite std tool (.object members) := by
    apply forall₂_congr
    exact fun field required => hasValue_repairedArguments fillable required
  refine ⟨_, called, ?_, ?_⟩
  · constructor
    case mp =>
      intro pass
      refine ⟨?_, ?_⟩
      · rw [← not_typo_finalName, ← name]
        exact not_typo_of_valid pass.again
      · obtain ⟨args, found, filled⟩ := pass.filled
        cases there.symm.trans found
        exact given.mp fun field required => hasValue_iff.mpr (filled field required)
    case mpr =>
      rintro ⟨stays, finite⟩
      have values := given.mpr finite
      refine ⟨rfl, ⟨_, there, fun field required => hasValue_iff.mp (values field required)⟩, ?_⟩
      -- No stage has anything left to do.
      apply validateAndFix_of_settled ?_ bare there same values
      · exact fixTypeMismatchesInObject_idem tool.distinct
      · rw [name, not_typo_finalName]
        exact stays
  · rw [← nameRepaired_iff, ← name]
    rfl

/-! ### A tool with a number -/

def echoTool : ToolDefinition where
  name := "echo".toList
  description := []
  parameters := .object [("properties".toList,
    .object [("times".toList, .object [("type".toList, .string "number".toList)])])]
  required := ["times".toList]
  distinct := by decide

theorem echoTool_fillable : Fillable echoTool := by
  intro field required
  obtain rfl : field = "times".toList := List.mem_singleton.mp required
  refine ⟨.object [("type".toList, .string "number".toList)], rfl, .inr ?_⟩
  exact ⟨"number".toList, by decide, rfl⟩

/-- What is read and written of the call below. -/
def echoStd : Std where
  fromStr text := if text = "{}".toList then some (.object []) else none
  toText _ := "\x7b\"arguments\":\x7b\"times\":0\x7d,\"name\":\"echo\"\x7d".toList
  numberText _ := "0".toList
  parseF64 _ := none

def misspelled : List (Text × Json Number) :=
  [("arguments".toList, .string "{}".toList), ("name".toList, .string "ehco".toList)]

/-- A misspelled name beside its arguments is corrected for good. -/
theorem misspelled_onePass : ∃ call,
    (validateAndFix echoStd (.object misspelled) echoTool).call? = some call ∧
      OnePass echoStd echoTool call ∧ currentName call.arguments = "echo".toList := by
  obtain ⟨call, called, pass, named⟩ :=
    validateAndFix_onePass_iff echoStd echoTool echoTool_fillable misspelled
  refine ⟨call, called, pass.mpr ⟨?_, ?_⟩, named.mpr ?_ (by decide) (by decide)⟩
  · intro name wrapped
    cases wrapped
  · rintro field required ⟨property, -, -, s, bits, text, -⟩
    obtain rfl : field = "times".toList := List.mem_singleton.mp required
    change some (Json.number (Gbnf.Number.posInt 0)) = some (.string s) at text
    cases text
  · intro _ _ name wrapped
    cases wrapped

def misspelledWrapper : List (Text × Json Number) :=
  [("function".toList, .object [("arguments".toList, .object []),
      ("name".toList, .string "ehco".toList)]),
    ("id".toList, .string "call_1".toList), ("type".toList, .string "function".toList)]

def notANumber : List (Text × Json Number) :=
  [("arguments".toList, .object [("times".toList, .string "NaN".toList)]),
    ("name".toList, .string "echo".toList)]

/-- The wrapper brings its name back, and a required number becomes null. -/
theorem repaired_again :
    (¬ ∃ std call, (validateAndFix std (.object misspelledWrapper) echoTool).call? = some call ∧
      OnePass std echoTool call) ∧
    ¬ ∃ std call, std.parseF64 "NaN".toList = some 0x7ff8000000000000 ∧
      (validateAndFix std (.object notANumber) echoTool).call? = some call ∧
      OnePass std echoTool call := by
  constructor
  case left =>
    rintro ⟨std, call, called, pass⟩
    obtain ⟨final, called', -, -, -, name⟩ :=
      validateAndFix_object std echoTool misspelledWrapper
    obtain rfl := Option.some.inj (called'.symm.trans called)
    apply not_typo_of_valid pass.again
    rw [name]
    decide
  case right =>
    rintro ⟨std, call, parsed, called, pass⟩
    obtain ⟨final, called', -, there, -⟩ :=
      validateAndFix_object std echoTool notANumber
    obtain rfl := Option.some.inj (called'.symm.trans called)
    obtain ⟨args, found, filled⟩ := pass.filled
    cases there.symm.trans found
    have given := hasValue_iff.mpr (filled "times".toList (by decide))
    rw [hasValue_repairedArguments echoTool_fillable (by decide)] at given
    exact given ⟨.object [("type".toList, .string "number".toList)], rfl, rfl, "NaN".toList,
      _, rfl, parsed, by decide⟩

end TribunusCompute.Tools
