import TribunusCompute.Tools.ToolCall

/-!
# The name and the wrapper in a repair

What correcting the name, taking off the wrapper and parsing the arguments leave of an object.
-/
namespace TribunusCompute.Tools

open Gbnf (Json Number)

/-! ## Edit distance -/

section Distance

variable {c : Char} {left i : ℕ} {before done a b ds : List Char} {prev : List ℕ}

theorem length_levenshteinRow (length : prev.length = ds.length + 1) :
    (levenshteinRow c left ds prev).length = ds.length := by
  induction ds generalizing left prev with
  | nil => rfl
  | cons d ds ih =>
    match prev, length with
    | diagonal :: above :: prev, length =>
      have rest : (above :: prev).length = ds.length + 1 := by simpa using length
      simp [levenshteinRow, ih rest]

/-- An entry is zero only below a diagonal of zeros, along equal characters. -/
theorem levenshteinRow_zero (length : prev.length = ds.length + 1)
    (zeros : ∀ j, prev[j]? = some 0 → before = done ++ ds.take j) {j : ℕ}
    (zero : (levenshteinRow c left ds prev)[j]? = some 0) :
    before ++ [c] = done ++ ds.take (j + 1) := by
  induction ds generalizing left prev done j with
  | nil => simp [levenshteinRow] at zero
  | cons d ds ih =>
    match prev, length with
    | diagonal :: above :: prev, length =>
      have rest : (above :: prev).length = ds.length + 1 := by simpa using length
      cases j with
      -- The other two neighbours add one, so that the minimum is the diagonal.
      | zero =>
        simp only [levenshteinRow, List.getElem?_cons_zero, Option.some.injEq, min3] at zero
        have same : c = d := by
          by_contra apart
          simp only [if_neg apart] at zero
          omega
        have start : diagonal = 0 := by
          simp only [if_pos same] at zero
          omega
        have there : before = done := by simpa using zeros 0 (by simp [start])
        rw [there, same]
        rfl
      | succ j =>
        have later : ∀ j, (above :: prev)[j]? = some 0 → before = (done ++ [d]) ++ ds.take j := by
          intro j zero
          simpa using zeros (j + 1) (by simpa using zero)
        simpa using ih rest later (by simpa [levenshteinRow] using zero)

theorem levenshteinRows_zero (positive : 0 < i) (length : prev.length = b.length + 1)
    (zeros : ∀ j, prev[j]? = some 0 → before = b.take j) :
    (levenshteinRows b i a prev).length = b.length + 1 ∧
      ∀ j, (levenshteinRows b i a prev)[j]? = some 0 → before ++ a = b.take j := by
  induction a generalizing i prev before with
  | nil => exact ⟨length, by simpa [levenshteinRows] using zeros⟩
  | cons c a ih =>
    have next : (i :: levenshteinRow c i b prev).length = b.length + 1 := by
      simp [length_levenshteinRow length]
    have zeros' : ∀ j, (i :: levenshteinRow c i b prev)[j]? = some 0 →
        before ++ [c] = b.take j := by
      intro j zero
      cases j with
      -- The first entry of row `i` is `i`.
      | zero =>
        simp only [List.getElem?_cons_zero, Option.some.injEq] at zero
        omega
      | succ j =>
        have entry : (levenshteinRow c i b prev)[j]? = some 0 := by simpa using zero
        have above : ∀ j, prev[j]? = some 0 → before = [] ++ b.take j := by simpa using zeros
        simpa using levenshteinRow_zero length above entry
    obtain ⟨lengths, rows⟩ := ih (Nat.succ_pos i) next zeros'
    exact ⟨lengths, by simpa [levenshteinRows] using rows⟩

theorem eq_of_levenshteinDistance_eq_zero (zero : levenshteinDistance a b = 0) : a = b := by
  unfold levenshteinDistance at zero
  split at zero
  case isTrue empty => rw [List.eq_nil_of_length_eq_zero empty, List.eq_nil_of_length_eq_zero zero]
  case isFalse =>
    split at zero
    case isTrue empty =>
      rw [List.eq_nil_of_length_eq_zero empty, List.eq_nil_of_length_eq_zero zero]
    case isFalse =>
      have first : ∀ j, (List.range (b.length + 1))[j]? = some 0 → [] = b.take j := by
        intro j zero
        obtain ⟨inside, entry⟩ := List.getElem?_eq_some_iff.mp zero
        have start : j = 0 := by simpa using entry
        simp [start]
      obtain ⟨length, rows⟩ := levenshteinRows_zero (a := a) Nat.one_pos (by simp) first
      have last : (levenshteinRows b 1 a (List.range (b.length + 1)))[b.length]? = some 0 := by
        rw [List.getElem?_eq_getElem (by omega)]
        rw [List.getD_eq_getElem?_getD, List.getElem?_eq_getElem (by omega)] at zero
        exact congrArg some zero
      simpa using rows b.length last

end Distance

/-! ## What is read of a value -/

/-- The name is near enough to that of the tool. -/
def Within (tool : ToolDefinition) (name : Text) : Prop :=
  levenshteinDistance name tool.name ≤ typoThreshold tool

def Typo (tool : ToolDefinition) (name : Text) : Prop :=
  name ≠ [] ∧ name ≠ tool.name ∧ Within tool name

instance (tool : ToolDefinition) (name : Text) : Decidable (Within tool name) :=
  inferInstanceAs (Decidable (_ ≤ _))

instance (tool : ToolDefinition) (name : Text) : Decidable (Typo tool name) :=
  inferInstanceAs (Decidable (_ ∧ _ ∧ _))

def wrappedName? (v : Json Number) : Option Text :=
  (wrapped? v).bind fun func => (func.get "name".toList).bind Json.asStr

def unquote (std : Std) (val : Json Number) : Json Number := (reparse std val).getD val

/-- The arguments of a wrapped function, else those of the value itself. -/
def writtenArguments (std : Std) (v : Json Number) : Option (Json Number) :=
  (((wrapped? v).bind fun func => func.get "arguments".toList).map (unquote std)).or
    (v.get "arguments".toList)

def givenArguments (std : Std) (v : Json Number) : List (Text × Json Number) :=
  (((writtenArguments std v).map (unquote std)).bind Json.asObject).getD []

/-! ## What the stages leave -/

section Stages

variable {std : Std} {tool : ToolDefinition} {v value : Json Number} {name key other : Text}
  {members : List (Text × Json Number)}

theorem get_object : (Json.object members).get key = members.lookup key := rfl

theorem fuzzyMatchFunctionName_of_ne (apart : name ≠ tool.name) :
    fuzzyMatchFunctionName name tool =
      if levenshteinDistance name tool.name ≤ typoThreshold tool then some tool.name
      else none := by
  have positive : levenshteinDistance name tool.name > 0 :=
    Nat.pos_of_ne_zero fun zero => apart (eq_of_levenshteinDistance_eq_zero zero)
  simp [fuzzyMatchFunctionName, positive]

theorem correctName_of_typo (typo : Typo tool (currentName (.object members))) :
    ∃ fix, correctName tool (.object members) =
      (.object (Members.insert "name".toList (.string tool.name) members), [fix]) := by
  obtain ⟨given, apart, near⟩ := typo
  have corrected : fuzzyMatchFunctionName (currentName (.object members)) tool =
      some tool.name := by
    rw [fuzzyMatchFunctionName_of_ne apart]
    exact if_pos near
  unfold correctName
  simp only [if_pos (And.intro given apart), corrected]
  exact ⟨_, rfl⟩

theorem correctName_of_not_typo (right : ¬ Typo tool (currentName v)) :
    correctName tool v = (v, []) := by
  by_cases named : currentName v ≠ [] ∧ currentName v ≠ tool.name
  case neg =>
    unfold correctName
    simp only [if_neg named]
  case pos =>
    have far : ¬ levenshteinDistance (currentName v) tool.name ≤ typoThreshold tool :=
      fun near => right ⟨named.1, named.2, near⟩
    unfold correctName
    simp only [if_pos named, fuzzyMatchFunctionName_of_ne named.2, if_neg far]

theorem get_correctName_of_ne (apart : key ≠ "name".toList) :
    (correctName tool (.object members)).1.get key = members.lookup key := by
  by_cases typo : Typo tool (currentName (.object members))
  · obtain ⟨fix, corrected⟩ := correctName_of_typo typo
    rw [corrected, get_object]
    exact Members.lookup_insert_of_ne apart
  · rw [correctName_of_not_typo typo]
    rfl

theorem wrapped?_congr {v w : Json Number} (type : v.get "type".toList = w.get "type".toList)
    (function : v.get "function".toList = w.get "function".toList) : wrapped? v = wrapped? w := by
  simp only [wrapped?, type, function]

theorem currentName_congr {v w : Json Number} (name : v.get "name".toList = w.get "name".toList)
    (function : v.get "function".toList = w.get "function".toList) :
    currentName v = currentName w := by
  simp only [currentName, name, function]

/-! ### The wrapper -/

theorem normalizeWrapper_of_wrapped (std : Std) {func : Json Number}
    (wrapped : wrapped? (.object members) = some func) :
    ∃ fix, normalizeWrapper std (.object members) =
      (.object (unwrap std func members), [fix]) := by
  unfold normalizeWrapper
  simp only [wrapped]
  exact ⟨_, rfl⟩

theorem normalizeWrapper_of_not_wrapped (bare : wrapped? v = none) :
    normalizeWrapper std v = (v, []) := by
  unfold normalizeWrapper
  simp only [bare]

section Unwrap

variable {func : Json Number}

theorem lookup_unwrap_function : (unwrap std func members).lookup "function".toList = none := by
  rw [unwrap, Members.lookup_remove_of_ne (by decide), Members.lookup_remove_of_ne (by decide),
    Members.lookup_remove_self]

theorem lookup_unwrap_name : (unwrap std func members).lookup "name".toList =
    (((func.get "name".toList).bind Json.asStr).map Json.string).or
      (members.lookup "name".toList) := by
  rw [unwrap, Members.lookup_remove_of_ne (by decide), Members.lookup_remove_of_ne (by decide),
    Members.lookup_remove_of_ne (by decide)]
  cases func.get "arguments".toList with
  | some args =>
    simp only [Members.lookup_insert_of_ne
      (show "name".toList ≠ "arguments".toList by decide)]
    cases (func.get "name".toList).bind Json.asStr with
    | some name => simp [Members.lookup_insert_self]
    | none => simp
  | none =>
    cases (func.get "name".toList).bind Json.asStr with
    | some name => simp [Members.lookup_insert_self]
    | none => simp

theorem lookup_unwrap_arguments : (unwrap std func members).lookup "arguments".toList =
    ((func.get "arguments".toList).map (unquote std)).or
      (members.lookup "arguments".toList) := by
  rw [unwrap, Members.lookup_remove_of_ne (by decide), Members.lookup_remove_of_ne (by decide),
    Members.lookup_remove_of_ne (by decide)]
  cases func.get "arguments".toList with
  | some args => simp [Members.lookup_insert_self, unquote]
  | none =>
    cases (func.get "name".toList).bind Json.asStr with
    | some name =>
      simp only [Members.lookup_insert_of_ne
        (show "arguments".toList ≠ "name".toList by decide)]
      simp
    | none => simp

end Unwrap

theorem reparseArguments_of_none
    (plain : (v.get "arguments".toList).bind (reparse std) = none) :
    reparseArguments std v = (v, []) := by
  unfold reparseArguments
  simp only [plain]

theorem reparseArguments_of_some
    (parsed : (members.lookup "arguments".toList).bind (reparse std) = some value) :
    (reparseArguments std (.object members)).1 =
      .object (Members.insert "arguments".toList value members) := by
  unfold reparseArguments
  simp only [get_object, parsed]

theorem get_reparseArguments_of_ne (apart : key ≠ "arguments".toList) :
    (reparseArguments std (.object members)).1.get key = members.lookup key := by
  cases parsed : (members.lookup "arguments".toList).bind (reparse std) with
  | none =>
    rw [reparseArguments_of_none (v := .object members) parsed]
    rfl
  | some value =>
    rw [reparseArguments_of_some parsed, get_object]
    exact Members.lookup_insert_of_ne apart

theorem get_reparseArguments : (reparseArguments std (.object members)).1.get "arguments".toList =
    (members.lookup "arguments".toList).map (unquote std) := by
  cases parsed : (members.lookup "arguments".toList).bind (reparse std) with
  | none =>
    rw [reparseArguments_of_none (v := .object members) parsed, get_object]
    cases given : members.lookup "arguments".toList with
    | none => rfl
    | some args =>
      have plain : reparse std args = none := by simpa only [given, Option.bind_some] using parsed
      simp [unquote, plain]
  | some value =>
    rw [reparseArguments_of_some parsed, get_object, Members.lookup_insert_self]
    obtain ⟨args, given, read⟩ := Option.bind_eq_some_iff.mp parsed
    simp only [given, Option.map_some, unquote, read, Option.getD_some]

/-! ### Before the arguments -/

theorem correctName_object (tool : ToolDefinition) (members : List (Text × Json Number)) :
    ∃ named, (correctName tool (.object members)).1 = .object named := by
  by_cases typo : Typo tool (currentName (.object members))
  · obtain ⟨fix, corrected⟩ := correctName_of_typo typo
    exact ⟨_, congrArg Prod.fst corrected⟩
  · exact ⟨_, congrArg Prod.fst (correctName_of_not_typo typo)⟩

theorem reparseArguments_object (std : Std) (members : List (Text × Json Number)) :
    ∃ ready, (reparseArguments std (.object members)).1 = .object ready := by
  cases parsed : (members.lookup "arguments".toList).bind (reparse std) with
  | none => exact ⟨_, congrArg Prod.fst (reparseArguments_of_none (v := .object members) parsed)⟩
  | some value => exact ⟨_, reparseArguments_of_some parsed⟩

theorem currentName_correctName : currentName (correctName tool (.object members)).1 =
    if Typo tool (currentName (.object members)) then tool.name
    else currentName (.object members) := by
  split
  case isTrue typo =>
    obtain ⟨fix, corrected⟩ := correctName_of_typo typo
    rw [corrected]
    simp only [currentName, get_object, Members.lookup_insert_self, Option.some_or,
      Option.bind_some, Json.asStr, Option.getD_some]
  case isFalse right => rw [correctName_of_not_typo right]

def prepared (std : Std) (tool : ToolDefinition) (v : Json Number) : Json Number :=
  (reparseArguments std (normalizeWrapper std (correctName tool v).1).1).1

def finalName (tool : ToolDefinition) (v : Json Number) : Text :=
  (wrappedName? v).getD (if Typo tool (currentName v) then tool.name else currentName v)

theorem currentName_unwrap {func : Json Number} {named : List (Text × Json Number)}
    (function : named.lookup "function".toList = some func) :
    currentName (.object (unwrap std func named)) =
      ((func.get "name".toList).bind Json.asStr).getD (currentName (.object named)) := by
  simp only [currentName, get_object, lookup_unwrap_name, lookup_unwrap_function, function]
  cases own : (func.get "name".toList).bind Json.asStr with
  | some name => rfl
  | none =>
    cases named.lookup "name".toList with
    | some beside => rfl
    -- The function's own name was not a text, so that no name was read before either.
    | none => simp only [Option.map_none, Option.none_or, Option.bind_none, Option.bind_some, own,
        Option.getD_none]

theorem normalizeWrapper_object (std : Std) (members : List (Text × Json Number)) : ∃ flat,
    (normalizeWrapper std (.object members)).1 = .object flat ∧
    flat.lookup "arguments".toList = writtenArguments std (.object members) ∧
    wrapped? (.object flat) = none ∧
    currentName (.object flat) =
      (wrappedName? (.object members)).getD (currentName (.object members)) := by
  cases wrapped : wrapped? (.object members) with
  | none =>
    -- Without a wrapper nothing changes, and the value's own name and arguments are read.
    refine ⟨members, by rw [normalizeWrapper_of_not_wrapped wrapped], ?_, wrapped, ?_⟩
    · simp only [writtenArguments, wrapped, Option.bind_none, Option.map_none, Option.none_or]
      rfl
    · simp only [wrappedName?, wrapped, Option.bind_none, Option.getD_none]
  | some func =>
    obtain ⟨fix, flat⟩ := normalizeWrapper_of_wrapped std wrapped
    have function : members.lookup "function".toList = some func := by
      unfold wrapped? at wrapped
      split at wrapped
      · exact wrapped
      · cases wrapped
    refine ⟨unwrap std func members, by rw [flat], ?_, ?_, ?_⟩
    · rw [lookup_unwrap_arguments]
      simp only [writtenArguments, wrapped, Option.bind_some, get_object]
    · simp only [wrapped?, get_object, lookup_unwrap_function, ite_self]
    · rw [currentName_unwrap function]
      simp only [wrappedName?, wrapped, Option.bind_some]

theorem prepared_object (std : Std) (tool : ToolDefinition)
    (members : List (Text × Json Number)) :
    ∃ ready, prepared std tool (.object members) = .object ready ∧
    ready.lookup "arguments".toList =
      (writtenArguments std (.object members)).map (unquote std) ∧
    wrapped? (.object ready) = none ∧
    currentName (.object ready) = finalName tool (.object members) := by
  obtain ⟨named, corrected⟩ := correctName_object tool members
  have beside : ∀ key, key ≠ "name".toList → named.lookup key = members.lookup key := by
    intro key apart
    rw [← get_object, ← corrected]
    exact get_correctName_of_ne apart
  have wrapper : wrapped? (.object named) = wrapped? (.object members) :=
    wrapped?_congr (beside _ (by decide)) (beside _ (by decide))
  have written : writtenArguments std (.object named) = writtenArguments std (.object members) := by
    simp only [writtenArguments, wrapper, get_object, beside _
      (show "arguments".toList ≠ "name".toList by decide)]
  have spelled : currentName (.object named) = if Typo tool (currentName (.object members))
      then tool.name else currentName (.object members) := by
    rw [← corrected]
    exact currentName_correctName
  obtain ⟨flat, flattened, arguments, bare, name⟩ := normalizeWrapper_object std named
  obtain ⟨ready, parsed⟩ := reparseArguments_object std flat
  have rest : ∀ key, key ≠ "arguments".toList → ready.lookup key = flat.lookup key := by
    intro key apart
    rw [← get_object, ← parsed]
    exact get_reparseArguments_of_ne apart
  refine ⟨ready, by rw [prepared, corrected, flattened, parsed], ?_, ?_, ?_⟩
  · rw [← get_object, ← parsed, get_reparseArguments, arguments, written]
  · rw [← bare]
    exact wrapped?_congr (rest _ (by decide)) (rest _ (by decide))
  · have same : currentName (.object ready) = currentName (.object flat) :=
      currentName_congr (rest _ (by decide)) (rest _ (by decide))
    rw [same, name, spelled]
    simp only [finalName, wrappedName?, wrapper]

end Stages

end TribunusCompute.Tools
