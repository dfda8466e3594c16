import Mathlib.Data.List.DropRight

/-!
# JSON texts

The grammar of JSON over the bytes of a text, as far as its literals and brackets go: a name, a
number or an escape may be of any of the bytes that such things are made of. Outside its string
literals a text has its braces in pairs.
-/
namespace JsonText

def quote : UInt8 := 0x22

def backslash : UInt8 := 0x5C

def openBrace : UInt8 := 0x7B

def closeBrace : UInt8 := 0x7D

def openBracket : UInt8 := 0x5B

def closeBracket : UInt8 := 0x5D

def comma : UInt8 := 0x2C

def colon : UInt8 := 0x3A

/-- Tab, line feed, carriage return and space. -/
def white : List UInt8 := [0x09, 0x0A, 0x0D, 0x20]

/-- The bytes of numbers and of the names of the other values. -/
def scalarBytes : List UInt8 := "+-.0123456789Eaeflnrstu".toList.map Char.toUInt8

/-- What may follow the backslash of an escape. -/
def escapes : List UInt8 := "\"\\/bfnrtu".toList.map Char.toUInt8

def Blank (text : List UInt8) : Prop := ∀ byte ∈ text, byte ∈ white

/-- What stands between the quotes of a literal. -/
inductive StringBody : List UInt8 → Prop
  | nil : StringBody []
  | plain {byte : UInt8} {rest : List UInt8} (printable : 0x20 ≤ byte) (notQuote : byte ≠ quote)
      (notBackslash : byte ≠ backslash) (more : StringBody rest) : StringBody (byte :: rest)
  | escape {byte : UInt8} {rest : List UInt8} (known : byte ∈ escapes) (more : StringBody rest) :
      StringBody (backslash :: byte :: rest)

inductive Part
  | value
  | element
  | elements
  | member
  | members

/-- The texts of each part of the grammar. A JSON text is an element. -/
inductive Derives : Part → List UInt8 → Prop
  | scalar {text : List UInt8} (bytes : ∀ byte ∈ text, byte ∈ scalarBytes) : Derives .value text
  | string {body : List UInt8} (literal : StringBody body) :
      Derives .value (quote :: (body ++ [quote]))
  | emptyArray {text : List UInt8} (blank : Blank text) :
      Derives .value (openBracket :: (text ++ [closeBracket]))
  | array {text : List UInt8} (inner : Derives .elements text) :
      Derives .value (openBracket :: (text ++ [closeBracket]))
  | emptyObject {text : List UInt8} (blank : Blank text) :
      Derives .value (openBrace :: (text ++ [closeBrace]))
  | object {text : List UInt8} (inner : Derives .members text) :
      Derives .value (openBrace :: (text ++ [closeBrace]))
  | element {front text back : List UInt8} (before : Blank front) (value : Derives .value text)
      (after : Blank back) : Derives .element (front ++ (text ++ back))
  | lastElement {text : List UInt8} (last : Derives .element text) : Derives .elements text
  | moreElements {text rest : List UInt8} (first : Derives .element text)
      (more : Derives .elements rest) : Derives .elements (text ++ comma :: rest)
  | member {front key back text : List UInt8} (before : Blank front) (literal : StringBody key)
      (after : Blank back) (value : Derives .element text) :
      Derives .member (front ++ quote :: (key ++ quote :: (back ++ colon :: text)))
  | lastMember {text : List UInt8} (last : Derives .member text) : Derives .members text
  | moreMembers {text rest : List UInt8} (first : Derives .member text)
      (more : Derives .members rest) : Derives .members (text ++ comma :: rest)

/-- A byte that stands outside literals and is no brace. -/
structure Outside (byte : UInt8) : Prop where
  notQuote : byte ≠ quote
  notOpen : byte ≠ openBrace
  notClose : byte ≠ closeBrace
  control : byte < 0x20 → byte ∈ white

/-- Outside literals the braces are in pairs. -/
inductive Balanced : List UInt8 → Prop
  | nil : Balanced []
  | plain {byte : UInt8} {rest : List UInt8} (outside : Outside byte) (more : Balanced rest) :
      Balanced (byte :: rest)
  | literal {body rest : List UInt8} (inside : StringBody body) (more : Balanced rest) :
      Balanced (quote :: (body ++ quote :: rest))
  | braces {inner rest : List UInt8} (inside : Balanced inner) (more : Balanced rest) :
      Balanced (openBrace :: (inner ++ closeBrace :: rest))

variable {text text' : List UInt8}

theorem Balanced.append (first : Balanced text) (second : Balanced text') :
    Balanced (text ++ text') := by
  induction first with
  | nil => exact second
  | plain outside _ ih => exact .plain outside ih
  | literal inside _ ih =>
    rw [List.cons_append, List.append_assoc, List.cons_append]
    exact .literal inside ih
  | braces inside _ _ ih =>
    rw [List.cons_append, List.append_assoc, List.cons_append]
    exact .braces inside ih

theorem balanced_of_outside (outside : ∀ byte ∈ text, Outside byte) : Balanced text := by
  induction text with
  | nil => exact .nil
  | cons byte rest ih =>
    rw [List.forall_mem_cons] at outside
    exact .plain outside.1 (ih outside.2)

theorem forall_mem_of_all {α : Type} {p : α → Prop} [DecidablePred p] {xs : List α}
    (checked : xs.all (fun x => p x) = true) : ∀ x ∈ xs, p x :=
  fun x member => of_decide_eq_true (List.all_eq_true.mp checked x member)

theorem outside_of_mem_white {byte : UInt8} (member : byte ∈ white) : Outside byte := by
  have apart : ∀ byte ∈ white, byte ≠ quote ∧ byte ≠ openBrace ∧ byte ≠ closeBrace :=
    forall_mem_of_all (by decide)
  obtain ⟨notQuote, notOpen, notClose⟩ := apart byte member
  exact ⟨notQuote, notOpen, notClose, fun _ => member⟩

theorem outside_of_mem_scalarBytes {byte : UInt8} (member : byte ∈ scalarBytes) :
    Outside byte := by
  have apart : ∀ byte ∈ scalarBytes,
      byte ≠ quote ∧ byte ≠ openBrace ∧ byte ≠ closeBrace ∧ 0x20 ≤ byte :=
    forall_mem_of_all (by decide)
  obtain ⟨notQuote, notOpen, notClose, printable⟩ := apart byte member
  exact ⟨notQuote, notOpen, notClose, fun control => absurd printable (UInt8.not_le.mpr control)⟩

theorem Blank.balanced (blank : Blank text) : Balanced text :=
  balanced_of_outside fun byte member => outside_of_mem_white (blank byte member)

theorem Balanced.join {byte : UInt8} (first : Balanced text) (second : Balanced text')
    (outside : Outside byte) : Balanced (text ++ byte :: text') :=
  first.append (.plain outside second)

theorem outside_comma : Outside comma := ⟨by decide, by decide, by decide, by decide⟩

theorem outside_colon : Outside colon := ⟨by decide, by decide, by decide, by decide⟩

theorem Balanced.bracketed (inner : Balanced text) :
    Balanced (openBracket :: (text ++ [closeBracket])) :=
  .plain ⟨by decide, by decide, by decide, by decide⟩
    (inner.join .nil ⟨by decide, by decide, by decide, by decide⟩)

/-- Every part of a JSON text has its braces in pairs. -/
theorem Derives.balanced {part : Part} (derives : Derives part text) : Balanced text := by
  induction derives with
  | scalar bytes => exact balanced_of_outside fun byte member =>
      outside_of_mem_scalarBytes (bytes byte member)
  | string literal => exact .literal literal .nil
  | emptyArray blank => exact blank.balanced.bracketed
  | array _ ih => exact ih.bracketed
  | emptyObject blank => exact .braces blank.balanced .nil
  | object _ ih => exact .braces ih .nil
  | element before _ after ih => exact before.balanced.append (ih.append after.balanced)
  | lastElement _ ih => exact ih
  | moreElements _ _ ih ih' => exact ih.join ih' outside_comma
  | member before literal after _ ih =>
    exact before.balanced.append (.literal literal (after.balanced.join ih outside_colon))
  | lastMember _ ih => exact ih
  | moreMembers _ _ ih ih' => exact ih.join ih' outside_comma

theorem notMem_white_of_mem_scalarBytes {byte : UInt8} (member : byte ∈ scalarBytes) :
    byte ∉ white := by
  have apart : ∀ byte ∈ scalarBytes, byte ∉ white := forall_mem_of_all (by decide)
  exact apart byte member

theorem Derives.notMem_white {byte : UInt8} {rest : List UInt8}
    (derives : Derives .value (byte :: rest)) : byte ∉ white := by
  generalize shape : byte :: rest = text at derives
  cases derives with
  | scalar bytes => exact notMem_white_of_mem_scalarBytes (bytes byte (shape ▸ List.mem_cons_self))
  | string | emptyArray | array | emptyObject | object =>
    rw [(List.cons.inj shape).1]
    decide

/-- A value that begins with a brace is an object, whose inside is balanced. -/
theorem Derives.exists_inner {rest : List UInt8}
    (derives : Derives .value (openBrace :: rest)) :
    ∃ inner, rest = inner ++ [closeBrace] ∧ Balanced inner := by
  generalize shape : openBrace :: rest = text at derives
  cases derives with
  | scalar bytes =>
    -- no number and no name has a brace
    have absent : openBrace ∉ scalarBytes := by decide
    exact absurd (bytes openBrace (shape ▸ List.mem_cons_self)) absent
  | string literal => exact absurd (List.cons.inj shape).1 (by decide)
  | emptyArray blank => exact absurd (List.cons.inj shape).1 (by decide)
  | array inner => exact absurd (List.cons.inj shape).1 (by decide)
  | emptyObject blank => exact ⟨_, (List.cons.inj shape).2, blank.balanced⟩
  | object inner => exact ⟨_, (List.cons.inj shape).2, inner.balanced⟩

/-! ### White space around a text -/

/-- The text without the white space around it. -/
def trim (text : List UInt8) : List UInt8 := (text.dropWhile (· ∈ white)).rdropWhile (· ∈ white)

theorem exists_trim (text : List UInt8) :
    ∃ front back, Blank front ∧ Blank back ∧ text = front ++ (trim text ++ back) := by
  refine ⟨text.takeWhile (· ∈ white), (text.dropWhile (· ∈ white)).rtakeWhile (· ∈ white),
    fun byte member => ?_, fun byte member => ?_, ?_⟩
  · simpa using List.mem_takeWhile_imp member
  · simpa using List.mem_rtakeWhile_imp member
  · rw [trim, List.rdropWhile_append_rtakeWhile, List.takeWhile_append_dropWhile]

theorem trim_append {front back : List UInt8} (before : Blank front) (after : Blank back)
    (text : List UInt8) : trim (front ++ (text ++ back)) = trim text := by
  have front_gone : (front ++ (text ++ back)).dropWhile (· ∈ white) =
      (text ++ back).dropWhile (· ∈ white) :=
    List.dropWhile_append_of_pos fun byte member => by simpa using before byte member
  have back_gone (rest : List UInt8) :
      (rest ++ back).rdropWhile (· ∈ white) = rest.rdropWhile (· ∈ white) := by
    rw [List.rdropWhile, List.reverse_append, List.dropWhile_append_of_pos, List.rdropWhile]
    intro byte member
    simpa using after byte (List.mem_reverse.mp member)
  rw [trim, front_gone, List.dropWhile_append, trim]
  split
  next empty =>
    -- the text itself is blank, so that what follows it is trimmed from the front
    rw [List.isEmpty_iff.mp empty, List.dropWhile_eq_nil_iff.mpr]
    intro byte member
    simpa using after byte member
  next => exact back_gone _

end JsonText
