import Mathlib.Data.List.AList

/-!
# Tables searched by a key

A lookup takes the first row with the key. Where the keys are distinct there is only one, in
whatever order the table is searched. A map that is written under one key keeps the others, and
so does a map whose entries are listed in the order of their keys.
-/
namespace Keyed

variable {α κ : Type*} [DecidableEq κ] {key : α → κ} {table rest : List α} {a : α}

def find (key : α → κ) (table : List α) (k : κ) : Option α := table.find? fun a => key a = k

theorem mem_of_find {k : κ} (found : find key table k = some a) : a ∈ table ∧ key a = k := by
  constructor
  · exact List.mem_of_find?_eq_some found
  · simpa using List.find?_some found

theorem find_of_mem (distinct : (table.map key).Nodup) (member : a ∈ table) :
    find key table (key a) = some a := by
  induction table with
  | nil => cases member
  | cons b table ih =>
    rw [List.map_cons, List.nodup_cons] at distinct
    rcases List.mem_cons.mp member with rfl | later
    · simp [find]
    · have apart : key b ≠ key a := by
        intro same
        exact distinct.1 (same ▸ List.mem_map_of_mem later)
      have there := ih distinct.2 later
      unfold find at there ⊢
      rw [List.find?_cons_of_neg (by simpa using apart), there]

theorem find_reverse (distinct : (table.map key).Nodup) (member : a ∈ table) :
    find key table.reverse (key a) = some a := by
  apply find_of_mem
  · rw [List.map_reverse]
    exact List.nodup_reverse.mpr distinct
  · exact List.mem_reverse.mpr member

/-! ### Maps -/

section

variable {β : Type*} {entries : AList fun _ : κ => β} {k k' : κ} {value found : β}

/-- What is found after an insertion is new, or was there under another key. -/
theorem lookup_insert_eq_some_iff : (entries.insert k value).lookup k' = some found ↔
    k' = k ∧ value = found ∨ k' ≠ k ∧ entries.lookup k' = some found := by
  rcases eq_or_ne k' k with rfl | apart
  · simp [AList.lookup_insert]
  · simp [AList.lookup_insert_ne apart, apart]

/-- An erasure takes out the pair that is found and no other. -/
theorem entries_perm_erase (there : entries.lookup k = some found) :
    entries.entries.Perm (⟨k, found⟩ :: (entries.erase k).entries) := by
  have member : k ∈ entries.entries.keys := AList.lookup_isSome.mp (by simp [there])
  obtain ⟨b, front, back, -, parts, rest⟩ := List.exists_of_kerase member
  have inside : (⟨k, b⟩ : (_ : κ) × β) ∈ entries.entries := by simp [parts]
  have same : entries.lookup k = some b := AList.mem_lookup_iff.mpr inside
  obtain rfl : found = b := Option.some.inj (there.symm.trans same)
  have erased : (entries.erase k).entries = front ++ back := rest
  rw [erased, parts]
  exact List.perm_middle

theorem lookup_erase_eq_some_iff : (entries.erase k).lookup k' = some found ↔
    k' ≠ k ∧ entries.lookup k' = some found := by
  rcases eq_or_ne k' k with rfl | apart
  · simp
  · simp [AList.lookup_erase_ne apart, apart]

end

end Keyed

namespace Members

variable {κ α : Type*}

section Entries

variable [DecidableEq κ]

def insert [LT κ] [DecidableLT κ] (key : κ) (value : α) : List (κ × α) → List (κ × α)
  | [] => [(key, value)]
  | entry :: rest =>
    if key = entry.1 then (key, value) :: rest
    else if key < entry.1 then (key, value) :: entry :: rest
    else entry :: insert key value rest

def remove (key : κ) (entries : List (κ × α)) : List (κ × α) :=
  entries.filter fun entry => entry.1 ≠ key

variable {key other : κ} {value : α} {entries : List (κ × α)}

section Insert

variable [LT κ] [DecidableLT κ]

/-- What is written is written as before. -/
@[simp] theorem insert_insert_self :
    insert key value (insert key value entries) = insert key value entries := by
  induction entries with
  | nil => simp [insert]
  | cons entry rest ih =>
    rw [insert]
    split
    case isTrue => simp [insert]
    case isFalse apart =>
      split
      case isTrue => simp [insert]
      case isFalse after =>
        rw [insert, if_neg apart, if_neg after, ih]

variable [BEq κ] [LawfulBEq κ]

@[simp] theorem lookup_insert_self : (insert key value entries).lookup key = some value := by
  induction entries with
  | nil => simp [insert]
  | cons entry rest ih =>
    rw [insert]
    split
    case isTrue => simp
    case isFalse apart =>
      split
      case isTrue => simp
      case isFalse =>
        have passed : (key == entry.1) = false := by simpa using apart
        rw [List.lookup_cons, passed]
        exact ih

theorem lookup_insert_of_ne (apart : other ≠ key) :
    (insert key value entries).lookup other = entries.lookup other := by
  have passed : (other == key) = false := by simpa using apart
  induction entries with
  | nil => simp [insert, List.lookup_cons, passed]
  | cons entry rest ih =>
    rw [insert]
    split
    case isTrue same => rw [List.lookup_cons, List.lookup_cons, ← same, passed]
    case isFalse =>
      split
      case isTrue => rw [List.lookup_cons, passed]
      case isFalse => rw [List.lookup_cons, List.lookup_cons, ih]

end Insert

variable [BEq κ] [LawfulBEq κ]

@[simp] theorem lookup_remove_self : (remove key entries).lookup key = none := by
  rw [List.lookup_eq_none_iff]
  intro entry member
  have kept : entry.1 ≠ key := by simpa using (List.mem_filter.mp member).2
  simpa using Ne.symm kept

theorem lookup_remove_of_ne (apart : other ≠ key) :
    (remove key entries).lookup other = entries.lookup other := by
  induction entries with
  | nil => rfl
  | cons entry rest ih =>
    by_cases gone : entry.1 = key
    · have passed : (other == entry.1) = false := by simpa [gone] using apart
      rw [remove, List.filter_cons_of_neg (by simp [gone]), List.lookup_cons, passed]
      exact ih
    · rw [remove, List.filter_cons_of_pos (by simp [gone]), List.lookup_cons, List.lookup_cons]
      split
      · rfl
      · exact ih

end Entries

variable [BEq κ] [LawfulBEq κ] {key : κ} {value : α} {entries : List (κ × α)}

theorem mem_of_lookup_eq_some (found : entries.lookup key = some value) :
    (key, value) ∈ entries := by
  obtain ⟨before, after, rfl, -⟩ := List.lookup_eq_some_iff.mp found
  simp

end Members
