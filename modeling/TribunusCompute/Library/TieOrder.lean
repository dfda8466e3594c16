import Mathlib.Data.List.Sort

/-!
# Ties in an order

An insertion sort leaves elements that the order ties in the order in which they stood.

Items are placed one behind the other in the order of a rank, and a tie may be broken either way.
Every item has the same place in all of these orders exactly when tied items are empty and would
start at one place.
-/
namespace StableSort

variable {α : Type*} (r t : α → α → Prop)

/-- `a` goes before `b`: by the order, or in a tie as `t` has it. -/
def Before (a b : α) : Prop := r a b ∧ (r b a → t a b)

variable {r t} [DecidableRel r]

theorem pairwise_orderedInsert [Std.Total r] [IsTrans α r] {a : α} {l : List α}
    (sorted : l.Pairwise (Before r t)) (first : ∀ b ∈ l, t a b) :
    (l.orderedInsert r a).Pairwise (Before r t) := by
  induction l with
  | nil => exact List.pairwise_singleton _ _
  | cons b l ih =>
    obtain ⟨before, sorted'⟩ := List.pairwise_cons.mp sorted
    rw [List.orderedInsert_cons]
    split
    next here =>
      refine List.pairwise_cons.mpr ⟨fun c member => ?_, sorted⟩
      rcases List.mem_cons.mp member with rfl | later
      · exact ⟨here, fun _ => first c member⟩
      · exact ⟨Trans.trans here (before c later).1, fun _ => first c member⟩
    next further =>
      have rest := ih sorted' fun c member => first c (List.mem_cons_of_mem b member)
      refine List.pairwise_cons.mpr ⟨fun c member => ?_, rest⟩
      rcases List.mem_orderedInsert r |>.mp member with rfl | later
      · exact ⟨(Std.Total.total c b).resolve_left further, fun back => absurd back further⟩
      · exact before c later

theorem pairwise_insertionSort [Std.Total r] [IsTrans α r] {l : List α} (stood : l.Pairwise t) :
    (l.insertionSort r).Pairwise (Before r t) := by
  induction l with
  | nil => exact .nil
  | cons a l ih =>
    obtain ⟨first, stood'⟩ := List.pairwise_cons.mp stood
    rw [List.insertionSort_cons]
    exact pairwise_orderedInsert (ih stood') fun b member =>
      first b ((List.mem_insertionSort r).mp member)

/-- The elements that satisfy a predicate stand as they stood, if the order ties them. -/
theorem filter_insertionSort (p : α → Bool) (l : List α)
    (ties : ∀ a ∈ l, ∀ b ∈ l, p a → p b → r a b) :
    (l.insertionSort r).filter p = l.filter p := by
  have tied : (l.filter p).Pairwise r := by
    refine List.pairwise_of_forall_mem_list fun a left b right => ?_
    rw [List.mem_filter] at left right
    exact ties a left.1 b right.1 left.2 right.2
  have kept : (l.filter p).Sublist ((l.insertionSort r).filter p) := by
    have whole := (List.sublist_insertionSort tied List.filter_sublist).filter p
    simpa only [List.filter_filter, Bool.and_self] using whole
  have same : ((l.insertionSort r).filter p).Perm (l.filter p) :=
    (List.perm_insertionSort r l).filter p
  exact (kept.eq_of_length same.length_eq.symm).symm

end StableSort

namespace TieOrder

/-- How items are placed from a running offset: the offset behind an item, and its report. -/
structure Placer (ι β : Type*) where
  turn : ℕ → ι → ℕ → β → Prop
  start : ℕ → ι → ℕ
  size : ι → ℕ
  offset : β → ℕ
  deterministic : ∀ {running item next next' report report'}, turn running item next report →
    turn running item next' report' → next = next' ∧ report = report'
  moves : ∀ {running item next report}, turn running item next report →
    next = start running item + size item ∧ offset report = start running item
  forward : ∀ {running item next report}, turn running item next report →
    running ≤ start running item
  swap : ∀ {running item other next last report report'}, turn running item next report →
    turn next other last report' → size item = 0 → size other = 0 →
      start running item = start running other →
        turn running other next report' ∧ turn next item last report

variable {ι β κ : Type*} (placer : Placer ι β)

/-- The items with their reports. -/
inductive Places : ℕ → List ι → List (ι × β) → Prop
  | nil {running : ℕ} : Places running [] []
  | cons {running next : ℕ} {item : ι} {report : β} {items : List ι} {reports : List (ι × β)}
      (first : placer.turn running item next report) (rest : Places next items reports) :
      Places running (item :: items) ((item, report) :: reports)

/-- Tied items are empty, and the first of them could start where any other could. -/
def Agree (rank : ι → κ) : ℕ → List ι → Prop
  | _, [] => True
  | running, item :: rest =>
    (∀ other ∈ rest, rank other = rank item → placer.size item = 0 ∧ placer.size other = 0 ∧
      placer.start running item = placer.start running other) ∧
      Agree rank (placer.start running item + placer.size item) rest

instance decidableAgree [DecidableEq κ] (rank : ι → κ) :
    ∀ running items, Decidable (Agree placer rank running items)
  | _, [] => inferInstanceAs (Decidable True)
  | running, item :: rest =>
    have := decidableAgree rank (placer.start running item + placer.size item) rest
    inferInstanceAs (Decidable ((∀ other ∈ rest, _ → _ ∧ _ ∧ _) ∧ Agree placer rank _ rest))

variable {placer} {running : ℕ} {items : List ι} {reports : List (ι × β)}

theorem Places.items_eq (places : Places placer running items reports) :
    reports.map Prod.fst = items := by
  induction places with
  | nil => rfl
  | cons _ _ ih => rw [List.map_cons, ih]

theorem Places.le_offset (places : Places placer running items reports) :
    ∀ entry ∈ reports, running ≤ placer.offset entry.2 := by
  induction places with
  | nil => simp
  | cons first _ ih =>
    have ahead := placer.forward first
    obtain ⟨stop, starts⟩ := placer.moves first
    rw [List.forall_mem_cons]
    refine ⟨starts ▸ ahead, fun entry member => ?_⟩
    have behind := ih entry member
    omega

variable {rank : ι → κ}

/-- An item that is tied with all items before it can be placed before them. -/
theorem Places.front {before after : List ι} {item : ι}
    (tied : ∀ other ∈ before, rank other = rank item)
    (places : Places placer running (before ++ item :: after) reports)
    (agree : Agree placer rank running (before ++ item :: after)) :
    ∃ reports', Places placer running (item :: (before ++ after)) reports' ∧
      reports'.Perm reports ∧ Agree placer rank running (item :: (before ++ after)) := by
  induction before generalizing running reports with
  | nil => exact ⟨reports, places, .refl _, agree⟩
  | cons head before ih =>
    obtain ⟨headTied, laterTied⟩ := List.forall_mem_cons.mp tied
    obtain ⟨same, agree⟩ := agree
    cases places with
    | cons first rest =>
      obtain ⟨stop, -⟩ := placer.moves first
      rw [← stop] at agree
      obtain ⟨moved, placed, perm, agree⟩ := ih laterTied rest agree
      obtain ⟨same', agree⟩ := agree
      cases placed with
      | cons second others =>
        -- the head and the item that is moved past it
        obtain ⟨empty, empty', starts⟩ := same item (by simp) headTied.symm
        obtain ⟨earlier, later⟩ := placer.swap first second empty empty' starts
        -- both items are empty, so that the running offset stays where they start
        obtain ⟨stop', -⟩ := placer.moves second
        obtain ⟨reached, -⟩ := placer.moves earlier
        obtain ⟨again, -⟩ := placer.moves later
        rw [← stop'] at agree
        refine ⟨_, .cons earlier (.cons later others), ?_, ?_, ?_, ?_⟩
        · exact (List.Perm.swap _ _ _).trans (perm.cons _)
        · rw [List.cons_append, List.forall_mem_cons]
          refine ⟨fun _ => ⟨empty', empty, starts.symm⟩, fun other member tie => ?_⟩
          obtain ⟨-, empty'', starts'⟩ := same other (by
            rcases List.mem_append.mp member with left | right
            · exact List.mem_append_left _ left
            · exact List.mem_append_right _ (List.mem_cons_of_mem _ right)) (tie.trans headTied.symm)
          exact ⟨empty', empty'', starts.symm.trans starts'⟩
        · rw [← reached]
          intro other member tie
          obtain ⟨-, empty'', starts'⟩ := same' other member (tie.trans headTied)
          exact ⟨empty, empty'', by omega⟩
        · rw [← reached, ← again]
          exact agree

variable [PartialOrder κ]

/-- Where tied items agree, every order of the rank gives every item the same report. -/
theorem Places.reorder {items' : List ι} (perm : items'.Perm items)
    (sorted : items.Pairwise fun a b => rank a ≤ rank b)
    (sorted' : items'.Pairwise fun a b => rank a ≤ rank b)
    (places : Places placer running items reports) (agree : Agree placer rank running items) :
    ∃ reports', Places placer running items' reports' ∧ reports'.Perm reports := by
  induction items' generalizing running items reports with
  | nil =>
    obtain rfl := perm.symm.eq_nil
    cases places
    exact ⟨[], .nil, .nil⟩
  | cons item rest ih =>
    obtain ⟨least, sortedRest⟩ := List.pairwise_cons.mp sorted'
    obtain ⟨before, after, rfl⟩ := List.append_of_mem (perm.subset List.mem_cons_self)
    have perm := (perm.trans List.perm_middle).cons_inv
    obtain ⟨-, -, below⟩ := List.pairwise_append.mp sorted
    -- what stands before the least item is tied with it
    have tied : ∀ other ∈ before, rank other = rank item := by
      intro other member
      apply le_antisymm
      · exact below other member item List.mem_cons_self
      · exact least other (perm.mem_iff.mpr (List.mem_append_left _ member))
    obtain ⟨moved, placed, same, -, agree⟩ := places.front tied agree
    cases placed with
    | cons first others =>
      rw [← (placer.moves first).1] at agree
      have shorter : (before ++ after).Sublist (before ++ item :: after) :=
        List.Sublist.append (.refl _) (List.sublist_cons_self _ _)
      obtain ⟨reports', places', perm'⟩ := ih perm (sorted.sublist shorter) sortedRest others agree
      exact ⟨_, .cons first places', (perm'.cons _).trans same⟩

/-- Where every order of the rank gives every item the same place, tied items agree. -/
theorem Places.agree (sorted : items.Pairwise fun a b => rank a ≤ rank b)
    (places : Places placer running items reports)
    (all : ∀ items' : List ι, items'.Perm items →
      (items'.Pairwise fun a b => rank a ≤ rank b) →
        ∃ reports', Places placer running items' reports' ∧ ∀ item report report',
          (item, report) ∈ reports → (item, report') ∈ reports' →
            placer.offset report' = placer.offset report) :
    Agree placer rank running items := by
  induction places with
  | nil => trivial
  | @cons running next item report rest reports first others ih =>
    obtain ⟨least, sortedRest⟩ := List.pairwise_cons.mp sorted
    obtain ⟨stop, starts⟩ := placer.moves first
    constructor
    · intro other member tie
      obtain ⟨before, after, rfl⟩ := List.append_of_mem member
      -- the tied item in front
      have perm : (other :: item :: (before ++ after)).Perm (item :: (before ++ other :: after)) :=
        (List.Perm.swap _ _ _).trans (List.perm_middle.symm.cons _)
      have ordered : (other :: item :: (before ++ after)).Pairwise fun a b => rank a ≤ rank b := by
        have shorter : (item :: (before ++ after)).Sublist (item :: (before ++ other :: after)) :=
          (List.Sublist.append (.refl _) (List.sublist_cons_self _ _)).cons_cons _
        refine List.pairwise_cons.mpr ⟨fun third member => ?_, sorted.sublist shorter⟩
        rw [tie]
        rcases List.mem_cons.mp member with rfl | later
        · exact le_refl _
        · apply least third
          rcases List.mem_append.mp later with left | right
          · exact List.mem_append_left _ left
          · exact List.mem_append_right _ (List.mem_cons_of_mem _ right)
      obtain ⟨reports', places', same⟩ := all _ perm ordered
      obtain ⟨report'', there⟩ : ∃ report'', (other, report'') ∈ reports := by
        rw [← others.items_eq] at member
        obtain ⟨⟨_, report''⟩, there, rfl⟩ := List.mem_map.mp member
        exact ⟨report'', there⟩
      have behind : next ≤ placer.offset report'' := others.le_offset _ there
      cases places' with
      | cons ahead rest' =>
        cases rest' with
        | cons second _ =>
          -- either item starts at the running offset in one order, and so in the other
          have mine := same _ _ _ (List.mem_cons_of_mem _ there) List.mem_cons_self
          have its := same _ _ _ List.mem_cons_self (List.mem_cons_of_mem _ List.mem_cons_self)
          obtain ⟨stop', starts'⟩ := placer.moves ahead
          obtain ⟨-, starts''⟩ := placer.moves second
          have moved := placer.forward second
          refine ⟨?_, ?_, ?_⟩ <;> omega
    · rw [← stop]
      apply ih sortedRest
      intro rest' perm ordered
      have longer : (item :: rest').Pairwise fun a b => rank a ≤ rank b :=
        List.pairwise_cons.mpr ⟨fun other member => least other (perm.subset member), ordered⟩
      obtain ⟨reports', places', same⟩ := all _ (perm.cons _) longer
      cases places' with
      | cons first' others' =>
        obtain ⟨rfl, -⟩ := placer.deterministic first first'
        refine ⟨_, others', fun item report report' there there' => ?_⟩
        exact same _ _ _ (List.mem_cons_of_mem _ there) (List.mem_cons_of_mem _ there')

end TieOrder
