import TribunusCompute.ComputeImage.Patch

/-!
# What a rollback restores

A backup can have a backup of its own, so in some orders a rollback carries one file's contents
through several others. A file is safe from every order when all the files that lead to it hold
what it holds.
-/
namespace TribunusCompute.ComputeImage

open Outcome

/-! ## Files by name -/

section Files

variable {files : ImageFiles} {path : FileName} {name : String} {bytes : List UInt8}

theorem fileName?_eq_some : fileName? name = some path ↔ path.val = name := by
  unfold fileName?
  split
  next plain =>
    rw [Option.some.injEq, Subtype.ext_iff]
    exact eq_comm
  next other =>
    constructor
    · nofun
    · rintro rfl
      exact absurd path.2 other

theorem ImageFiles.locate_eq_some :
    files.locate name = some (path, bytes) ↔ path.val = name ∧ files.lookup path = some bytes := by
  unfold ImageFiles.locate
  simp only [Option.bind_eq_some_iff, fileName?_eq_some, Option.map_eq_some_iff, Prod.mk.injEq]
  constructor
  · rintro ⟨found, rfl, _, there, rfl, rfl⟩
    exact ⟨rfl, there⟩
  · rintro ⟨rfl, there⟩
    exact ⟨path, rfl, bytes, there, rfl, rfl⟩

theorem ImageFiles.mem_of_lookup (held : files.lookup path = some bytes) : path ∈ files := by
  rw [← AList.lookup_isSome, held]
  rfl

theorem ImageFiles.existing_eq_some : files.existing name = some path ↔
    path.val = name ∧ path ∈ files := by
  unfold ImageFiles.existing
  rw [Option.map_eq_some_iff, ← AList.lookup_isSome, Option.isSome_iff_exists]
  constructor
  · rintro ⟨⟨found, bytes⟩, there, rfl⟩
    obtain ⟨named, held⟩ := locate_eq_some.mp there
    exact ⟨named, bytes, held⟩
  · rintro ⟨named, bytes, held⟩
    exact ⟨(path, bytes), locate_eq_some.mpr ⟨named, held⟩, rfl⟩

theorem ImageFiles.read_ok_iff :
    files.read name = .ok bytes ↔ ∃ path, files.locate name = some (path, bytes) := by
  unfold ImageFiles.read
  split
  next found held there => simp [there]
  next missing => simp [missing]

theorem ImageFiles.read_eq_ok : files.read path.val = .ok bytes ↔
    files.lookup path = some bytes := by
  rw [read_ok_iff]
  constructor
  · rintro ⟨found, located⟩
    obtain ⟨named, held⟩ := locate_eq_some.mp located
    obtain rfl := Subtype.ext named
    exact held
  · intro held
    exact ⟨path, locate_eq_some.mpr ⟨rfl, held⟩⟩

theorem ImageFiles.read_congr {files' : ImageFiles}
    (same : ∀ path : FileName, path.val = name → files'.lookup path = files.lookup path) :
    files'.read name = files.read name := by
  unfold ImageFiles.read ImageFiles.locate
  cases found : fileName? name with
  | none => rfl
  | some path =>
    have held := same path (fileName?_eq_some.mp found)
    simp only [Option.bind_some, held]

end Files

namespace SegmentPatch

theorem backupStem_eq_some {name stem : String} :
    backupStem name = some stem ↔ stem ≠ "" ∧ name = stem ++ backupExtension := by
  constructor
  · intro found
    unfold backupStem at found
    split at found
    next last rest reversed =>
      obtain rfl := Option.some.inj found
      have letters : name.toList = (last :: rest).reverse ++ backupExtension.toList := by
        rw [← List.reverse_reverse name.toList, reversed]
        simp [backupExtension]
      constructor
      · intro empty
        simpa using congrArg String.toList empty
      · rw [← String.toList_inj, String.toList_append, String.toList_ofList, letters]
    next => cases found
  · rintro ⟨nonempty, rfl⟩
    unfold backupStem
    rw [String.toList_append, List.reverse_append]
    cases reversed : stem.toList.reverse with
    | nil => exact absurd (String.toList_eq_nil_iff.mp (List.reverse_eq_nil_iff.mp reversed)) nonempty
    | cons last rest =>
      change some (String.ofList (last :: rest).reverse) = some stem
      rw [← reversed, List.reverse_reverse, String.ofList_toList]

theorem backupStem_backupPathFor {path : FileName} :
    backupStem (backupPathFor path).val = some path.val :=
  backupStem_eq_some.mpr ⟨path.2.1, rfl⟩

theorem backupStem_bin {name : String} : backupStem (name ++ ".bin") = none := by
  cases found : backupStem (name ++ ".bin") with
  | none => rfl
  | some stem =>
    have same := congrArg (fun text => text.toList.reverse) (backupStem_eq_some.mp found).2
    simp [backupExtension] at same

/-! ## Where backups go -/

def restoredTo (files : ImageFiles) (path : FileName) : Option FileName :=
  match backupStem path.val with
  | none => none
  | some name => (files.existing (name ++ ".bin")).or (files.existing name)

def RestoredTo (files : ImageFiles) (backup target : FileName) : Prop :=
  backup ∈ files ∧ restoredTo files backup = some target

/-- The files to be kept are no backups of others, and every backup that leads to one of them
holds what it holds. -/
structure BackupsCurrent (isKept : FileName → Prop) (files : ImageFiles) : Prop where
  stays : ∀ path, isKept path → restoredTo files path = none
  current : ∀ backup path, isKept path →
    Relation.ReflTransGen (RestoredTo files) backup path → files.lookup backup = files.lookup path
  ontoFiles : ∀ backup ∈ files, ∀ name, backupStem backup.val = some name →
    name = "." ∨ name = ".." → ∃ original, files.existing (name ++ ".bin") = some original

/-- Without backups of backups it is enough that each backup holds what its file holds. -/
theorem backupsCurrent_of_direct {isKept : FileName → Prop} {files : ImageFiles}
    (stays : ∀ path, isKept path → restoredTo files path = none)
    (copies : ∀ backup target, RestoredTo files backup target →
      files.lookup backup = files.lookup target)
    (ontoFiles : ∀ backup ∈ files, ∀ name, backupStem backup.val = some name →
      name = "." ∨ name = ".." → ∃ original, files.existing (name ++ ".bin") = some original) :
    BackupsCurrent isKept files := by
  refine ⟨stays, fun backup path _ leads => ?_, ontoFiles⟩
  induction leads using Relation.ReflTransGen.head_induction_on with
  | refl => rfl
  | head first _ ih => exact (copies _ _ first).trans ih

section Congr

variable {files files' : ImageFiles}

theorem existing_congr (same : ∀ path, files'.lookup path = files.lookup path) (name : String) :
    files'.existing name = files.existing name := by
  simp only [ImageFiles.existing, ImageFiles.locate, same]

theorem restoredTo_congr (same : ∀ path, files'.lookup path = files.lookup path)
    (path : FileName) : restoredTo files' path = restoredTo files path := by
  simp only [restoredTo, existing_congr same]

theorem mem_congr (same : ∀ path, files'.lookup path = files.lookup path) (path : FileName) :
    path ∈ files' ↔ path ∈ files := by
  rw [← AList.lookup_isSome, ← AList.lookup_isSome, same]

/-- Only what the files hold matters, not the order they were written in. -/
theorem BackupsCurrent.congr {isKept : FileName → Prop} (backups : BackupsCurrent isKept files)
    (same : ∀ path, files'.lookup path = files.lookup path) : BackupsCurrent isKept files' := by
  have leads : RestoredTo files' = RestoredTo files := by
    funext backup target
    simp only [RestoredTo, mem_congr same, restoredTo_congr same]
  constructor
  · intro path kept
    rw [restoredTo_congr same]
    exact backups.stays path kept
  · intro backup path kept there
    rw [leads] at there
    rw [same, same]
    exact backups.current backup path kept there
  · intro backup member name stem directory
    rw [existing_congr same]
    exact backups.ontoFiles backup ((mem_congr same backup).mp member) name stem directory

end Congr

/-! ## Rolling back -/

section Rollback

variable {display : String → String} {isKept : FileName → Prop} {files files' : ImageFiles}

/-- Part of the way through a rollback: only backups that go somewhere were removed, and every
file that leads to a kept one still holds what that holds. -/
structure Restoring (isKept : FileName → Prop) (files : ImageFiles) (state : ImageFiles × Bool) :
    Prop where
  within : ∀ path, path ∈ state.1 → path ∈ files
  remains : ∀ path ∈ files, restoredTo files path = none → path ∈ state.1
  same : ∀ backup path, isKept path → backup ∈ state.1 →
    Relation.ReflTransGen (RestoredTo files) backup path →
      state.1.lookup backup = files.lookup path
  untouched : state.2 = false → state.1 = files

theorem Restoring.start (backups : BackupsCurrent isKept files) :
    Restoring isKept files (files, false) where
  within _ member := member
  remains _ member _ := member
  same backup path kept _ leads := backups.current backup path kept leads
  untouched _ := rfl

theorem restoredTo_eq_some {path target : FileName} : restoredTo files path = some target ↔
    ∃ name, backupStem path.val = some name ∧
      (files.existing (name ++ ".bin") = some target ∨
        files.existing (name ++ ".bin") = none ∧ files.existing name = some target) := by
  unfold restoredTo
  cases stem : backupStem path.val with
  | none => simp
  | some name => simp [Option.or_eq_some_iff]

theorem restoredTo_eq_none {path : FileName} : restoredTo files path = none ↔
    ∀ name, backupStem path.val = some name →
      files.existing (name ++ ".bin") = none ∧ files.existing name = none := by
  unfold restoredTo
  cases stem : backupStem path.val with
  | none => simp
  | some name => simp [Option.or_eq_none_iff]

theorem restoredTo_bin {path : FileName} {name : String}
    (there : files'.existing (name ++ ".bin") = some path) : restoredTo files path = none := by
  refine restoredTo_eq_none.mpr fun stem found => ?_
  rw [(ImageFiles.existing_eq_some.mp there).1, backupStem_bin] at found
  cases found

/-- A backup still goes where it went before the rollback, or nowhere. -/
theorem Restoring.target {state : ImageFiles × Bool} (restoring : Restoring isKept files state)
    {path target : FileName} (goes : restoredTo state.1 path = some target) :
    restoredTo files path = some target := by
  have kept : ∀ {name path}, state.1.existing name = some path →
      files.existing name = some path := by
    intro name path there
    obtain ⟨named, member⟩ := ImageFiles.existing_eq_some.mp there
    exact ImageFiles.existing_eq_some.mpr ⟨named, restoring.within _ member⟩
  obtain ⟨name, stem, first | ⟨none, second⟩⟩ := restoredTo_eq_some.mp goes
  · exact restoredTo_eq_some.mpr ⟨name, stem, .inl (kept first)⟩
  · refine restoredTo_eq_some.mpr ⟨name, stem, .inr ⟨?_, kept second⟩⟩
    -- The preferred file would be no backup, so it would still be there.
    rw [Option.eq_none_iff_forall_ne_some]
    intro preferred there
    obtain ⟨named, inside⟩ := ImageFiles.existing_eq_some.mp there
    have still := restoring.remains preferred inside (restoredTo_bin there)
    rw [ImageFiles.existing_eq_some.mpr ⟨named, still⟩] at none
    cases none

theorem restoreEntry_of_target {state : ImageFiles × Bool} {path target : FileName}
    (goes : restoredTo state.1 path = some target) :
    restoreEntry display state path = restore display state.1 path target := by
  unfold restoreEntry
  obtain ⟨name, stem, first | ⟨none, second⟩⟩ := restoredTo_eq_some.mp goes
  · simp only [stem, first]
  · have plain : ¬(name = "." ∨ name = "..") := by
      have named := (ImageFiles.existing_eq_some.mp second).1
      rintro (rfl | rfl)
      · exact target.2.2.1 named
      · exact target.2.2.2.1 named
    simp only [stem, none, second, if_neg plain]

theorem restoreEntry_of_none {state : ImageFiles × Bool} {path : FileName}
    (stays : restoredTo state.1 path = none)
    (ontoFiles : ∀ name, backupStem path.val = some name → name = "." ∨ name = ".." →
      ∃ original, state.1.existing (name ++ ".bin") = some original) :
    restoreEntry display state path = .ok state := by
  unfold restoreEntry
  cases stem : backupStem path.val with
  | none => rfl
  | some name =>
    obtain ⟨first, second⟩ := restoredTo_eq_none.mp stays name stem
    have plain : ¬(name = "." ∨ name = "..") := by
      intro directory
      obtain ⟨original, there⟩ := ontoFiles name stem directory
      rw [first] at there
      cases there
    simp only [first, second, if_neg plain]

theorem restore_ok (display : String → String) {files : ImageFiles} {path : FileName}
    (target : FileName) (member : path ∈ files) :
    ∃ bytes, files.lookup path = some bytes ∧
      restore display files path target = .ok ((files.insert target bytes).erase path, true) := by
  obtain ⟨bytes, held⟩ := Option.isSome_iff_exists.mp (AList.lookup_isSome.mpr member)
  refine ⟨bytes, held, ?_⟩
  unfold restore
  rw [held]
  rfl

theorem restoredTo_mem {path target : FileName} (goes : restoredTo files path = some target) :
    target ∈ files := by
  obtain ⟨name, stem, first | ⟨-, second⟩⟩ := restoredTo_eq_some.mp goes
  · exact (ImageFiles.existing_eq_some.mp first).2
  · exact (ImageFiles.existing_eq_some.mp second).2

theorem Restoring.turn (display : String → String) (backups : BackupsCurrent isKept files)
    {state : ImageFiles × Bool} (restoring : Restoring isKept files state) {path : FileName} (member : path ∈ state.1) :
    ∃ state', restoreEntry display state path = .ok state' ∧ Restoring isKept files state' ∧
      (∀ other, other ≠ path → other ∈ state.1 → other ∈ state'.1) ∧
      (state'.2 = true ∨ state' = state ∧ restoredTo state.1 path = none) := by
  cases goes : restoredTo state.1 path with
  | none =>
    -- no backup, or one of no image file: the entry stays
    refine ⟨state, restoreEntry_of_none goes ?_, restoring, fun _ _ there => there,
      .inr ⟨rfl, rfl⟩⟩
    intro name stem directory
    have before := restoring.within path member
    obtain ⟨original, there⟩ := backups.ontoFiles path before name stem directory
    obtain ⟨named, inside⟩ := ImageFiles.existing_eq_some.mp there
    refine ⟨original, ImageFiles.existing_eq_some.mpr ⟨named, ?_⟩⟩
    apply restoring.remains original inside
    rw [restoredTo, named, backupStem_bin]
  | some target =>
    obtain ⟨bytes, held, restored⟩ := restore_ok display target member
    have went := restoring.target goes
    refine ⟨_, (restoreEntry_of_target goes).trans restored, ?_, ?_, .inl rfl⟩
    · constructor
      · intro other there
        rcases (AList.mem_insert _).mp (AList.mem_erase.mp there).2 with rfl | inside
        · exact restoring.within _ (restoredTo_mem goes)
        · exact restoring.within other inside
      · intro other inside stays
        have apart : other ≠ path := by
          rintro rfl
          rw [went] at stays
          cases stays
        have still := restoring.remains other inside stays
        exact AList.mem_erase.mpr ⟨apart, (AList.mem_insert _).mpr (.inr still)⟩
      · intro backup kept keeps there leads
        obtain ⟨apart, inside⟩ := AList.mem_erase.mp there
        rw [AList.lookup_erase_ne apart]
        by_cases same : backup = target
        · -- What was copied led to the kept file one step earlier.
          subst same
          rw [AList.lookup_insert, ← held]
          have step : RestoredTo files path backup := ⟨restoring.within path member, went⟩
          exact restoring.same path kept keeps member (leads.head step)
        · rw [AList.lookup_insert_ne same]
          have older := (AList.mem_insert _).mp inside |>.resolve_left same
          exact restoring.same backup kept keeps older leads
      · nofun
    · intro other apart there
      exact AList.mem_erase.mpr ⟨apart, (AList.mem_insert _).mpr (.inr there)⟩

/-- The entries one after another. Once one was restored, or one that goes somewhere is still to
come, the rollback finds a backup. -/
theorem Restoring.turns (display : String → String) (backups : BackupsCurrent isKept files)
    {entries : List FileName} (once : entries.Nodup) {state : ImageFiles × Bool}
    (restoring : Restoring isKept files state) (there : ∀ path ∈ entries, path ∈ state.1) :
    ∃ state', entries.foldlM (restoreEntry display) state = .ok state' ∧
      Restoring isKept files state' ∧
      ((state.2 = true ∨ ∃ path ∈ entries, restoredTo files path ≠ none) → state'.2 = true) := by
  induction entries generalizing state with
  | nil => exact ⟨state, rfl, restoring, by simp⟩
  | cons path entries ih =>
    obtain ⟨new, once⟩ := List.nodup_cons.mp once
    obtain ⟨middle, turn, kept, others, found⟩ :=
      restoring.turn display backups (there path List.mem_cons_self)
    have left : ∀ other ∈ entries, other ∈ middle.1 := by
      intro other member
      apply others other
      · rintro rfl
        exact new member
      · exact there other (List.mem_cons_of_mem _ member)
    obtain ⟨state', later, done, restored⟩ := ih once kept left
    refine ⟨state', foldlM_cons_ok_iff.mpr ⟨middle, turn, later⟩, done, fun some => ?_⟩
    apply restored
    rcases found with yes | ⟨rfl, stays⟩
    · exact .inl yes
    · rcases some with yes | ⟨other, member, goes⟩
      · exact .inl yes
      · rcases List.mem_cons.mp member with rfl | member
        · -- Nothing was restored from this entry, so it is not the first.
          cases flag : middle.2 with
          | true => exact .inl rfl
          | false => exact absurd (kept.untouched flag ▸ stays) goes
        · exact .inr ⟨other, member, goes⟩

/-- A rollback of current backups succeeds in every order, and leaves every kept file as it
was. -/
theorem rollback_keeps (display : String → String) (backups : BackupsCurrent isKept files)
    (some : ∃ path ∈ files, restoredTo files path ≠ none) {order : List FileName}
    (listed : order.Perm files.keys) :
    ∃ restored, rollback display order files = .ok restored ∧
      ∀ path, isKept path → restored.lookup path = files.lookup path := by
  have members : ∀ path, path ∈ order ↔ path ∈ files := fun path => listed.mem_iff
  obtain ⟨⟨restored, flag⟩, ran, restoring, found⟩ :=
    (Restoring.start backups).turns display backups
      (listed.nodup_iff.mpr files.keys_nodup) fun path member => (members path).mp member
  obtain ⟨path, inside, goes⟩ := some
  have any : flag = true := found (.inr ⟨path, (members path).mpr inside, goes⟩)
  refine ⟨restored, ?_, fun path kept => ?_⟩
  · unfold rollback
    refine bind_ok_iff.mpr ⟨_, ran, bind_ok_iff.mpr ⟨(), require_ok_iff.mpr any, rfl⟩⟩
  · by_cases held : path ∈ restored
    · exact restoring.same path path kept held .refl
    · have before : path ∉ files := fun inside =>
        held (restoring.remains path inside (backups.stays path kept))
      rw [AList.lookup_eq_none.mpr held, AList.lookup_eq_none.mpr before]

end Rollback

end SegmentPatch

end TribunusCompute.ComputeImage
