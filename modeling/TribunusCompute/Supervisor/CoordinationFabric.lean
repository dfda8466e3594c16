import Mathlib.Data.Finset.Insert
import TribunusCompute.Library.Failures
import TribunusCompute.Library.Keyed

/-!
# The coordination of work items

`runtime_orchestration.rs`: work is admitted, claimed, opened, executed, receipted and
acknowledged, in an order that only some of the calls check. A call that fails changes nothing.
-/
namespace TribunusCompute.Supervisor

inductive AuthorityMode
  | authority
  | provisional
  | fallback
  | research
  deriving DecidableEq, Repr

inductive CopyPolicy
  | zeroCopy
  | metadataOnlyView
  | layoutReinterpret
  | layoutTransformCopy
  | hostMaterializationCopy
  | frameworkForcedCopy
  deriving DecidableEq, Repr

inductive CommitPolicy
  | directWriteback
  | ringBufferWritebackCopy
  | receiptOnly
  | researchOnly
  deriving DecidableEq, Repr

structure RuntimeWorkItem where
  workId : String
  runId : String
  phaseId : String
  canonicalPhase : Option String
  authorityMode : AuthorityMode
  expectedReceipts : List String
  receiptBeforeAck : Bool
  deriving DecidableEq, Repr

structure PhaseScope where
  phaseScopeId : String
  runId : String
  phaseId : String
  copyPolicy : CopyPolicy
  commitPolicy : CommitPolicy
  requiredReceipts : List String
  authorityMode : AuthorityMode
  goldenPathId : Option String
  deriving DecidableEq, Repr

inductive CoordinationState
  | admitted
  | claimed
  | phaseOpened
  | backendProvisional
  | receiptCommitted
  | ackEligible
  | acked
  | reclaimCandidate
  | deadLetter
  deriving DecidableEq, Repr

structure RuntimeReceipt where
  workId : String
  phaseScopeId : String
  durable : Bool
  backendExecuted : Bool
  deriving DecidableEq, Repr

structure RuntimeOrchestrationRecord where
  workItem : RuntimeWorkItem
  phaseScope : Option PhaseScope
  state : CoordinationState
  receipt : Option RuntimeReceipt
  deriving DecidableEq, Repr

def RuntimeWorkItem.receiptBeforeAckGuard (item : RuntimeWorkItem) : Except String Unit :=
  if item.receiptBeforeAck then .ok ()
  else .error "receipt_before_ack must be true for authoritative runtime work"

def PhaseScope.authorityGuard (scope : PhaseScope) : Except String Unit :=
  if scope.authorityMode = .authority ∧ scope.goldenPathId = none then
    .error "authority MLX phase scopes require golden_path_id"
  else if scope.copyPolicy = .frameworkForcedCopy ∧ scope.authorityMode = .authority then
    .error "unknown or forced copies are not authority-eligible"
  else if scope.commitPolicy = .receiptOnly ∧ scope.authorityMode = .authority then
    .error "authority phase scopes require a real commit policy"
  else .ok ()

def openPhaseScope (item : RuntimeWorkItem) : PhaseScope where
  phaseScopeId := "scope:" ++ item.workId
  runId := item.runId
  phaseId := item.phaseId
  copyPolicy := .metadataOnlyView
  commitPolicy := .directWriteback
  requiredReceipts := item.expectedReceipts
  authorityMode := item.authorityMode
  goldenPathId := item.canonicalPhase

def receiptFor (item : RuntimeWorkItem) (scope : PhaseScope) : RuntimeReceipt where
  workId := item.workId
  phaseScopeId := scope.phaseScopeId
  durable := true
  backendExecuted := true

structure InMemoryCoordinationFabric where
  records : AList fun _ : String => RuntimeOrchestrationRecord
  heartbeats : Finset String

namespace InMemoryCoordinationFabric

/-- `InMemoryCoordinationFabric::default`. -/
def empty : InMemoryCoordinationFabric := ⟨∅, ∅⟩

inductive Call
  | admitSync (item : RuntimeWorkItem)
  | claim (workId : String)
  | heartbeat (workId : String)
  | openPhase (workId : String)
  | executeBackend (workId : String)
  | commitReceipt (workId : String)
  | markAckEligible (workId : String)
  | ack (workId : String)
  | deadLetter (workId : String)
  deriving DecidableEq, Repr

def admitSync (s : InMemoryCoordinationFabric) (item : RuntimeWorkItem) :
    Except String InMemoryCoordinationFabric := do
  item.receiptBeforeAckGuard
  (openPhaseScope item).authorityGuard
  let record : RuntimeOrchestrationRecord := ⟨item, some (openPhaseScope item), .admitted, none⟩
  return { s with records := s.records.insert item.workId record }

abbrev Change := RuntimeOrchestrationRecord → Except String RuntimeOrchestrationRecord

/-- `records.get_mut`, and what is done with the record. -/
def update (s : InMemoryCoordinationFabric) (workId : String) (change : Change) :
    Except String InMemoryCoordinationFabric :=
  match s.records.lookup workId with
  | none => .error "work item not admitted"
  | some record => do
    let record ← change record
    return { s with records := s.records.insert workId record }

def heartbeat (s : InMemoryCoordinationFabric) (workId : String) :
    Except String InMemoryCoordinationFabric :=
  if workId ∈ s.records then .ok { s with heartbeats := insert workId s.heartbeats }
  else .error "work item not admitted"

/-- Most calls check something of the record and set its state. -/
def advance (allowed : RuntimeOrchestrationRecord → Bool) (reason : String)
    (state : CoordinationState) : Change :=
  fun record => if allowed record then .ok { record with state } else .error reason

def claim : Change :=
  advance (·.state ≠ .deadLetter) "dead-lettered work cannot be claimed" .claimed

def openPhase : Change :=
  advance (·.phaseScope.isSome) "phase scope missing" .phaseOpened

def executeBackend : Change :=
  advance (fun record => record.state = .claimed ∨ record.state = .phaseOpened)
    "backend execution requires a claimed or opened phase" .backendProvisional

/-- Whatever the state is, and whether or not a backend was executed. -/
def commitReceipt (record : RuntimeOrchestrationRecord) :
    Except String RuntimeOrchestrationRecord :=
  match record.phaseScope with
  | none => .error "phase scope missing"
  | some scope =>
    .ok
      { record with
        receipt := some (receiptFor record.workItem scope)
        state := .receiptCommitted }

def markAckEligible : Change :=
  advance (·.receipt.isSome) "ack eligibility requires a durable receipt" .ackEligible

def ack : Change :=
  advance (fun record => record.state = .receiptCommitted ∨ record.state = .ackEligible)
    "receipt must be committed before ack is eligible" .acked

def deadLetter : Change :=
  advance (fun _ => true) "" .deadLetter

def call (s : InMemoryCoordinationFabric) : Call → Except String InMemoryCoordinationFabric
  | .admitSync item => s.admitSync item
  | .claim workId => s.update workId claim
  | .heartbeat workId => s.heartbeat workId
  | .openPhase workId => s.update workId openPhase
  | .executeBackend workId => s.update workId executeBackend
  | .commitReceipt workId => s.update workId commitReceipt
  | .markAckEligible workId => s.update workId markAckEligible
  | .ack workId => s.update workId ack
  | .deadLetter workId => s.update workId deadLetter

def reclaimCandidates (s : InMemoryCoordinationFabric) : List String :=
  (s.records.entries.filter fun entry =>
    entry.1 ∉ s.heartbeats ∧ entry.2.state ≠ .acked ∧ entry.2.state ≠ .deadLetter).map (·.1)

/-- The fabric after some calls, with those that succeeded, the last one first. -/
def run : List Call → List Call × InMemoryCoordinationFabric →
    List Call × InMemoryCoordinationFabric
  | [], (log, s) => (log, s)
  | c :: calls, (log, s) =>
    match s.call c with
    | .error _ => run calls (log, s)
    | .ok t => run calls (c :: log, t)

/-! ## What the calls that succeeded say -/

namespace Call

def workId : Call → String
  | .admitSync item => item.workId
  | .claim workId | .heartbeat workId | .openPhase workId | .executeBackend workId
  | .commitReceipt workId | .markAckEligible workId | .ack workId | .deadLetter workId => workId

def target : Call → Option CoordinationState
  | .admitSync _ => some .admitted
  | .claim _ => some .claimed
  | .heartbeat _ => none
  | .openPhase _ => some .phaseOpened
  | .executeBackend _ => some .backendProvisional
  | .commitReceipt _ => some .receiptCommitted
  | .markAckEligible _ => some .ackEligible
  | .ack _ => some .acked
  | .deadLetter _ => some .deadLetter

end Call

def stateOf (workId : String) : List Call → Option CoordinationState
  | [] => none
  | c :: log => if c.workId = workId then c.target.or (stateOf workId log) else stateOf workId log

def Receipted (workId : String) : List Call → Prop
  | [] => False
  | c :: log => c = .commitReceipt workId ∨
      (∀ item, c = .admitSync item → item.workId ≠ workId) ∧ Receipted workId log

def AcksReceipted : List Call → Prop
  | [] => True
  | c :: log => (∀ workId, c = .ack workId → Receipted workId log) ∧ AcksReceipted log

/-! ## One call -/

variable {s t : InMemoryCoordinationFabric} {c : Call} {log : List Call} {workId : String}
  {record : RuntimeOrchestrationRecord}

inductive Does (s : InMemoryCoordinationFabric) : Call → InMemoryCoordinationFabric → Prop
  | beats (workId : String) :
      Does s (.heartbeat workId) { s with heartbeats := insert workId s.heartbeats }
  | admits (item : RuntimeWorkItem) : Does s (.admitSync item)
      { s with
        records := s.records.insert item.workId
          ⟨item, some (openPhaseScope item), .admitted, none⟩ }
  | commits (workId : String) (record : RuntimeOrchestrationRecord) (scope : PhaseScope)
      (there : s.records.lookup workId = some record) : Does s (.commitReceipt workId)
      { s with
        records := s.records.insert workId
          { record with
            receipt := some (receiptFor record.workItem scope)
            state := .receiptCommitted } }
  | advances (c : Call) (record : RuntimeOrchestrationRecord) (state : CoordinationState)
      (there : s.records.lookup c.workId = some record) (target : c.target = some state)
      (other : (∀ item, c ≠ .admitSync item) ∧ ∀ workId, c ≠ .commitReceipt workId)
      (eligible : state = .ackEligible → record.receipt.isSome)
      (acks : state = .acked → record.state = .receiptCommitted ∨ record.state = .ackEligible)
      (uncommitted : state ≠ .receiptCommitted) :
      Does s c { s with records := s.records.insert c.workId { record with state } }

theorem update_ok {change : Change} (done : s.update workId change = .ok t) : ∃ record record',
      s.records.lookup workId = some record ∧ change record = .ok record' ∧
        t = { s with records := s.records.insert workId record' } := by
  unfold update at done
  split at done
  next => cases done
  next record there =>
    obtain ⟨record', changed, rest⟩ := Failures.bind_ok done
    cases rest
    exact ⟨record, record', there, changed, rfl⟩

theorem advance_ok {allowed : RuntimeOrchestrationRecord → Bool} {reason : String}
    {state : CoordinationState} (done : s.update workId (advance allowed reason state) = .ok t) :
    ∃ record, s.records.lookup workId = some record ∧ allowed record = true ∧
      t = { s with records := s.records.insert workId { record with state } } := by
  obtain ⟨record, record', there, changed, rfl⟩ := update_ok done
  unfold advance at changed
  split at changed
  next allows =>
    cases changed
    exact ⟨record, there, allows, rfl⟩
  next => cases changed

theorem does_of_call (done : s.call c = .ok t) : Does s c t := by
  cases c with
  | admitSync item =>
    obtain ⟨_, -, rest⟩ := Failures.bind_ok done
    obtain ⟨_, -, rest⟩ := Failures.bind_ok rest
    cases rest
    exact .admits item
  | heartbeat workId =>
    simp only [call, heartbeat] at done
    split at done <;> cases done
    exact .beats workId
  | commitReceipt workId =>
    obtain ⟨record, record', there, changed, rfl⟩ := update_ok done
    unfold commitReceipt at changed
    split at changed <;> cases changed
    next scope _ => exact .commits workId record scope there
  | claim workId | openPhase workId | executeBackend workId | deadLetter workId =>
    obtain ⟨record, there, -, rfl⟩ := advance_ok done
    exact .advances _ record _ there rfl (by simp) (by simp) (by simp) (by simp)
  | markAckEligible workId =>
    obtain ⟨record, there, receipted, rfl⟩ := advance_ok done
    exact .advances (.markAckEligible workId) record _ there rfl (by simp) (fun _ => receipted)
      (by simp) (by simp)
  | ack workId =>
    obtain ⟨record, there, receipted, rfl⟩ := advance_ok done
    exact .advances (.ack workId) record _ there rfl (by simp) (by simp)
      (fun _ => by simpa using receipted) (by simp)

/-! ## Every order of calls -/

/-- The record of a work item, after the calls of the log. -/
structure RecordLaw (log : List Call) (workId : String) (record : RuntimeOrchestrationRecord) :
    Prop where
  owner : record.workItem.workId = workId
  state : stateOf workId log = some record.state
  receipted : record.receipt.isSome ↔ Receipted workId log
  genuine : ∀ receipt, record.receipt = some receipt →
    receipt.durable = true ∧ receipt.workId = workId
  settled : record.state = .receiptCommitted ∨ record.state = .ackEligible ∨
    record.state = .acked → record.receipt.isSome

structure Law (log : List Call) (s : InMemoryCoordinationFabric) : Prop where
  records : ∀ workId record, s.records.lookup workId = some record → RecordLaw log workId record
  absent : ∀ workId, s.records.lookup workId = none → stateOf workId log = none
  heartbeats : ∀ workId, workId ∈ s.heartbeats ↔ .heartbeat workId ∈ log
  acks : AcksReceipted log

theorem RecordLaw.frame (law : RecordLaw log workId record) (apart : c.workId ≠ workId) :
    RecordLaw (c :: log) workId record := by
  refine ⟨law.owner, by rw [stateOf, if_neg apart, law.state], ?_, law.genuine, law.settled⟩
  rw [law.receipted, Receipted]
  constructor
  · refine fun earlier => .inr ⟨fun item same => ?_, earlier⟩
    rwa [same] at apart
  · rintro (rfl | ⟨-, earlier⟩)
    · exact absurd rfl apart
    · exact earlier

/-- A call that writes one record keeps the law if it keeps it of that record. -/
theorem Law.write (law : Law log s) {records : AList fun _ : String => RuntimeOrchestrationRecord}
    (written : records = s.records.insert c.workId record)
    (silent : ∀ workId, c ≠ .heartbeat workId)
    (acks : ∀ workId, c = .ack workId → Receipted workId log)
    (own : RecordLaw (c :: log) c.workId record) : Law (c :: log) ⟨records, s.heartbeats⟩ := by
  subst written
  refine ⟨fun workId found there => ?_, fun workId none_ => ?_, fun workId => ?_,
    acks, law.acks⟩
  · rcases Keyed.lookup_insert_eq_some_iff.mp there with ⟨rfl, rfl⟩ | ⟨apart, old⟩
    · exact own
    · exact (law.records workId found old).frame (Ne.symm apart)
  · have apart : workId ≠ c.workId := by
      rintro rfl
      simp at none_
    rw [AList.lookup_insert_ne apart] at none_
    rw [stateOf, if_neg (Ne.symm apart)]
    exact law.absent workId none_
  · rw [law.heartbeats, List.mem_cons]
    exact ⟨.inr, fun either => either.resolve_left (Ne.symm (silent workId))⟩

theorem law_beat (law : Law log s) (workId : String) :
    Law (.heartbeat workId :: log) { s with heartbeats := insert workId s.heartbeats } := by
  refine ⟨fun other record there => ?_, fun other none_ => ?_, fun other => ?_, by simp, law.acks⟩
  · have old := law.records other record there
    refine ⟨old.owner, ?_, by simp [Receipted, old.receipted], old.genuine, old.settled⟩
    rw [stateOf]
    split <;> exact old.state
  · rw [stateOf]
    split <;> exact law.absent other none_
  · simp [law.heartbeats]

theorem law_call (law : Law log s) (done : s.call c = .ok t) : Law (c :: log) t := by
  cases does_of_call done with
  | beats workId => exact law_beat law workId
  | admits item =>
    refine law.write rfl (by simp) (by simp) ⟨rfl, ?_, ?_, by simp, by simp⟩
    · simp [stateOf, Call.workId, Call.target]
    · simp [Receipted, Call.workId]
  | commits workId record scope there =>
    have old := law.records workId record there
    refine law.write rfl (by simp) (by simp) ⟨old.owner, ?_, ?_, fun receipt same => ?_, by simp⟩
    · simp [stateOf, Call.workId, Call.target]
    · simp [Receipted, Call.workId]
    · cases same
      exact ⟨rfl, old.owner⟩
  | advances c record state there target other eligible acks uncommitted =>
    have old := law.records c.workId record there
    -- an acknowledged item had a receipt before, and other calls say nothing of receipts
    refine law.write rfl ?_ ?_ ⟨old.owner, ?_, ?_, old.genuine, ?_⟩
    · rintro workId rfl
      cases target
    · rintro workId rfl
      cases target
      exact old.receipted.mp (old.settled ((acks rfl).imp id .inl))
    · rw [stateOf, if_pos rfl, target]
      rfl
    · rw [Receipted, ← old.receipted]
      have commits := other.2 c.workId
      simp [commits, other.1]
    · rintro (committed | eligible' | acked)
      · exact absurd committed uncommitted
      · exact eligible eligible'
      · exact old.settled ((acks acked).imp id .inl)

theorem law_run (calls : List Call) (law : Law log s) :
    Law (run calls (log, s)).1 (run calls (log, s)).2 := by
  induction calls generalizing log s with
  | nil => exact law
  | cons c calls ih =>
    rw [run]
    cases done : s.call c with
    | error e => exact ih law
    | ok t => exact ih (law_call law done)

theorem law_empty : Law [] empty :=
  ⟨fun _ _ there => by simp [empty] at there, fun _ _ => rfl, by simp [empty], trivial⟩

/-- In whatever order the calls come, each acknowledgment follows a receipt of the same
admission, and what is receipted, eligible or acknowledged carries its own durable receipt. -/
theorem receipt_before_ack (calls : List Call) :
    AcksReceipted (run calls ([], empty)).1 ∧
      ∀ workId record, (run calls ([], empty)).2.records.lookup workId = some record →
        record.state = .receiptCommitted ∨ record.state = .ackEligible ∨ record.state = .acked →
        ∃ receipt, record.receipt = some receipt ∧ receipt.durable = true ∧
          receipt.workId = workId := by
  have law := law_run calls law_empty
  refine ⟨law.acks, fun workId record there settled => ?_⟩
  have own := law.records workId record there
  obtain ⟨receipt, some_⟩ := Option.isSome_iff_exists.mp (own.settled settled)
  exact ⟨receipt, some_, own.genuine receipt some_⟩

/-- The candidates for reclaim are the items that were never beaten for and whose last call
neither acknowledged nor buried them. A new admission does not forget the heartbeats. -/
theorem mem_reclaimCandidates_iff (calls : List Call) (workId : String) :
    workId ∈ (run calls ([], empty)).2.reclaimCandidates ↔
      .heartbeat workId ∉ (run calls ([], empty)).1 ∧
        ∃ state, stateOf workId (run calls ([], empty)).1 = some state ∧
          state ≠ .acked ∧ state ≠ .deadLetter := by
  have law := law_run calls law_empty
  generalize run calls ([], empty) = after at law ⊢
  simp only [reclaimCandidates, List.mem_map, List.mem_filter, decide_eq_true_eq, ← law.heartbeats]
  constructor
  · rintro ⟨⟨_, record⟩, ⟨member, silent, open_⟩, rfl⟩
    have there := AList.mem_lookup_iff.mpr member
    exact ⟨silent, record.state, (law.records _ record there).state, open_⟩
  · rintro ⟨silent, state, last, open_⟩
    cases there : after.2.records.lookup workId with
    | none => simp [law.absent workId there] at last
    | some record =>
      have same := (law.records workId record there).state.symm.trans last
      cases same
      exact ⟨⟨workId, record⟩, ⟨AList.mem_lookup_iff.mp there, silent, open_⟩, rfl⟩

/-- A buried item is opened, receipted and acknowledged like any other. -/
example :
    let item : RuntimeWorkItem := ⟨"w", "r", "p", some "qkv", .authority, [], true⟩
    (run [.admitSync item, .deadLetter "w", .claim "w", .ack "w", .commitReceipt "w", .ack "w"]
      ([], empty)).1 = [.ack "w", .commitReceipt "w", .deadLetter "w", .admitSync item] := by
  decide

end InMemoryCoordinationFabric

end TribunusCompute.Supervisor
