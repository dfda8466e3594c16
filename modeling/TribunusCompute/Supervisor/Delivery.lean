import TribunusCompute.Library.Runs
import TribunusCompute.Streaming.Channel

/-!
# From the worker's frames to the stream of a request

The event reader tries to send what a frame carries and does not look at the result, so that a
token that finds the channel full is gone. The tokens of a stream have no gap as long as none
finds room after that.
-/
namespace TribunusCompute.Supervisor

open Streaming

/-- A validated frame that names the request, with what the reader takes from its payload. -/
inductive RequestFrame
  | token (tokenId : UInt32)
  | generationStarted
  | stepMetrics (payload : String)
  | generationCompleted
  | generationCancelled
  | generationFailed (message : Option String)
  /-- A frame that sends nothing. -/
  | other
  deriving DecidableEq, Repr

def generationChannelCapacity : ℕ := 256

/-- The stream of a request, and the tokens of its frames: all, and those that entered the
stream with their place among all. -/
structure Delivery where
  session : Session
  /-- The request is in the registry, with the sender of the stream. -/
  registered : Bool
  sent : List UInt32
  entered : List (UInt32 × ℕ)
  /-- A token found the channel open and full. -/
  overflowed : Bool
  deriving DecidableEq

inductive DeliveryMove
  | frame (frame : RequestFrame)
  /-- Another thread ends the request. -/
  | fail (message : String)
  | recv
  | tryRecv
  | close
  deriving DecidableEq, Repr

namespace Delivery

/-- `start_generation` has registered the request. -/
def new (capacity : ℕ) : Delivery := ⟨.new capacity, true, [], [], false⟩

def token? : GenerationEvent → Option UInt32
  | .token id => some id
  | _ => none

/-- `let _ = active.stream_sender.try_send(event)`, where the request is registered. -/
def trySend (s : Delivery) (event : GenerationEvent) : Delivery :=
  if s.registered then { s with session := s.session.step (.trySend event) } else s

def markTerminal (s : Delivery) (outcome : GenerationEvent) : Delivery :=
  if s.registered then
    { s with session := s.session.step (.sendTerminal outcome), registered := false }
  else s

def hasRoom (s : Delivery) : Bool :=
  !s.session.shared.closed && s.session.shared.queue.length < s.session.shared.capacity

def countToken (s : Delivery) (id : UInt32) : Delivery :=
  { s with
    sent := s.sent ++ [id]
    entered := if s.registered && s.hasRoom then s.entered ++ [(id, s.sent.length)] else s.entered
    overflowed := s.overflowed ||
      (s.registered && !s.session.shared.closed && !s.hasRoom) }

def dispatch (s : Delivery) : RequestFrame → Delivery
  | .token id => (s.countToken id).trySend (.token id)
  | .generationStarted => s.trySend .started
  | .stepMetrics payload => s.trySend (.metrics payload)
  | .generationCompleted => s.markTerminal .done
  | .generationCancelled => s.markTerminal (.error "cancelled by host")
  | .generationFailed message => s.markTerminal (.error (message.getD "generation failed"))
  | .other => s

def step (s : Delivery) : DeliveryMove → Option Delivery
  | .frame frame => some (s.dispatch frame)
  | .fail message => some (s.markTerminal (.error message))
  | .recv => some { s with session := s.session.step .recv }
  | .tryRecv => some { s with session := s.session.step .tryRecv }
  | .close => some { s with session := s.session.step .close }

/-- The tokens that entered the stream are the first of those sent. -/
structure InOrder (s : Delivery) : Prop where
  accepted : s.session.accepted.filterMap token? = s.entered.map Prod.fst
  front : s.entered <+: s.sent.zipIdx

/-- A token finds room only while none found the channel full. -/
def noneAfterOverflow (s : Delivery) : DeliveryMove → Bool
  | .frame (.token _) => !(s.registered && s.hasRoom && s.overflowed)
  | _ => true

/-! ## What a move does to the stream -/

variable {s t : Delivery}

theorem accepted_step_trySend (session : Session) (event : GenerationEvent) :
    (session.step (.trySend event)).accepted =
        (if !session.shared.closed && session.shared.queue.length < session.shared.capacity then
          session.accepted ++ [event] else session.accepted) ∧
      (session.step (.trySend event)).shared.closed = session.shared.closed := by
  simp only [Session.step, SharedQueue.trySend]
  cases closed : session.shared.closed with
  | true => simp [Session.send, closed]
  | false =>
    by_cases full : session.shared.capacity ≤ session.shared.queue.length
    · simp [Session.send, closed, full]
    · simp [Session.send, closed, full, SharedQueue.pushBack, not_le.mp full]

theorem accepted_trySend (s : Delivery) (event : GenerationEvent) :
    (s.trySend event).session.accepted =
        (if s.registered && s.hasRoom then s.session.accepted ++ [event]
          else s.session.accepted) ∧
      (s.trySend event).session.shared.closed = s.session.shared.closed := by
  unfold trySend
  cases registered : s.registered with
  | true => simpa [registered, hasRoom] using accepted_step_trySend s.session event
  | false => simp

/-- The move sends no token. -/
structure Quiet (s t : Delivery) : Prop where
  sent : t.sent = s.sent
  entered : t.entered = s.entered
  overflowed : t.overflowed = s.overflowed
  tokens : t.session.accepted.filterMap token? = s.session.accepted.filterMap token?
  closed : t.session.shared.closed = false → s.session.shared.closed = false
  registered : t.registered = true → s.registered = true

theorem quiet_trySend (s : Delivery) {event : GenerationEvent} (other : token? event = none) :
    s.Quiet (s.trySend event) := by
  obtain ⟨accepted, closed⟩ := accepted_trySend s event
  refine ⟨?_, ?_, ?_, ?_, by rw [closed]; exact id, ?_⟩
  · unfold trySend
    split <;> rfl
  · unfold trySend
    split <;> rfl
  · unfold trySend
    split <;> rfl
  · rw [accepted]
    split
    next => simp [other]
    next => rfl
  · unfold trySend
    split <;> exact id

theorem quiet_markTerminal (s : Delivery) {outcome : GenerationEvent}
    (other : token? outcome = none) : s.Quiet (s.markTerminal outcome) := by
  unfold markTerminal
  split
  next =>
    refine ⟨rfl, rfl, rfl, ?_, id, fun registered => (nomatch registered)⟩
    simp [Session.step, Session.send, SharedQueue.sendTerminal, other]
  next => exact ⟨rfl, rfl, rfl, rfl, id, id⟩

theorem closed_popFront {shared shared' : SharedQueue} {event : GenerationEvent}
    (popped : shared.popFront = some (event, shared')) : shared'.closed = shared.closed := by
  unfold SharedQueue.popFront at popped
  split at popped
  next => cases popped
  next =>
    cases popped
    rfl

theorem closed_recv {shared : SharedQueue} {taken : Option GenerationEvent × SharedQueue}
    (received : shared.recv = some taken) : taken.2.closed = shared.closed := by
  unfold SharedQueue.recv at received
  split at received
  next =>
    cases received
    rfl
  next =>
    cases popped : shared.popFront with
    | some pair =>
      rw [popped] at received
      cases received
      exact closed_popFront popped
    | none =>
      rw [popped] at received
      dsimp only at received
      split at received
      next =>
        cases received
        rfl
      next => cases received

theorem closed_tryRecv (shared : SharedQueue) : shared.tryRecv.2.closed = shared.closed := by
  unfold SharedQueue.tryRecv
  split
  next => rfl
  next =>
    cases popped : shared.popFront with
    | some pair => exact closed_popFront popped
    | none => rfl

theorem quiet_recv (s : Delivery) : s.Quiet { s with session := s.session.step .recv } := by
  cases received : s.session.shared.recv with
  | some taken =>
    have step : s.session.step .recv = s.session.receive taken := by
      simp only [Session.step, received, Option.map_some, Option.getD_some]
    rw [step]
    refine ⟨rfl, rfl, rfl, rfl, fun open_ => ?_, id⟩
    exact (closed_recv received).symm.trans open_
  | none =>
    have step : s.session.step .recv = s.session := by
      simp only [Session.step, received, Option.map_none, Option.getD_none]
    rw [step]
    exact ⟨rfl, rfl, rfl, rfl, id, id⟩

theorem quiet_tryRecv (s : Delivery) : s.Quiet { s with session := s.session.step .tryRecv } :=
  ⟨rfl, rfl, rfl, rfl, fun open_ => (closed_tryRecv s.session.shared).symm.trans open_, id⟩

/-- A move is that of a token, or it sends none. -/
theorem step_cases {m : DeliveryMove} (taken : s.step m = some t) :
    (∃ id, m = .frame (.token id) ∧ t = (s.countToken id).trySend (.token id)) ∨ s.Quiet t := by
  cases m with
  | frame frame =>
    cases taken
    cases frame with
    | token id => exact .inl ⟨id, rfl, rfl⟩
    | generationStarted => exact .inr (s.quiet_trySend rfl)
    | stepMetrics payload => exact .inr (s.quiet_trySend rfl)
    | generationCompleted => exact .inr (s.quiet_markTerminal rfl)
    | generationCancelled => exact .inr (s.quiet_markTerminal rfl)
    | generationFailed message => exact .inr (s.quiet_markTerminal rfl)
    | other => exact .inr ⟨rfl, rfl, rfl, rfl, id, id⟩
  | fail message =>
    cases taken
    exact .inr (s.quiet_markTerminal rfl)
  | recv =>
    cases taken
    exact .inr s.quiet_recv
  | tryRecv =>
    cases taken
    exact .inr s.quiet_tryRecv
  | close =>
    cases taken
    exact .inr ⟨rfl, rfl, rfl, rfl, fun open_ => (nomatch open_), id⟩

theorem trySend_countToken (s : Delivery) (id : UInt32) :
    let t := (s.countToken id).trySend (.token id)
    t.sent = s.sent ++ [id] ∧
    t.entered = (if s.registered && s.hasRoom then s.entered ++ [(id, s.sent.length)]
      else s.entered) ∧
    t.overflowed = (s.overflowed || (s.registered && !s.session.shared.closed && !s.hasRoom)) ∧
    t.session.accepted = (if s.registered && s.hasRoom then
      s.session.accepted ++ [.token id] else s.session.accepted) ∧
    t.session.shared.closed = s.session.shared.closed ∧ t.registered = s.registered := by
  obtain ⟨accepted, closed⟩ := accepted_trySend (s.countToken id) (.token id)
  refine ⟨?_, ?_, ?_, accepted, closed, ?_⟩ <;> unfold trySend <;> split <;> rfl

/-! ## Tokens in order -/

/-- What is so while no token finds room after an overflow. -/
structure Counted (s : Delivery) : Prop extends s.InOrder where
  keepsUp : s.overflowed = false → s.session.shared.closed = false → s.registered = true →
    s.entered = s.sent.zipIdx
  behind : s.overflowed = true → s.entered.length < s.sent.length

theorem counted_new (capacity : ℕ) : (new capacity).Counted where
  accepted := rfl
  front := List.prefix_refl _
  keepsUp _ _ _ := rfl
  behind overflowed := nomatch overflowed

theorem zipIdx_concat (sent : List UInt32) (id : UInt32) :
    (sent ++ [id]).zipIdx = sent.zipIdx ++ [(id, sent.length)] := by
  simp [List.zipIdx_append]

theorem Counted.step (counted : s.Counted) {m : DeliveryMove}
    (admitted : s.noneAfterOverflow m = true) (taken : s.step m = some t) : t.Counted := by
  -- only a token that is sent changes what is counted
  rcases step_cases taken with ⟨id, rfl, rfl⟩ | quiet
  · obtain ⟨sent, entered, overflowed, accepted, closed, registered⟩ := s.trySend_countToken id
    by_cases enters : (s.registered && s.hasRoom) = true
    · rw [if_pos enters] at entered accepted
      obtain ⟨there, room⟩ := (Bool.and_eq_true _ _).mp enters
      have before : s.overflowed = false := by simpa [noneAfterOverflow, there, room] using admitted
      have open_ : s.session.shared.closed = false := by
        simp only [hasRoom, Bool.and_eq_true, Bool.not_eq_true'] at room
        exact room.1
      have all := counted.keepsUp before open_ there
      have full : (s.registered && !s.session.shared.closed && !s.hasRoom) = false := by simp [room]
      refine ⟨⟨?_, ?_⟩, fun _ _ _ => ?_, fun lost => ?_⟩
      · rw [accepted, entered, List.filterMap_append, List.map_append, counted.accepted]
        rfl
      · rw [entered, sent, zipIdx_concat, all]
      · rw [entered, sent, zipIdx_concat, all]
      · rw [overflowed, before, full] at lost
        cases lost
    · rw [if_neg enters] at entered accepted
      refine ⟨⟨?_, ?_⟩, fun none_ open_ there => ?_, fun _ => ?_⟩
      · rw [accepted, entered, counted.accepted]
      · rw [entered, sent, zipIdx_concat]
        exact counted.front.trans (List.prefix_append _ _)
      · rw [overflowed, Bool.or_eq_false_iff] at none_
        rw [closed] at open_
        rw [registered] at there
        simp [there, open_] at none_ enters
        simp [none_] at enters
      · rw [entered, sent, List.length_append, List.length_singleton]
        have behind := counted.front.length_le
        rw [List.length_zipIdx] at behind
        omega
  · refine ⟨⟨?_, ?_⟩, ?_, ?_⟩
    · rw [quiet.tokens, quiet.entered]
      exact counted.accepted
    · rw [quiet.entered, quiet.sent]
      exact counted.front
    · rw [quiet.overflowed, quiet.entered, quiet.sent]
      exact fun none_ open_ there =>
        counted.keepsUp none_ (quiet.closed open_) (quiet.registered there)
    · rw [quiet.overflowed, quiet.entered, quiet.sent]
      exact counted.behind

/-- A token that finds room after an overflow leaves a gap. -/
theorem Counted.only (counted : s.Counted) {m : DeliveryMove} (taken : s.step m = some t)
    (inOrder : t.InOrder) : s.noneAfterOverflow m = true := by
  rcases step_cases taken with ⟨id, rfl, rfl⟩ | quiet
  · obtain ⟨sent, entered, -, -, -, -⟩ := s.trySend_countToken id
    by_contra gap
    simp only [noneAfterOverflow, Bool.not_eq_true, Bool.not_eq_false'] at gap
    obtain ⟨enters, overflowed⟩ := (Bool.and_eq_true _ _).mp gap
    have behind := counted.behind overflowed
    have front := inOrder.front
    rw [entered, if_pos enters, sent] at front
    have there : ((s.sent ++ [id]).zipIdx)[s.entered.length]? = some (id, s.sent.length) := by
      obtain ⟨rest, split⟩ := front
      rw [← split]
      simp
    rw [List.getElem?_zipIdx, Option.map_eq_some_iff] at there
    obtain ⟨_, -, same⟩ := there
    have place := congrArg Prod.snd same
    simp only [Nat.zero_add] at place
    omega
  · cases m with
    | frame frame =>
      cases frame with
      | token id =>
        by_contra gap
        have more := congrArg List.length quiet.sent
        cases taken
        simp [(s.trySend_countToken id).1, dispatch] at more
      | _ => rfl
    | _ => rfl

/-- The tokens that enter a stream are the first of those the worker sent exactly if no token
finds room after another found the channel full. -/
theorem inOrder_iff (capacity : ℕ) (moves : List DeliveryMove) :
    Runs.Always step InOrder (new capacity) moves ↔
      Runs.Guarded step (fun s m => s.noneAfterOverflow m = true) (new capacity) moves := by
  have total (s : Delivery) (m : DeliveryMove) : ∃ t, s.step m = some t := by
    cases m <;> exact ⟨_, rfl⟩
  obtain ⟨u, run⟩ := Runs.exec_total step total (new capacity) moves
  exact Runs.always_iff_guarded step (fun s counted => Counted.toInOrder counted)
    (fun s m t counted admitted taken => counted.step admitted taken)
    (fun s m t counted taken inOrder => counted.only taken inOrder) (counted_new capacity) run

/-! ## A slow consumer -/

def holding (capacity : ℕ) (ids : List UInt32) : Delivery where
  session :=
    { shared :=
        { queue := ids.map .token
          capacity := capacity
          closed := false
          senderAlive := true
          terminalSeen := false }
      accepted := ids.map .token
      delivered := [] }
  registered := true
  sent := ids
  entered := ids.zipIdx
  overflowed := false

section
variable {capacity : ℕ} {ids : List UInt32}

theorem step_holding (room : ids.length < capacity) (id : UInt32) :
    (holding capacity ids).step (.frame (.token id)) = some (holding capacity (ids ++ [id])) := by
  have fits : ¬ capacity ≤ ids.length := Nat.not_le.mpr room
  simp [step, dispatch, countToken, trySend, hasRoom, holding, Session.step, SharedQueue.trySend,
    Session.send, SharedQueue.pushBack, room, fits, zipIdx_concat]

theorem exec_holding (more : List UInt32) (room : ids.length + more.length ≤ capacity) :
    Runs.exec step (holding capacity ids) (more.map fun id => .frame (.token id)) =
      some (holding capacity (ids ++ more)) := by
  induction more generalizing ids with
  | nil =>
    rw [List.append_nil]
    rfl
  | cons id more ih =>
    rw [List.length_cons] at room
    have next := @ih (ids ++ [id]) (by
      rw [List.length_append, List.length_singleton]
      omega)
    rw [List.append_assoc, List.singleton_append] at next
    rw [List.map_cons, Runs.exec_cons_iff]
    exact ⟨_, step_holding (by omega) id, next⟩

/-- A full channel loses a token, and takes the one that comes after the consumer has taken
another. -/
theorem exec_full (full : ids.length = capacity) (some_ : ids ≠ []) (lost late : UInt32) :
    ∃ s, Runs.exec step (holding capacity ids)
        [.frame (.token lost), .recv, .frame (.token late)] = some s ∧
      s.entered = ids.zipIdx ++ [(late, capacity + 1)] := by
  obtain ⟨first, ids, rfl⟩ := List.exists_cons_of_ne_nil some_
  subst full
  refine ⟨_, rfl, ?_⟩
  simp [dispatch, countToken, trySend, hasRoom, holding, Session.step, SharedQueue.trySend,
    Session.send, Session.receive, SharedQueue.recv, SharedQueue.popFront]

end

/-- The consumer takes one event of a full channel between two tokens. -/
def slowConsumer : List DeliveryMove :=
  (List.range (generationChannelCapacity + 1)).map (fun n => .frame (.token (UInt32.ofNat n))) ++
    [.recv, .frame (.token 257)]

def firstTokens : List UInt32 := (List.range generationChannelCapacity).map UInt32.ofNat

theorem exec_slowConsumer : ∃ s,
    Runs.exec step (new generationChannelCapacity) slowConsumer = some s ∧
      s.entered = firstTokens.zipIdx ++ [(257, 257)] := by
  have length : firstTokens.length = generationChannelCapacity := by
    rw [firstTokens, List.length_map, List.length_range]
  have some_ : firstTokens ≠ [] := List.ne_nil_of_length_pos (length ▸ by decide)
  have moves : slowConsumer = firstTokens.map (fun id => .frame (.token id)) ++
      [.frame (.token 256), .recv, .frame (.token 257)] := by
    rw [slowConsumer, List.range_succ, List.map_append, firstTokens, List.map_map,
      List.append_assoc]
    rfl
  obtain ⟨s, run, entered⟩ := exec_full length some_ 256 257
  refine ⟨s, ?_, entered⟩
  have filled : Runs.exec step (new generationChannelCapacity)
      (firstTokens.map fun id => .frame (.token id)) =
        some (holding generationChannelCapacity firstTokens) :=
    @exec_holding _ [] firstTokens (by rw [length]; decide)
  rw [moves, Runs.exec_append, filled, Option.bind_some]
  exact run

/-- Token 256 is dropped and token 257 delivered in its place. -/
theorem slowConsumer_drops_token :
    ¬ Runs.Always step InOrder (new generationChannelCapacity) slowConsumer := by
  intro always
  obtain ⟨s, run, place⟩ := exec_slowConsumer
  have entered : s.entered[256]? = some (257, 257) := by
    rw [place, List.getElem?_append_right (by simp [firstTokens, generationChannelCapacity])]
    simp [firstTokens, generationChannelCapacity]
  obtain ⟨rest, split⟩ := (Runs.always_last step always run).front
  have there : s.sent.zipIdx[256]? = some (257, 257) := by
    obtain ⟨inside, -⟩ := List.getElem?_eq_some_iff.mp entered
    rw [← split, List.getElem?_append_left inside, entered]
  rw [List.getElem?_zipIdx, Option.map_eq_some_iff] at there
  obtain ⟨_, -, same⟩ := there
  simpa using congrArg Prod.snd same

end Delivery

end TribunusCompute.Supervisor
