import Mathlib.Data.List.Infix

/-!
# The generation channel

One queue between a sender and a consumer, with three flags beside it. Every operation
holds the queue's lock, so that a run is a list of operations.
-/
namespace TribunusCompute.Streaming

inductive GenerationEvent
  | started
  | token (id : UInt32)
  | chunk (text : String)
  | logits (values : List UInt64)
  | progress (fraction : UInt64)
  | metrics (payload : String)
  | warning (message : String)
  | error (message : String)
  | done
  | cancelled
  deriving DecidableEq, Repr

def isTerminal : GenerationEvent → Bool
  | .done | .error _ | .cancelled => true
  | _ => false

structure SharedQueue where
  queue : List GenerationEvent
  capacity : ℕ
  closed : Bool
  senderAlive : Bool
  terminalSeen : Bool
  deriving DecidableEq, Repr

namespace SharedQueue

def new (capacity : ℕ) : SharedQueue := ⟨[], capacity, false, true, false⟩

/-! ## The sending half -/

def pushBack (shared : SharedQueue) (event : GenerationEvent) : SharedQueue :=
  { shared with queue := shared.queue ++ [event] }

def trySend (shared : SharedQueue) (event : GenerationEvent) : Except String SharedQueue :=
  if shared.closed then .error "channel closed"
  else if shared.capacity ≤ shared.queue.length then .error "channel full"
  else .ok (shared.pushBack event)

def trySendOrCancel (shared : SharedQueue) (event : GenerationEvent) :
    Except String SharedQueue :=
  if shared.closed then .error "Cancelled"
  else if shared.capacity ≤ shared.queue.length then .error "channel full"
  else .ok (shared.pushBack event)

/-- One turn of the loop of `blocking_send`: `none` where it waits. A closed stream is noticed
only when the queue is full. -/
def blockingSend (shared : SharedQueue) (event : GenerationEvent) :
    Option (Except String SharedQueue) :=
  if shared.capacity ≤ shared.queue.length then
    if shared.closed then some (.error "channel closed") else none
  else some (.ok (shared.pushBack event))

def sendTerminal (shared : SharedQueue) (event : GenerationEvent) : SharedQueue :=
  shared.pushBack event

def dropSender (shared : SharedQueue) : SharedQueue := { shared with senderAlive := false }

/-! ## The receiving half -/

def popFront (shared : SharedQueue) : Option (GenerationEvent × SharedQueue) :=
  match shared.queue with
  | [] => none
  | event :: rest =>
    some (event,
      { shared with queue := rest, terminalSeen := isTerminal event || shared.terminalSeen })

/-- One turn of the loop of `recv`: `none` where it waits. -/
def recv (shared : SharedQueue) : Option (Option GenerationEvent × SharedQueue) :=
  if shared.terminalSeen then some (none, shared)
  else
    match shared.popFront with
    | some (event, shared) => some (some event, shared)
    | none => if shared.closed || !shared.senderAlive then some (none, shared) else none

def tryRecv (shared : SharedQueue) : Option GenerationEvent × SharedQueue :=
  if shared.terminalSeen then (none, shared)
  else
    match shared.popFront with
    | some (event, shared) => (some event, shared)
    | none => (none, shared)

def close (shared : SharedQueue) : SharedQueue := { shared with closed := true }

end SharedQueue

/-! ## Runs -/

/-- An atomic step of either half; dropping the stream is a `close`. -/
inductive Operation
  | trySend (event : GenerationEvent)
  | trySendOrCancel (event : GenerationEvent)
  | blockingSend (event : GenerationEvent)
  | sendTerminal (event : GenerationEvent)
  | recv
  | tryRecv
  | close
  | dropSender
  deriving DecidableEq, Repr

/-- The channel, with what the sender's calls accepted and what the consumer's calls returned. -/
structure Session where
  shared : SharedQueue
  accepted : List GenerationEvent
  delivered : List GenerationEvent
  deriving DecidableEq, Repr

namespace Session

def new (capacity : ℕ) : Session := ⟨.new capacity, [], []⟩

def send (session : Session) (event : GenerationEvent) :
    Except String SharedQueue → Session
  | .ok shared => { session with shared, accepted := session.accepted ++ [event] }
  | .error _ => session

def receive (session : Session) : Option GenerationEvent × SharedQueue → Session
  | (event, shared) => { session with shared, delivered := session.delivered ++ event.toList }

def step (session : Session) : Operation → Session
  | .trySend event => session.send event (session.shared.trySend event)
  | .trySendOrCancel event => session.send event (session.shared.trySendOrCancel event)
  | .blockingSend event =>
    ((session.shared.blockingSend event).map (session.send event)).getD session
  | .sendTerminal event => session.send event (.ok (session.shared.sendTerminal event))
  | .recv => (session.shared.recv.map session.receive).getD session
  | .tryRecv => session.receive session.shared.tryRecv
  | .close => { session with shared := session.shared.close }
  | .dropSender => { session with shared := session.shared.dropSender }

def run (session : Session) (operations : List Operation) : Session :=
  operations.foldl step session

/-- The ways a step can go. -/
inductive Steps (session : Session) (operation : Operation) : Session → Prop
  | accepts (event : GenerationEvent) (sends : operation ≠ .recv ∧ operation ≠ .tryRecv) :
      Steps session operation
        { session with
          shared := session.shared.pushBack event
          accepted := session.accepted ++ [event] }
  | delivers {event : GenerationEvent} {rest : List GenerationEvent}
      (open_ : session.shared.terminalSeen = false)
      (front : session.shared.queue = event :: rest) :
      Steps session operation
        { session with
          shared := { session.shared with queue := rest, terminalSeen := isTerminal event }
          delivered := session.delivered ++ [event] }
  | flags {shared : SharedQueue} (queue : shared.queue = session.shared.queue)
      (terminalSeen : shared.terminalSeen = session.shared.terminalSeen)
      (idle : operation = .recv ∨ operation = .tryRecv →
        session.shared.terminalSeen = true ∨ session.shared.queue = []) :
      Steps session operation { session with shared }

variable (session : Session)

theorem steps_stay {operation : Operation}
    (idle : operation = .recv ∨ operation = .tryRecv →
      session.shared.terminalSeen = true ∨ session.shared.queue = []) :
    Steps session operation session := .flags rfl rfl idle

theorem steps_send {operation : Operation} (event : GenerationEvent)
    (sends : operation ≠ .recv ∧ operation ≠ .tryRecv) {result : Except String SharedQueue}
    (pushes : ∀ shared, result = .ok shared → shared = session.shared.pushBack event) :
    Steps session operation (session.send event result) := by
  cases result with
  | error message =>
    refine session.steps_stay ?_
    rintro (receives | receives)
    · exact absurd receives sends.1
    · exact absurd receives sends.2
  | ok shared =>
    obtain rfl := pushes shared rfl
    exact .accepts event sends

theorem steps_receive {operation : Operation} {event : GenerationEvent} {shared : SharedQueue}
    (open_ : session.shared.terminalSeen = false)
    (popped : session.shared.popFront = some (event, shared)) :
    Steps session operation (session.receive (some event, shared)) := by
  unfold SharedQueue.popFront at popped
  split at popped
  next => cases popped
  next front rest front_ =>
    cases popped
    have delivers : Steps session operation _ := .delivers open_ front_
    simpa [receive, open_] using delivers

theorem queue_of_popFront_none {shared : SharedQueue} (none_ : shared.popFront = none) :
    shared.queue = [] := by
  unfold SharedQueue.popFront at none_
  split at none_
  next empty => exact empty
  next => cases none_

theorem steps_recv : Steps session .recv (session.step .recv) := by
  simp only [step, SharedQueue.recv]
  split
  next seen => simpa [receive] using session.steps_stay fun _ => .inl seen
  next unseen =>
    have open_ : session.shared.terminalSeen = false := by simpa using unseen
    cases popped : session.shared.popFront with
    | some taken => exact session.steps_receive open_ popped
    | none =>
      have stays : Steps session .recv session :=
        session.steps_stay fun _ => .inr (queue_of_popFront_none popped)
      dsimp only
      split
      next => simpa [receive] using stays
      next => exact stays

theorem steps_tryRecv : Steps session .tryRecv (session.step .tryRecv) := by
  simp only [step, SharedQueue.tryRecv]
  split
  next seen => simpa [receive] using session.steps_stay fun _ => .inl seen
  next unseen =>
    have open_ : session.shared.terminalSeen = false := by simpa using unseen
    cases popped : session.shared.popFront with
    | some taken => exact session.steps_receive open_ popped
    | none =>
      simpa [receive] using session.steps_stay fun _ => .inr (queue_of_popFront_none popped)

theorem steps_step (operation : Operation) : Steps session operation (session.step operation) := by
  have pushes (event : GenerationEvent) (shared : SharedQueue)
      (sent : (.ok (session.shared.pushBack event) : Except String SharedQueue) = .ok shared) :
      shared = session.shared.pushBack event := (Except.ok.inj sent).symm
  cases operation with
  | trySend event =>
    refine session.steps_send event (by simp) fun shared sent => ?_
    unfold SharedQueue.trySend at sent
    split at sent
    next => cases sent
    next =>
      split at sent
      next => cases sent
      next => exact pushes event shared sent
  | trySendOrCancel event =>
    refine session.steps_send event (by simp) fun shared sent => ?_
    unfold SharedQueue.trySendOrCancel at sent
    split at sent
    next => cases sent
    next =>
      split at sent
      next => cases sent
      next => exact pushes event shared sent
  | blockingSend event =>
    have stays : Steps session (.blockingSend event) session := session.steps_stay (by simp)
    simp only [step, SharedQueue.blockingSend]
    split
    next => split <;> exact stays
    next => exact session.steps_send event (by simp) (pushes event)
  | sendTerminal event => exact session.steps_send event (by simp) (pushes event)
  | recv => exact session.steps_recv
  | tryRecv => exact session.steps_tryRecv
  | close => exact .flags rfl rfl (by simp)
  | dropSender => exact .flags rfl rfl (by simp)

/-! ## What holds in every run -/

/-- What is accepted was delivered or waits in its order; a terminal event is the last one
delivered, and noticed. -/
structure Valid : Prop where
  fifo : session.accepted = session.delivered ++ session.shared.queue
  unseen : session.shared.terminalSeen = false → ∀ event ∈ session.delivered,
    isTerminal event = false
  seen : session.shared.terminalSeen = true → ∃ front event,
    session.delivered = front ++ [event] ∧ isTerminal event = true ∧
      ∀ earlier ∈ front, isTerminal earlier = false

variable {session}

theorem valid_new (capacity : ℕ) : (new capacity).Valid where
  fifo := rfl
  unseen _ _ member := nomatch member
  seen seen := nomatch seen

theorem Valid.steps (valid : session.Valid) {operation : Operation} {next : Session}
    (steps : Steps session operation next) : next.Valid := by
  cases steps with
  | accepts event => exact ⟨by simp [SharedQueue.pushBack, valid.fifo], valid.unseen, valid.seen⟩
  | @delivers event rest open_ front =>
    have plain := valid.unseen open_
    refine ⟨by simp [valid.fifo, front], fun unseen other member => ?_, fun seen => ?_⟩
    · rcases List.mem_append.mp member with earlier | last
      · exact plain other earlier
      · rwa [List.mem_singleton.mp last]
    · exact ⟨session.delivered, event, rfl, seen, plain⟩
  | flags queue terminalSeen =>
    refine ⟨?_, ?_, ?_⟩
    · rw [queue]
      exact valid.fifo
    · rw [terminalSeen]
      exact valid.unseen
    · rw [terminalSeen]
      exact valid.seen

theorem Valid.run (valid : session.Valid) (operations : List Operation) :
    (session.run operations).Valid := by
  induction operations generalizing session with
  | nil => exact valid
  | cons operation operations ih => exact ih (valid.steps (session.steps_step operation))

theorem Valid.delivered_first (valid : session.Valid) :
    session.delivered <+: session.accepted := ⟨_, valid.fifo.symm⟩

theorem Valid.terminal_last (valid : session.Valid) {front back : List GenerationEvent}
    {event : GenerationEvent} (split : session.delivered = front ++ event :: back)
    (terminal : isTerminal event = true) : back = [] := by
  have member : event ∈ session.delivered := by simp [split]
  cases seen : session.shared.terminalSeen with
  | false =>
    rw [valid.unseen seen event member] at terminal
    cases terminal
  | true =>
    obtain ⟨front', last, split', -, plain⟩ := valid.seen seen
    rcases back.eq_nil_or_concat' with rfl | ⟨back, last', rfl⟩
    · rfl
    · rw [split', ← List.cons_append, ← List.append_assoc] at split
      obtain ⟨rfl, -⟩ := List.append_inj' split rfl
      rw [plain event (by simp)] at terminal
      cases terminal

/-! ### The first terminal event -/

/-- The event at this place of those accepted is a terminal one, the first. -/
structure FirstTerminal (session : Session) (place : ℕ) (event : GenerationEvent) : Prop where
  there : session.accepted[place]? = some event
  terminal : isTerminal event = true
  first : ∀ earlier < place, ∀ other, session.accepted[earlier]? = some other →
    isTerminal other = false

theorem Valid.delivered_getElem? (valid : session.Valid) {place : ℕ}
    (taken : place < session.delivered.length) :
    session.delivered[place]? = session.accepted[place]? := by
  rw [valid.fifo, List.getElem?_append_left taken]

section
variable {operation : Operation} {next : Session} (steps : Steps session operation next)
include steps

theorem Steps.accepted : session.accepted <+: next.accepted := by
  cases steps with
  | accepts event => exact List.prefix_append _ _
  | delivers => exact List.prefix_refl _
  | flags => exact List.prefix_refl _

theorem Steps.delivered_le : session.delivered.length ≤ next.delivered.length := by
  cases steps with
  | accepts => exact le_rfl
  | delivers => simp
  | flags => exact le_rfl

theorem FirstTerminal.stays {place : ℕ} {event : GenerationEvent}
    (first : session.FirstTerminal place event) : next.FirstTerminal place event := by
  obtain ⟨more, accepted⟩ := steps.accepted
  have inside : place < session.accepted.length := (List.getElem?_eq_some_iff.mp first.there).1
  have same (earlier : ℕ) (before : earlier ≤ place) :
      next.accepted[earlier]? = session.accepted[earlier]? := by
    rw [← accepted, List.getElem?_append_left (before.trans_lt inside)]
  refine ⟨?_, first.terminal, fun earlier before other there => ?_⟩
  · rw [same place le_rfl]
    exact first.there
  · rw [same earlier before.le] at there
    exact first.first earlier before other there

end

/-- While it is not taken, the consumer is not cut off from it. -/
theorem FirstTerminal.pending {place : ℕ} {event : GenerationEvent}
    (first : session.FirstTerminal place event) (valid : session.Valid)
    (waiting : session.delivered.length ≤ place) :
    session.shared.terminalSeen = false ∧ session.shared.queue ≠ [] := by
  constructor
  · by_contra seen
    obtain ⟨front, last, split, terminal, -⟩ := valid.seen (by simpa using seen)
    have length : front.length < session.delivered.length := by simp [split]
    have there : session.accepted[front.length]? = some last := by
      rw [← valid.delivered_getElem? length, split]
      simp
    rw [first.first _ (length.trans_le waiting) last there] at terminal
    cases terminal
  · rintro empty
    have inside := (List.getElem?_eq_some_iff.mp first.there).1
    rw [valid.fifo, empty, List.append_nil] at inside
    omega

def receives (operations : List Operation) : ℕ :=
  operations.countP fun operation => operation = .recv ∨ operation = .tryRecv

/-- Every call of the consumer takes an event while the first terminal one is to come. -/
theorem FirstTerminal.receive {place : ℕ} {event : GenerationEvent}
    (first : session.FirstTerminal place event) (valid : session.Valid)
    (waiting : session.delivered.length ≤ place) {operation : Operation} {next : Session}
    (steps : Steps session operation next) (asks : operation = .recv ∨ operation = .tryRecv) :
    session.delivered.length < next.delivered.length := by
  obtain ⟨unseen, some_⟩ := first.pending valid waiting
  cases steps with
  | accepts _ sends => exact absurd asks (by simpa using sends)
  | delivers => simp
  | flags _ _ idle =>
    rcases idle asks with seen | empty
    · rw [seen] at unseen
      cases unseen
    · exact absurd empty some_

theorem FirstTerminal.delivered {place : ℕ} {event : GenerationEvent}
    (first : session.FirstTerminal place event) (valid : session.Valid)
    {operations : List Operation}
    (enough : place < session.delivered.length + receives operations) :
    (session.run operations).delivered[place]? = some event := by
  induction operations generalizing session with
  | nil =>
    have taken : place < session.delivered.length := by simpa [receives] using enough
    exact (valid.delivered_getElem? taken).trans first.there
  | cons operation operations ih =>
    have steps := session.steps_step operation
    refine ih (first.stays steps) (valid.steps steps) ?_
    have grown := steps.delivered_le
    rw [receives, List.countP_cons] at enough
    by_cases asks : operation = .recv ∨ operation = .tryRecv
    · simp only [asks, decide_true, if_true] at enough
      by_cases waiting : session.delivered.length ≤ place
      · have taken := first.receive valid waiting steps asks
        rw [receives]
        omega
      · rw [receives]
        omega
    · simp only [asks, decide_false, Bool.false_eq_true, if_false] at enough
      rw [receives]
      omega

theorem Valid.one_terminal (valid : session.Valid) :
    (session.delivered.filter isTerminal).length ≤ 1 := by
  have none_ {events : List GenerationEvent} (plain : ∀ event ∈ events, isTerminal event = false) :
      events.filter isTerminal = [] := by
    rw [List.filter_eq_nil_iff]
    exact fun event member => by simp [plain event member]
  cases seen : session.shared.terminalSeen with
  | false => simp [none_ (valid.unseen seen)]
  | true =>
    obtain ⟨front, last, split, terminal, plain⟩ := valid.seen seen
    simp [split, none_ plain, terminal]

/-- In every run the consumer sees a prefix of what was accepted, up to the first terminal event,
which it can always go on to take. -/
theorem run_delivers (capacity : ℕ) (operations : List Operation) :
    let session := (new capacity).run operations
    session.delivered <+: session.accepted ∧
    (session.delivered.filter isTerminal).length ≤ 1 ∧
    (∀ front event back, session.delivered = front ++ event :: back →
      isTerminal event = true → back = []) ∧
    ∀ place event, session.FirstTerminal place event → ∀ more,
      place < session.delivered.length + receives more →
        (session.run more).delivered[place]? = some event := by
  have valid := (valid_new capacity).run operations
  exact ⟨valid.delivered_first, valid.one_terminal,
    fun front event back split terminal => valid.terminal_last split terminal,
    fun place event first more => first.delivered valid⟩

/-- A terminal event that was accepted after `close` is delivered. -/
theorem run_delivers_after_close :
    ((new 1).run [.trySend (.token 7), .close, .sendTerminal .done, .recv, .tryRecv]).delivered[1]? =
      some .done := by
  have first : ((new 1).run [.trySend (.token 7), .close, .sendTerminal .done]).FirstTerminal 1
      .done := by
    refine ⟨by decide, by decide, fun earlier before other there => ?_⟩
    obtain rfl : earlier = 0 := by omega
    cases there
    rfl
  exact (run_delivers 1 [.trySend (.token 7), .close, .sendTerminal .done]).2.2.2 1 .done first
    [.recv, .tryRecv] (by decide)

end Session

end TribunusCompute.Streaming
