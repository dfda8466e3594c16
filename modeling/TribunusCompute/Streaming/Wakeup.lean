import Mathlib.Algebra.Order.Group.Nat
import TribunusCompute.Library.Runs
import TribunusCompute.Streaming.Channel

/-!
# Wake-ups on the generation channel

Producer threads share the sender by reference, and one thread owns the stream. All of them wait
on one condition variable, and each operation wakes one thread of those that wait, whichever it
is. A producer that is woken in place of the consumer and finds the queue full waits again and
wakes nobody.
-/
namespace TribunusCompute.Streaming

def generationChannelCapacity (capacity : Option UInt32) : ℕ := max (capacity.getD 128).toNat 1

inductive ProducerPlace
  /-- Between two operations. -/
  | running
  /-- In the wait set, in `blocking_send`. -/
  | asleep (event : GenerationEvent)
  /-- Woken in `blocking_send`: takes the lock and looks again. -/
  | notified (event : GenerationEvent)
  | exited
  deriving DecidableEq, Repr

def ProducerPlace.isAsleep : ProducerPlace → Bool
  | .asleep _ => true
  | _ => false

def ProducerPlace.isNotified : ProducerPlace → Bool
  | .notified _ => true
  | _ => false

/-- What `notify_all` does to a producer. -/
def ProducerPlace.wake : ProducerPlace → ProducerPlace
  | .asleep event => .notified event
  | place => place

inductive ConsumerPlace
  | running
  /-- In the wait set, in `recv`. -/
  | asleep
  | notified
  /-- The stream is dropped. -/
  | exited
  deriving DecidableEq, Repr

def ConsumerPlace.wake : ConsumerPlace → ConsumerPlace
  | .asleep => .notified
  | place => place

inductive Waiter
  | consumer
  | producer (number : ℕ)
  deriving DecidableEq, Repr

structure Wakeup where
  shared : SharedQueue
  producers : List ProducerPlace
  consumer : ConsumerPlace
  deriving DecidableEq, Repr

/-- A step under the lock, with the thread that its `notify_one` wakes, if any waits. -/
inductive WakeupMove
  | trySend (number : ℕ) (event : GenerationEvent) (wakes : Option Waiter)
  | trySendOrCancel (number : ℕ) (event : GenerationEvent) (wakes : Option Waiter)
  | blockingSend (number : ℕ) (event : GenerationEvent) (wakes : Option Waiter)
  | sendTerminal (number : ℕ) (event : GenerationEvent) (wakes : Option Waiter)
  /-- A woken producer's next turn of the loop of `blocking_send`. -/
  | resend (number : ℕ) (wakes : Option Waiter)
  /-- The thread of a producer ends. -/
  | exit (number : ℕ)
  /-- A turn of the loop of `recv`, the first one or that of the woken consumer. -/
  | recv (wakes : Option Waiter)
  | tryRecv (wakes : Option Waiter)
  | close
  | dropStream
  /-- The owner of the sender drops it, with no producer left that borrows it. -/
  | dropSender
  deriving DecidableEq, Repr

namespace Wakeup

def new (capacity count : ℕ) : Wakeup := ⟨.new capacity, List.replicate count .running, .running⟩

def waiting (s : Wakeup) : Bool := s.consumer = .asleep || s.producers.any ProducerPlace.isAsleep

/-- Wake the given thread, which waits; or nobody, where nobody waits. -/
def notifyOne (s : Wakeup) : Option Waiter → Option Wakeup
  | none => if s.waiting then none else some s
  | some .consumer =>
    if s.consumer = .asleep then some { s with consumer := .notified } else none
  | some (.producer number) =>
    match s.producers[number]? with
    | some (.asleep event) =>
      some { s with producers := s.producers.set number (.notified event) }
    | _ => none

def notifyAll (s : Wakeup) : Wakeup :=
  { s with producers := s.producers.map ProducerPlace.wake, consumer := s.consumer.wake }

def setProducer (s : Wakeup) (number : ℕ) (place : ProducerPlace) : Wakeup :=
  { s with producers := s.producers.set number place }

/-- The producer returns from a send, which notifies where it pushed. -/
def finishSend (s : Wakeup) (number : ℕ) (wakes : Option Waiter) :
    Except String SharedQueue → Option Wakeup
  | .ok shared => ({ s with shared }.setProducer number .running).notifyOne wakes
  | .error _ => some (s.setProducer number .running)

def blockingTurn (s : Wakeup) (number : ℕ) (event : GenerationEvent) (wakes : Option Waiter) :
    Option Wakeup :=
  match s.shared.blockingSend event with
  | none => some (s.setProducer number (.asleep event))
  | some result => s.finishSend number wakes result

/-- The consumer returns with what it got, and notifies where it took an event. -/
def finishRecv (s : Wakeup) (wakes : Option Waiter) :
    Option GenerationEvent × SharedQueue → Option Wakeup
  | (some _, shared) => { s with shared, consumer := .running }.notifyOne wakes
  | (none, shared) => some { s with shared, consumer := .running }

def step (s : Wakeup) : WakeupMove → Option Wakeup
  | .trySend number event wakes =>
    if s.producers[number]? = some .running then
      s.finishSend number wakes (s.shared.trySend event)
    else none
  | .trySendOrCancel number event wakes =>
    if s.producers[number]? = some .running then
      s.finishSend number wakes (s.shared.trySendOrCancel event)
    else none
  | .blockingSend number event wakes =>
    if s.producers[number]? = some .running then s.blockingTurn number event wakes else none
  | .sendTerminal number event wakes =>
    if s.producers[number]? = some .running then
      s.finishSend number wakes (.ok (s.shared.sendTerminal event))
    else none
  | .resend number wakes =>
    match s.producers[number]? with
    | some (.notified event) => s.blockingTurn number event wakes
    | _ => none
  | .exit number =>
    if s.producers[number]? = some .running then some (s.setProducer number .exited) else none
  | .recv wakes =>
    if s.consumer = .running ∨ s.consumer = .notified then
      match s.shared.recv with
      | none => some { s with consumer := .asleep }
      | some result => s.finishRecv wakes result
    else none
  | .tryRecv wakes =>
    if s.consumer = .running then s.finishRecv wakes s.shared.tryRecv else none
  | .close =>
    if s.consumer = .running then some { s with shared := s.shared.close }.notifyAll else none
  | .dropStream =>
    if s.consumer = .running then
      some { s with shared := s.shared.close, consumer := .exited }.notifyAll
    else none
  | .dropSender =>
    if ∀ place ∈ s.producers, place = .exited then
      some { s with shared := s.shared.dropSender }.notifyAll
    else none

/-- An event is in the queue, the consumer sleeps in `recv`, and no producer is running or woken:
none of the threads will do anything again. -/
def Stuck (s : Wakeup) : Prop :=
  s.shared.queue ≠ [] ∧ s.consumer = .asleep ∧
    ∀ place ∈ s.producers, place.isAsleep = true ∨ place = .exited

/-! ## Fewer producers than twice the capacity -/

def sleepers (s : Wakeup) : ℕ := s.producers.countP ProducerPlace.isAsleep

theorem countP_set {places : List ProducerPlace} {number : ℕ} {old : ProducerPlace}
    (found : places[number]? = some old) (place : ProducerPlace) (p : ProducerPlace → Bool) :
    (places.set number place).countP p + (if p old then 1 else 0) =
      places.countP p + if p place then 1 else 0 := by
  obtain ⟨inside, rfl⟩ := List.getElem?_eq_some_iff.mp found
  rw [List.countP_set inside]
  have : (if p places[number] then 1 else 0) ≤ places.countP p := by
    split
    next holds => exact List.countP_pos_iff.mpr ⟨_, List.getElem_mem inside, holds⟩
    next => exact Nat.zero_le _
  omega

/-- What holds in every state with fewer producers than twice the capacity. -/
structure Lively (capacity count : ℕ) (s : Wakeup) : Prop where
  capacity_ : s.shared.capacity = capacity
  count_ : s.producers.length = count
  /-- Where producers sleep, those that do not are as many as the free places of the queue. -/
  room : s.sleepers = 0 ∨ s.sleepers + capacity ≤ count + s.shared.queue.length
  /-- Where the consumer sleeps, the queue and the sleeping producers are fewer than the
  capacity, so that a woken producer finds a free place. -/
  listens : s.consumer = .asleep → s.sleepers + s.shared.queue.length < capacity ∧
    (s.shared.queue ≠ [] → ∃ place ∈ s.producers, place.isNotified = true)

variable {capacity count : ℕ} {s t : Wakeup}

theorem Lively.not_stuck (lively : s.Lively capacity count) : ¬ s.Stuck := by
  rintro ⟨nonempty, sleeps, still⟩
  obtain ⟨place, member, notified⟩ := (lively.listens sleeps).2 nonempty
  rcases still place member with asleep | rfl
  · cases place with
    | asleep event => cases notified
    | _ => cases asleep
  · cases notified

theorem notifyOne_cases {wakes : Option Waiter} (taken : s.notifyOne wakes = some t) :
    (t = s ∧ s.consumer ≠ .asleep ∧ s.sleepers = 0) ∨
    (s.consumer = .asleep ∧ t = { s with consumer := .notified }) ∨
    (∃ number event, s.producers[number]? = some (.asleep event) ∧
      t = s.setProducer number (.notified event)) := by
  cases wakes with
  | none =>
    simp only [notifyOne] at taken
    split at taken
    next => cases taken
    next nobody =>
      cases taken
      simp only [waiting, Bool.or_eq_true, decide_eq_true_eq, List.any_eq_true, not_or,
        not_exists, not_and] at nobody
      exact .inl ⟨rfl, nobody.1, List.countP_eq_zero.mpr nobody.2⟩
  | some waiter =>
    cases waiter with
    | consumer =>
      simp only [notifyOne] at taken
      split at taken
      next sleeps =>
        cases taken
        exact .inr (.inl ⟨sleeps, rfl⟩)
      next => cases taken
    | producer number =>
      simp only [notifyOne] at taken
      split at taken
      next event found =>
        cases taken
        exact .inr (.inr ⟨number, event, found, rfl⟩)
      next => cases taken

/-- A wake-up after a push or a pop. Where the consumer sleeps, somebody is woken, so that a
push is followed by a woken producer or a woken consumer. -/
theorem lively_of_notifyOne {wakes : Option Waiter} (taken : s.notifyOne wakes = some t)
    (capacity_ : s.shared.capacity = capacity) (count_ : s.producers.length = count)
    (room : s.sleepers = 0 ∨ s.sleepers + capacity ≤ count + s.shared.queue.length + 1)
    (listens : s.consumer = .asleep →
      (s.sleepers = 0 ∨ s.sleepers + capacity ≤ count + s.shared.queue.length) ∧
        s.sleepers + s.shared.queue.length ≤ capacity) : t.Lively capacity count := by
  rcases notifyOne_cases taken with ⟨rfl, awake, none_⟩ | ⟨sleeps, rfl⟩ | ⟨number, event, found, rfl⟩
  · exact ⟨capacity_, count_, .inl none_, fun sleeps => absurd sleeps awake⟩
  · exact ⟨capacity_, count_, (listens sleeps).1, nofun⟩
  · have fewer : (s.setProducer number (.notified event)).sleepers + 1 = s.sleepers :=
      countP_set found _ _
    refine ⟨capacity_, by rw [setProducer, List.length_set]; exact count_, ?_, fun sleeps => ?_⟩
    · change _ ∨ _ ≤ count + s.shared.queue.length
      omega
    · have woken : (s.setProducer number (.notified event)).sleepers + s.shared.queue.length <
          capacity := by
        have := (listens sleeps).2
        omega
      refine ⟨woken, fun _ => ⟨.notified event, ?_, rfl⟩⟩
      exact List.mem_set (List.getElem?_eq_some_iff.mp found).1 _

theorem lively_new (capacity count : ℕ) : (new capacity count).Lively capacity count := by
  refine ⟨rfl, List.length_replicate, .inl ?_, nofun⟩
  exact List.countP_eq_zero.mpr fun place member => by
    rw [List.eq_of_mem_replicate member]
    nofun

theorem sleepers_setProducer {number : ℕ} {place place' : ProducerPlace}
    (found : s.producers[number]? = some place) (awake : place.isAsleep = false)
    (awake' : place'.isAsleep = false) : (s.setProducer number place').sleepers = s.sleepers := by
  have kept := countP_set found place' ProducerPlace.isAsleep
  rw [awake, awake'] at kept
  exact kept

section
variable (lively : s.Lively capacity count) {number : ℕ} {place : ProducerPlace}
  (found : s.producers[number]? = some place) (awake : place.isAsleep = false)
include lively found awake

theorem Lively.push {shared : SharedQueue} {wakes : Option Waiter} {event : GenerationEvent}
    (pushed : shared = s.shared.pushBack event)
    (taken : s.finishSend number wakes (.ok shared) = some t) : t.Lively capacity count := by
  subst pushed
  have same : (s.setProducer number .running).sleepers = s.sleepers :=
    sleepers_setProducer found awake rfl
  have longer : (s.shared.pushBack event).queue.length = s.shared.queue.length + 1 := by
    simp [SharedQueue.pushBack]
  apply lively_of_notifyOne taken lively.capacity_
    (by rw [setProducer, List.length_set]; exact lively.count_)
  · have := lively.room
    change sleepers (s.setProducer number .running) = 0 ∨
      sleepers (s.setProducer number .running) + capacity ≤
        count + (s.shared.pushBack event).queue.length + 1
    omega
  · intro sleeps
    have few := (lively.listens sleeps).1
    have := lively.room
    change (sleepers (s.setProducer number .running) = 0 ∨
      sleepers (s.setProducer number .running) + capacity ≤
        count + (s.shared.pushBack event).queue.length) ∧
      sleepers (s.setProducer number .running) + (s.shared.pushBack event).queue.length ≤ capacity
    omega

/-- A producer goes on without a push, where it was not woken for the queue's free place. -/
theorem Lively.pass {place' : ProducerPlace} (awake' : place'.isAsleep = false)
    (idle : place.isNotified = true → s.consumer ≠ .asleep) :
    (s.setProducer number place').Lively capacity count := by
  have same := sleepers_setProducer found awake awake'
  refine ⟨lively.capacity_, by rw [setProducer, List.length_set]; exact lively.count_, ?_, ?_⟩
  · rw [same]
    exact lively.room
  · intro sleeps
    rw [same]
    refine ⟨(lively.listens sleeps).1, fun nonempty => ?_⟩
    obtain ⟨woken, member, notified⟩ := (lively.listens sleeps).2 nonempty
    refine ⟨woken, ?_, notified⟩
    obtain ⟨other, there⟩ := List.mem_iff_getElem?.mp member
    have apart : number ≠ other := by
      rintro rfl
      rw [found] at there
      obtain rfl := Option.some.inj there
      exact idle notified sleeps
    apply List.mem_iff_getElem?.mpr
    exact ⟨other, by rw [setProducer, List.getElem?_set_ne apart]; exact there⟩

/-- A producer that finds the queue full goes to sleep; the consumer is not asleep then. -/
theorem Lively.sleep {event : GenerationEvent} (full : capacity ≤ s.shared.queue.length) :
    (s.setProducer number (.asleep event)).Lively capacity count := by
  have more : (s.setProducer number (.asleep event)).sleepers = s.sleepers + 1 := by
    have counts := countP_set found (.asleep event) ProducerPlace.isAsleep
    rw [awake] at counts
    exact counts
  have inside : (s.setProducer number (.asleep event)).sleepers ≤ count := by
    rw [← lively.count_, ← List.length_set]
    exact List.countP_le_length
  refine ⟨lively.capacity_, by rw [setProducer, List.length_set]; exact lively.count_, ?_, ?_⟩
  · change _ ∨ _ ≤ count + s.shared.queue.length
    omega
  · intro sleeps
    have := (lively.listens sleeps).1
    omega

theorem Lively.blockingTurn {event : GenerationEvent} {wakes : Option Waiter}
    (taken : s.blockingTurn number event wakes = some t) : t.Lively capacity count := by
  unfold Wakeup.blockingTurn SharedQueue.blockingSend at taken
  rw [lively.capacity_] at taken
  rcases Nat.lt_or_ge s.shared.queue.length capacity with free | full
  · rw [if_neg (Nat.not_le.mpr free)] at taken
    exact lively.push found awake rfl taken
  · rw [if_pos full] at taken
    split at taken
    next => cases taken; exact lively.sleep found awake full
    next result closes =>
      split at closes
      next =>
        cases closes
        cases taken
        refine lively.pass found awake rfl fun _ sleeps => ?_
        have := (lively.listens sleeps).1
        omega
      next => cases closes

end

section
variable (lively : s.Lively capacity count)
include lively

theorem Lively.pop {event : GenerationEvent} {shared : SharedQueue} {wakes : Option Waiter}
    (popped : s.shared.popFront = some (event, shared))
    (taken : s.finishRecv wakes (some event, shared) = some t) : t.Lively capacity count := by
  have shorter : shared.queue.length + 1 = s.shared.queue.length ∧
      shared.capacity = s.shared.capacity := by
    unfold SharedQueue.popFront at popped
    split at popped
    next => cases popped
    next front =>
      cases popped
      rw [front]
      exact ⟨rfl, rfl⟩
  apply lively_of_notifyOne taken (shorter.2.trans lively.capacity_) lively.count_
  · have := lively.room
    change s.sleepers = 0 ∨ s.sleepers + capacity ≤ count + shared.queue.length + 1
    omega
  · nofun

theorem Lively.wakeConsumer {shared : SharedQueue} {consumer : ConsumerPlace}
    (queue : shared.queue = s.shared.queue) (capacity_ : shared.capacity = s.shared.capacity)
    (awake : consumer ≠ .asleep) :
    Lively capacity count { s with shared, consumer } :=
  ⟨capacity_.trans lively.capacity_, lively.count_,
    by change s.sleepers = 0 ∨ s.sleepers + capacity ≤ count + shared.queue.length
       rw [queue]; exact lively.room,
    fun sleeps => absurd sleeps awake⟩

/-- The consumer goes to sleep on an empty queue. As many producers are awake as the queue has
places, and there are fewer than twice as many, so that fewer sleep. -/
theorem Lively.sleepConsumer (few : count < 2 * capacity) (empty : s.shared.queue = []) :
    Lively capacity count { s with consumer := .asleep } := by
  refine ⟨lively.capacity_, lively.count_, lively.room, fun _ => ⟨?_, fun nonempty => ?_⟩⟩
  · have room := lively.room
    change s.sleepers + s.shared.queue.length < capacity
    rw [empty] at room ⊢
    simp only [List.length_nil] at room ⊢
    omega
  · exact absurd empty nonempty

end

theorem lively_notifyAll (capacity_ : s.shared.capacity = capacity)
    (count_ : s.producers.length = count) : s.notifyAll.Lively capacity count := by
  have none_ : s.notifyAll.sleepers = 0 := by
    apply List.countP_eq_zero.mpr
    intro place member
    obtain ⟨old, -, rfl⟩ := List.mem_map.mp member
    cases old <;> nofun
  refine ⟨capacity_, (List.length_map _).trans count_, .inl none_, fun sleeps => ?_⟩
  have awake : s.consumer.wake ≠ .asleep := by cases s.consumer <;> nofun
  exact absurd sleeps awake

theorem Lively.step (few : count < 2 * capacity) (lively : s.Lively capacity count)
    (move : WakeupMove) (taken : s.step move = some t) : t.Lively capacity count := by
  -- A send that does not wait pushes its event and notifies, or leaves everything as it is.
  have send {number : ℕ} {wakes : Option Waiter} {result : Except String SharedQueue}
      (event : GenerationEvent) (found : s.producers[number]? = some .running)
      (pushes : ∀ shared, result = .ok shared → shared = s.shared.pushBack event)
      (taken : s.finishSend number wakes result = some t) : t.Lively capacity count := by
    cases result with
    | ok shared => exact lively.push found rfl (pushes shared rfl) taken
    | error message =>
      cases taken
      exact lively.pass found rfl rfl nofun
  cases move with
  | trySend number event wakes =>
    simp only [Wakeup.step] at taken
    split at taken
    next found =>
      refine send event found (fun shared sent => ?_) taken
      unfold SharedQueue.trySend at sent
      split at sent
      next => cases sent
      next => split at sent <;> cases sent; rfl
    next => cases taken
  | trySendOrCancel number event wakes =>
    simp only [Wakeup.step] at taken
    split at taken
    next found =>
      refine send event found (fun shared sent => ?_) taken
      unfold SharedQueue.trySendOrCancel at sent
      split at sent
      next => cases sent
      next => split at sent <;> cases sent; rfl
    next => cases taken
  | blockingSend number event wakes | resend number wakes =>
    simp only [Wakeup.step] at taken
    split at taken
    next found => exact lively.blockingTurn found rfl taken
    next => cases taken
  | sendTerminal number event wakes =>
    simp only [Wakeup.step] at taken
    split at taken
    next found => exact send event found (fun shared sent => (Except.ok.inj sent).symm) taken
    next => cases taken
  | exit number =>
    simp only [Wakeup.step] at taken
    split at taken
    next found =>
      cases taken
      exact lively.pass found rfl rfl nofun
    next => cases taken
  | recv wakes =>
    simp only [Wakeup.step] at taken
    split at taken
    next =>
      unfold SharedQueue.recv at taken
      split at taken
      next sleeps =>
        -- The consumer goes to sleep at an empty queue only.
        cases taken
        split at sleeps
        next => cases sleeps
        next =>
          split at sleeps
          next => cases sleeps
          next none_ => exact lively.sleepConsumer few (Session.queue_of_popFront_none none_)
      next result returns =>
        -- It stays awake behind the terminal event, with an event, and at the end of the stream.
        split at returns
        next =>
          cases returns
          cases taken
          exact lively.wakeConsumer rfl rfl nofun
        next =>
          split at returns
          next popped =>
            cases returns
            exact lively.pop popped taken
          next =>
            split at returns <;> cases returns
            cases taken
            exact lively.wakeConsumer rfl rfl nofun
    next => cases taken
  | tryRecv wakes =>
    simp only [Wakeup.step] at taken
    split at taken
    next =>
      unfold SharedQueue.tryRecv at taken
      split at taken
      next =>
        cases taken
        exact lively.wakeConsumer rfl rfl nofun
      next =>
        split at taken
        next popped => exact lively.pop popped taken
        next =>
          cases taken
          exact lively.wakeConsumer rfl rfl nofun
    next => cases taken
  | close | dropStream | dropSender =>
    simp only [Wakeup.step] at taken
    split at taken <;> cases taken
    exact lively_notifyAll lively.capacity_ lively.count_

/-! ## Twice as many producers as the capacity -/

/-- `t` is reached from `s`. -/
def Reaches (s t : Wakeup) : Prop := ∃ moves, Runs.exec step s moves = some t

theorem Reaches.refl (s : Wakeup) : s.Reaches s := ⟨[], rfl⟩

theorem Reaches.trans {u : Wakeup} (first : s.Reaches t) (second : t.Reaches u) : s.Reaches u := by
  obtain ⟨moves, reached⟩ := first
  obtain ⟨moves', reached'⟩ := second
  exact ⟨moves ++ moves', by rw [Runs.exec_append, reached]; exact reached'⟩

theorem reaches_of_step (move : WakeupMove) (taken : s.step move = some t) : s.Reaches t :=
  ⟨[move], by rw [Runs.exec, taken]; rfl⟩

def filled (capacity length : ℕ) : SharedQueue :=
  ⟨List.replicate length (.token 0), capacity, false, true, false⟩

theorem pushBack_filled (capacity length : ℕ) :
    (filled capacity length).pushBack (.token 0) = filled capacity (length + 1) := by
  simp only [SharedQueue.pushBack, filled, List.replicate_succ']

theorem length_filled (capacity length : ℕ) : (filled capacity length).queue.length = length :=
  List.length_replicate

theorem blockingSend_filled_full {capacity length : ℕ} (full : capacity ≤ length) :
    (filled capacity length).blockingSend (.token 0) = none := by
  rw [SharedQueue.blockingSend, length_filled]
  exact if_pos full

theorem blockingSend_filled_free {capacity length : ℕ} (free : length < capacity) :
    (filled capacity length).blockingSend (.token 0) =
      some (.ok (filled capacity (length + 1))) := by
  rw [SharedQueue.blockingSend, length_filled, pushBack_filled]
  exact if_neg (Nat.not_le.mpr free)

/-- Producers that send tokens, with the numbers of those that sleep and those that are woken. -/
structure Crowd (count asleep woken : ℕ) (places : List ProducerPlace) : Prop where
  count_ : places.length = count
  sends : ∀ place ∈ places,
    place = .running ∨ place = .asleep (.token 0) ∨ place = .notified (.token 0)
  asleep_ : places.countP ProducerPlace.isAsleep = asleep
  woken_ : places.countP ProducerPlace.isNotified = woken

variable {asleep woken length : ℕ} {places : List ProducerPlace} {consumer : ConsumerPlace}

theorem Crowd.set (crowd : Crowd count asleep woken places) (asleep' woken' : ℕ) {number : ℕ}
    {old place : ProducerPlace} (found : places[number]? = some old)
    (sends : place = .running ∨ place = .asleep (.token 0) ∨ place = .notified (.token 0))
    (asleep_ : asleep' + (if old.isAsleep then 1 else 0) =
      asleep + if place.isAsleep then 1 else 0)
    (woken_ : woken' + (if old.isNotified then 1 else 0) =
      woken + if place.isNotified then 1 else 0) :
    Crowd count asleep' woken' (places.set number place) := by
  have sleepers := countP_set found place ProducerPlace.isAsleep
  have notified := countP_set found place ProducerPlace.isNotified
  rw [crowd.asleep_] at sleepers
  rw [crowd.woken_] at notified
  refine ⟨by rw [List.length_set]; exact crowd.count_, fun other member => ?_, by omega, by omega⟩
  rcases List.mem_or_eq_of_mem_set member with before | rfl
  · exact crowd.sends other before
  · exact sends

theorem Crowd.sleeper (crowd : Crowd count (asleep + 1) woken places) :
    ∃ number : ℕ, places[number]? = some (ProducerPlace.asleep (.token 0)) := by
  have some_ : 0 < places.countP ProducerPlace.isAsleep := by
    rw [crowd.asleep_]
    exact Nat.succ_pos asleep
  obtain ⟨place, member, sleeps⟩ := List.countP_pos_iff.mp some_
  obtain ⟨number, found⟩ := List.mem_iff_getElem?.mp member
  rcases crowd.sends place member with rfl | rfl | rfl
  · cases sleeps
  · exact ⟨number, found⟩
  · cases sleeps

theorem Crowd.wokenOne (crowd : Crowd count asleep (woken + 1) places) :
    ∃ number : ℕ, places[number]? = some (ProducerPlace.notified (.token 0)) := by
  have some_ : 0 < places.countP ProducerPlace.isNotified := by
    rw [crowd.woken_]
    exact Nat.succ_pos woken
  obtain ⟨place, member, notified⟩ := List.countP_pos_iff.mp some_
  obtain ⟨number, found⟩ := List.mem_iff_getElem?.mp member
  rcases crowd.sends place member with rfl | rfl | rfl
  · cases notified
  · cases notified
  · exact ⟨number, found⟩

theorem Crowd.blocks (crowd : Crowd count asleep woken places) (full : capacity ≤ length)
    (more : asleep < count) (consumer : ConsumerPlace) :
    ∃ places' woken', Reaches ⟨filled capacity length, places, consumer⟩
      ⟨filled capacity length, places', consumer⟩ ∧ Crowd count (asleep + 1) woken' places' := by
  have awake : ∃ place ∈ places, place.isAsleep = false := by
    by_contra all
    have every := List.countP_eq_length.mpr fun place member => by
      by_contra is_
      exact all ⟨place, member, Bool.eq_false_iff.mpr is_⟩
    rw [crowd.asleep_, crowd.count_] at every
    omega
  obtain ⟨place, member, awake⟩ := awake
  obtain ⟨number, found⟩ := List.mem_iff_getElem?.mp member
  have sleeps : blockingTurn ⟨filled capacity length, places, consumer⟩ number (.token 0) none =
      some ⟨filled capacity length, places.set number (.asleep (.token 0)), consumer⟩ := by
    rw [Wakeup.blockingTurn, blockingSend_filled_full full]
    rfl
  rcases crowd.sends place member with rfl | rfl | rfl
  · refine ⟨_, woken, reaches_of_step (.blockingSend number (.token 0) none) ?_,
      crowd.set (asleep + 1) woken found (.inr (.inl rfl)) rfl rfl⟩
    exact (if_pos found).trans sleeps
  · cases awake
  · have positive : 0 < woken := crowd.woken_ ▸ List.countP_pos_iff.mpr ⟨_, member, rfl⟩
    refine ⟨_, woken - 1, reaches_of_step (.resend number none) ?_,
      crowd.set (asleep + 1) (woken - 1) found (.inr (.inl rfl)) rfl (by
        change woken - 1 + 1 = woken + 0
        omega)⟩
    simp only [step, found]
    exact sleeps

theorem Crowd.all_block (crowd : Crowd count asleep woken places) (full : capacity ≤ length)
    (consumer : ConsumerPlace) :
    ∃ places' woken', Reaches ⟨filled capacity length, places, consumer⟩
      ⟨filled capacity length, places', consumer⟩ ∧ Crowd count count woken' places' := by
  have inside : asleep ≤ count := by
    rw [← crowd.asleep_, ← crowd.count_]
    exact List.countP_le_length
  obtain ⟨rest, rfl⟩ := Nat.exists_eq_add_of_le inside
  induction rest generalizing asleep woken places with
  | zero => exact ⟨places, woken, .refl _, crowd⟩
  | succ rest ih =>
    obtain ⟨places', woken', reached, crowd'⟩ := crowd.blocks full (by omega) consumer
    have same : asleep + (rest + 1) = asleep + 1 + rest := by omega
    rw [same] at crowd' ⊢
    obtain ⟨last, woken'', reached', crowd''⟩ := ih crowd' (by omega)
    exact ⟨last, woken'', reached.trans reached', crowd''⟩

/-- The consumer takes all tokens, and each take wakes a producer. -/
theorem Crowd.all_taken (crowd : Crowd count (asleep + length) woken places) :
    ∃ places', Reaches ⟨filled capacity length, places, .running⟩
      ⟨filled capacity 0, places', .running⟩ ∧ Crowd count asleep (woken + length) places' := by
  induction length generalizing woken places with
  | zero => exact ⟨places, .refl _, crowd⟩
  | succ length ih =>
    have crowd_ : Crowd count (asleep + length + 1) woken places := crowd
    obtain ⟨number, found⟩ := crowd_.sleeper
    have taken : step ⟨filled capacity (length + 1), places, .running⟩
        (.recv (some (.producer number))) =
        some ⟨filled capacity length, places.set number (.notified (.token 0)), .running⟩ := by
      have woken : notifyOne ⟨filled capacity length, places, .running⟩ (some (.producer number)) =
          some ⟨filled capacity length, places.set number (.notified (.token 0)), .running⟩ := by
        simp only [notifyOne, found]
      exact woken
    have crowd' := crowd_.set (asleep + length) (woken + 1) found
      (.inr (.inr rfl)) rfl rfl
    obtain ⟨places', reached, last⟩ := ih crowd'
    refine ⟨places', (reaches_of_step _ taken).trans reached, ?_⟩
    rwa [Nat.add_right_comm] at last

/-- The consumer sleeps. A woken producer pushes, and wakes another one in place of the
consumer, as often as the queue has places and producers sleep. -/
theorem Crowd.all_pass {passes : ℕ} (crowd : Crowd count (asleep + passes) (woken + 1) places)
    (free : length + passes ≤ capacity) :
    ∃ places', Reaches ⟨filled capacity length, places, .asleep⟩
      ⟨filled capacity (length + passes), places', .asleep⟩ ∧
      Crowd count asleep (woken + 1) places' := by
  induction passes generalizing length places with
  | zero => exact ⟨places, .refl _, crowd⟩
  | succ passes ih =>
    have crowd_ : Crowd count (asleep + passes + 1) (woken + 1) places := crowd
    obtain ⟨number, found⟩ := crowd_.wokenOne
    have crowd' := crowd_.set (asleep + passes + 1) woken found
      (.inl rfl) rfl rfl
    obtain ⟨other, found'⟩ := crowd'.sleeper
    have crowd'' := crowd'.set (asleep + passes) (woken + 1) found'
      (.inr (.inr rfl)) rfl rfl
    have free' : length + 1 + passes ≤ capacity := by omega
    have taken : step ⟨filled capacity length, places, .asleep⟩
        (.resend number (some (.producer other))) =
        some ⟨filled capacity (length + 1),
          (places.set number .running).set other (.notified (.token 0)), .asleep⟩ := by
      simp only [step, found, blockingTurn, blockingSend_filled_free (by omega : length < capacity),
        finishSend, setProducer, notifyOne, found']
    obtain ⟨places', reached, last⟩ := ih crowd'' free'
    refine ⟨places', (reaches_of_step _ taken).trans ?_, last⟩
    rwa [Nat.add_right_comm, Nat.add_assoc] at reached

theorem reaches_filled (positive : 0 < count) (fits : length ≤ capacity) :
    Reaches (new capacity count)
      ⟨filled capacity length, List.replicate count .running, .running⟩ := by
  induction length with
  | zero => exact .refl _
  | succ length ih =>
    have found : (List.replicate count ProducerPlace.running)[0]? = some .running := by
      rw [List.getElem?_replicate, if_pos positive]
    have sent : (filled capacity length).trySend (.token 0) = .ok (filled capacity (length + 1)) := by
      rw [SharedQueue.trySend, length_filled, pushBack_filled]
      exact if_neg (Nat.not_le.mpr fits)
    have same : (List.replicate count ProducerPlace.running).set 0 .running =
        List.replicate count .running := by
      obtain ⟨rest, rfl⟩ := Nat.exists_eq_add_of_le' positive
      rfl
    have nobody : waiting ⟨filled capacity (length + 1), List.replicate count .running, .running⟩ =
        false := by
      simp [waiting, ProducerPlace.isAsleep]
    refine (ih (by omega)).trans (reaches_of_step (.trySend 0 (.token 0) none) ?_)
    simp only [step, found, if_true, sent, finishSend, setProducer, same, notifyOne, nobody,
      Bool.false_eq_true, if_false]

/-- With twice as many producers as the capacity the queue fills up behind a sleeping consumer:
each producer that is woken for a place that the consumer made free wakes another one. -/
theorem reaches_stuck (positive : 0 < capacity) (many : 2 * capacity ≤ count) :
    ∃ last : Wakeup, (new capacity count).Reaches last ∧ last.Stuck := by
  have crowd : Crowd count 0 0 (List.replicate count ProducerPlace.running) := by
    refine ⟨List.length_replicate, fun place member => .inl (List.eq_of_mem_replicate member),
      ?_, ?_⟩ <;> rw [List.countP_replicate] <;> rfl
  obtain ⟨rest, rfl⟩ := Nat.exists_eq_add_of_le many
  -- The producers block on the full queue.
  obtain ⟨blocked, woken, reached, crowd⟩ := crowd.all_block (Nat.le_refl capacity) .running
  have first : (new capacity (2 * capacity + rest)).Reaches
      ⟨filled capacity capacity, blocked, .running⟩ :=
    (reaches_filled (by omega) (Nat.le_refl capacity)).trans reached
  -- The consumer takes all, wakes as many of them, and goes to sleep.
  have crowd_ : Crowd (2 * capacity + rest) (rest + capacity + capacity) woken blocked := by
    have : rest + capacity + capacity = 2 * capacity + rest := by omega
    rwa [this]
  obtain ⟨taken, reached, crowd⟩ := @Crowd.all_taken capacity _ _ _ _ _ crowd_
  have second : Reaches ⟨filled capacity 0, taken, .running⟩ ⟨filled capacity 0, taken, .asleep⟩ :=
    reaches_of_step (.recv none) rfl
  -- The woken producers fill the queue again and wake the others, which block with them.
  have crowd_ : Crowd (2 * capacity + rest) (rest + capacity) (woken + (capacity - 1) + 1)
      taken := by
    have : woken + (capacity - 1) + 1 = woken + capacity := by omega
    rwa [this]
  obtain ⟨passed, reached', crowd⟩ :=
    @Crowd.all_pass capacity _ _ _ 0 _ capacity crowd_ (Nat.le_of_eq (Nat.zero_add capacity))
  rw [Nat.zero_add] at reached'
  obtain ⟨last, _, reached'', crowd⟩ := crowd.all_block (Nat.le_refl capacity) .asleep
  refine ⟨_, first.trans (reached.trans (second.trans (reached'.trans reached''))), ?_, rfl, ?_⟩
  · intro empty
    have nothing := congrArg List.length empty
    rw [length_filled] at nothing
    exact absurd nothing (Nat.pos_iff_ne_zero.mp positive)
  · intro place member
    exact .inl (List.countP_eq_length.mp (crowd.asleep_.trans crowd.count_.symm) place member)

theorem generationChannelCapacity_pos (capacity : Option UInt32) :
    0 < generationChannelCapacity capacity :=
  Nat.lt_of_lt_of_le Nat.zero_lt_one (Nat.le_max_right _ _)

/-- No run of a channel's threads gets stuck exactly where its producers are fewer than twice its
capacity. -/
theorem not_stuck_iff (capacity : Option UInt32) (count : ℕ) :
    (∀ moves last, Runs.exec step (new (generationChannelCapacity capacity) count) moves =
      some last → ¬ last.Stuck) ↔ count < 2 * generationChannelCapacity capacity := by
  constructor
  · intro never
    by_contra many
    obtain ⟨last, ⟨moves, reached⟩, stuck⟩ :=
      reaches_stuck (generationChannelCapacity_pos capacity) (Nat.not_lt.mp many)
    exact never moves last reached stuck
  · intro few moves last run
    have lively := Runs.exec_keeps step (fun _ move _ _ lively taken =>
      Lively.step few lively move taken) (lively_new _ count) run
    exact lively.not_stuck

/-- Capacity one and two producers. Both block on the full queue; the consumer takes the event,
which wakes the first, and goes to sleep. The first pushes and wakes the second, and both wait
for a free place with the consumer asleep. -/
theorem two_producers_stuck :
    ∃ last, Runs.exec step (new (generationChannelCapacity (some 1)) 2)
      [.blockingSend 0 (.token 0) none, .blockingSend 0 (.token 1) none,
        .blockingSend 1 (.token 2) none, .recv (some (.producer 0)), .recv none,
        .resend 0 (some (.producer 1)), .blockingSend 0 (.token 3) none, .resend 1 none] =
        some last ∧ last.Stuck := by
  refine ⟨⟨⟨[.token 1], 1, false, true, false⟩, [.asleep (.token 3), .asleep (.token 2)], .asleep⟩,
    by decide, by decide, by decide, by decide⟩

end Wakeup

end TribunusCompute.Streaming
