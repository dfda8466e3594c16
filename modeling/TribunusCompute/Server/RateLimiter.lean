import Mathlib.Algebra.Order.Group.Nat
import Mathlib.Data.List.AList
import TribunusCompute.Library.Outcome
import TribunusCompute.Library.Runs

/-!
# The rate limiter, one access at a time

`try_consume` takes tokens with a compare-exchange, but `refill` loads the tokens and stores the
refilled count in two accesses, and `check` looks for a bucket and inserts a new one under two
locks. The clock and the gain of a refill are those of the environment.
-/
namespace TribunusCompute.Server

open Outcome (saturatingAdd)

structure TokenBucket where
  tokens : ℕ
  capacity : ℕ
  lastRefill : ℕ
  deriving DecidableEq, Repr

/-- Where a thread is: in `check`, in `refill` or in the loop of `try_consume`. -/
inductive LimiterPlace
  | idle
  /-- `check` has found no bucket. -/
  | creating (ip : String)
  /-- At the clock and the load of `last_refill`. -/
  | calling (bucket tokens : ℕ)
  /-- At the compare-exchange of `last_refill`. -/
  | claiming (bucket tokens now last : ℕ)
  /-- At the load of the tokens to be refilled. -/
  | loading (bucket tokens gained : ℕ)
  /-- At their store. -/
  | storing (bucket tokens gained new : ℕ)
  /-- At the load of the loop. -/
  | consuming (bucket tokens : ℕ)
  /-- At its compare-exchange. -/
  | exchanging (bucket tokens current : ℕ)
  deriving DecidableEq, Repr

def LimiterPlace.bucket? : LimiterPlace → Option ℕ
  | .calling bucket _ | .claiming bucket _ _ _ | .loading bucket _ _ | .storing bucket _ _ _
  | .consuming bucket _ | .exchanging bucket _ _ => some bucket
  | .idle | .creating _ => none

/-- The buckets that were created, those in the map by their place among them, and the tokens
that were granted and gained so far. -/
structure RateLimiter (Thread : Type*) where
  heap : List TokenBucket
  buckets : AList fun _ : String => ℕ
  threads : Thread → LimiterPlace
  granted : ℕ
  gained : ℕ
  replies : List (Thread × Bool)

inductive LimiterMove
  | tryConsume (bucket tokens : ℕ)
  | check (ip : String)
  /-- The next access of a call, with the time in seconds. -/
  | proceed (now : ℕ)
  deriving DecidableEq, Repr

namespace RateLimiter

variable {Thread : Type*}

def new : RateLimiter Thread := ⟨[], ∅, fun _ => .idle, 0, 0, []⟩

def ofBucket (ip : String) (capacity now : ℕ) : RateLimiter Thread :=
  ⟨[⟨capacity, capacity, now⟩], AList.singleton ip 0, fun _ => .idle, 0, 0, []⟩

variable [DecidableEq Thread] (capacity : ℕ) (gain : ℕ → ℕ) (s : RateLimiter Thread)

def goto (thread : Thread) (place : LimiterPlace) : RateLimiter Thread :=
  { s with threads := Function.update s.threads thread place }

def reply (thread : Thread) (granted : Bool) : RateLimiter Thread :=
  { s with
    threads := Function.update s.threads thread .idle
    replies := s.replies ++ [(thread, granted)] }

def access (thread : Thread) (now : ℕ) : LimiterPlace → TokenBucket → RateLimiter Thread
  | .calling bucket tokens, b =>
    if now ≤ b.lastRefill then s.goto thread (.consuming bucket tokens)
    else s.goto thread (.claiming bucket tokens now b.lastRefill)
  | .claiming bucket tokens now last, b =>
    if b.lastRefill = last then
      let claimed := { s with heap := s.heap.set bucket { b with lastRefill := now } }
      let gained := gain (now - last)
      if gained > 0 then claimed.goto thread (.loading bucket tokens gained)
      else claimed.goto thread (.consuming bucket tokens)
    else s.goto thread (.consuming bucket tokens)
  | .loading bucket tokens gained, b =>
    s.goto thread (.storing bucket tokens gained (min b.capacity (saturatingAdd b.tokens gained)))
  | .storing bucket tokens gained new, b =>
    { s with
      heap := s.heap.set bucket { b with tokens := new }
      gained := s.gained + gained }.goto thread (.consuming bucket tokens)
  | .consuming bucket tokens, b =>
    if b.tokens < tokens then s.reply thread false
    else s.goto thread (.exchanging bucket tokens b.tokens)
  | .exchanging bucket tokens current, b =>
    if b.tokens = current then
      { s with
        heap := s.heap.set bucket { b with tokens := current - tokens }
        granted := s.granted + tokens }.reply thread true
    else s.goto thread (.consuming bucket tokens)
  | .idle, _ | .creating _, _ => s

def step : Thread × LimiterMove → Option (RateLimiter Thread)
  | (thread, .tryConsume bucket tokens) =>
    if s.threads thread = .idle ∧ bucket < s.heap.length then
      some (s.goto thread (.calling bucket tokens))
    else none
  | (thread, .check ip) =>
    if s.threads thread = .idle then
      match s.buckets.lookup ip with
      | some bucket => some (s.goto thread (.calling bucket 1))
      | none => some (s.goto thread (.creating ip))
    else none
  | (thread, .proceed now) =>
    match s.threads thread with
    | .idle => none
    | .creating ip =>
      let b : TokenBucket := ⟨capacity, capacity, now⟩
      some ({ s with
        heap := s.heap ++ [b]
        buckets := s.buckets.insert ip s.heap.length }.goto thread (.calling s.heap.length 1))
    | place => (place.bucket?.bind fun bucket => s.heap[bucket]?).map fun b =>
      s.access gain thread now place b

/-! ## The budget -/

/-- A store of `refill` puts back no more than it gained, and a bucket is inserted only where
there is none: no access of another thread came between. -/
def Undisturbed {Thread : Type*} (s : RateLimiter Thread) : Thread × LimiterMove → Prop
  | (thread, .proceed _) =>
    match s.threads thread with
    | .storing bucket _ gained new => ∀ b ∈ s.heap[bucket]?, new ≤ b.tokens + gained
    | .creating ip => s.buckets.lookup ip = none
    | _ => True
  | _ => True

instance decidableUndisturbed {Thread : Type*} (s : RateLimiter Thread) :
    ∀ move, Decidable (Undisturbed s move)
  | (_, .tryConsume _ _) | (_, .check _) => isTrue trivial
  | (thread, .proceed _) =>
    match there : s.threads thread with
    | .storing bucket _ gained new =>
      decidable_of_iff (∀ b ∈ s.heap[bucket]?, new ≤ b.tokens + gained)
        (by simp [Undisturbed, there])
    | .creating ip => decidable_of_iff (s.buckets.lookup ip = none) (by simp [Undisturbed, there])
    | .idle | .calling _ _ | .claiming _ _ _ _ | .loading _ _ _ | .consuming _ _
    | .exchanging _ _ _ => isTrue (by simp [Undisturbed, there])

/-- The move is none that checks another ip. -/
def OneIp (ip : String) : LimiterMove → Prop
  | .check ip' => ip' = ip
  | _ => True

def WithinBudget {Thread : Type*} (capacity : ℕ) (s : RateLimiter Thread) : Prop :=
  s.granted ≤ capacity + s.gained

instance {Thread : Type*} (capacity : ℕ) (s : RateLimiter Thread) :
    Decidable (WithinBudget capacity s) :=
  inferInstanceAs (Decidable (s.granted ≤ capacity + s.gained))

/-- There is at most one bucket, and it has no more than what is left of the budget. -/
structure Kept {Thread : Type*} (ip : String) (capacity : ℕ) (s : RateLimiter Thread) : Prop where
  bucket : s.heap = [] ∧ s.granted ≤ s.gained ∨
    ∃ b, s.heap = [b] ∧ b.tokens + s.granted ≤ capacity + s.gained ∧
      (s.buckets.lookup ip).isSome
  checked : ∀ thread ip', s.threads thread = .creating ip' → ip' = ip
  enough : ∀ thread bucket tokens current, s.threads thread = .exchanging bucket tokens current →
    tokens ≤ current

section Steps

variable {Thread : Type*} {s : RateLimiter Thread} {ip : String} {capacity : ℕ} {gain : ℕ → ℕ}
  {thread : Thread} {place : LimiterPlace}

theorem Kept.withinBudget (kept : Kept ip capacity s) : WithinBudget capacity s := by
  unfold WithinBudget
  obtain ⟨-, less⟩ | ⟨b, -, budget, -⟩ := kept.bucket
  · omega
  · omega

variable [DecidableEq Thread]

theorem of_goto {other : Thread} {target : LimiterPlace}
    (there : (s.goto thread place).threads other = target) :
    place = target ∨ s.threads other = target := by
  change Function.update s.threads thread place other = target at there
  by_cases same : other = thread
  case pos =>
    subst same
    rw [Function.update_self] at there
    exact .inl there
  case neg =>
    rw [Function.update_of_ne same] at there
    exact .inr there

theorem Kept.goto (kept : Kept ip capacity s) (checked : ∀ ip', place = .creating ip' → ip' = ip)
    (enough : ∀ bucket tokens current, place = .exchanging bucket tokens current →
      tokens ≤ current) : Kept ip capacity (s.goto thread place) where
  bucket := kept.bucket
  checked other ip' there := by
    obtain now | before := of_goto there
    · exact checked ip' now
    · exact kept.checked other ip' before
  enough other bucket tokens current there := by
    obtain now | before := of_goto there
    · exact enough bucket tokens current now
    · exact kept.enough other bucket tokens current before

theorem Kept.reply {granted : Bool} (kept : Kept ip capacity s) :
    Kept ip capacity (s.reply thread granted) := by
  have gone : Kept ip capacity (s.goto thread .idle) := kept.goto (by simp) (by simp)
  exact ⟨gone.bucket, gone.checked, gone.enough⟩

omit [DecidableEq Thread] in
theorem Kept.only (kept : Kept ip capacity s) {bucket : ℕ} {b : TokenBucket}
    (at_ : s.heap[bucket]? = some b) : s.heap = [b] ∧ bucket = 0 ∧
      b.tokens + s.granted ≤ capacity + s.gained ∧ (s.buckets.lookup ip).isSome := by
  obtain ⟨none_, -⟩ | ⟨b', one, budget, known⟩ := kept.bucket
  · simp [none_] at at_
  · rw [one] at at_
    obtain ⟨inside, same⟩ := List.getElem?_eq_some_iff.mp at_
    obtain rfl : bucket = 0 := by simpa using inside
    obtain rfl : b' = b := same
    exact ⟨one, rfl, budget, known⟩

/-- An access to the bucket keeps the budget, unless a store puts back more than it gained. -/
theorem Kept.access (kept : Kept ip capacity s) {now bucket : ℕ} {b : TokenBucket}
    (there : s.threads thread = place) (of : place.bucket? = some bucket)
    (at_ : s.heap[bucket]? = some b)
    (undisturbed : ∀ tokens gained new, place = .storing bucket tokens gained new →
      new ≤ b.tokens + gained) : Kept ip capacity (s.access gain thread now place b) := by
  obtain ⟨one, rfl, budget, known⟩ := kept.only at_
  cases place with
  | idle => cases of
  | creating ip' => cases of
  | calling bucket tokens =>
    simp only [RateLimiter.access]
    split <;> exact kept.goto (by simp) (by simp)
  | claiming bucket tokens now last =>
    cases of
    simp only [RateLimiter.access]
    split
    case isTrue claimed =>
      have kept' : Kept ip capacity { s with heap := s.heap.set 0 { b with lastRefill := now } } :=
        ⟨.inr ⟨{ b with lastRefill := now }, by simp [one], budget, known⟩, kept.checked,
          kept.enough⟩
      split <;> exact kept'.goto (by simp) (by simp)
    case isFalse => exact kept.goto (by simp) (by simp)
  | loading bucket tokens gained => exact kept.goto (by simp) (by simp)
  -- What is granted meanwhile stays within the budget, since the store adds at most the gain.
  | storing bucket tokens gained new =>
    cases of
    have stored := undisturbed tokens gained new rfl
    have kept' : Kept ip capacity { s with
        heap := s.heap.set 0 { b with tokens := new }
        gained := s.gained + gained } :=
      ⟨.inr ⟨{ b with tokens := new }, by simp [one], by simp only; omega, known⟩, kept.checked,
        kept.enough⟩
    exact kept'.goto (by simp) (by simp)
  | consuming bucket tokens =>
    simp only [RateLimiter.access]
    split
    case isTrue => exact kept.reply
    case isFalse enough =>
      refine kept.goto (by simp) fun bucket' tokens' current same => ?_
      cases same
      exact Nat.le_of_not_lt enough
  | exchanging bucket tokens current =>
    cases of
    have enough := kept.enough thread 0 tokens current there
    simp only [RateLimiter.access]
    split
    -- The exchange takes from the bucket what it grants.
    case isTrue same =>
      have kept' : Kept ip capacity { s with
          heap := s.heap.set 0 { b with tokens := current - tokens }
          granted := s.granted + tokens } :=
        ⟨.inr ⟨{ b with tokens := current - tokens }, by simp [one], by simp only; omega, known⟩,
          kept.checked, kept.enough⟩
      exact kept'.reply
    case isFalse => exact kept.goto (by simp) (by simp)

theorem step_access {s' : RateLimiter Thread} {now bucket : ℕ}
    (of : (s.threads thread).bucket? = some bucket)
    (taken : s.step capacity gain (thread, .proceed now) = some s') :
    ∃ b, s.heap[bucket]? = some b ∧ s.access gain thread now (s.threads thread) b = s' := by
  cases there : s.threads thread <;> rw [there] at of <;> cases of <;>
    simpa [RateLimiter.step, there, LimiterPlace.bucket?] using taken

theorem kept_step {s' : RateLimiter Thread} {move : Thread × LimiterMove}
    (kept : Kept ip capacity s) (oneIp : OneIp ip move.2) (undisturbed : Undisturbed s move)
    (taken : s.step capacity gain move = some s') : Kept ip capacity s' := by
  obtain ⟨thread, move⟩ := move
  cases move with
  | tryConsume bucket tokens =>
    simp only [RateLimiter.step] at taken
    split at taken
    case isTrue =>
      cases taken
      exact kept.goto (by simp) (by simp)
    case isFalse => cases taken
  | check ip' =>
    obtain rfl : ip' = ip := oneIp
    simp only [RateLimiter.step] at taken
    split at taken
    case isTrue =>
      cases found : s.buckets.lookup ip' with
      | some bucket | none =>
        simp only [found, Option.some.injEq] at taken
        subst taken
        exact kept.goto (by simp) (by simp)
    case isFalse => cases taken
  | proceed now =>
    -- A thread is at a bucket, or it is the one that inserts the first.
    cases of : (s.threads thread).bucket? with
    | some bucket =>
      obtain ⟨b, at_, rfl⟩ := step_access of taken
      refine kept.access rfl of at_ fun tokens gained new there => ?_
      rw [there] at of
      cases of
      simp only [Undisturbed, there] at undisturbed
      exact undisturbed b at_
    | none =>
      cases there : s.threads thread with
      | idle => simp [RateLimiter.step, there] at taken
      | creating ip' =>
        obtain rfl := kept.checked thread ip' there
        have unknown : s.buckets.lookup ip' = none := by
          simpa [Undisturbed, there] using undisturbed
        simp only [RateLimiter.step, there, Option.some.injEq] at taken
        subst taken
        obtain ⟨none_, less⟩ | ⟨b, -, -, known⟩ := kept.bucket
        · have kept' : Kept ip' capacity { s with
              heap := s.heap ++ [⟨capacity, capacity, now⟩]
              buckets := s.buckets.insert ip' s.heap.length } :=
            ⟨.inr ⟨⟨capacity, capacity, now⟩, by simp [none_], by simp only; omega, by simp⟩,
              kept.checked, kept.enough⟩
          exact kept'.goto (by simp) (by simp)
        · simp [unknown] at known
      | calling | claiming | loading | storing | consuming | exchanging =>
        rw [there] at of
        cases of

end Steps

section Runs

variable {Thread : Type*}

theorem kept_new (ip : String) (capacity : ℕ) : Kept ip capacity (new : RateLimiter Thread) where
  bucket := .inl ⟨rfl, le_refl 0⟩
  checked _ _ there := by cases there
  enough _ _ _ _ there := by cases there

theorem kept_ofBucket (ip : String) (capacity now : ℕ) :
    Kept ip capacity (ofBucket ip capacity now : RateLimiter Thread) where
  bucket := .inr ⟨⟨capacity, capacity, now⟩, rfl, Nat.le_refl _, by
    simp [ofBucket, AList.lookup_isSome, AList.mem_keys, AList.keys_singleton]⟩
  checked _ _ there := by cases there
  enough _ _ _ _ there := by cases there

variable [DecidableEq Thread]

/-- In a run whose stores put back no more than they gained and that inserts one bucket, the
budget holds: from a bucket that calls of `try_consume` share, and from an empty limiter. -/
theorem budget_of_undisturbed (capacity : ℕ) (gain : ℕ → ℕ) (ip : String)
    {start : RateLimiter Thread} (initial : start = new ∨ ∃ now, start = ofBucket ip capacity now)
    {moves : List (Thread × LimiterMove)} (oneIp : ∀ move ∈ moves, OneIp ip move.2)
    (undisturbed : Runs.Guarded (step capacity gain) Undisturbed start moves) :
    Runs.Always (step capacity gain) (WithinBudget capacity) start moves := by
  have kept : Kept ip capacity start := by
    obtain rfl | ⟨now, rfl⟩ := initial
    · exact kept_new ip capacity
    · exact kept_ofBucket ip capacity now
  have checks := Runs.guarded_of_forall (step capacity gain) oneIp start
  have always := Runs.always_of_guarded (step capacity gain)
    (fun s move s' kept may taken => kept_step kept may.2 may.1 taken) kept
    (Runs.guarded_and (step capacity gain) undisturbed checks)
  exact Runs.always_mono (step capacity gain) (fun s kept => kept.withinBudget) always

def proceeds (thread : Bool) (n : ℕ) : List (Bool × LimiterMove) :=
  List.replicate n (thread, .proceed 1)

/-- One thread inserts the bucket and refills it a second later; between its compare-exchange and
its load the other takes a token, and both take what there is behind the store. -/
def interleaved : List (Bool × LimiterMove) :=
  [(false, .check "127.0.0.1"), (false, .proceed 0), (true, .check "127.0.0.1"),
    (false, .proceed 1), (true, .proceed 1), (false, .proceed 1)] ++ proceeds true 3 ++
  proceeds false 4 ++ (true, .tryConsume 0 1) :: proceeds true 3

theorem interleaved_withinBudget :
    Runs.Always (step 2 id) (WithinBudget 2) new interleaved ∧
      (Runs.exec (step 2 id) new interleaved).map (fun t => (t.granted, t.gained)) =
        some (3, 1) :=
  ⟨budget_of_undisturbed 2 id "127.0.0.1" (.inl rfl) (by simp [interleaved, proceeds, OneIp]) (by decide),
    by decide⟩

/-- The other thread takes both tokens between the load and the store of a refill. -/
def lostUpdate : List (Bool × LimiterMove) :=
  (false, .tryConsume 0 2) :: List.replicate 3 (false, .proceed 1) ++
  (true, .tryConsume 0 2) :: List.replicate 3 (true, .proceed 1) ++
  List.replicate 3 (false, .proceed 1)

/-- Both threads find no bucket, and each takes the token of its own. -/
def twoBuckets : List (Bool × LimiterMove) :=
  [(false, .check "127.0.0.1"), (true, .check "127.0.0.1")] ++
  List.replicate 4 (false, .proceed 0) ++ List.replicate 4 (true, .proceed 0)

theorem budget_exceeded :
    ¬ Runs.Always (step 2 id) (WithinBudget 2) (ofBucket "127.0.0.1" 2 0) lostUpdate ∧
    ¬ Runs.Always (step 1 id) (WithinBudget 1) new twoBuckets := by
  have tooMany : ¬ ∀ t ∈ Runs.exec (step 2 id) (ofBucket "127.0.0.1" 2 0) lostUpdate,
      WithinBudget 2 t := by decide
  have tooMany' : ¬ ∀ t ∈ Runs.exec (step 1 id) new twoBuckets, WithinBudget 1 t := by decide
  constructor
  · exact fun always => tooMany fun t run => Runs.always_last _ always run
  · exact fun always => tooMany' fun t run => Runs.always_last _ always run

end Runs

end RateLimiter

end TribunusCompute.Server
