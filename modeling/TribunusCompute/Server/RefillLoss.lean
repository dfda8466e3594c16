import TribunusCompute.Library.Ieee
import TribunusCompute.Server.RateLimiter

/-!
# What frequent refills lose

One thread calls one bucket. Every refill rounds its gain down and moves the time of the last
refill on, so that the fraction it rounds away is lost. The losses of a run add up: it is short
of more than one token as soon as they reach two tokens. The gain is computed with doubles, whose
own rounding counts as a loss or against the losses.
-/
namespace TribunusCompute.Server

open Outcome (saturatingAdd)

section

variable (gain : ℕ → ℕ)

/-- `refill`, where no other thread is at the bucket. -/
def refill (b : TokenBucket) (now : ℕ) : TokenBucket :=
  if now ≤ b.lastRefill then b
  else
    let claimed := { b with lastRefill := now }
    let gained := gain (now - b.lastRefill)
    if gained > 0 then
      { claimed with tokens := min b.capacity (saturatingAdd b.tokens gained) }
    else claimed

/-- `try_consume`, where no other thread is at the bucket. -/
def tryConsume (b : TokenBucket) (tokens now : ℕ) : TokenBucket × Bool :=
  let b := refill gain b now
  if b.tokens < tokens then (b, false) else ({ b with tokens := b.tokens - tokens }, true)

end

/-- An `f64`. What is infinite there is beyond every `u64` here. -/
def double : ℚ → ℚ := Ieee.nearest 11 52

/-- The rounded product of the elapsed seconds and the rate, as an unsigned number. -/
def rateGain (rate : ℚ) (elapsed : ℕ) : ℕ :=
  min ⌊double (double elapsed * double rate)⌋.toNat (2 ^ 64 - 1)

-- The double next to a third gives a whole token in three seconds, although it is less than it.
example : rateGain (6004799503160661 / 2 ^ 54) 3 = 1 := by decide +kernel

@[simp]
theorem rateGain_zero (rate : ℚ) : rateGain rate 0 = 0 := by simp [rateGain, double]

/-! ### A thread on its own -/

namespace RateLimiter

variable {Thread : Type*} [DecidableEq Thread] {capacity : ℕ} {gain : ℕ → ℕ} {thread : Thread}
  {now : ℕ}

/-- The thread takes some accesses, and no other thread comes between. -/
def Alone (capacity : ℕ) (gain : ℕ → ℕ) (thread : Thread) (now : ℕ)
    (s t : RateLimiter Thread) : Prop :=
  ∃ accesses, Runs.exec (step capacity gain) s
    (List.replicate accesses (thread, .proceed now)) = some t

theorem Alone.refl (s : RateLimiter Thread) : Alone capacity gain thread now s s := ⟨0, rfl⟩

theorem Alone.trans {s t u : RateLimiter Thread} (first : Alone capacity gain thread now s t)
    (second : Alone capacity gain thread now t u) : Alone capacity gain thread now s u := by
  obtain ⟨n, first⟩ := first
  obtain ⟨m, second⟩ := second
  refine ⟨n + m, ?_⟩
  rw [List.replicate_add, Runs.exec_append, first]
  exact second

theorem alone_access (capacity : ℕ) (gain : ℕ → ℕ) (now : ℕ) {s : RateLimiter Thread}
    {place : LimiterPlace} {bucket : ℕ} {b : TokenBucket}
    (here : s.threads thread = place) (of : place.bucket? = some bucket)
    (there : s.heap[bucket]? = some b) :
    Alone capacity gain thread now s (s.access gain thread now place b) := by
  refine ⟨1, (Runs.exec_cons_iff _ _ _ _ _).mpr ⟨_, ?_, rfl⟩⟩
  subst here
  cases place : s.threads thread <;> rw [place] at of <;> cases of <;>
    simp [RateLimiter.step, place, LimiterPlace.bucket?, there]

omit [DecidableEq Thread] in
theorem heap_set_self {s : RateLimiter Thread} {bucket : ℕ} {b : TokenBucket}
    (there : s.heap[bucket]? = some b) : s.heap.set bucket b = s.heap := by
  obtain ⟨inside, rfl⟩ := List.getElem?_eq_some_iff.mp there
  exact List.set_getElem_self inside

/-- The accesses from the clock to the loop of `try_consume` are those of `refill`. -/
theorem alone_refill (capacity : ℕ) (gain : ℕ → ℕ) (now : ℕ) {s : RateLimiter Thread}
    {bucket tokens : ℕ} {b : TokenBucket}
    (calling : s.threads thread = .calling bucket tokens) (there : s.heap[bucket]? = some b) :
    ∃ t, Alone capacity gain thread now s t ∧ t.threads thread = .consuming bucket tokens ∧
      t.heap = s.heap.set bucket (refill gain b now) ∧ t.replies = s.replies := by
  have inside : bucket < s.heap.length := (List.getElem?_eq_some_iff.mp there).1
  have first := alone_access capacity gain now calling rfl there
  -- a refill that comes too early leaves the bucket as it is
  by_cases early : now ≤ b.lastRefill
  · simp only [access, if_pos early] at first
    refine ⟨_, first, by simp [goto], ?_, rfl⟩
    rw [refill, if_pos early, heap_set_self there]
    rfl
  · simp only [access, if_neg early] at first
    -- the compare-exchange finds what the load has found
    let claiming := s.goto thread (.claiming bucket tokens now b.lastRefill)
    have claims : claiming.threads thread = .claiming bucket tokens now b.lastRefill := by
      simp [claiming, goto]
    have second := alone_access capacity gain now claims rfl there
    simp only [access, ↓reduceIte] at second
    let claimed : RateLimiter Thread :=
      { claiming with heap := s.heap.set bucket { b with lastRefill := now } }
    have at_bucket : claimed.heap[bucket]? = some { b with lastRefill := now } :=
      List.getElem?_set_self inside
    by_cases some_gain : gain (now - b.lastRefill) > 0
    · rw [if_pos some_gain] at second
      -- two more accesses: the load of the tokens and the store
      let gained := gain (now - b.lastRefill)
      let new := min b.capacity (saturatingAdd b.tokens gained)
      let loading := claimed.goto thread (.loading bucket tokens gained)
      let storing := loading.goto thread (.storing bucket tokens gained new)
      have loads : loading.threads thread = .loading bucket tokens gained := by
        simp [loading, goto]
      have stores : storing.threads thread = .storing bucket tokens gained new := by
        simp [storing, goto]
      have third : Alone capacity gain thread now loading storing :=
        alone_access capacity gain now loads rfl (b := { b with lastRefill := now }) at_bucket
      have fourth := alone_access capacity gain now stores rfl
        (b := { b with lastRefill := now }) at_bucket
      refine ⟨_, (first.trans second).trans (third.trans fourth), by simp [access, goto], ?_, rfl⟩
      simp [access, goto, storing, loading, claimed, refill, early, some_gain, new, gained]
    · rw [if_neg some_gain] at second
      refine ⟨_, first.trans second, by simp [goto], ?_, rfl⟩
      rw [refill, if_neg early]
      simp only [if_neg some_gain]
      rfl

/-- The accesses of a whole call are those of `try_consume`. -/
theorem alone_tryConsume {s : RateLimiter Thread} {bucket tokens : ℕ} {b : TokenBucket}
    (calling : s.threads thread = .calling bucket tokens) (there : s.heap[bucket]? = some b) :
    ∃ t, Alone capacity gain thread now s t ∧ t.threads thread = .idle ∧
      t.heap = s.heap.set bucket (tryConsume gain b tokens now).1 ∧
        t.replies = s.replies ++ [(thread, (tryConsume gain b tokens now).2)] := by
  have inside : bucket < s.heap.length := (List.getElem?_eq_some_iff.mp there).1
  obtain ⟨t, refilled, consuming, heap, replies⟩ :=
    alone_refill capacity gain now calling there
  have at_bucket : t.heap[bucket]? = some (refill gain b now) := by
    rw [heap, List.getElem?_set_self inside]
  have loads := alone_access capacity gain now consuming rfl at_bucket
  unfold tryConsume
  by_cases few : (refill gain b now).tokens < tokens
  · simp only [access, if_pos few] at loads
    refine ⟨_, refilled.trans loads, by simp [reply], ?_, ?_⟩
    · simpa [reply, few] using heap
    · simp [reply, few, replies]
  · simp only [access, if_neg few] at loads
    -- the exchange finds the tokens that the load has found
    let taking := t.goto thread (.exchanging bucket tokens (refill gain b now).tokens)
    have takes : taking.threads thread = .exchanging bucket tokens (refill gain b now).tokens := by
      simp [taking, goto]
    have exchanges := alone_access capacity gain now takes rfl at_bucket
    simp only [access, ↓reduceIte] at exchanges
    refine ⟨_, refilled.trans (loads.trans exchanges), by simp [reply], ?_, ?_⟩
    · simp [reply, few, taking, goto, heap]
    · simp [reply, few, taking, goto, replies]

/-- The refill comes in time for the call. -/
theorem alone_tryConsume_refilled :
    let s : RateLimiter Bool := ⟨[⟨0, 5, 0⟩], ∅, fun _ => .calling 0 2, 0, 0, []⟩
    ∃ t, Alone 5 id true 3 s t ∧ t.threads true = .idle ∧
      t.heap = s.heap.set 0 (tryConsume id ⟨0, 5, 0⟩ 2 3).1 ∧ t.replies = [(true, true)] :=
  alone_tryConsume rfl rfl

end RateLimiter

/-! ### A run of calls -/

section

variable (rate : ℚ)

/-- What the refills of the calls credit, each call by its time and the tokens it wants. -/
def credited : TokenBucket → List (ℕ × ℕ) → ℤ
  | _, [] => 0
  | b, (now, tokens) :: rest =>
    ((refill (rateGain rate) b now).tokens - b.tokens : ℤ) +
      credited (tryConsume (rateGain rate) b tokens now).1 rest

def BelowCapacity : TokenBucket → List (ℕ × ℕ) → Prop
  | _, [] => True
  | b, (now, tokens) :: rest => (refill (rateGain rate) b now).tokens < b.capacity ∧
      BelowCapacity (tryConsume (rateGain rate) b tokens now).1 rest

instance decidableBelowCapacity : ∀ b calls, Decidable (BelowCapacity rate b calls)
  | _, [] => isTrue trivial
  | b, (now, tokens) :: rest =>
    have := decidableBelowCapacity (tryConsume (rateGain rate) b tokens now).1 rest
    inferInstanceAs (Decidable ((refill (rateGain rate) b now).tokens < b.capacity ∧ _))

/-- What the gains of refills at these times fall short of the rate. -/
def lost : ℕ → List ℕ → ℚ
  | _, [] => 0
  | last, now :: rest => rate * (now - last) - rateGain rate (now - last) + lost now rest

end

def times (calls : List (ℕ × ℕ)) : List ℕ := calls.map Prod.fst

section

variable {rate : ℚ} {b : TokenBucket} {now : ℕ}

theorem tryConsume_bucket (gain : ℕ → ℕ) (b : TokenBucket) (tokens now : ℕ) :
    (tryConsume gain b tokens now).1.lastRefill = (refill gain b now).lastRefill ∧
      (tryConsume gain b tokens now).1.capacity = (refill gain b now).capacity := by
  unfold tryConsume
  simp only
  split <;> exact ⟨rfl, rfl⟩

theorem refill_capacity (gain : ℕ → ℕ) (b : TokenBucket) (now : ℕ) :
    (refill gain b now).capacity = b.capacity := by
  unfold refill
  split
  · rfl
  · simp only
    split <;> rfl

theorem refill_lastRefill (gain : ℕ → ℕ) (later : b.lastRefill ≤ now) :
    (refill gain b now).lastRefill = now := by
  unfold refill
  split
  next same => exact Nat.le_antisymm later same
  next =>
    simp only
    split <;> rfl

/-- Below capacity neither the bucket nor the machine numbers cap a refill. -/
theorem refill_credit (fits : b.capacity < 2 ^ 64) (later : b.lastRefill ≤ now)
    (below : (refill (rateGain rate) b now).tokens < b.capacity) :
    (refill (rateGain rate) b now).tokens = b.tokens + rateGain rate (now - b.lastRefill) := by
  unfold refill at below ⊢
  split at below
  next early =>
    obtain same : b.lastRefill = now := Nat.le_antisymm later early
    simp [same]
  next late =>
    rw [if_neg late]
    simp only at below ⊢
    by_cases some_gain : rateGain rate (now - b.lastRefill) > 0
    · -- the machine number saturates far above the capacity
      rw [if_pos some_gain] at below ⊢
      simp only [saturatingAdd] at below ⊢
      omega
    · rw [if_neg some_gain]
      simp only
      omega

/-- The refills credit what the rate promises, less what they lose. -/
theorem credited_eq (calls : List (ℕ × ℕ)) (fits : b.capacity < 2 ^ 64)
    (ordered : (b.lastRefill :: times calls).Pairwise (· ≤ ·))
    (below : BelowCapacity rate b calls) :
    (credited rate b calls : ℚ) =
      rate * (((times calls).getLastD b.lastRefill : ℕ) - b.lastRefill) -
        lost rate b.lastRefill (times calls) := by
  induction calls generalizing b with
  | nil => simp [credited, lost, times]
  | cons call rest ih =>
    obtain ⟨now, tokens⟩ := call
    obtain ⟨below_now, below_rest⟩ := below
    rw [List.pairwise_cons] at ordered
    have later : b.lastRefill ≤ now := ordered.1 now List.mem_cons_self
    have credit := refill_credit fits later below_now
    obtain ⟨kept_time, kept_capacity⟩ := tryConsume_bucket (rateGain rate) b tokens now
    rw [refill_lastRefill (rateGain rate) later] at kept_time
    rw [refill_capacity] at kept_capacity
    -- the next refill counts from this one, whatever this one has lost
    have rest_credit := ih (b := (tryConsume (rateGain rate) b tokens now).1)
      (by rw [kept_capacity]; exact fits) (by rw [kept_time]; exact ordered.2) below_rest
    rw [kept_time] at rest_credit
    have time_list : times ((now, tokens) :: rest) = now :: times rest := rfl
    rw [credited, Int.cast_add, rest_credit, credit, time_list, List.getLastD_cons, lost]
    push_cast
    ring

/-- The refills at the call times credit at least what one refill at the end would, less one
token, exactly when the losses after the first are less than two tokens more than the first
refill gains. -/
theorem creditLaw_iff (rate : ℚ) (b : TokenBucket) (fits : b.capacity < 2 ^ 64) (first : ℕ × ℕ)
    (rest : List (ℕ × ℕ)) (ordered : (b.lastRefill :: times (first :: rest)).Pairwise (· ≤ ·))
    (below : BelowCapacity rate b (first :: rest)) :
    ⌊rate * (((times rest).getLastD first.1 : ℕ) - first.1)⌋ - 1 ≤
        credited rate b (first :: rest) ↔
      lost rate first.1 (times rest) < 2 + rateGain rate (first.1 - b.lastRefill) := by
  obtain ⟨start, tokens⟩ := first
  obtain ⟨below_now, below_rest⟩ := below
  have later : b.lastRefill ≤ start := (List.pairwise_cons.mp ordered).1 start List.mem_cons_self
  have credit := refill_credit fits later below_now
  obtain ⟨kept_time, kept_capacity⟩ := tryConsume_bucket (rateGain rate) b tokens start
  rw [refill_lastRefill (rateGain rate) later] at kept_time
  rw [refill_capacity] at kept_capacity
  have rest_credit := credited_eq rest (b := (tryConsume (rateGain rate) b tokens start).1)
    (by rw [kept_capacity]; exact fits)
    (by rw [kept_time]; exact (List.pairwise_cons.mp ordered).2) below_rest
  rw [kept_time] at rest_credit
  show ⌊rate * (((times rest).getLastD start : ℕ) - (start : ℚ))⌋ - 1 ≤ _ ↔
    lost rate start (times rest) < _
  rw [credited, credit]
  generalize credited rate (tryConsume (rateGain rate) b tokens start).1 rest = others
    at rest_credit ⊢
  generalize rateGain rate (start - b.lastRefill) = gained
  -- both sides compare the whole span with integers
  have floors : ⌊rate * (((times rest).getLastD start : ℕ) - (start : ℚ))⌋ < gained + others + 2 ↔
      rate * (((times rest).getLastD start : ℕ) - (start : ℚ)) <
        ((gained + others + 2 : ℤ) : ℚ) :=
    Int.floor_lt
  push_cast at floors ⊢
  constructor
  · intro enough
    have below := floors.mp (by omega)
    linarith
  · intro little
    have below := floors.mpr (by linarith)
    omega

end

/-- A bucket of half a token a second that is asked every second: every gain is rounded to zero. -/
theorem polled_every_second :
    ¬ ∀ (rate : ℚ) (b : TokenBucket) (first : ℕ × ℕ) (rest : List (ℕ × ℕ)),
      0 < rate → b.capacity < 2 ^ 64 →
      (b.lastRefill :: times (first :: rest)).Pairwise (· ≤ ·) →
      BelowCapacity rate b (first :: rest) →
      ⌊rate * (((times rest).getLastD first.1 : ℕ) - first.1)⌋ - 1 ≤
        credited rate b (first :: rest) := by
  intro law
  have starved := law (1 / 2) ⟨0, 10, 0⟩ (0, 1) [(1, 1), (2, 1), (3, 1), (4, 1)] (by norm_num)
    (by norm_num) (by decide) (by decide +kernel)
  revert starved
  decide +kernel

/-- A bucket of three tokens in two seconds that is asked every second loses half a token a call. -/
theorem polled_twice :
    ⌊(3 / 2 : ℚ) * ((2 : ℕ) - (0 : ℕ))⌋ - 1 ≤
      credited (3 / 2) ⟨0, 10, 0⟩ [(0, 1), (1, 1), (2, 1)] :=
  (creditLaw_iff (3 / 2) ⟨0, 10, 0⟩ (by norm_num) (0, 1) [(1, 1), (2, 1)]
    (by decide) (by decide +kernel)).mpr (by decide +kernel)

end TribunusCompute.Server
