import TribunusCompute.WorkerProtocol.Inference

/-!
# Every generation taken is settled

Whatever the outcomes and whenever a cancellation arrives, the inference thread gets
through with a generation, and has then written one terminal event for it, unless no
model was loaded: then it goes on to the next command without a word.
-/
namespace TribunusCompute.WorkerProtocol

/-- How many steps the inference thread is at most from its next command. -/
def InferencePc.work : InferencePc → ℕ
  | .idle | .loading | .announcing _ | .loadFailed | .exited => 0
  | .busy _ => 1
  | .clearing again => 1 + again.toNat
  | .resetting unloading => 2 + unloading.toNat
  | .completing _ => 3
  | .emitting gen pos _ => 4 * (gen.maxOutputTokens.toNat - (pos + 1)) + 5
  | .decoded gen pos _ => 4 * (gen.maxOutputTokens.toNat - (pos + 1)) + 6
  | .decoding gen pos => 4 * (gen.maxOutputTokens.toNat - (pos + 1)) + 7
  | .decodeHead gen pos => 4 * (gen.maxOutputTokens.toNat - pos) + 4
  | .firstToken gen => 4 * (gen.maxOutputTokens.toNat - 1) + 5
  | .prefillCompleting gen => 4 * (gen.maxOutputTokens.toNat - 1) + 6
  | .prefilled gen => 4 * (gen.maxOutputTokens.toNat - 1) + 7
  | .prefilling gen => 4 * (gen.maxOutputTokens.toNat - 1) + 8
  | .prefillStarting gen => 4 * (gen.maxOutputTokens.toNat - 1) + 9
  | .started gen => 4 * (gen.maxOutputTokens.toNat - 1) + 10
  | .starting gen => 4 * (gen.maxOutputTokens.toNat - 1) + 11
  | .activating gen => 4 * (gen.maxOutputTokens.toNat - 1) + 12
  | .admission gen => 4 * (gen.maxOutputTokens.toNat - 1) + 13

namespace Worker

/-- Whatever comes of the prefill and the decode steps, the inference thread by itself gets back
to where it takes commands. -/
def Returns (s : Worker) : Prop :=
  ∀ results : ℕ → Option UInt32, ∃ n t,
    Runs.exec step s ((List.range n).map fun i => .inference (results i)) = some t ∧
      t.pc.phase = .resting

/-- The thread gets back to its commands, and between two of them every generation taken while
the worker was not shutting down has one terminal event. -/
structure Settled (s : Worker) : Prop where
  returns : s.Returns
  once : s.pc.phase = .resting → ∀ id ∈ s.due, s.ends id = 1

/-- The next command asks for a generation. -/
def startsNext (s : Worker) : Bool :=
  match s.channel with
  | .startGeneration _ :: _ => true
  | _ => false

/-- A generation is taken while a model is loaded, or while the worker shuts down. -/
def TakesLoaded (s : Worker) : WorkerStep → Prop
  | .inference _ => s.pc = .idle → s.startsNext → s.shutdown = false → s.model = true
  | _ => True

instance (s : Worker) (e : WorkerStep) : Decidable (s.TakesLoaded e) :=
  match e with
  | .inference _ => inferInstanceAs <| Decidable <|
      s.pc = .idle → s.startsNext → s.shutdown = false → s.model = true
  | .read _ | .readError | .command | .heartbeat => isTrue trivial

/-! ## The thread returns -/

theorem checkCancelled_work {s : Worker} {gen : Generation} {next : InferencePc} {bound : ℕ}
    (less : next.work < bound) (room : 2 < bound) : (s.checkCancelled gen next).pc.work < bound := by
  unfold checkCancelled
  split
  · exact room
  · exact less

/-- On its way through a generation the thread can always step, and comes closer to its end. -/
theorem infer_work {s : Worker} (busy : s.pc.phase ≠ .resting) (result : Option UInt32) :
    ∃ t, s.infer result = some t ∧ t.pc.work < s.pc.work := by
  unfold infer
  cases here : s.pc with
  | idle | loading | announcing | loadFailed | exited =>
    rw [here] at busy
    exact absurd rfl busy
  | busy gen => exact ⟨_, rfl, Nat.zero_lt_one⟩
  | admission gen =>
    dsimp only
    split
    · exact ⟨_, rfl, Nat.succ_pos _⟩
    · exact ⟨_, rfl, Nat.lt_succ_self _⟩
  | activating gen | starting gen | prefillStarting gen | prefillCompleting gen | firstToken gen =>
    exact ⟨_, rfl, Nat.lt_succ_self _⟩
  | completing gen => exact ⟨_, rfl, Nat.lt_succ_self 2⟩
  -- where a cancellation is looked at, either way is shorter
  | started gen | prefilled gen | decoded gen pos token =>
    refine ⟨_, rfl, checkCancelled_work (Nat.lt_succ_self _) ?_⟩
    simp [InferencePc.work]
  | prefilling gen | decoding gen pos =>
    cases result with
    | none => exact ⟨_, rfl, by simp [InferencePc.work]⟩
    | some token => exact ⟨_, rfl, Nat.lt_succ_self _⟩
  | decodeHead gen pos =>
    dsimp only
    split
    next more =>
      refine ⟨_, rfl, checkCancelled_work ?_ ?_⟩
      · simp only [InferencePc.work]
        omega
      · simp [InferencePc.work]
    next => exact ⟨_, rfl, by simp [InferencePc.work]⟩
  | emitting gen pos token =>
    refine ⟨_, rfl, ?_⟩
    dsimp only
    split
    · simp [InferencePc.work]
    · exact Nat.lt_succ_self _
  | resetting unloading =>
    refine ⟨_, rfl, ?_⟩
    simp only [InferencePc.work]
    omega
  | clearing again =>
    refine ⟨_, rfl, ?_⟩
    cases again <;> simp [InferencePc.work]

theorem returns (s : Worker) : s.Returns := by
  induction h : s.pc.work using Nat.strongRecOn generalizing s with
  | _ work ih =>
    intro results
    by_cases rest : s.pc.phase = .resting
    · exact ⟨0, s, rfl, rest⟩
    · obtain ⟨t, taken, less⟩ := infer_work rest (results 0)
      obtain ⟨n, u, run, rest⟩ := ih t.pc.work (h ▸ less) t rfl fun i => results (i + 1)
      refine ⟨n + 1, u, ?_, rest⟩
      rw [List.range_succ_eq_map, List.map_cons, List.map_map]
      exact (Runs.exec_cons_iff step s u _ _).mpr ⟨t, taken, run⟩

/-! ## One terminal event each -/

/-- The generation in hand has no terminal event so far, the others that are due have one. -/
structure Settling (s : Worker) : Prop where
  inv : s.Inv
  due : ∀ id ∈ s.due, id ∈ s.taken
  inHand : ∀ gen, s.pc.phase.gen? = some gen → s.ends gen.requestId = 0
  settled : ∀ id ∈ s.due, (∀ gen, s.pc.phase.gen? = some gen → gen.requestId ≠ id) → s.ends id = 1

theorem settling_new (workerId : String) : (new workerId).Settling where
  inv := inv_new workerId
  due := fun _ member => absurd member List.not_mem_nil
  inHand := nofun
  settled := fun _ member => absurd member List.not_mem_nil

theorem Settling.law {s : Worker} (settling : s.Settling) : s.Settled := by
  refine ⟨s.returns, fun rest id due => ?_⟩
  refine settling.settled id due ?_
  rw [rest]
  exact nofun

theorem settling_ended {s : Worker} (settling : s.Settling) {gen : Generation}
    (here : s.pc.phase.gen? = some gen) {event : WorkerEvent} (terminal : event.isTerminal)
    {id : String} (due : id ∈ s.due) : (s.writeEvent event (some gen.requestId)).ends id = 1 := by
  rw [ends_writeEvent, terminal]
  by_cases same : gen.requestId = id
  · rw [← same, settling.inHand gen here]
    simp
  · have others : ∀ other, s.pc.phase.gen? = some other → other.requestId ≠ id := by
      intro other there
      rwa [Option.some.inj (there.symm.trans here)]
    simp [settling.settled id due others, same]

theorem settling_inferred {s t : Worker} (settling : s.Settling) (inv : t.Inv)
    (inferred : s.Inferred t) {result : Option UInt32}
    (loaded : s.TakesLoaded (.inference result)) : t.Settling := by
  cases inferred with
  | quiet pc model shutdown phase =>
    refine ⟨inv, settling.due, ?_, ?_⟩
    · simp only [phase]
      exact settling.inHand
    · simp only [phase]
      exact settling.settled
  | routine event requestId pc routine phase =>
    refine ⟨inv, settling.due, fun gen here => ?_, fun id due others => ?_⟩
    · simp only [phase] at here
      exact (s.ends_routine routine requestId _).trans (settling.inHand gen here)
    · simp only [phase] at others
      exact (s.ends_routine routine requestId id).trans (settling.settled id due others)
  | handled cmd channel pc model shutdown idle head other phase =>
    have rest : s.pc.phase.gen? = none := by
      rw [idle]
      rfl
    have rest' : pc.phase.gen? = none := by
      rcases phase with rest | closing
      · rw [rest]
        rfl
      · rw [closing]
        rfl
    refine ⟨inv, settling.due, fun gen here => ?_, fun id due _ => ?_⟩
    · exact absurd (rest'.symm.trans here) (by simp)
    · exact settling.settled id due (by simp [rest])
  | refused gen channel idle head unloaded =>
    -- Without a model this only happens while the worker shuts down.
    have down : s.shutdown = true := by
      cases shutdown : s.shutdown with
      | true => rfl
      | false =>
        have model := loaded idle (by rw [startsNext, head]) shutdown
        exact absurd (unloaded.symm.trans model) (by simp)
    refine ⟨inv, ?_, settling.inHand, ?_⟩
    · intro id due
      rw [if_pos down] at due
      exact List.mem_append_left _ (settling.due id due)
    · intro id due others
      rw [if_pos down] at due
      exact settling.settled id due others
  | admitted gen channel idle head loaded =>
    have fresh : gen.requestId ∉ s.taken := by
      have distinct := settling.inv.distinct
      rw [head, starts_cons] at distinct
      have apart := List.disjoint_of_nodup_append distinct.of_append_left
      exact fun old => apart old List.mem_cons_self
    have none_ : s.ends gen.requestId = 0 := by
      by_contra some_
      exact fresh (settling.inv.ended _ (Nat.pos_of_ne_zero some_))
    have rest : s.pc.phase.gen? = none := by
      rw [idle]
      rfl
    refine ⟨inv, ?_, ?_, ?_⟩
    · intro id due
      dsimp only at due
      split at due
      · exact List.mem_append_left _ (settling.due id due)
      · rcases List.mem_append.mp due with old | new
        · exact List.mem_append_left _ (settling.due id old)
        · exact List.mem_append_right _ new
    · rintro other ⟨⟩
      exact none_
    · intro id due others
      have different : gen.requestId ≠ id := others gen rfl
      have old : id ∈ s.due := by
        dsimp only at due
        split at due
        · exact due
        · rcases List.mem_append.mp due with old | new
          · exact old
          · exact absurd (List.mem_singleton.mp new).symm different
      exact settling.settled id old (by simp [rest])
  | cancelledEarly gen pc flag =>
    exact ⟨inv, settling.due, nofun,
      fun id due _ => settling_ended settling (by rw [pc]; rfl) rfl due⟩
  | activated gen pc =>
    have phase : s.pc.phase.gen? = some gen := by rw [pc]; rfl
    refine ⟨inv, settling.due, ?_, fun id due others => settling.settled id due ?_⟩
    · rintro other ⟨⟩
      exact settling.inHand gen phase
    · rw [phase]
      exact others
  | started gen pc =>
    have phase : s.pc.phase.gen? = some gen := by rw [pc]; rfl
    have same (id : String) :
        (s.writeEvent .generationStarted (some gen.requestId)).ends id = s.ends id := by
      rw [ends_writeEvent]
      rfl
    refine ⟨inv, settling.due, ?_, fun id due others => (same id).trans (settling.settled id due ?_)⟩
    · rintro other ⟨⟩
      exact (same _).trans (settling.inHand gen phase)
    · rw [phase]
      exact others
  | ended gen event running terminal flag =>
    exact ⟨inv, settling.due, nofun,
      fun id due _ => settling_ended settling (by rw [running]; rfl) terminal due⟩
  | reset unloading pc =>
    refine ⟨inv, settling.due, nofun, fun id due _ => settling.settled id due ?_⟩
    rw [pc]
    exact nofun
  | cleared again pc =>
    refine ⟨inv, settling.due, ?_, fun id due _ => settling.settled id due ?_⟩
    · cases again <;> exact nofun
    · rw [pc]
      exact nofun

theorem settling_step {s t : Worker} {e : WorkerStep} (settling : s.Settling)
    (loaded : s.TakesLoaded e) (taken : s.step e = some t) : t.Settling := by
  obtain ⟨inv, ⟨result, rfl, inferred⟩ | ⟨-, aside⟩⟩ := step_spec settling.inv taken
  · exact settling_inferred settling inv inferred loaded
  · refine ⟨inv, ?_, ?_, ?_⟩
    · rw [aside.due, aside.taken]
      exact settling.due
    · intro gen here
      rw [aside.ends]
      exact settling.inHand gen (aside.pc ▸ here)
    · intro id due others
      rw [aside.ends]
      exact settling.settled id (aside.due ▸ due) (aside.pc ▸ others)

theorem takesLoaded_of_settled {s t : Worker} {e : WorkerStep} (settling : s.Settling)
    (taken : s.step e = some t) (law : t.Settled) : s.TakesLoaded e := by
  cases e with
  | inference result =>
    intro idle next running
    by_contra unloaded
    have unloaded : s.model = false := by simpa using unloaded
    cases channel : s.channel with
    | nil => simp [startsNext, channel] at next
    | cons cmd rest =>
      cases cmd with
      | startGeneration gen =>
        simp only [step, infer, idle, channel, take, unloaded, running, Bool.not_false,
          Bool.false_eq_true, if_true, if_false, Option.some.injEq] at taken
        subst taken
        have one := law.once (by simp [InferencePc.phase]) gen.requestId (by simp)
        have distinct := settling.inv.distinct
        rw [channel, starts_cons] at distinct
        have apart := List.disjoint_of_nodup_append distinct.of_append_left
        have positive : 0 < s.ends gen.requestId := by
          have same : s.ends gen.requestId = 1 := one
          rw [same]
          exact Nat.one_pos
        exact apart (settling.inv.ended _ positive) List.mem_cons_self
      | loadModel | cancelGeneration | unloadModel | shutdown =>
        simp [startsNext, channel] at next
  | read | readError | command | heartbeat => trivial

theorem settled_iff_of_settling {s t : Worker} {steps : List WorkerStep} (settling : s.Settling)
    (run : Runs.exec step s steps = some t) :
    Runs.Always step Settled s steps ↔ Runs.Guarded step TakesLoaded s steps :=
  Runs.always_iff_guarded step (fun _ settling => settling.law)
    (fun _ _ _ settling loaded taken => settling_step settling loaded taken)
    (fun _ _ _ settling taken law => takesLoaded_of_settled settling taken law) settling run

/-- In every run, each generation taken is settled before the next command exactly if a model was
loaded when it was taken. -/
theorem settled_iff_takesLoaded (workerId : String) (steps : List WorkerStep) (t : Worker)
    (run : Runs.exec step (new workerId) steps = some t) :
    Runs.Always step Settled (new workerId) steps ↔
      Runs.Guarded step TakesLoaded (new workerId) steps :=
  settled_iff_of_settling (settling_new workerId) run

/-- One token is generated. -/
theorem settled_oneToken :
    Runs.Always step Settled (new "worker")
      (loadSteps ++ [.read (hostFrame 1 .startGeneration (.startGeneration "gen-1" 1)), .command] ++
        List.replicate 14 (.inference (some 7))) := by
  have runs : (Runs.exec step (new "worker")
      (loadSteps ++ [.read (hostFrame 1 .startGeneration (.startGeneration "gen-1" 1)), .command] ++
        List.replicate 14 (.inference (some 7)))).isSome = true := by decide +kernel
  obtain ⟨t, run⟩ := Option.isSome_iff_exists.mp runs
  exact (settled_iff_takesLoaded "worker" _ t run).mpr (by decide +kernel)

/-- A generation is asked for before any model is loaded. -/
theorem unloaded_start_is_never_settled :
    ¬ Runs.Always step Settled (new "worker")
      [.read (hostFrame 0 .startGeneration (.startGeneration "gen-1" 1)), .command,
        .inference none] := by
  have runs : (Runs.exec step (new "worker")
      [.read (hostFrame 0 .startGeneration (.startGeneration "gen-1" 1)), .command,
        .inference none]).isSome = true := by decide
  obtain ⟨t, run⟩ := Option.isSome_iff_exists.mp runs
  rw [settled_iff_of_settling (settling_new "worker") run]
  decide

end Worker

end TribunusCompute.WorkerProtocol
