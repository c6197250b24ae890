import Cynosure.SiteD.RingBufBlocking

/-! # Blocking producer and consumer come to rest

A thread that is parked without a token has not been woken since its last poll, so it is
right to wait: the producer on a full ring, the consumer on an empty one. Under fair turns
every pair of scripts comes to rest, and then at least one of them is done.
-/

namespace Cynosure.SiteD.Ring

variable {w : Nat} {T ρ : Type} {r : RingBuf w}

abbrev RingRun (w : Nat) (T ρ : Type) : Type :=
  BlockState (RingState w T RingSide) RingSide PUnit.{1} (Option (RingOut T)) ρ (RingJob T)

variable {s t : RingRun w T ρ} {i : RingSide} {scripts : ∀ i, Script (RingJob T i) (Option (RingOut T)) ρ}

/-- Where the future of a thread that is not inside a call is. -/
structure RingReady (r : RingBuf w) (s : RingRun w T ρ) : Prop where
  alive : s.base.mem.producerAlive = true ∧ s.base.mem.consumerAlive = true
  free : ∀ i, s.stage i = .free → (ringBlocking r).pending i s.base.mem = false
  waits : ∀ i, s.stage i = .awake ∨ s.stage i = .parked →
    (ringBlocking r).pending i s.base.mem = true

theorem job_op_ne_drop (job : RingJob T i) :
    (ringBlocking r).op job ≠ .dropProducer ∧ (ringBlocking r).op job ≠ .dropConsumer := by
  cases i <;> cases job <;> exact ⟨fun h => (by cases h), fun h => (by cases h)⟩

theorem poll_ne_drop : (ringBlocking (T := T) r).poll i ≠ .dropProducer ∧
    (ringBlocking (T := T) r).poll i ≠ .dropConsumer := by
  cases i <;> exact ⟨fun h => (by cases h), fun h => (by cases h)⟩

section Base

variable {x y : ThreadState (RingState w T RingSide) RingSide PUnit.{1}}

theorem step_alive (hx : (ringThreads r).machine.Reachable x)
    (h : (ringThreads r).exec x (.step i) = some y) : SameLives x.mem y.mem := by
  have hdoes := ring_step_does hx h
  cases i with
  | producer => exact (show PushDoes x.mem y.mem from hdoes).alive
  | consumer => exact (show PopDoes x.mem y.mem from hdoes).alive

theorem call_alive (hx : (ringThreads r).machine.Reachable x) {op : RingOp T RingSide}
    (hop : op ≠ .dropProducer ∧ op ≠ .dropConsumer)
    (h : (ringThreads r).exec x (.call i op) = some y) : SameLives x.mem y.mem := by
  have hdoes := ring_step_does hx h
  cases i with
  | producer => exact (show PushCalled op x.mem y.mem from hdoes).alive hop.1
  | consumer => exact (show PopCalled op x.mem y.mem from hdoes).alive hop.2

end Base

theorem Steps.alive (hs : ((ringBlocking r).machine scripts).Reachable s)
    (h : (ringBlocking r).Steps s i t) : SameLives s.base.mem t.base.mem := by
  have hbase := Blocking.machine_base hs
  cases h with
  | act hexec => exact step_alive hbase hexec
  | create hexec => exact step_alive hbase hexec
  | park hexec => exact step_alive hbase hexec
  | finish hexec => exact step_alive hbase hexec
  | call _ _ hexec => exact call_alive hbase (job_op_ne_drop _) hexec
  | poll _ hexec => exact call_alive hbase poll_ne_drop hexec
  | unpark => exact ⟨rfl, rfl⟩

theorem created_pending {x y : ThreadState (RingState w T RingSide) RingSide PUnit.{1}}
    {job : RingJob T i} (hx : (ringThreads r).machine.Reachable x)
    (h : (ringThreads r).CallEnds i ((ringBlocking r).op job) x y) :
    (ringBlocking r).pending i y.mem = true := by
  have hholds := (ringCalls_sound r).reachable hx
  cases i with
  | producer => exact Option.isSome_iff_ne_none.mpr (push_creates hholds h).2
  | consumer => exact Option.isSome_iff_ne_none.mpr (pop_creates hholds h).2

theorem Steps.ready (hs : ((ringBlocking r).machine scripts).Reachable s)
    (h : (ringBlocking r).Steps s i t) (hready : RingReady r s) : RingReady r t := by
  have hcoh := Blocking.machine_coherent hs
  have hbase := Blocking.machine_base hs
  have hlives := Steps.alive hs h
  have hothers : ∀ j, j ≠ i →
      (ringBlocking r).pending j t.base.mem = (ringBlocking r).pending j s.base.mem := by
    intro j hj
    obtain heq | ⟨a, rfl, hexec⟩ := h.base
    · rw [heq]
    · exact (ring_frame hbase hexec hj).2.2
  suffices hown : (t.stage i = .free → (ringBlocking r).pending i t.base.mem = false) ∧
      (t.stage i = .awake ∨ t.stage i = .parked → (ringBlocking r).pending i t.base.mem = true) by
    refine ⟨⟨hlives.1.trans hready.alive.1, hlives.2.trans hready.alive.2⟩, fun j => ?_, fun j => ?_⟩
    · obtain rfl | hj := eq_or_ne j i
      · exact hown.1
      · rw [hothers j hj, (h.untouched hj).stage]
        exact hready.free j
    · obtain rfl | hj := eq_or_ne j i
      · exact hown.2
      · rw [hothers j hj, (h.untouched hj).stage]
        exact hready.waits j
  cases h with
  | act hexec hp =>
    obtain hstage | hstage := (hcoh.running i).mp (Threads.exec_running_isSome hexec) <;>
      simp [hstage]
  | create hexec hidle hstage hjob =>
    obtain ⟨s₀, hr, -, hat⟩ :=
      Blocking.machine_history (ringProgress_sound r).own hs i _ _ (by simp [hstage]) hjob
    rw [hstage] at hat
    have hstep : ∀ op, (ThreadOp.step i : ThreadOp RingSide (RingOp T RingSide)) ≠ .call i op :=
      fun op h => nomatch h
    have hends := (Threads.Inside.exec hat hstep hexec).ends hidle
    exact ⟨by simp, fun _ => created_pending hr hends⟩
  | park hexec hidle hstage hpending => exact ⟨by simp, fun _ => hpending⟩
  | finish hexec hidle hjob hdone =>
    obtain ⟨-, hblocks⟩ | ⟨-, hpending⟩ := hdone
    · cases hblocks
    · exact ⟨fun _ => hpending, by simp⟩
  | call => simp
  | poll => simp
  | unpark hstage => exact ⟨by simp, fun _ => hready.waits i (.inr hstage)⟩

theorem ring_ready (hs : ((ringBlocking r).machine scripts).Reachable s) : RingReady r s := by
  refine (hs.invariant (I := fun s => ((ringBlocking r).machine scripts).Reachable s ∧ RingReady r s)
    ⟨⟨[], rfl⟩, ⟨rfl, rfl⟩, fun i _ => ?_, fun i h => ?_⟩ ?_).2
  · cases i <;> rfl
  · rcases h with h | h <;> cases h
  · rintro s i t ⟨hs, hready⟩ hstep
    exact ⟨Blocking.machine_step_reachable hs hstep,
      Steps.ready hs (Blocking.machine_steps hs hstep) hready⟩

/-- A thread that was woken since its last poll began has a token. -/
structure RingTokens (s : RingRun w T ρ) : Prop where
  current : ∀ i v, (waitSlot s.base.mem i).current = some v → v = i
  woken : ∀ i, s.stage i = .polling ∨ s.stage i = .parked → s.token i = false →
    (waitSlot s.base.mem i).woken = false

section Wakes

variable {x y : RingState w T RingSide} {j : RingSide}

theorem waitSlot_moves (h : RingDoes (.step j) x y) (i : RingSide) :
    (waitSlot x i).WaiterMoves (waitSlot y i) ∨ (waitSlot x i).SignalMoves () (waitSlot y i) := by
  cases j with
  | producer =>
    have hpush : PushDoes x y := h
    cases i with
    | producer => exact .inl hpush.own
    | consumer => exact .inr hpush.other
  | consumer =>
    have hpop : PopDoes x y := h
    cases i with
    | producer => exact .inr hpop.other
    | consumer => exact .inl hpop.own

theorem waitSlot_called {op : RingOp T RingSide} (h : RingDoes (.call j op) x y) :
    waitSlot y j = onOwnSlot op (waitSlot x j) ∧ ∀ i, i ≠ j → waitSlot y i = waitSlot x i := by
  cases j with
  | producer =>
    have hpush : PushCalled op x y := h
    refine ⟨hpush.own, fun i hi => ?_⟩
    cases i with
    | producer => exact absurd rfl hi
    | consumer => exact hpush.other
  | consumer =>
    have hpop : PopCalled op x y := h
    refine ⟨hpop.own, fun i hi => ?_⟩
    cases i with
    | producer => exact hpop.other
    | consumer => exact absurd rfl hi

theorem waitSlot_current (h : RingDoes (.step j) x y) (i : RingSide) :
    (waitSlot y i).current = (waitSlot x i).current := by
  obtain hmove | hmove := waitSlot_moves h i
  · exact hmove.current
  · exact hmove.current

theorem unparks_of_slotUnparks {i : RingSide} (k : RingSide)
    (h : slotUnparks (waitSlot x k) (waitSlot y k) i = true) : ringUnparks x y i = true := by
  rw [ringUnparks, Bool.or_eq_true]
  cases k with
  | producer => exact .inl h
  | consumer => exact .inr h

/-- The wake of a task is noted only when the waker of its thread is invoked. -/
theorem unparks_of_woken (h : RingDoes (.step j) x y)
    (hcurrent : ∀ v, (waitSlot x i).current = some v → v = i) (hx : (waitSlot x i).woken = false)
    (hy : (waitSlot y i).woken = true) : ringUnparks x y i = true := by
  refine unparks_of_slotUnparks i ?_
  rw [slotUnparks, Bool.or_eq_true, decide_eq_true_eq, decide_eq_true_eq]
  obtain hmove | hmove := waitSlot_moves h i
  · obtain ⟨v, u, hv, hu, htask⟩ := hmove.woken hx hy
    obtain rfl := RingSide.eq_of_task htask
    obtain rfl := hcurrent v hu
    exact .inl hv
  · obtain ⟨v, u, hv, hu, htask⟩ := hmove.woken hx hy
    obtain rfl := RingSide.eq_of_task htask
    obtain rfl := hcurrent v hu
    exact .inr hv

end Wakes

theorem onOwnSlot_job (job : RingJob T i) (x : SlotUse RingSide Unit) :
    onOwnSlot ((ringBlocking r).op job) x = x := by
  cases i <;> cases job <;> rfl

theorem onOwnSlot_poll (x : SlotUse RingSide Unit) :
    onOwnSlot ((ringBlocking (T := T) r).poll i) x = x.beginPoll i := by
  cases i <;> rfl

/-- An action of the ring keeps what the tokens tell, whatever the stages of the threads become. -/
theorem RingTokens.exec (hs : RingTokens s) (hbase : (ringThreads r).machine.Reachable s.base)
    {u : ThreadState (RingState w T RingSide) RingSide PUnit.{1}}
    (hexec : (ringThreads r).exec s.base (.step i) = some u) {stage : RingSide → Stage}
    (hstage : ∀ j, stage j = .polling ∨ stage j = .parked →
      s.stage j = .polling ∨ s.stage j = .parked)
    (script : ∀ i, Script (RingJob T i) (Option (RingOut T)) ρ) :
    RingTokens { s with
      base := u, script, stage, token := (ringBlocking r).tokens s u } := by
  have hdoes := ring_step_does hbase hexec
  refine ⟨fun j v hv => ?_, fun j hj htoken => ?_⟩
  · rw [waitSlot_current hdoes j] at hv
    exact hs.current j v hv
  · obtain ⟨htoken, hunparks⟩ := Bool.or_eq_false_iff.mp htoken
    have hwoken := hs.woken j (hstage j hj) htoken
    by_contra hy
    have hnow := unparks_of_woken hdoes (hs.current j) hwoken (Bool.eq_true_of_not_eq_false hy)
    rw [show ringUnparks s.base.mem u.mem j = false from hunparks] at hnow
    cases hnow

theorem Steps.ringTokens (hs : ((ringBlocking r).machine scripts).Reachable s)
    (h : (ringBlocking r).Steps s i t) (htokens : RingTokens s) : RingTokens t := by
  have hbase := Blocking.machine_base hs
  have hupdate : ∀ {stage : Stage}, (stage = .polling ∨ stage = .parked →
      s.stage i = .polling ∨ s.stage i = .parked) → ∀ j,
        Function.update s.stage i stage j = .polling ∨ Function.update s.stage i stage j = .parked →
          s.stage j = .polling ∨ s.stage j = .parked := by
    intro stage hstage j hj
    obtain rfl | hji := eq_or_ne j i
    · rw [Function.update_self] at hj
      exact hstage hj
    · rwa [Function.update_of_ne hji] at hj
  cases h with
  | act hexec => exact htokens.exec hbase hexec (fun _ h => h) s.script
  | create hexec => exact htokens.exec hbase hexec (hupdate (by simp)) s.script
  | park hexec _ hstage => exact htokens.exec hbase hexec (hupdate fun _ => .inl hstage) s.script
  | finish hexec => exact htokens.exec hbase hexec (hupdate (by simp)) _
  | call hstage hjob hexec =>
    obtain ⟨hown, hothers⟩ := waitSlot_called (ring_step_does hbase hexec)
    rw [onOwnSlot_job] at hown
    have hslots : ∀ j, waitSlot _ j = waitSlot s.base.mem j := fun j =>
      if hj : j = i then hj ▸ hown else hothers j hj
    refine ⟨fun j v hv => ?_, fun j hj htoken => ?_⟩
    · rw [hslots j] at hv
      exact htokens.current j v hv
    · rw [hslots j]
      exact htokens.woken j (hupdate (by simp) j hj) htoken
  | poll hstage hexec =>
    obtain ⟨hown, hothers⟩ := waitSlot_called (ring_step_does hbase hexec)
    rw [onOwnSlot_poll] at hown
    refine ⟨fun j v hv => ?_, fun j hj htoken => ?_⟩
    · obtain rfl | hji := eq_or_ne j i
      · rw [hown] at hv
        exact (Option.some.inj hv).symm
      · rw [hothers j hji] at hv
        exact htokens.current j v hv
    · obtain rfl | hji := eq_or_ne j i
      · rw [hown]
        rfl
      · rw [hothers j hji]
        simp only [Function.update_of_ne hji] at hj
        exact htokens.woken j hj htoken
  | unpark hstage =>
    refine ⟨htokens.current, fun j hj htoken => ?_⟩
    obtain rfl | hji := eq_or_ne j i
    · simp at hj
    · simp only [Function.update_of_ne hji] at hj htoken
      exact htokens.woken j hj htoken

theorem ring_tokens (hs : ((ringBlocking r).machine scripts).Reachable s) : RingTokens s := by
  refine (hs.invariant (I := fun s => ((ringBlocking r).machine scripts).Reachable s ∧ RingTokens s)
    ⟨⟨[], rfl⟩, fun i v hv => ?_, fun i h => ?_⟩ ?_).2
  · cases i <;> cases hv
  · rcases h with h | h <;> cases h
  · rintro s i t ⟨hs, htokens⟩ hstep
    exact ⟨Blocking.machine_step_reachable hs hstep,
      Steps.ringTokens hs (Blocking.machine_steps hs hstep) htokens⟩

section Parked

/-- What the job of a parked thread has done, which began in `x`. -/
def Waiting : (i : RingSide) → RingJob T i → RingState w T RingSide → RingState w T RingSide → Prop
  | .producer, job, x, y => PushPolled x.accepted y job ∧ y.pushFuture ≠ none
  | .consumer, job, x, y => PopPolled x.taken y job ∧ y.popFuture ≠ none

/-- A parked thread has polled its future, and the future is pending. -/
theorem parked_waiting (hs : ((ringBlocking r).machine scripts).Reachable s) (hstage : s.stage i = .parked) :
    ∃ job k, s.script i = .job job k ∧ Waiting i job (s.began i) s.base.mem := by
  have hfree : s.stage i ≠ .free := by simp [hstage]
  obtain ⟨job, k, hjob⟩ := (Blocking.machine_coherent hs).job i hfree
  obtain ⟨s₀, hr, hmem, hat⟩ :=
    Blocking.machine_history (ringProgress_sound r).own hs i job k hfree hjob
  rw [hstage] at hat
  obtain ⟨v, -, hrun, hends, hpending⟩ := hat
  have hholds := (ringCalls_sound r).reachable (hrun.reachable hr)
  have hheld := jobRun_held hr hrun
  refine ⟨job, k, hjob, ?_⟩
  rw [← hmem]
  cases i with
  | producer => exact ⟨push_polls hholds hheld hends, Option.isSome_iff_ne_none.mp hpending⟩
  | consumer => exact ⟨pop_polls hholds hheld hends, Option.isSome_iff_ne_none.mp hpending⟩

theorem parked_idle (hs : ((ringBlocking r).machine scripts).Reachable s) (hstage : s.stage i = .parked) :
    s.base.running i = none := by
  simpa [hstage] using (Blocking.machine_coherent hs).running i

theorem pushParked_of_parked (hs : ((ringBlocking r).machine scripts).Reachable s)
    (hstage : s.stage .producer = .parked) : PushParked s.base := by
  obtain ⟨job, k, -, hpolled, hsome⟩ := parked_waiting hs hstage
  exact ⟨parked_idle hs hstage, hpolled.polled hsome⟩

theorem popParked_of_parked (hs : ((ringBlocking r).machine scripts).Reachable s)
    (hstage : s.stage .consumer = .parked) : PopParked s.base := by
  obtain ⟨job, k, -, hpolled, hsome⟩ := parked_waiting hs hstage
  exact ⟨parked_idle hs hstage, hpolled.polled hsome⟩

theorem RingReady.job_starts (hs : RingReady r s) (hfree : s.stage i = .free) (job : RingJob T i) :
    (ringCall r i ((ringBlocking r).op job) s.base.mem).isSome = true := by
  have hpending := hs.free i hfree
  cases i with
  | producer =>
    have hnone : s.base.mem.pushFuture = none := Option.not_isSome_iff_eq_none.mp (by
      simpa [ringBlocking] using hpending)
    cases job <;> simp [ringCall, ringBlocking, PushJob.op, producerCall, hs.alive.1, hnone]
  | consumer =>
    have hnone : s.base.mem.popFuture = none := Option.not_isSome_iff_eq_none.mp (by
      simpa [ringBlocking] using hpending)
    cases job <;> simp [ringCall, ringBlocking, PopJob.op, consumerCall, hs.alive.2, hnone]

theorem RingReady.poll_starts (hs : RingReady r s) (hwaits : s.stage i = .awake ∨ s.stage i = .parked) :
    (ringCall r i ((ringBlocking r).poll i) s.base.mem).isSome = true := by
  have hpending := hs.waits i hwaits
  cases i with
  | producer =>
    obtain ⟨future, hf⟩ := Option.isSome_iff_exists.mp hpending
    simp [ringCall, ringBlocking, hs.alive.1, hf]
  | consumer =>
    obtain ⟨future, hf⟩ := Option.isSome_iff_exists.mp hpending
    simp [ringCall, ringBlocking, hs.alive.2, hf]

theorem exec_call_ne_none {op : RingOp T RingSide} (hidle : s.base.running i = none)
    (h : (ringCall r i op s.base.mem).isSome = true) :
    (ringBlocking r).threads.exec s.base (.call i op) ≠ none := by
  obtain ⟨c, hc⟩ := Option.isSome_iff_exists.mp h
  simp [Threads.exec, hidle, ringBlocking, ringThreads, hc]

/-- A thread that cannot move is done, or waits without a token. -/
theorem stuck_cases (hs : ((ringBlocking r).machine scripts).Reachable s)
    (hstuck : (ringBlocking r).step s i = none) : s.base.running i = none ∧
      (s.stage i = .free ∧ (∃ a, s.script i = .done a) ∨ s.stage i = .parked ∧ s.token i = false) := by
  have hcoh := Blocking.machine_coherent hs
  have hready := ring_ready hs
  have hidle : s.base.running i = none := by
    cases hrun : s.base.running i with
    | none => rfl
    | some p =>
      have hsome := Threads.exec_isSome (T := ringThreads r) hrun
      rw [Blocking.step, hrun] at hstuck
      simp only [Option.map_eq_none_iff] at hstuck
      rw [show (ringBlocking r).threads = ringThreads r from rfl] at hstuck
      simp [hstuck] at hsome
  refine ⟨hidle, ?_⟩
  simp only [Blocking.step, hidle] at hstuck
  cases hstage : s.stage i with
  | free =>
    left
    cases hscript : s.script i with
    | done a => exact ⟨rfl, a, rfl⟩
    | job job k =>
      simp only [hstage, hscript, Option.map_eq_none_iff] at hstuck
      exact absurd hstuck (exec_call_ne_none hidle (hready.job_starts hstage job))
  | calling =>
    have hsome := (hcoh.running i).mpr (.inl hstage)
    simp [hidle] at hsome
  | polling =>
    have hsome := (hcoh.running i).mpr (.inr hstage)
    simp [hidle] at hsome
  | awake =>
    simp only [hstage, Option.map_eq_none_iff] at hstuck
    exact absurd hstuck (exec_call_ne_none hidle (hready.poll_starts (.inl hstage)))
  | parked =>
    simp only [hstage] at hstuck
    split at hstuck
    · cases hstuck
    · exact .inr ⟨rfl, Bool.eq_false_of_not_eq_true ‹_›⟩

theorem parked_producer_full (hs : ((ringBlocking r).machine scripts).Reachable s)
    (hstage : s.stage .producer = .parked) (htoken : s.token .producer = false)
    (hidle : s.base.running .consumer = none) :
    (s.base.mem.stored r).length = r.capacity.toNat :=
  PushParked.full (pushParked_of_parked hs hstage) (Blocking.machine_base hs)
    ((ring_tokens hs).woken .producer (.inr hstage) htoken) hidle

theorem parked_consumer_empty (hs : ((ringBlocking r).machine scripts).Reachable s)
    (hstage : s.stage .consumer = .parked) (htoken : s.token .consumer = false)
    (hidle : s.base.running .producer = none) : s.base.mem.stored r = [] :=
  PopParked.empty (popParked_of_parked hs hstage) (Blocking.machine_base hs)
    ((ring_tokens hs).woken .consumer (.inr hstage) htoken) hidle

end Parked

/-- The thread has worked through its script. -/
def Finished (s : RingRun w T ρ) (i : RingSide) : Prop :=
  s.stage i = .free ∧ ∃ a, s.script i = .done a

/-- No thread can move; each is done or rightly waits, and one of them is done. -/
structure Settled (r : RingBuf w) (s : RingRun w T ρ) : Prop where
  stuck : ∀ i, (ringBlocking r).step s i = none
  each : ∀ i, Finished s i ∨ s.stage i = .parked
  full : s.stage .producer = .parked → (s.base.mem.stored r).length = r.capacity.toNat
  empty : s.stage .consumer = .parked → s.base.mem.stored r = []
  some_finished : ∃ i, Finished s i

theorem settled_of_stuck (hs : ((ringBlocking r).machine scripts).Reachable s)
    (hstuck : ∀ i, (ringBlocking r).step s i = none) : Settled r s := by
  have hproducer := stuck_cases hs (hstuck .producer)
  have hconsumer := stuck_cases hs (hstuck .consumer)
  have htoken : ∀ i, s.stage i = .parked → s.token i = false := by
    intro i hi
    obtain ⟨hfree, -⟩ | ⟨-, htoken⟩ := (stuck_cases hs (hstuck i)).2
    · rw [hi] at hfree
      cases hfree
    · exact htoken
  have hfull : s.stage .producer = .parked → (s.base.mem.stored r).length = r.capacity.toNat :=
    fun h => parked_producer_full hs h (htoken _ h) hconsumer.1
  have hempty : s.stage .consumer = .parked → s.base.mem.stored r = [] :=
    fun h => parked_consumer_empty hs h (htoken _ h) hproducer.1
  have heach : ∀ i, Finished s i ∨ s.stage i = .parked :=
    fun i => (stuck_cases hs (hstuck i)).2.imp_right And.left
  refine ⟨hstuck, heach, hfull, hempty, ?_⟩
  obtain hdone | hpush := heach .producer
  · exact ⟨_, hdone⟩
  obtain hdone | hpop := heach .consumer
  · exact ⟨_, hdone⟩
  -- a ring with room for an item is not full and empty at once
  obtain ⟨k, hk⟩ := r.isPowerOfTwo
  have hpos : 0 < 2 ^ k := Nat.two_pow_pos k
  have hlen := hfull hpush
  rw [hempty hpop, List.length_nil, hk] at hlen
  omega

/-- Whatever a producer thread and a consumer thread do with the blocking calls, fair turns bring
them to rest, where neither can move and each is done or parked for a reason. -/
theorem ringbuf_blocking_settles (w : Nat) (r : RingBuf w) (T ρ : Type)
    (scripts : ∀ i, Script (RingJob T i) (Option (RingOut T)) ρ) (s : RingRun w T ρ)
    (hs : ((ringBlocking r).machine scripts).Reachable s) (turns : Nat → RingSide)
    (hfair : Machine.Fair turns) :
    ∃ n, Settled r (((ringBlocking r).machine scripts).follow turns s n) := by
  obtain ⟨n, hstuck⟩ := (ringProgress_sound r).settles hs hfair
  exact ⟨n, settled_of_stuck (hs.follow turns n) hstuck⟩

def alternating (n : Nat) : RingSide := if n % 2 = 0 then .producer else .consumer

theorem alternating_fair : Machine.Fair alternating := by
  intro i n
  cases i with
  | producer => exact ⟨2 * n, by omega, by simp [alternating]⟩
  | consumer => exact ⟨2 * n + 1, by omega, by simp [alternating]⟩

/-- Three items for a ring of two, of which the consumer wants one. -/
theorem ringbuf_blocking_settles_three :
    ∃ n, Settled ⟨2, 1, rfl⟩ (((ringBlocking (w := 8) ⟨2, 1, rfl⟩).machine fun i =>
      match i with
      | .producer => Script.job (PushJob.pushSlice [1, 2, 3]) fun _ => .done ()
      | .consumer => Script.job (PopJob.pop (T := Nat)) fun _ => .done ()).follow alternating
        (((ringBlocking (w := 8) ⟨2, 1, rfl⟩).machine fun i =>
          match i with
          | .producer => Script.job (PushJob.pushSlice [1, 2, 3]) fun _ => .done ()
          | .consumer => Script.job (PopJob.pop (T := Nat)) fun _ => .done ()).init) n) :=
  ringbuf_blocking_settles 8 ⟨2, 1, rfl⟩ Nat Unit _ _ ⟨[], rfl⟩ alternating alternating_fair

end Cynosure.SiteD.Ring
