import Cynosure.SiteD.RingBufSettles

/-! # Blocking transfers deliver everything

When the pushes and the pops of two threads agree in number, neither thread stays parked:
under fair turns both come to the end of their lists, and the consumer has been handed
exactly the items of the producer, in order.
-/

namespace Cynosure.SiteD.Ring

variable {w : Nat} {T ρ : Type} {r : RingBuf w} {i : RingSide}

section Over

variable {s : RingState w T RingSide} {A : List T} {B : List (Option T)}

/-- A blocking call that was polled and is pending has items left. -/
theorem PushPolled.lt {job : PushJob T} (h : PushPolled A s job) (hf : s.pushFuture ≠ none) :
    s.accepted.length < A.length + job.items.length := by
  cases h.held with
  | single _ ha =>
    rw [ha]
    exact Nat.lt_succ_self _
  | slice hheld =>
    cases hheld with
    | fresh hfresh =>
      have hpolled := h.polled hf
      rw [hfresh] at hpolled
      cases hpolled
    | pending hj _ _ ha =>
      rw [ha, List.length_append, List.length_take, min_eq_left hj.le]
      exact Nat.add_lt_add_left hj _
    | finished hnone => exact absurd hnone hf
  | done hnone => exact absurd hnone hf

theorem PopPolled.lt {job : PopJob T} (h : PopPolled B s job) (hf : s.popFuture ≠ none) :
    s.taken.length < B.length + job.count := by
  cases h.held with
  | single _ ht =>
    rw [ht]
    exact Nat.lt_succ_self _
  | slice hheld =>
    cases hheld with
    | fresh _ hfresh =>
      have hpolled := h.polled hf
      rw [hfresh] at hpolled
      cases hpolled
    | pending hlen hm _ _ ht =>
      rw [ht, List.length_append, List.length_take, hlen, min_eq_left hm.le]
      exact Nat.add_lt_add_left hm _
    | finished hnone => exact absurd hnone hf
  | done hnone => exact absurd hnone hf

end Over

/-- The items that a side has moved so far. -/
def ledger : RingSide → RingState w T RingSide → List (Option T)
  | .producer, s => s.accepted.map some
  | .consumer, s => s.taken

/-- The items that a job moves; `out` is what it returns. -/
def handed : {i : RingSide} → RingJob T i → Option (RingOut T) → List (Option T)
  | .producer, job, _ => (PushJob.items job).map some
  | .consumer, _, out => outItems out

section Compare

variable {s : RingState w T RingSide}

theorem ledger_le (h : RingInv r s) : (ledger .consumer s).length ≤ (ledger .producer s).length := by
  rw [ledger, ledger, List.length_map]
  exact h.le

theorem ledger_le_of_empty (h : RingInv r s) (hempty : s.stored r = []) :
    (ledger .producer s).length ≤ (ledger .consumer s).length := by
  have hlen := congrArg List.length hempty
  rw [h.stored_eq, List.length_map, List.length_drop, List.length_nil] at hlen
  rw [ledger, ledger, List.length_map]
  omega

/-- When the consumer has moved as many items, they are the same ones, and the ring is empty. -/
theorem ledger_eq (h : RingInv r s)
    (hlen : (ledger .producer s).length ≤ (ledger .consumer s).length) :
    ledger .consumer s = ledger .producer s ∧ s.stored r = [] := by
  rw [ledger, ledger, List.length_map] at hlen
  have hall := le_antisymm h.le hlen
  have hfifo := h.fifo
  rw [hall, List.take_length] at hfifo
  refine ⟨hfifo, ?_⟩
  rw [h.stored_eq, hall, List.drop_length, List.map_nil]

end Compare

theorem jobEnds_hands {x y : ThreadState (RingState w T RingSide) RingSide PUnit.{1}} {job : RingJob T i}
    (hx : (ringThreads r).machine.Reachable x) (h : (ringBlocking r).JobEnds i job x y) :
    ledger i y.mem = ledger i x.mem ++ handed job ((ringBlocking r).returns i y.mem) ∧
      (handed job ((ringBlocking r).returns i y.mem)).length = jobSize job := by
  have hheld := jobRun_held hx h.run
  obtain ⟨hblocks, -⟩ | ⟨v, -, -, -, hpending⟩ := h
  · cases hblocks
  cases i with
  | producer =>
    have hnone : y.mem.pushFuture = none := Option.not_isSome_iff_eq_none.mp (by
      simpa [ringBlocking] using hpending)
    refine ⟨?_, List.length_map _⟩
    change y.mem.accepted.map some = x.mem.accepted.map some ++ (PushJob.items job).map some
    rw [PushHeld.over hheld hnone, List.map_append]
  | consumer =>
    have hnone : y.mem.popFuture = none := Option.not_isSome_iff_eq_none.mp (by
      simpa [ringBlocking] using hpending)
    obtain ⟨hlen, ht⟩ := PopHeld.over hheld hnone
    exact ⟨ht, hlen⟩

section Ledger

variable {jobs : ∀ i, List (RingJob T i)}
  {s t : RingRun w T (List (Option (RingOut T)))}

/-- The ring as the thread last found it between two jobs. -/
def foundBy (s : RingRun w T ρ) (i : RingSide) : RingState w T RingSide :=
  if s.stage i = .free then s.base.mem else s.began i

/-- What thread `i` has done of its jobs: those that ran with what they returned, and the rest. -/
structure Ledger (jobs : List (RingJob T i)) (s : RingRun w T (List (Option (RingOut T))))
    (ran : List (RingJob T i × Option (RingOut T))) (rest : List (RingJob T i)) : Prop where
  jobs : jobs = ran.map Prod.fst ++ rest
  script : s.script i = .calls rest (ran.map Prod.snd)
  counted : ∀ x ∈ ran, (handed x.1 x.2).length = jobSize x.1
  moved : ledger i (foundBy s i) = ran.flatMap fun x => handed x.1 x.2

theorem Ledger.length {jobs : List (RingJob T i)} {ran : List (RingJob T i × Option (RingOut T))}
    {rest : List (RingJob T i)} (h : Ledger jobs s ran rest) :
    (ledger i (foundBy s i)).length = (ran.map fun x => jobSize x.1).sum := by
  rw [h.moved, List.length_flatMap]
  exact congrArg List.sum (List.map_congr_left h.counted)

/-- A step of another thread. -/
theorem Ledger.others {jobs : List (RingJob T i)} {ran : List (RingJob T i × Option (RingOut T))}
    {rest : List (RingJob T i)} (h : Ledger jobs s ran rest) (huntouched : Blocking.Untouched s t i)
    (hledger : ledger i t.base.mem = ledger i s.base.mem) : Ledger jobs t ran rest := by
  refine ⟨h.jobs, huntouched.script.trans h.script, h.counted, ?_⟩
  rw [← h.moved, foundBy, foundBy, huntouched.stage, huntouched.began]
  split
  · exact hledger
  · rfl

theorem ledger_others {j : RingSide} {scripts : ∀ i, Script (RingJob T i) (Option (RingOut T)) ρ}
    {s t : RingRun w T ρ} (hs : ((ringBlocking r).machine scripts).Reachable s)
    (h : (ringBlocking r).Steps s i t) (hj : j ≠ i) :
    ledger j t.base.mem = ledger j s.base.mem := by
  obtain heq | ⟨a, rfl, hexec⟩ := h.base
  · rw [heq]
  have hrely := ring_rely (Blocking.machine_base hs) hexec hj
  cases j with
  | producer =>
    exact congrArg (List.map some) (show ProducerRely s.base.mem t.base.mem from hrely.1).accepted
  | consumer => exact (show ConsumerRely s.base.mem t.base.mem from hrely.1).taken

theorem Ledger.step (hs : ((ringBlocking r).machine fun i => .calls (jobs i) []).Reachable s)
    (h : (ringBlocking r).Steps s i t) {ran : List (RingJob T i × Option (RingOut T))}
    {rest : List (RingJob T i)} (hl : Ledger (jobs i) s ran rest) :
    ∃ ran rest, Ledger (jobs i) t ran rest := by
  have hcoh := Blocking.machine_coherent hs
  have hkeep : t.script i = s.script i → foundBy t i = foundBy s i →
      ∃ ran rest, Ledger (jobs i) t ran rest := fun hscript hfound =>
    ⟨ran, rest, hl.jobs, hscript.trans hl.script, hl.counted, by rw [hfound, hl.moved]⟩
  cases h with
  | act hexec hp =>
    refine hkeep rfl ?_
    obtain hstage | hstage := (hcoh.running i).mp (Threads.exec_running_isSome hexec) <;>
      simp [foundBy, hstage]
  | create _ _ hstage => exact hkeep rfl (by simp [foundBy, hstage])
  | park _ _ hstage => exact hkeep rfl (by simp [foundBy, hstage])
  | call hstage => exact hkeep rfl (by simp [foundBy, hstage])
  | poll hstage => exact hkeep rfl (by simp [foundBy, hstage])
  | unpark hstage => exact hkeep rfl (by simp [foundBy, hstage])
  | @finish u job k hexec hidle hjob hready =>
    obtain ⟨s₀, hr, hmem, hends⟩ :=
      Blocking.Steps.jobEnds (ringProgress_sound r).own hs hexec hidle hjob hready
    obtain ⟨hhands, hsize⟩ := jobEnds_hands hr hends
    have hbusy : s.stage i ≠ .free := by
      obtain ⟨hstage, -⟩ | ⟨hstage, -⟩ := hready <;> simp [hstage]
    have hmoved := hl.moved
    rw [foundBy, if_neg hbusy, ← hmem] at hmoved
    have hscript := hl.script
    rw [hjob] at hscript
    cases rest with
    | nil => cases hscript
    | cons job' rest =>
      rw [Script.calls] at hscript
      cases hscript
      refine ⟨ran ++ [(job, (ringBlocking r).returns i u.mem)], rest, ?_, ?_, ?_, ?_⟩
      · rw [hl.jobs]
        simp
      · simp
      · intro x hx
        obtain hx | hx := List.mem_append.mp hx
        · exact hl.counted x hx
        · obtain rfl := List.mem_singleton.mp hx
          exact hsize
      · simp only [foundBy, Function.update_self, if_true]
        rw [hhands, hmoved, List.flatMap_append, List.flatMap_singleton]

theorem ring_ledger (hs : ((ringBlocking r).machine fun i => .calls (jobs i) []).Reachable s)
    (i : RingSide) : ∃ ran rest, Ledger (jobs i) s ran rest := by
  refine (hs.invariant (I := fun s =>
    ((ringBlocking r).machine fun i => .calls (jobs i) []).Reachable s ∧
      ∀ i, ∃ ran rest, Ledger (jobs i) s ran rest) ⟨⟨[], rfl⟩, fun i => ?_⟩ ?_).2 i
  · refine ⟨[], jobs i, rfl, rfl, fun x hx => (by cases hx), ?_⟩
    cases i <;> rfl
  · rintro s i t ⟨hs, hall⟩ hstep
    have h := Blocking.machine_steps hs hstep
    refine ⟨Blocking.machine_step_reachable hs hstep, fun j => ?_⟩
    obtain ⟨ran, rest, hl⟩ := hall j
    obtain rfl | hj := eq_or_ne j i
    · exact hl.step hs h
    · exact ⟨ran, rest, hl.others (h.untouched hj) (ledger_others hs h hj)⟩

theorem Ledger.total {jobs : List (RingJob T i)} {ran : List (RingJob T i × Option (RingOut T))}
    {rest : List (RingJob T i)} (h : Ledger jobs s ran rest) :
    (jobs.map jobSize).sum = (ledger i (foundBy s i)).length + (rest.map jobSize).sum := by
  rw [h.length, h.jobs, List.map_append, List.sum_append, List.map_map]
  rfl

/-- A thread that is done has moved what all its jobs move. -/
theorem Ledger.finished {jobs : List (RingJob T i)} {ran : List (RingJob T i × Option (RingOut T))}
    {rest : List (RingJob T i)} (h : Ledger jobs s ran rest) (hdone : Finished s i) :
    rest = [] ∧ (ledger i s.base.mem).length = (jobs.map jobSize).sum ∧
      ledger i s.base.mem = ran.flatMap fun x => handed x.1 x.2 := by
  obtain ⟨hfree, a, hscript⟩ := hdone
  have hrest : rest = [] := by
    have hcalls := h.script
    rw [hscript] at hcalls
    cases rest with
    | nil => rfl
    | cons job rest => cases hcalls
  have htotal := h.total
  have hmoved := h.moved
  rw [foundBy, if_pos hfree] at htotal hmoved
  subst hrest
  exact ⟨rfl, htotal.symm, hmoved⟩

/-- A thread that is parked has not. -/
theorem parked_moves_less (hs : ((ringBlocking r).machine fun i => .calls (jobs i) []).Reachable s)
    (hstage : s.stage i = .parked) :
    (ledger i s.base.mem).length < ((jobs i).map jobSize).sum := by
  obtain ⟨ran, rest, hl⟩ := ring_ledger hs i
  have hfree : s.stage i ≠ .free := by simp [hstage]
  obtain ⟨job, k, hjob, hwaiting⟩ := parked_waiting hs hstage
  have hlt : (ledger i s.base.mem).length < (ledger i (s.began i)).length + jobSize job := by
    cases i with
    | producer =>
      rw [ledger, ledger, List.length_map, List.length_map]
      exact PushPolled.lt hwaiting.1 hwaiting.2
    | consumer => exact PopPolled.lt hwaiting.1 hwaiting.2
  have htotal := hl.total
  rw [foundBy, if_neg hfree] at htotal
  have hscript := hl.script
  rw [hjob] at hscript
  cases rest with
  | nil => cases hscript
  | cons job' rest =>
    rw [Script.calls] at hscript
    cases hscript
    rw [List.map_cons, List.sum_cons] at htotal
    omega

/-- When the two lists agree in number, none of the threads can be left waiting. -/
theorem balanced_finish (hs : ((ringBlocking r).machine fun i => .calls (jobs i) []).Reachable s)
    (hsettled : Settled r s)
    (hbal : ((jobs .producer).map jobSize).sum = ((jobs .consumer).map jobSize).sum) (i : RingSide) :
    Finished s i := by
  have hring := (reachable_waits (Blocking.machine_base hs)).1.1
  have hall : ∀ {i}, Finished s i → (ledger i s.base.mem).length = ((jobs i).map jobSize).sum := by
    intro i hi
    obtain ⟨ran, rest, hl⟩ := ring_ledger hs i
    exact (hl.finished hi).2.1
  have hproducer : Finished s .producer := by
    obtain hdone | hparked := hsettled.each .producer
    · exact hdone
    obtain ⟨i, hi⟩ := hsettled.some_finished
    cases i with
    | producer => exact hi
    | consumer =>
      have hless := parked_moves_less hs hparked
      have hmost := hall hi
      have hle := ledger_le hring
      omega
  cases i with
  | producer => exact hproducer
  | consumer =>
    obtain hdone | hparked := hsettled.each .consumer
    · exact hdone
    have hless := parked_moves_less hs hparked
    have hmost := hall hproducer
    have hle := ledger_le_of_empty hring (hsettled.empty hparked)
    omega

end Ledger

/-- The two lists of blocking calls. -/
def transferJobs (pushes : List (PushJob T)) (pops : List (PopJob T)) : ∀ i, List (RingJob T i)
  | .producer => pushes
  | .consumer => pops

abbrev ringTransfer (r : RingBuf w) (pushes : List (PushJob T)) (pops : List (PopJob T)) :
    Machine (RingRun w T (List (Option (RingOut T)))) RingSide :=
  (ringBlocking r).machine fun i => .calls (transferJobs pushes pops i) []

/-- Both threads are done, and the pops returned the items of the pushes. -/
structure Transferred (r : RingBuf w) (pushes : List (PushJob T))
    (s : RingRun w T (List (Option (RingOut T)))) (outs : List (Option (RingOut T))) : Prop where
  producer : Finished s .producer
  consumer : s.stage .consumer = .free ∧ s.script .consumer = .done outs
  items : outs.flatMap outItems = (pushes.flatMap PushJob.items).map some
  drained : s.base.mem.stored r = []

/-- Lists of pushes and pops that agree in number run to their ends, and every item arrives. -/
theorem ringbuf_blocking_transfers (w : Nat) (r : RingBuf w) (T : Type) (pushes : List (PushJob T))
    (pops : List (PopJob T))
    (hcount : (pushes.flatMap PushJob.items).length = (pops.map PopJob.count).sum)
    (s : RingRun w T (List (Option (RingOut T)))) (hs : (ringTransfer r pushes pops).Reachable s)
    (turns : Nat → RingSide) (hfair : Machine.Fair turns) :
    ∃ n outs, Transferred r pushes ((ringTransfer r pushes pops).follow turns s n) outs := by
  obtain ⟨n, hstuck⟩ := (ringProgress_sound r).settles hs hfair
  have ht := hs.follow turns n
  refine ⟨n, ?_⟩
  generalize (ringTransfer r pushes pops).follow turns s n = t at ht hstuck ⊢
  have hbal : ((transferJobs pushes pops .producer).map jobSize).sum =
      ((transferJobs pushes pops .consumer).map jobSize).sum := by
    rw [List.length_flatMap] at hcount
    exact hcount
  have hfinish := balanced_finish ht (settled_of_stuck ht hstuck) hbal
  obtain ⟨ran, rest, hl⟩ := ring_ledger ht .producer
  obtain ⟨ran', rest', hl'⟩ := ring_ledger ht .consumer
  obtain ⟨hrest, hpushed, hpushes⟩ := hl.finished (hfinish .producer)
  obtain ⟨hrest', htook, htaken⟩ := hl'.finished (hfinish .consumer)
  subst hrest hrest'
  obtain ⟨hsame, hdrained⟩ :=
    ledger_eq (reachable_waits (Blocking.machine_base ht)).1.1 (by omega)
  have hitems : ledger .producer t.base.mem = (pushes.flatMap PushJob.items).map some := by
    have hjobs := hl.jobs
    rw [List.append_nil] at hjobs
    have hran := congrArg (List.flatMap fun job => handed job none) hjobs
    rw [List.flatMap_map] at hran
    rw [List.map_flatMap]
    exact Eq.trans hpushes hran.symm
  refine ⟨ran'.map Prod.snd, hfinish .producer, ⟨(hfinish .consumer).1, hl'.script⟩, ?_, hdrained⟩
  rw [List.flatMap_map, ← hitems, ← hsame]
  exact htaken.symm

/-- Four items through a ring of two. -/
theorem ringbuf_blocking_transfers_four : ∃ n outs,
    Transferred ⟨2, 1, rfl⟩ [.pushSlice [1, 2, 3], .push 4] ((ringTransfer (w := 8) ⟨2, 1, rfl⟩
      [.pushSlice [1, 2, 3], .push 4] [.pop, .popSlice [0, 0, 0]]).follow alternating
        (ringTransfer (w := 8) ⟨2, 1, rfl⟩ [.pushSlice [1, 2, 3], .push 4]
          [.pop, .popSlice [0, 0, 0]]).init n) outs :=
  ringbuf_blocking_transfers 8 ⟨2, 1, rfl⟩ Nat [.pushSlice [1, 2, 3], .push 4]
    [.pop, .popSlice [0, 0, 0]] rfl _ ⟨[], rfl⟩ alternating alternating_fair

end Cynosure.SiteD.Ring
