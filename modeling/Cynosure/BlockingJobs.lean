import Cynosure.Blocking

/-! # The calls behind a job

A job is one call of the object, or the call that creates a future and the polls of it.
What these calls are known to do when they return bounds what a job can have done by any
moment, because a thread that is left alone comes to the end of its call.
-/

namespace Cynosure

variable {S ι Op β γ ρ : Type} {Job : ι → Type} [DecidableEq ι]

namespace Blocking

variable (B : Blocking S ι Op β γ Job)

/-- The calls that the job `j` of thread `i` has made so far have led from `s` to `u`. -/
inductive JobRun (i : ι) (j : Job i) (s : ThreadState S ι β) : ThreadState S ι β → Prop
  | call {u} (h : B.threads.CallEnds i (B.op j) s u) : JobRun i j s u
  | poll {u v} (hblocks : B.blocks j = true) (h : JobRun i j s u)
    (h' : B.threads.CallEnds i (B.poll i) u v) : JobRun i j s v

variable {B} {i : ι} {j : Job i} {s u v : ThreadState S ι β}

theorem JobRun.others (h : B.JobRun i j s u) {a : ThreadOp ι Op} (ha : a.party ≠ i)
    (hexec : B.threads.exec u a = some v) : B.JobRun i j s v := by
  cases h with
  | call h => exact .call (h.others ha hexec)
  | poll hblocks h h' => exact .poll hblocks h (h'.others ha hexec)

theorem JobRun.reachable (hs : B.threads.machine.Reachable s) (h : B.JobRun i j s u) :
    B.threads.machine.Reachable u := by
  induction h with
  | call h => exact Threads.Reachable.callEnds hs h
  | poll _ _ h' ih => exact Threads.Reachable.callEnds ih h'

/-- A job that has returned. -/
def JobEnds (B : Blocking S ι Op β γ Job) (i : ι) (j : Job i) (s u : ThreadState S ι β) : Prop :=
  B.blocks j = false ∧ B.threads.CallEnds i (B.op j) s u ∨
    ∃ v, B.blocks j = true ∧ B.JobRun i j s v ∧ B.threads.CallEnds i (B.poll i) v u ∧
      B.pending i u.mem = false

theorem JobEnds.run (h : B.JobEnds i j s u) : B.JobRun i j s u := by
  obtain ⟨-, h⟩ | ⟨v, hblocks, h, h', -⟩ := h
  · exact .call h
  · exact .poll hblocks h h'

/-- Where the job of thread `i` that began in `s` is, by the stage of the thread. -/
def JobAt (B : Blocking S ι Op β γ Job) (i : ι) (j : Job i) (s : ThreadState S ι β) (stage : Stage)
    (u : ThreadState S ι β) : Prop :=
  match stage with
  | .free => True
  | .calling => B.threads.Inside i (B.op j) s u
  | .awake => B.blocks j = true ∧ B.JobRun i j s u
  | .polling => B.blocks j = true ∧
      ∃ v, B.JobRun i j s v ∧ B.threads.Inside i (B.poll i) v u
  | .parked => ∃ v, B.blocks j = true ∧ B.JobRun i j s v ∧ B.threads.CallEnds i (B.poll i) v u ∧
      B.pending i u.mem = true

theorem JobAt.others {stage : Stage} (h : B.JobAt i j s stage u) {a : ThreadOp ι Op}
    (ha : a.party ≠ i) (hpending : B.pending i v.mem = B.pending i u.mem)
    (hexec : B.threads.exec u a = some v) : B.JobAt i j s stage v := by
  have hcall : ∀ op, a ≠ .call i op := by
    rintro op rfl
    exact ha rfl
  cases stage with
  | free => trivial
  | calling => exact Threads.Inside.exec h hcall hexec
  | awake => exact ⟨h.1, h.2.others ha hexec⟩
  | polling =>
    obtain ⟨hblocks, w, hrun, hin⟩ := h
    exact ⟨hblocks, w, hrun, hin.exec hcall hexec⟩
  | parked =>
    obtain ⟨w, hblocks, hrun, hends, hpend⟩ := h
    exact ⟨w, hblocks, hrun, hends.others ha hexec, hpending.trans hpend⟩

/-- Each job in progress goes back to a state that its thread found. -/
def History (B : Blocking S ι Op β γ Job) (s : BlockState S ι β γ ρ Job) : Prop :=
  ∀ i j k, s.stage i ≠ .free → s.script i = .job j k →
    ∃ s₀, B.threads.machine.Reachable s₀ ∧ s₀.mem = s.began i ∧ B.JobAt i j s₀ (s.stage i) s.base

/-- Others do not change whether a future is pending. -/
def PendingIsOwn (B : Blocking S ι Op β γ Job) : Prop :=
  ∀ {s t : ThreadState S ι β} {a} {i : ι}, B.threads.machine.Reachable s →
    B.threads.exec s a = some t → i ≠ a.party → B.pending i t.mem = B.pending i s.mem

section History

variable {s t : BlockState S ι β γ ρ Job}

theorem Steps.history (hown : B.PendingIsOwn) (hs : s.Coherent)
    (hbase : B.threads.machine.Reachable s.base) (h : B.Steps s i t) (hist : B.History s) :
    B.History t := by
  intro i' j k hfree hjob
  by_cases hi : i' = i
  · subst hi
    have hstep : ∀ op, (ThreadOp.step i' : ThreadOp ι Op) ≠ .call i' op := fun op h => nomatch h
    cases h with
    | act hexec hp =>
      obtain ⟨s₀, hr, hmem, hat⟩ := hist i' j k hfree hjob
      refine ⟨s₀, hr, hmem, ?_⟩
      obtain hstage | hstage := (hs.running i').mp (Threads.exec_running_isSome hexec)
      · simp only [hstage] at hat ⊢
        exact Threads.Inside.exec hat hstep hexec
      · simp only [hstage] at hat ⊢
        obtain ⟨hblocks, v, hrun, hin⟩ := hat
        exact ⟨hblocks, v, hrun, hin.exec hstep hexec⟩
    | create hexec hidle hstage hjob' hblocks =>
      cases hjob'.symm.trans hjob
      obtain ⟨s₀, hr, hmem, hat⟩ := hist i' j k (by simp [hstage]) hjob
      rw [hstage] at hat
      refine ⟨s₀, hr, hmem, ?_⟩
      simp only [Function.update_self]
      exact ⟨hblocks, .call ((Threads.Inside.exec hat hstep hexec).ends hidle)⟩
    | park hexec hidle hstage hpending =>
      obtain ⟨s₀, hr, hmem, hat⟩ := hist i' j k (by simp [hstage]) hjob
      rw [hstage] at hat
      obtain ⟨hblocks, v, hrun, hin⟩ := hat
      refine ⟨s₀, hr, hmem, ?_⟩
      simp only [Function.update_self]
      exact ⟨v, hblocks, hrun, (hin.exec hstep hexec).ends hidle, hpending⟩
    | finish => exact absurd (Function.update_self _ _ _) hfree
    | call hstage hjob' hexec =>
      cases hjob'.symm.trans hjob
      refine ⟨s.base, hbase, (Function.update_self i' _ s.began).symm, ?_⟩
      simp only [Function.update_self]
      exact ⟨_, [], hexec, by simp, rfl⟩
    | poll hstage hexec =>
      obtain ⟨s₀, hr, hmem, hat⟩ := hist i' j k (by simp [hstage]) hjob
      rw [hstage] at hat
      refine ⟨s₀, hr, hmem, ?_⟩
      simp only [Function.update_self]
      exact ⟨hat.1, s.base, hat.2, _, [], hexec, by simp, rfl⟩
    | unpark hstage =>
      obtain ⟨s₀, hr, hmem, hat⟩ := hist i' j k (by simp [hstage]) hjob
      rw [hstage] at hat
      obtain ⟨v, hblocks, hrun, hends, -⟩ := hat
      refine ⟨s₀, hr, hmem, ?_⟩
      simp only [Function.update_self]
      exact ⟨hblocks, .poll hblocks hrun hends⟩
  · have hsame := h.untouched hi
    rw [hsame.stage] at hfree ⊢
    rw [hsame.script] at hjob
    rw [hsame.began]
    obtain ⟨s₀, hr, hmem, hat⟩ := hist i' j k hfree hjob
    refine ⟨s₀, hr, hmem, ?_⟩
    obtain heq | ⟨a, rfl, hexec⟩ := h.base
    · rwa [heq]
    · exact hat.others (Ne.symm hi) (hown hbase hexec hi) hexec

theorem machine_history {scripts : ∀ i, Script (Job i) γ ρ} (hown : B.PendingIsOwn)
    (h : (B.machine scripts).Reachable s) : B.History s := by
  refine (h.invariant (I := fun s => (B.machine scripts).Reachable s ∧ B.History s)
    ⟨⟨[], rfl⟩, fun i j k hfree => absurd rfl hfree⟩ ?_).2
  rintro s i t ⟨hs, hist⟩ hstep
  exact ⟨machine_step_reachable hs hstep,
    (machine_steps hs hstep).history hown (machine_coherent hs) (machine_base hs) hist⟩

/-- A job ends as its calls do. -/
theorem Steps.jobEnds {scripts : ∀ i, Script (Job i) γ ρ} (hown : B.PendingIsOwn)
    (hs : (B.machine scripts).Reachable s) {u : ThreadState S ι β}
    (hexec : B.threads.exec s.base (.step i) = some u) (hidle : u.running i = none)
    {k : γ → Script (Job i) γ ρ} (hjob : s.script i = .job j k)
    (hready : s.stage i = .calling ∧ B.blocks j = false ∨
      s.stage i = .polling ∧ B.pending i u.mem = false) :
    ∃ s₀, B.threads.machine.Reachable s₀ ∧ s₀.mem = s.began i ∧ B.JobEnds i j s₀ u := by
  have hstep : ∀ op, (ThreadOp.step i : ThreadOp ι Op) ≠ .call i op := fun op h => nomatch h
  obtain ⟨hstage, hblocks⟩ | ⟨hstage, hpending⟩ := hready
  · obtain ⟨s₀, hr, hmem, hat⟩ := machine_history hown hs i j k (by simp [hstage]) hjob
    rw [hstage] at hat
    exact ⟨s₀, hr, hmem, .inl ⟨hblocks, (Threads.Inside.exec hat hstep hexec).ends hidle⟩⟩
  · obtain ⟨s₀, hr, hmem, hat⟩ := machine_history hown hs i j k (by simp [hstage]) hjob
    rw [hstage] at hat
    obtain ⟨hblocks, v, hrun, hin⟩ := hat
    exact ⟨s₀, hr, hmem, .inr ⟨v, hblocks, hrun, (hin.exec hstep hexec).ends hidle, hpending⟩⟩

end History

end Blocking

end Cynosure
