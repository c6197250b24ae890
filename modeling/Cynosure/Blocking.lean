import Cynosure.Lib.Fair
import Cynosure.Lib.Threads

/-! # Threads that block

`block_on` polls a future with the waker of its thread and parks the thread while the
future is pending. The waker unparks the thread: it leaves a token, which the next
`park` takes, or the one that the thread is in; a `park` does not return without one. A
thread works through a script of jobs on the shared object; some of them are calls that
return at once, the others are futures given to `block_on`.
-/

namespace Cynosure

/-- What a thread still does, depending on what its jobs return. -/
inductive Script (J γ ρ : Type) where
  | done (a : ρ)
  | job (j : J) (k : γ → Script J γ ρ)

/-- The jobs of a list, one after the other; `outs` is what the earlier ones returned. -/
def Script.calls {J γ : Type} : List J → List γ → Script J γ (List γ)
  | [], outs => .done outs
  | j :: js, outs => .job j fun x => calls js (outs ++ [x])

/-- A shared object as its threads use it. The call of a job that blocks creates the future. -/
structure Blocking (S ι Op β γ : Type) (Job : ι → Type) where
  threads : Threads S ι Op β
  op : ∀ {i}, Job i → Op
  blocks : ∀ {i}, Job i → Bool
  /-- with the waker of the thread -/
  poll : ι → Op
  pending : ι → S → Bool
  /-- the threads whose wakers an action invokes -/
  unparks : S → S → ι → Bool
  returns : ι → S → γ

/-- `calling`: inside the call of a job; `awake`: in `block_on`, with a poll to make. -/
inductive Stage where
  | free | calling | awake | polling | parked
  deriving DecidableEq, Repr

/-- `began` records the object as the current job of a thread found it, and is read by no step. -/
structure BlockState (S ι β γ ρ : Type) (Job : ι → Type) where
  base : ThreadState S ι β
  script : ∀ i, Script (Job i) γ ρ
  stage : ι → Stage
  token : ι → Bool
  began : ι → S

namespace Blocking

variable {S ι Op β γ ρ : Type} {Job : ι → Type} [DecidableEq ι] (B : Blocking S ι Op β γ Job)

def finish (i : ι) (s : BlockState S ι β γ ρ Job) : BlockState S ι β γ ρ Job :=
  match s.script i with
  | .done _ => s
  | .job _ k =>
    { s with
      script := Function.update s.script i (k (B.returns i s.base.mem))
      stage := Function.update s.stage i .free }

/-- A call of thread `i` has returned. -/
def returned (i : ι) (s : BlockState S ι β γ ρ Job) : BlockState S ι β γ ρ Job :=
  match s.stage i, s.script i with
  | .calling, .job j _ =>
    if B.blocks j then { s with stage := Function.update s.stage i .awake } else B.finish i s
  | .polling, _ =>
    if B.pending i s.base.mem then { s with stage := Function.update s.stage i .parked }
    else B.finish i s
  | _, _ => s

/-- One step of thread `i`, which cannot move when it is done or waits for its token. -/
def step (s : BlockState S ι β γ ρ Job) (i : ι) : Option (BlockState S ι β γ ρ Job) :=
  match s.base.running i with
  | some _ => (B.threads.exec s.base (.step i)).map fun t =>
    let next := { s with base := t, token := fun j => s.token j || B.unparks s.base.mem t.mem j }
    if (t.running i).isSome then next else B.returned i next
  | none =>
    match s.stage i, s.script i with
    | .free, .job j _ => (B.threads.exec s.base (.call i (B.op j))).map fun t =>
      { s with
        base := t
        stage := Function.update s.stage i .calling
        began := Function.update s.began i s.base.mem }
    | .awake, _ => (B.threads.exec s.base (.call i (B.poll i))).map fun t =>
      { s with base := t, stage := Function.update s.stage i .polling }
    | .parked, _ =>
      if s.token i then
        some { s with
          token := Function.update s.token i false
          stage := Function.update s.stage i .awake }
      else none
    | _, _ => none

def machine (scripts : ∀ i, Script (Job i) γ ρ) : Machine (BlockState S ι β γ ρ Job) ι where
  init := ⟨⟨B.threads.init, fun _ => none⟩, scripts, fun _ => .free, fun _ => false,
    fun _ => B.threads.init⟩
  step := B.step

end Blocking

variable {S ι Op β γ ρ : Type} {Job : ι → Type} [DecidableEq ι]

/-- A thread is inside a call of the object exactly in the stages that say so, and it works on a
job unless it is free. -/
structure BlockState.Coherent (s : BlockState S ι β γ ρ Job) : Prop where
  running : ∀ i, (s.base.running i).isSome = true ↔ s.stage i = .calling ∨ s.stage i = .polling
  job : ∀ i, s.stage i ≠ .free → ∃ j k, s.script i = .job j k

namespace Blocking

variable (B : Blocking S ι Op β γ Job)

/-- The tokens after an action that leads to `u`. -/
def tokens (s : BlockState S ι β γ ρ Job) (u : ThreadState S ι β) : ι → Bool :=
  fun j => s.token j || B.unparks s.base.mem u.mem j

/-- What a step of thread `i` can be. -/
inductive Steps (s : BlockState S ι β γ ρ Job) (i : ι) : BlockState S ι β γ ρ Job → Prop
  | act {u p} (hexec : B.threads.exec s.base (.step i) = some u) (hp : u.running i = some p) :
    Steps s i { s with base := u, token := B.tokens s u }
  | create {u j k} (hexec : B.threads.exec s.base (.step i) = some u) (hidle : u.running i = none)
    (hstage : s.stage i = .calling) (hjob : s.script i = .job j k) (hblocks : B.blocks j = true) :
    Steps s i { s with
      base := u, token := B.tokens s u, stage := Function.update s.stage i .awake }
  | park {u} (hexec : B.threads.exec s.base (.step i) = some u) (hidle : u.running i = none)
    (hstage : s.stage i = .polling) (hpending : B.pending i u.mem = true) :
    Steps s i { s with
      base := u, token := B.tokens s u, stage := Function.update s.stage i .parked }
  | finish {u j k} (hexec : B.threads.exec s.base (.step i) = some u) (hidle : u.running i = none)
    (hjob : s.script i = .job j k)
    (hready : s.stage i = .calling ∧ B.blocks j = false ∨
      s.stage i = .polling ∧ B.pending i u.mem = false) :
    Steps s i { s with
      base := u
      token := B.tokens s u
      script := Function.update s.script i (k (B.returns i u.mem))
      stage := Function.update s.stage i .free }
  | call {u j k} (hstage : s.stage i = .free) (hjob : s.script i = .job j k)
    (hexec : B.threads.exec s.base (.call i (B.op j)) = some u) :
    Steps s i { s with
      base := u
      stage := Function.update s.stage i .calling
      began := Function.update s.began i s.base.mem }
  | poll {u} (hstage : s.stage i = .awake)
    (hexec : B.threads.exec s.base (.call i (B.poll i)) = some u) :
    Steps s i { s with base := u, stage := Function.update s.stage i .polling }
  | unpark (hstage : s.stage i = .parked) (htoken : s.token i = true) :
    Steps s i { s with
      token := Function.update s.token i false
      stage := Function.update s.stage i .awake }

variable {B} {s t : BlockState S ι β γ ρ Job} {i : ι}

theorem steps_of_step (hs : s.Coherent) (h : B.step s i = some t) : B.Steps s i t := by
  unfold step at h
  cases hrun : s.base.running i with
  | some p =>
    simp only [hrun, Option.map_eq_some_iff] at h
    obtain ⟨u, hexec, rfl⟩ := h
    cases hp : u.running i with
    | some q => exact .act hexec hp
    | none =>
      simp only [Option.isSome_none, Bool.false_eq_true, if_false, returned]
      obtain hstage | hstage := (hs.running i).mp (by rw [hrun]; rfl)
      · obtain ⟨j, k, hjob⟩ := hs.job i (by simp [hstage])
        simp only [hstage, hjob]
        cases hblocks : B.blocks j with
        | true => exact .create hexec hp hstage hjob hblocks
        | false =>
          simp only [Bool.false_eq_true, if_false, finish, hjob]
          exact .finish hexec hp hjob (.inl ⟨hstage, hblocks⟩)
      · obtain ⟨j, k, hjob⟩ := hs.job i (by simp [hstage])
        simp only [hstage]
        cases hpending : B.pending i u.mem with
        | true => exact .park hexec hp hstage hpending
        | false =>
          simp only [Bool.false_eq_true, if_false, finish, hjob]
          exact .finish hexec hp hjob (.inr ⟨hstage, hpending⟩)
  | none =>
    simp only [hrun] at h
    split at h
    · obtain ⟨u, hexec, rfl⟩ := Option.map_eq_some_iff.mp h
      exact .call ‹_› ‹_› hexec
    · obtain ⟨u, hexec, rfl⟩ := Option.map_eq_some_iff.mp h
      exact .poll ‹_› hexec
    · split at h
      · cases h
        exact .unpark ‹_› ‹_›
      · cases h
    · cases h

end Blocking

namespace Blocking

variable {B : Blocking S ι Op β γ Job} {s t : BlockState S ι β γ ρ Job} {i : ι}

/-- The object itself is used as it may be. -/
theorem Steps.base (h : B.Steps s i t) : t.base = s.base ∨
    ∃ a, a.party = i ∧ B.threads.exec s.base a = some t.base := by
  cases h with
  | act hexec => exact .inr ⟨_, rfl, hexec⟩
  | create hexec => exact .inr ⟨_, rfl, hexec⟩
  | park hexec => exact .inr ⟨_, rfl, hexec⟩
  | finish hexec => exact .inr ⟨_, rfl, hexec⟩
  | call _ _ hexec => exact .inr ⟨_, rfl, hexec⟩
  | poll _ hexec => exact .inr ⟨_, rfl, hexec⟩
  | unpark => exact .inl rfl

/-- What a step of thread `i` leaves of another thread. -/
structure Untouched (s t : BlockState S ι β γ ρ Job) (j : ι) : Prop where
  running : t.base.running j = s.base.running j
  script : t.script j = s.script j
  stage : t.stage j = s.stage j
  began : t.began j = s.began j

theorem Steps.untouched (h : B.Steps s i t) {j : ι} (hj : j ≠ i) : Untouched s t j := by
  have hrun : t.base.running j = s.base.running j := by
    obtain heq | ⟨a, rfl, hexec⟩ := h.base
    · rw [heq]
    · exact Threads.exec_running hexec hj
  cases h <;> exact ⟨hrun, by simp [hj], by simp [hj], by simp [hj]⟩

theorem Steps.coherent (h : B.Steps s i t) (hs : s.Coherent) : t.Coherent := by
  suffices hi : ((t.base.running i).isSome = true ↔ t.stage i = .calling ∨ t.stage i = .polling) ∧
      (t.stage i ≠ .free → ∃ j k, t.script i = .job j k) by
    refine ⟨fun j => ?_, fun j => ?_⟩
    · obtain rfl | hj := eq_or_ne j i
      · exact hi.1
      · rw [(h.untouched hj).running, (h.untouched hj).stage]
        exact hs.running j
    · obtain rfl | hj := eq_or_ne j i
      · exact hi.2
      · rw [(h.untouched hj).stage, (h.untouched hj).script]
        exact hs.job j
  cases h with
  | act hexec hp =>
    have hsome := (hs.running i).mp (Threads.exec_running_isSome hexec)
    exact ⟨by simpa [hp] using hsome, hs.job i⟩
  | create hexec hidle hstage hjob hblocks => exact ⟨by simp [hidle], fun _ => ⟨_, _, hjob⟩⟩
  | park hexec hidle hstage => exact ⟨by simp [hidle], fun _ => hs.job i (by simp [hstage])⟩
  | finish hexec hidle => exact ⟨by simp [hidle], fun hne => by simp at hne⟩
  | call hstage hjob hexec =>
    obtain ⟨-, p, hp⟩ := Threads.exec_call hexec
    exact ⟨by simp [hp], fun _ => ⟨_, _, hjob⟩⟩
  | poll hstage hexec =>
    obtain ⟨-, p, hp⟩ := Threads.exec_call hexec
    exact ⟨by simp [hp], fun _ => hs.job i (by simp [hstage])⟩
  | unpark hstage =>
    have hidle : s.base.running i = none := by simpa [hstage] using hs.running i
    exact ⟨by simp [hidle], fun _ => hs.job i (by simp [hstage])⟩

theorem machine_coherent {scripts : ∀ i, Script (Job i) γ ρ}
    (h : (B.machine scripts).Reachable s) : s.Coherent := by
  refine h.invariant ⟨fun i => by simp [machine], fun i hi => absurd rfl hi⟩ ?_
  exact fun s i t hs hstep => (steps_of_step hs hstep).coherent hs

theorem machine_steps {scripts : ∀ i, Script (Job i) γ ρ} (h : (B.machine scripts).Reachable s)
    (hstep : (B.machine scripts).step s i = some t) : B.Steps s i t :=
  steps_of_step (machine_coherent h) hstep

theorem machine_step_reachable {scripts : ∀ i, Script (Job i) γ ρ}
    (h : (B.machine scripts).Reachable s) (hstep : (B.machine scripts).step s i = some t) :
    (B.machine scripts).Reachable t := by
  obtain ⟨as, has⟩ := h
  refine ⟨as ++ [i], ?_⟩
  rw [Machine.run_append, has]
  exact (Machine.run_cons _).mpr ⟨t, hstep, rfl⟩

/-- Blocking threads use the object as any threads do. -/
theorem machine_base {scripts : ∀ i, Script (Job i) γ ρ} (h : (B.machine scripts).Reachable s) :
    B.threads.machine.Reachable s.base := by
  refine (h.invariant (I := fun s => s.Coherent ∧ B.threads.machine.Reachable s.base)
    ⟨machine_coherent ⟨[], rfl⟩, [], rfl⟩ ?_).2
  rintro s i t ⟨hs, as, has⟩ hstep
  have hsteps := steps_of_step hs hstep
  refine ⟨hsteps.coherent hs, ?_⟩
  obtain heq | ⟨a, -, hexec⟩ := hsteps.base
  · exact ⟨as, by rw [heq, has]⟩
  · refine ⟨as ++ [a], ?_⟩
    rw [Machine.run_append, has]
    exact (Machine.run_cons _).mpr ⟨_, hexec, rfl⟩

end Blocking

end Cynosure
