import Cynosure.Lib.Inevitable
import Cynosure.SiteC.Executor

/-! # Every future of `LocalMutex` gets the lock

The executor polls futures that are awake and the holder drops its guard, in whatever
order. The turn that an unlock passes on is enough to keep that going until all have completed.
-/

universe v

namespace Cynosure.SiteC

variable {W : Type v} [Waker W]

/-- What an executor does: it polls futures that are awake, and drops guards. -/
def MutexState.Executes (s : MutexState W) : MutexOp W → Prop
  | .poll f _ => f ∈ s.futs.awake
  | .dropGuard => True
  | _ => False

/-- What the executor relies on; `futs` are the futures at the start. -/
structure MutexServable (futs : Futs Unit Unit W) (s : MutexState W) : Prop where
  sound : MutexSound s
  turn : s.Turn
  queued : MutexQueued s
  within : s.futs.Within (2 ^ 64) s.mutex.nextId
  keeps : futs.Keeps s.futs

theorem mutexMachine_servable {ops : List (MutexOp W)} {s : MutexState W}
    (h : (mutexMachine W).run .init ops = some s) (hlen : ops.length ≤ 2 ^ 64) :
    MutexServable s.futs s := by
  obtain ⟨hsound, hturn⟩ := mutexMachine_sound h
  exact ⟨hsound, hturn, mutexMachine_queued_of_length h hlen, (mutexMachine_within h hlen).mono hlen,
    subset_refl _⟩

namespace MutexServable

variable {futs : Futs Unit Unit W} {s t : MutexState W}

/-- The futures that were woken are registered already, and for a first poll a token is left. -/
theorem not_reusesToken (h : MutexServable futs s) {op : MutexOp W} (hop : s.Executes op) :
    ¬ s.ReusesToken op := by
  cases op with
  | poll f waker =>
    rintro ⟨-, ⟨u, hu, hnone⟩, hholds⟩
    exact h.within.fresh hu (h.sound.consistent.unpolled_of_awake hop hu hnone) hholds
  | _ => exact id

/-- One step of the executor gets something done. -/
theorem step {op : MutexOp W} (h : MutexServable futs s) (hop : s.Executes op)
    (hs : MutexStep s op t) :
    MutexServable futs t ∧ t.futs.todo t.guards < s.futs.todo s.guards := by
  obtain ⟨hsound, hturn⟩ := h.sound.step h.turn hs
  have hqueued := h.queued.step h.sound (h.not_reusesToken hop) hs
  have hwithin : t.futs.Within (2 ^ 64) t.mutex.nextId := by
    refine hs.within h.within (le_refl _) (le_refl _) ?_ ?_
    · rintro f rfl
      exact hop.elim
    · rintro f waker u rfl hf hnone hpolled
      exact absurd (h.sound.consistent.unpolled_of_awake hop hf hnone) hpolled
  have hfinite := h.within.finite
  cases hs with
  | refused hl => exact hop.elim
  | tryLock hl => exact hop.elim
  | dropGuard hg =>
    exact ⟨⟨hsound, hturn, hqueued, hwithin, h.keeps.wake _⟩,
      s.futs.todo_drop _ (Nat.sub_one_lt_of_lt hg)⟩
  | create hf => exact hop.elim
  | @pollReady f u waker hf hl =>
    refine ⟨⟨hsound, hturn, hqueued, hwithin, h.keeps.set f⟩, ?_⟩
    exact Futs.todo_ready hfinite (Futs.awake_subset_unserved _ hop) (Futs.unserved_ready ..) _
  | pollPending hf hl =>
    exact ⟨⟨hsound, hturn, hqueued, hwithin, h.keeps.set _⟩, Futs.todo_pending hfinite hop _ _ _ _⟩
  | dropFuture hf => exact hop.elim

/-- Somebody who waits for a lock that nobody holds is woken, or somebody else is. -/
theorem exists_awake (h : MutexServable futs s) (hg : s.guards = 0)
    (hne : s.futs.unserved.Nonempty) : s.futs.awake.Nonempty := by
  obtain ⟨f, u, hf, hfirst | hwait⟩ := hne
  · exact ⟨f, u, hf, .inl hfirst⟩
  have hl : s.mutex.locked = false := by
    have hguards := h.sound.guards
    rw [hg] at hguards
    cases hl : s.mutex.locked with
    | false => rfl
    | true => simp [hl] at hguards
  obtain ⟨e, he⟩ := (h.sound.consistent f u hf).waiting_iff.mp hwait
  rcases h.queued.queued f u e hf he with hq | hwoken
  · obtain ⟨g, v, hg, hwait, hwoken⟩ := h.turn hl (List.ne_nil_of_mem hq)
    exact ⟨g, v, hg, .inr ⟨hwait, hwoken⟩⟩
  · exact ⟨f, u, hf, .inr ⟨hwait, hwoken⟩⟩

/-- As long as somebody has not completed or holds the lock, the executor has something to do. -/
theorem can_go [Nonempty W] (h : MutexServable futs s) (hP : ¬ (s.guards = 0 ∧ futs.Served s.futs)) :
    ∃ t, (mutexMachine W).Chooses MutexState.Executes s t := by
  by_cases hg : s.guards = 0
  · have hne := h.keeps.unserved_nonempty fun hserved => hP ⟨hg, hserved⟩
    obtain ⟨f, u, hf, hawake⟩ := h.exists_awake hg hne
    obtain ⟨waker⟩ := ‹Nonempty W›
    refine Machine.exists_chooses (a := .poll f waker) ⟨u, hf, hawake⟩ ?_
    simp [mutexMachine, MutexState.exec, hf]
  · refine Machine.exists_chooses (a := .dropGuard) trivial ?_
    simp [mutexMachine, MutexState.exec, hg]

end MutexServable

/-- Whatever an executor that polls awake futures and drops guards chooses to do, every future
that is there gets the lock, and the lock is free in the end. -/
theorem mutex_executor_serves_all [Nonempty W] (ops : List (MutexOp W)) (s : MutexState W)
    (h : (mutexMachine W).run .init ops = some s) (hlen : ops.length ≤ 2 ^ 64) :
    Inevitable ((mutexMachine W).Chooses MutexState.Executes)
      (fun t => t.guards = 0 ∧ s.futs.Served t.futs) s := by
  refine Inevitable.of_measure wellFounded_lt (fun t => t.futs.todo t.guards)
    (I := MutexServable s.futs) ?_ (fun t ht => ht.can_go) (mutexMachine_servable h hlen)
  rintro t t' ht ⟨op, hop, hstep⟩
  exact ht.step hop (mutexMachine_step hstep)

/-- A future waits behind a guard, and another was never polled. -/
theorem mutex_executor_serves_two : ∃ s : MutexState Waker.OfTask,
    (mutexMachine Waker.OfTask).run .init
      [.tryLock, .create 0, .create 1, .poll 0 ⟨0⟩] = some s ∧
    (s.guards = 1 ∧ (s.futs 0).map Fut.polled = some (some ⟨0⟩) ∧
      s.futs 1 = some (.fresh ())) ∧
    Inevitable ((mutexMachine Waker.OfTask).Chooses MutexState.Executes)
      (fun t => t.guards = 0 ∧ s.futs.Served t.futs) s := by
  refine Machine.exists_end (c := fun s => decide (s.guards = 1 ∧
    (s.futs 0).map Fut.polled = some (some ⟨0⟩) ∧ s.futs 1 = some (.fresh ())))
    _ (by decide +kernel) fun s hrun hs => ?_
  exact ⟨of_decide_eq_true hs, mutex_executor_serves_all _ s hrun (by decide)⟩

end Cynosure.SiteC
