import Cynosure.SiteC.Mutex
import Cynosure.SiteC.WaitTokens

/-! # Exclusion and the turn of `LocalMutex`

`wake_next` pops the future it wakes, so the turn is nowhere in the mutex: it is a
waiting future that has been woken and not polled again. Whoever releases the lock
or cancels a registered future passes it on.
-/

universe v

namespace Cynosure.SiteC

variable {W : Type v}

namespace MutexState

/-- A future that is waiting and has been woken since its last poll. -/
def WokenFuture (s : MutexState W) : Prop :=
  ∃ f u, s.futs f = some u ∧ u.Waiting ∧ u.woken = true

def Turn (s : MutexState W) : Prop :=
  s.mutex.locked = false → s.mutex.waiters ≠ [] → s.WokenFuture

theorem Turn.of_locked {s : MutexState W} (h : s.mutex.locked = true) : s.Turn :=
  fun hl => absurd (h.symm.trans hl) Bool.noConfusion

/-- The call is a first registration under a token that a live future still holds. -/
def ReusesToken (s : MutexState W) : MutexOp W → Prop
  | .poll f _ => s.mutex.locked = true ∧ (∃ u, s.futs f = some u ∧ u.registered = none) ∧
      s.futs.Holds s.mutex.nextId
  | _ => False

end MutexState

open MutexState

variable [Waker W]

/-- The flag agrees with the live guards, and the queue with the live futures. -/
structure MutexSound (s : MutexState W) : Prop where
  guards : s.guards = if s.mutex.locked then 1 else 0
  consistent : s.futs.Consistent
  owns : s.futs.Owns (fun _ => True) s.mutex.waiters
  nodup : s.mutex.waiters.ids.Nodup

/-- Every registered future is queued or has been woken. -/
structure MutexQueued (s : MutexState W) : Prop where
  distinct : s.futs.Distinct
  queued : ∀ f u e, s.futs f = some u → u.registered = some e →
    e ∈ s.mutex.waiters ∨ u.woken = true

namespace MutexSound

theorem init : MutexSound (MutexState.init : MutexState W) where
  guards := rfl
  consistent := fun _ _ h => by cases h
  owns := fun _ h => by cases h
  nodup := List.nodup_nil

/-- `wake_next`, run in a sound state, keeps it sound and hands out the turn. -/
theorem settle {s : MutexState W} {m : LocalMutex W} (h : MutexSound { s with mutex := m }) :
    MutexSound (s.settle m.wakeNext) ∧ (s.settle m.wakeNext).Turn := by
  cases hl : m.locked with
  | true =>
    simp only [MutexState.settle, m.wakeNext_of_locked hl, Futs.wake_nil]
    exact ⟨h, .of_locked hl⟩
  | false =>
    cases hq : m.waiters with
    | nil =>
      simp only [MutexState.settle, m.wakeNext_of_empty hq, Futs.wake_nil]
      exact ⟨h, fun _ hne => absurd hq hne⟩
    | cons e rest =>
      obtain ⟨f, u, hf, -, -, hwait, hwoken⟩ := h.consistent.woken_owner h.owns
        (e := e) (by simp [hq]) (List.mem_singleton.mpr rfl)
      have hnodup := h.nodup
      simp only [hq, Waiters.ids, List.map_cons, List.nodup_cons] at hnodup
      simp only [MutexState.settle, m.wakeNext_of_free hl hq]
      refine ⟨⟨h.guards, h.consistent.wake _, ?_, hnodup.2⟩, fun _ _ => ⟨f, u, hf, hwait, hwoken⟩⟩
      exact (h.owns.subset fun x hx => by simp [hq, hx]).wake _

/-- A future leaves the queue, for good or with the guard. -/
theorem deregister {s : MutexState W} (h : MutexSound s) {f : Nat} {u : Fut Unit Unit W}
    {v : Option (Fut Unit Unit W)} (hf : s.futs f = some u) (hv : (s.futs.set f v).Consistent) :
    MutexSound { s with mutex := s.mutex.deregister u.registered, futs := s.futs.set f v } :=
  ⟨h.guards, hv, h.owns.deregister hf v, Waiters.nodup_deregister h.nodup _⟩

theorem afterDropGuard {s : MutexState W} (h : MutexSound s) (hg : 0 < s.guards) :
    MutexSound { s with guards := s.guards - 1, mutex := { s.mutex with locked := false } } where
  guards := by
    have := h.guards
    split at this <;> simp_all
  consistent := h.consistent
  owns := h.owns
  nodup := h.nodup

theorem step {s t : MutexState W} {op : MutexOp W} (h : MutexSound s) (hT : s.Turn)
    (hs : MutexStep s op t) : MutexSound t ∧ t.Turn := by
  cases hs with
  | refused hl => exact ⟨h, hT⟩
  | tryLock hl =>
    refine ⟨⟨?_, h.consistent, h.owns, h.nodup⟩, .of_locked rfl⟩
    simp [h.guards, hl]
  | dropGuard hg => exact (h.afterDropGuard hg).settle
  | @create f hf =>
    refine ⟨⟨h.guards, h.consistent.set _ (Fut.consistent_fresh _),
      h.owns.set_of fun u hu => (by simp [hf] at hu), h.nodup⟩, ?_⟩
    intro hl hne
    obtain ⟨g, v, hg, hwait, hwoken⟩ := hT hl hne
    have hgf : g ≠ f := by
      rintro rfl
      simp [hf] at hg
    exact ⟨g, v, (Futs.set_ne _ hgf _).trans hg, hwait, hwoken⟩
  | @pollReady f u waker hf hl =>
    have hd := h.deregister hf (h.consistent.set f (u.consistent_ready waker))
    refine ⟨⟨?_, hd.consistent, hd.owns, hd.nodup⟩, .of_locked rfl⟩
    simp [h.guards, hl, LocalMutex.deregister]
  | @pollPending f u waker hf hl =>
    obtain ⟨e, hslot, htask, -, -⟩ :=
      s.mutex.waiters.register_spec s.mutex.nextId u.registered () waker
    refine ⟨⟨h.guards, h.consistent.set f (u.consistent_pending hslot htask), ?_,
      Waiters.nodup_register h.nodup _ _ _ _⟩, .of_locked hl⟩
    exact h.owns.register (v := u.afterPoll _ false waker) hf trivial _ _ _ rfl
  | @dropFuture f u hf =>
    have hd := h.deregister hf (h.consistent.erase f)
    unfold MutexState.dropFuture
    split
    · exact hd.settle
    · rename_i hr
      have hr : u.registered = none := by simpa using hr
      rw [hr] at hd
      refine ⟨hd, ?_⟩
      intro hl hne
      obtain ⟨g, v, hg, hwait, hwoken⟩ := hT hl hne
      have hgf : g ≠ f := by
        rintro rfl
        rw [hf] at hg
        cases hg
        obtain ⟨e, he⟩ := (h.consistent g u hf).waiting_iff.mp hwait
        simp [he] at hr
      exact ⟨g, v, (Futs.set_ne _ hgf _).trans hg, hwait, hwoken⟩

end MutexSound

namespace MutexQueued

omit [Waker W] in
theorem init : MutexQueued (MutexState.init : MutexState W) :=
  ⟨⟨fun hf => by cases hf⟩, fun _ _ _ hf => by cases hf⟩

omit [Waker W] in
/-- Only the futures and the queue matter. -/
theorem of_eq {s t : MutexState W} (h : MutexQueued s) (hfuts : t.futs = s.futs)
    (hq : t.mutex.waiters = s.mutex.waiters) : MutexQueued t := by
  refine ⟨hfuts ▸ h.distinct, ?_⟩
  rw [hfuts, hq]
  exact h.queued

/-- The entry that `wake_next` pops belongs to a future that it wakes. -/
theorem settle {s : MutexState W} {m : LocalMutex W} (h : MutexQueued { s with mutex := m })
    (hc : s.futs.Consistent) : MutexQueued (s.settle m.wakeNext) := by
  refine ⟨h.distinct.wake _, ?_⟩
  intro f v e hf he
  obtain ⟨u, hu, rfl⟩ := Futs.wake_eq_some.mp hf
  rcases h.queued f u e hu he with hq | hw
  · cases hl : m.locked with
    | true =>
      simp only [MutexState.settle, m.wakeNext_of_locked hl]
      exact .inl hq
    | false =>
      cases hm : m.waiters with
      | nil => simp [hm] at hq
      | cons x rest =>
        simp only [MutexState.settle, m.wakeNext_of_free hl hm]
        rw [show (({ s with mutex := m } : MutexState W).mutex.waiters) = x :: rest from hm,
          List.mem_cons] at hq
        rcases hq with rfl | hq
        · exact .inr ((hc f u hu).woken_of_mem he (List.mem_singleton_self _))
        · exact .inl hq
  · exact .inr (Fut.wake_woken_of hw)

omit [Waker W] in
/-- One future is replaced and its entry leaves the queue. -/
theorem deregister {s : MutexState W} (h : MutexQueued s) {f : Nat} {u : Fut Unit Unit W}
    {v : Option (Fut Unit Unit W)} (hf : s.futs f = some u)
    (hv : ∀ u', v = some u' → u'.registered = none) :
    MutexQueued { s with mutex := s.mutex.deregister u.registered, futs := s.futs.set f v } := by
  refine ⟨h.distinct.emptied (Option.bind_eq_none_iff.mpr hv), ?_⟩
  intro g w e hg he
  rcases Futs.set_eq_some hg with ⟨-, hg⟩ | ⟨hgf, hg⟩
  · rw [hv w hg] at he
    cases he
  · exact (h.queued g w e hg he).imp_left (h.distinct.mem_deregister hf hg hgf he)

theorem step {s t : MutexState W} {op : MutexOp W} (hS : MutexSound s) (h : MutexQueued s)
    (hok : ¬ s.ReusesToken op) (hs : MutexStep s op t) : MutexQueued t := by
  cases hs with
  | refused hl => exact h
  | tryLock hl => exact h.of_eq rfl rfl
  | dropGuard hg =>
    exact settle (m := { s.mutex with locked := false }) (h.of_eq rfl rfl) hS.consistent
  | @create f hf =>
    refine ⟨h.distinct.emptied rfl, ?_⟩
    intro g v e hg he
    rcases Futs.set_eq_some hg with ⟨-, hg⟩ | ⟨-, hg⟩
    · cases hg
      cases he
    · exact h.queued g v e hg he
  | @pollReady f u waker hf hl =>
    refine (h.deregister (v := some (u.afterPoll none true waker)) hf ?_).of_eq rfl rfl
    intro u' hu'
    cases hu'
    rfl
  | @pollPending f u waker hf hl =>
    have hfresh : u.registered = none → ¬ s.futs.Holds s.mutex.nextId :=
      fun hnone hheld => hok ⟨hl, ⟨u, hf, hnone⟩, hheld⟩
    refine ⟨h.distinct.register hf hfresh rfl, ?_⟩
    intro g v e hg he
    rcases Futs.set_eq_some hg with ⟨-, hg⟩ | ⟨hgf, hg⟩
    · cases hg
      exact .inl (h.distinct.mem_register_self hS.owns hf he)
    · exact (h.queued g v e hg he).imp_left (h.distinct.mem_register hf hfresh hgf hg he)
  | @dropFuture f u hf =>
    have hd := h.deregister (v := none) hf fun _ hv => by cases hv
    unfold MutexState.dropFuture
    split
    · exact settle hd (hS.consistent.erase f)
    · rename_i hr
      have hr : u.registered = none := by simpa using hr
      rw [hr] at hd
      exact hd

end MutexQueued

theorem mutexMachine_sound {ops : List (MutexOp W)} {s : MutexState W}
    (h : (mutexMachine W).run .init ops = some s) : MutexSound s ∧ s.Turn :=
  Machine.run_preserves (I := fun s => MutexSound s ∧ s.Turn)
    (fun _ _ _ hI hs => hI.1.step hI.2 (mutexMachine_step hs))
    ⟨.init, fun _ hne => absurd rfl hne⟩ h

theorem mutexMachine_queued {ops : List (MutexOp W)} {s : MutexState W}
    (hok : (mutexMachine W).Along (fun s op => ¬ s.ReusesToken op) .init ops)
    (h : (mutexMachine W).run .init ops = some s) : MutexQueued s := by
  have hI := Machine.run_preserves_along (I := fun s => (MutexSound s ∧ s.Turn) ∧ MutexQueued s)
    (fun _ _ _ hI hok hs => ⟨hI.1.1.step hI.1.2 (mutexMachine_step hs),
      hI.2.step hI.1.1 hok (mutexMachine_step hs)⟩)
    ⟨⟨.init, fun _ hne => absurd rfl hne⟩, .init⟩ hok h
  exact hI.2

/-- The flag says whether the one guard is live, and a free mutex with a queue has been
offered to a live future. As long as no future is registered under a token that another
one holds, every registered future is queued once or has been woken. -/
theorem mutex_excludes_and_strands_nobody (ops : List (MutexOp W)) (s : MutexState W)
    (h : (mutexMachine W).run .init ops = some s) :
    (s.mutex.locked = true ↔ s.guards = 1) ∧ s.guards ≤ 1 ∧
    (s.mutex.locked = false → s.mutex.waiters ≠ [] →
      ∃ f u, s.futs f = some u ∧ u.Waiting ∧ u.woken = true) ∧
    ((mutexMachine W).Along (fun s op => ¬ s.ReusesToken op) .init ops →
      ∀ f u e, s.futs f = some u → u.Waiting → u.registered = some e →
        (e ∈ s.mutex.waiters ∧ (s.mutex.waiters.map Entry.id).count e.id = 1) ∨
          u.woken = true) := by
  obtain ⟨hs, hT⟩ := mutexMachine_sound h
  have hg := hs.guards
  refine ⟨?_, ?_, hT, ?_⟩
  · cases hl : s.mutex.locked <;> simp [hg, hl]
  · split at hg <;> omega
  · intro hok f u e hf _ he
    refine ((mutexMachine_queued hok h).queued f u e hf he).imp_left fun hq => ⟨hq, ?_⟩
    exact List.count_eq_one_of_mem hs.nodup (List.mem_map_of_mem hq)

/-- Two futures queue behind a guard; its drop wakes the first, and the second stays queued. -/
theorem mutex_turn_after_guard_drop : ∃ s : MutexState Waker.OfTask,
    (mutexMachine Waker.OfTask).run .init
      [.tryLock, .create 0, .create 1, .poll 0 ⟨0⟩, .poll 1 ⟨1⟩, .dropGuard] = some s ∧
    s.mutex.locked = false ∧ s.mutex.waiters ≠ [] ∧
    (∃ f u, s.futs f = some u ∧ u.Waiting ∧ u.woken = true) ∧
    ∃ u e, s.futs 1 = some u ∧ u.woken = false ∧ e ∈ s.mutex.waiters ∧
      (s.mutex.waiters.map Entry.id).count e.id = 1 := by
  refine Machine.exists_end (c := fun s => decide (s.mutex.locked = false ∧
    s.mutex.waiters = [⟨1, (), ⟨1⟩⟩] ∧ s.futs 1 = some ⟨(), some ⟨1, (), ⟨1⟩⟩, some ⟨1⟩, false, false⟩))
    _ (by decide +kernel) ?_
  intro s hrun hs
  obtain ⟨hl, hq, hf⟩ := of_decide_eq_true hs
  obtain ⟨-, -, hturn, hqueued⟩ := mutex_excludes_and_strands_nobody _ s hrun
  have hne : s.mutex.waiters ≠ [] := by simp [hq]
  refine ⟨hl, hne, hturn hl hne, _, ⟨1, (), ⟨1⟩⟩, hf, rfl, ?_⟩
  refine (hqueued ?_ 1 _ _ hf rfl rfl).resolve_right (by simp)
  refine ⟨id, id, id, ?_, ?_, id, trivial⟩
  · rintro ⟨-, -, f, u, e, hu, he, -⟩
    rcases f with _ | _ | f <;> cases hu <;> cases he
  · rintro ⟨-, -, f, u, e, hu, he, hid⟩
    rcases f with _ | _ | f <;> cases hu <;> cases he
    cases hid

section Wrap

/-- One future waits behind a guard, and the counter stands at `next`. -/
def oneWaiter (next : UInt64) : MutexState Waker.OfTask where
  mutex := ⟨true, [⟨0, (), ⟨0⟩⟩], next⟩
  futs := (Futs.set (fun _ => none) 0 (some (.fresh ()))).set 0
    (some ⟨(), some ⟨0, (), ⟨0⟩⟩, some ⟨0⟩, false, false⟩)
  guards := 1

/-- A second future that registers and is dropped again. -/
def tokenRound : List (MutexOp Waker.OfTask) := [.create 1, .poll 1 ⟨1⟩, .dropFuture 1]

/-- A round costs one token and changes nothing else. -/
theorem oneWaiter_round {next : UInt64} (h : next ≠ 0) :
    (mutexMachine Waker.OfTask).run (oneWaiter next) tokenRound = some (oneWaiter (next + 1)) := by
  have hne : (0 : UInt64) ≠ next := fun h0 => h h0.symm
  let created := (oneWaiter next).futs.set 1 (some (.fresh ()))
  let polled := created.set 1 (some ⟨(), some ⟨next, (), ⟨1⟩⟩, some ⟨1⟩, false, false⟩)
  let queue : LocalMutex Waker.OfTask := ⟨true, [⟨0, (), ⟨0⟩⟩, ⟨next, (), ⟨1⟩⟩], next + 1⟩
  have hdropped : polled.set 1 none = (oneWaiter next).futs := by
    funext g
    by_cases hg : g = 1
    · subst hg
      rfl
    · simp [polled, created, Futs.set, hg]
  have hcreate : (mutexMachine Waker.OfTask).step (oneWaiter next) (.create 1) =
      some { oneWaiter next with futs := created } := rfl
  have hpoll : (mutexMachine Waker.OfTask).step { oneWaiter next with futs := created }
      (.poll 1 ⟨1⟩) = some { oneWaiter next with mutex := queue, futs := polled } := by
    simp [mutexMachine, MutexState.exec, MutexState.pollFuture, LocalMutex.poll_of_locked, oneWaiter,
      LocalMutex.register, Waiters.register, Waiters.stale, Waiters.registerId, Waiters.without,
      Fut.afterPoll, Fut.fresh, created, polled, queue, hne]
  have hdrop : (mutexMachine Waker.OfTask).step
      { oneWaiter next with mutex := queue, futs := polled } (.dropFuture 1) =
        some (oneWaiter (next + 1)) := by
    have hf : polled 1 = some ⟨(), some ⟨next, (), ⟨1⟩⟩, some ⟨1⟩, false, false⟩ := Futs.set_same ..
    simp [mutexMachine, MutexState.exec, MutexState.dropFuture, MutexState.settle, hf, hdropped,
      LocalMutex.wakeNext, LocalMutex.deregister, Waiters.deregister, Waiters.without, queue, hne]
    rfl
  simp [tokenRound, Machine.run, hcreate, hpoll, hdrop]

theorem oneWaiter_rounds (n : Nat) (h : n + 1 ≤ 2 ^ 64) :
    (mutexMachine Waker.OfTask).run (oneWaiter 1) (List.replicate n tokenRound).flatten =
      some (oneWaiter (UInt64.ofNat (n + 1))) := by
  induction n with
  | zero => rfl
  | succ n ih =>
    have hne : UInt64.ofNat (n + 1) ≠ 0 := by
      intro h0
      have := congrArg UInt64.toNat h0
      rw [UInt64.toNat_ofNat', Nat.mod_eq_of_lt (by omega)] at this
      simp at this
    have hnext : UInt64.ofNat (n + 1) + 1 = UInt64.ofNat (n + 1 + 1) := by
      rw [UInt64.ofNat_add (n + 1) 1]
      rfl
    rw [List.replicate_succ', List.flatten_append, Machine.run_append, ih (by omega),
      Option.bind_some, List.flatten_singleton, oneWaiter_round hne, hnext]

/-- After a full round of the counter a new future draws the token of the waiting one, and its
registration removes the other's entry. -/
theorem mutex_token_wrap_strands_waiter :
    ∃ (ops : List (MutexOp Waker.OfTask)) (s : MutexState Waker.OfTask),
      (mutexMachine Waker.OfTask).run .init ops = some s ∧
      ∃ u e, s.futs 0 = some u ∧ u.Waiting ∧ u.registered = some e ∧ e ∉ s.mutex.waiters ∧
        u.woken = false := by
  have hwrap : UInt64.ofNat (2 ^ 64 - 1 + 1) = 0 := by decide
  have hrounds := oneWaiter_rounds (2 ^ 64 - 1) (by omega)
  rw [hwrap] at hrounds
  have hfirst : (mutexMachine Waker.OfTask).run .init [.tryLock, .create 0, .poll 0 ⟨0⟩] =
      some (oneWaiter 1) := rfl
  obtain ⟨s, hlast, hs⟩ := (Option.any_eq_true (fun s : MutexState Waker.OfTask => decide
    (s.futs 0 = some ⟨(), some ⟨0, (), ⟨0⟩⟩, some ⟨0⟩, false, false⟩ ∧ s.mutex.waiters = [⟨0, (), ⟨1⟩⟩]))
    ((mutexMachine Waker.OfTask).run (oneWaiter 0) [.create 1, .poll 1 ⟨1⟩])).mp (by decide +kernel)
  obtain ⟨hf, hq⟩ := of_decide_eq_true hs
  refine ⟨[.tryLock, .create 0, .poll 0 ⟨0⟩] ++ ((List.replicate (2 ^ 64 - 1) tokenRound).flatten ++
    [.create 1, .poll 1 ⟨1⟩]), s, ?_, _, ⟨0, (), ⟨0⟩⟩, hf, rfl, rfl, ?_, rfl⟩
  · rw [Machine.run_append, hfirst, Option.bind_some, Machine.run_append, hrounds,
      Option.bind_some, hlast]
  · simp [hq]

end Wrap

end Cynosure.SiteC
