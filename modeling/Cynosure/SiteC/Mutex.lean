import Mathlib.Tactic
import Cynosure.Lib.Machine
import Cynosure.SiteC.WaitQueue

/-! # The mutex `LocalMutex`

The lock flag, the wait queue, the future and the guard, driven by an arbitrary
caller. The guarded value plays no part: it is only reached through a guard.
-/

universe v

namespace Cynosure.SiteC

structure LocalMutex (W : Type v) where
  locked : Bool
  waiters : Waiters Unit W
  nextId : UInt64
  deriving DecidableEq, Repr

namespace LocalMutex

variable {W : Type v}

def new : LocalMutex W := ⟨false, [], 0⟩

/-- `locked.replace(true)`, and whether the caller gets a guard. -/
def tryLock (m : LocalMutex W) : LocalMutex W × Bool := ({ m with locked := true }, !m.locked)

/-- Pops one waiter, but only of a free lock; returns the wakers it invokes. -/
def wakeNext (m : LocalMutex W) : LocalMutex W × List W :=
  if m.locked then (m, [])
  else match m.waiters with
    | e :: rest => ({ m with waiters := rest }, [e.waker])
    | [] => (m, [])

def unlock (m : LocalMutex W) : LocalMutex W × List W := { m with locked := false }.wakeNext

def deregister (m : LocalMutex W) (slot : Option (Entry Unit W)) : LocalMutex W :=
  { m with waiters := m.waiters.deregister slot }

variable [Waker W]

def register (m : LocalMutex W) (slot : Option (Entry Unit W)) (waker : W) :
    LocalMutex W × Option (Entry Unit W) :=
  let r := m.waiters.register m.nextId slot () waker
  ({ m with waiters := r.1, nextId := r.2.1 }, r.2.2)

/-- `LocalMutexLockFuture::poll`: the mutex, the slot, and whether it is `Ready`. -/
def poll (m : LocalMutex W) (slot : Option (Entry Unit W)) (waker : W) :
    LocalMutex W × Option (Entry Unit W) × Bool :=
  match m.tryLock with
  | (m, true) => (m.deregister slot, none, true)
  | (m, false) =>
    let (m, slot) := m.register slot waker
    match m.tryLock with
    | (m, true) => (m.deregister slot, none, true)
    | (m, false) => (m, slot, false)

end LocalMutex

/-- The mutex with its live guards and futures. -/
structure MutexState (W : Type v) where
  mutex : LocalMutex W
  futs : Futs Unit Unit W
  guards : Nat

inductive MutexOp (W : Type v) where
  | tryLock | dropGuard
  /-- `lock()`: a future under an unused name. -/
  | create (f : Nat)
  | poll (f : Nat) (waker : W)
  | dropFuture (f : Nat)

inductive MutexOutcome where
  | acquired | refused | pending | done
  deriving DecidableEq, Repr

namespace MutexState

variable {W : Type v}

def init : MutexState W := ⟨.new, fun _ => none, 0⟩

variable [Waker W]

/-- Installs a mutex and delivers the wakes that came with it. -/
def settle (s : MutexState W) (r : LocalMutex W × List W) : MutexState W :=
  { s with mutex := r.1, futs := s.futs.wake r.2 }

def pollFuture (s : MutexState W) (f : Nat) (u : Fut Unit Unit W) (waker : W) :
    MutexState W × MutexOutcome :=
  let (m, slot, ready) := s.mutex.poll u.registered waker
  ({ s with mutex := m, futs := s.futs.set f (some (u.afterPoll slot ready waker))
            guards := if ready then s.guards + 1 else s.guards },
    if ready then .acquired else .pending)

/-- `Drop` of a future: a registered one leaves the queue and passes the turn on. -/
def dropFuture (s : MutexState W) (f : Nat) (u : Fut Unit Unit W) : MutexState W :=
  let s := { s with futs := s.futs.set f none }
  if u.registered.isSome then s.settle (s.mutex.deregister u.registered).wakeNext else s

def exec (s : MutexState W) : MutexOp W → Option (MutexState W × MutexOutcome)
  | .tryLock =>
    match s.mutex.tryLock with
    | (m, true) => some ({ s with mutex := m, guards := s.guards + 1 }, .acquired)
    | (m, false) => some ({ s with mutex := m }, .refused)
  | .dropGuard =>
    if s.guards = 0 then none
    else some ({ s with guards := s.guards - 1 }.settle s.mutex.unlock, .done)
  | .create f =>
    match s.futs f with
    | some _ => none
    | none => some ({ s with futs := s.futs.set f (some (.fresh ())) }, .done)
  | .poll f waker => (s.futs f).map fun u => s.pollFuture f u waker
  | .dropFuture f => (s.futs f).map fun u => (s.dropFuture f u, .done)

end MutexState

/-- Every sequence of calls on one mutex. -/
def mutexMachine (W : Type v) [Waker W] : Machine (MutexState W) (MutexOp W) where
  init := .init
  step s op := (s.exec op).map Prod.fst

/-- What a call can do to the mutex, the guards and the futures. -/
inductive MutexStep {W : Type v} [Waker W] (s : MutexState W) : MutexOp W → MutexState W → Prop
  | refused (hl : s.mutex.locked = true) : MutexStep s .tryLock s
  | tryLock (hl : s.mutex.locked = false) :
    MutexStep s .tryLock { s with mutex := { s.mutex with locked := true }, guards := s.guards + 1 }
  | dropGuard (hg : 0 < s.guards) :
    MutexStep s .dropGuard ({ s with guards := s.guards - 1 }.settle s.mutex.unlock)
  | create {f : Nat} (hf : s.futs f = none) :
    MutexStep s (.create f) { s with futs := s.futs.set f (some (.fresh ())) }
  | pollReady {f : Nat} {u : Fut Unit Unit W} {waker : W} (hf : s.futs f = some u)
    (hl : s.mutex.locked = false) :
    MutexStep s (.poll f waker) { s with
      mutex := { s.mutex with locked := true }.deregister u.registered
      futs := s.futs.set f (some (u.afterPoll none true waker))
      guards := s.guards + 1 }
  | pollPending {f : Nat} {u : Fut Unit Unit W} {waker : W} (hf : s.futs f = some u)
    (hl : s.mutex.locked = true) :
    MutexStep s (.poll f waker) { s with
      mutex := (s.mutex.register u.registered waker).1
      futs := s.futs.set f
        (some (u.afterPoll (s.mutex.register u.registered waker).2 false waker)) }
  | dropFuture {f : Nat} {u : Fut Unit Unit W} (hf : s.futs f = some u) :
    MutexStep s (.dropFuture f) (s.dropFuture f u)

namespace LocalMutex

variable {W : Type v}

theorem wakeNext_of_locked {m : LocalMutex W} (h : m.locked = true) : m.wakeNext = (m, []) := by
  simp [wakeNext, h]

theorem wakeNext_of_free {m : LocalMutex W} (h : m.locked = false) {e : Entry Unit W}
    {rest : Waiters Unit W} (hq : m.waiters = e :: rest) :
    m.wakeNext = ({ m with waiters := rest }, [e.waker]) := by
  simp [wakeNext, h, hq]

theorem wakeNext_of_empty {m : LocalMutex W} (hq : m.waiters = []) : m.wakeNext = (m, []) := by
  simp [wakeNext, hq]

@[simp] theorem locked_self {m : LocalMutex W} (h : m.locked = true) :
    ({ m with locked := true } : LocalMutex W) = m := by
  rw [← h]

variable [Waker W]

theorem poll_of_free {m : LocalMutex W} (slot : Option (Entry Unit W)) (waker : W)
    (h : m.locked = false) :
    m.poll slot waker = ({ m with locked := true }.deregister slot, none, true) := by
  simp [poll, tryLock, h]

theorem poll_of_locked {m : LocalMutex W} (slot : Option (Entry Unit W)) (waker : W)
    (h : m.locked = true) :
    m.poll slot waker = ((m.register slot waker).1, (m.register slot waker).2, false) := by
  have h' : (m.register slot waker).1.locked = true := h
  simp [poll, tryLock, h, h']

end LocalMutex

theorem mutexMachine_step {W : Type v} [Waker W] {s t : MutexState W} {op : MutexOp W}
    (h : (mutexMachine W).step s op = some t) : MutexStep s op t := by
  obtain ⟨⟨t', o⟩, he, rfl⟩ := Option.map_eq_some_iff.mp h
  cases op with
  | tryLock =>
    cases hl : s.mutex.locked with
    | true =>
      simp only [MutexState.exec, LocalMutex.tryLock, hl, Bool.not_true, Option.some.injEq,
        Prod.mk.injEq, LocalMutex.locked_self hl] at he
      rw [← he.1]
      exact .refused hl
    | false =>
      simp only [MutexState.exec, LocalMutex.tryLock, hl, Bool.not_false, Option.some.injEq,
        Prod.mk.injEq] at he
      rw [← he.1]
      exact .tryLock hl
  | dropGuard =>
    simp only [MutexState.exec] at he
    split at he
    · cases he
    · cases he
      exact .dropGuard (Nat.pos_of_ne_zero ‹_›)
  | create f =>
    cases hf : s.futs f with
    | some u => simp [MutexState.exec, hf] at he
    | none =>
      simp only [MutexState.exec, hf, Option.some.injEq, Prod.mk.injEq] at he
      exact he.1 ▸ .create hf
  | poll f waker =>
    obtain ⟨u, hf, hu⟩ := Option.map_eq_some_iff.mp he
    cases hl : s.mutex.locked with
    | true =>
      simp only [MutexState.pollFuture, LocalMutex.poll_of_locked u.registered waker hl] at hu
      cases hu
      exact .pollPending hf hl
    | false =>
      simp only [MutexState.pollFuture, LocalMutex.poll_of_free u.registered waker hl] at hu
      cases hu
      exact .pollReady hf hl
  | dropFuture f =>
    obtain ⟨u, hf, hu⟩ := Option.map_eq_some_iff.mp he
    cases hu
    exact .dropFuture hf

end Cynosure.SiteC
