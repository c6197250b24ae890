import Mathlib.Tactic
import Cynosure.Lib.Machine
import Cynosure.SiteC.WaitQueue

/-! # The reader-writer lock `LocalRwLock`

The cells of the lock, its non-blocking operations, the two futures and the
guards, driven by an arbitrary caller. A wake is the list of wakers an operation
invokes; the machine marks the futures whose task they wake.
-/

universe v

namespace Cynosure.SiteC

structure LocalRwLock (W : Type v) where
  readers : Nat
  writer : Bool
  readWaiters : Waiters Unit W
  writeWaiters : Waiters Unit W
  nextId : UInt64
  deriving DecidableEq, Repr

/-- Which future: `LocalRwLockReadFuture` or `LocalRwLockWriteFuture`. -/
inductive Access where
  | read | write
  deriving DecidableEq, Repr

namespace LocalRwLock

variable {W : Type v}

def new : LocalRwLock W := ⟨0, false, [], [], 0⟩

/-- `readers.checked_add(1).expect(..)`, for a `usize` of `width` bits. -/
def addReader (width : Nat) (l : LocalRwLock W) : Except String (LocalRwLock W) :=
  if l.readers + 1 < 2 ^ width then .ok { l with readers := l.readers + 1 }
  else .error "reader count overflow"

def tryRead (width : Nat) (l : LocalRwLock W) : Except String (Option (LocalRwLock W)) :=
  if !l.writer then (l.addReader width).map some else .ok none

def tryReadFair (width : Nat) (l : LocalRwLock W) : Except String (Option (LocalRwLock W)) :=
  if !l.writer && l.writeWaiters.isEmpty then (l.addReader width).map some else .ok none

def tryWrite (l : LocalRwLock W) : Option (LocalRwLock W) :=
  if l.readers == 0 && !l.writer then some { l with writer := true } else none

def Free (l : LocalRwLock W) : Prop := l.readers = 0 ∧ l.writer = false

/-- Pops one writer, else every reader; returns the wakers it invokes. -/
def wakeNext (l : LocalRwLock W) : LocalRwLock W × List W :=
  if l.writer || decide (0 < l.readers) then (l, [])
  else match l.writeWaiters with
    | e :: rest => ({ l with writeWaiters := rest }, [e.waker])
    | [] => ({ l with readWaiters := [] }, l.readWaiters.map Entry.waker)

def releaseRead (l : LocalRwLock W) : LocalRwLock W × List W :=
  { l with readers := l.readers - 1 }.wakeNext

def releaseWrite (l : LocalRwLock W) : LocalRwLock W × List W :=
  { l with writer := false }.wakeNext

/-- `deregister_in` on the queue of the future's kind. -/
def deregisterIn (l : LocalRwLock W) (slot : Option (Entry Unit W)) : Access → LocalRwLock W
  | .read => { l with readWaiters := l.readWaiters.deregister slot }
  | .write => { l with writeWaiters := l.writeWaiters.deregister slot }

variable [Waker W]

/-- `register_in` on the queue of the future's kind, with the slot it leaves. -/
def registerIn (l : LocalRwLock W) (slot : Option (Entry Unit W)) (waker : W) :
    Access → LocalRwLock W × Option (Entry Unit W)
  | .read =>
    let r := l.readWaiters.register l.nextId slot () waker
    ({ l with readWaiters := r.1, nextId := r.2.1 }, r.2.2)
  | .write =>
    let r := l.writeWaiters.register l.nextId slot () waker
    ({ l with writeWaiters := r.1, nextId := r.2.1 }, r.2.2)

/-- `LocalRwLockReadFuture::poll`: the lock, the slot, and whether it is `Ready`. -/
def pollRead (width : Nat) (l : LocalRwLock W) (slot : Option (Entry Unit W)) (waker : W) :
    Except String (LocalRwLock W × Option (Entry Unit W) × Bool) := do
  match ← l.tryReadFair width with
  | some l => return (l.deregisterIn slot .read, none, true)
  | none =>
    let (l, slot) := l.registerIn slot waker .read
    match ← l.tryReadFair width with
    | some l => return (l.deregisterIn slot .read, none, true)
    | none => return (l, slot, false)

/-- `LocalRwLockWriteFuture::poll`. -/
def pollWrite (l : LocalRwLock W) (slot : Option (Entry Unit W)) (waker : W) :
    LocalRwLock W × Option (Entry Unit W) × Bool :=
  match l.tryWrite with
  | some l => (l.deregisterIn slot .write, none, true)
  | none =>
    let (l, slot) := l.registerIn slot waker .write
    match l.tryWrite with
    | some l => (l.deregisterIn slot .write, none, true)
    | none => (l, slot, false)

end LocalRwLock

/-- The lock with its live guards and futures. -/
structure RwState (W : Type v) where
  lock : LocalRwLock W
  futs : Futs Access Unit W
  readGuards : Nat
  writeGuards : Nat

inductive RwOp (W : Type v) where
  | tryRead | tryWrite | dropReadGuard | dropWriteGuard
  /-- `read()` or `write()`: a future under an unused name. -/
  | create (f : Nat) (kind : Access)
  | poll (f : Nat) (waker : W)
  | dropFuture (f : Nat)

inductive RwOutcome where
  | acquired | refused | pending | done | panicked
  deriving DecidableEq, Repr

namespace RwState

variable {W : Type v}

def init : RwState W := ⟨.new, fun _ => none, 0, 0⟩

variable [Waker W]

/-- Installs a lock and delivers the wakes that came with it. -/
def settle (s : RwState W) (r : LocalRwLock W × List W) : RwState W :=
  { s with lock := r.1, futs := s.futs.wake r.2 }

def pollFuture (width : Nat) (s : RwState W) (f : Nat) (u : Fut Access Unit W) (waker : W) :
    RwState W × RwOutcome :=
  match u.kind with
  | .read =>
    match s.lock.pollRead width u.registered waker with
    | .error _ => (s, .panicked)
    | .ok (l, slot, ready) =>
      ({ s with lock := l, futs := s.futs.set f (some (u.afterPoll slot ready waker))
                readGuards := if ready then s.readGuards + 1 else s.readGuards },
        if ready then .acquired else .pending)
  | .write =>
    let (l, slot, ready) := s.lock.pollWrite u.registered waker
    ({ s with lock := l, futs := s.futs.set f (some (u.afterPoll slot ready waker))
              writeGuards := if ready then s.writeGuards + 1 else s.writeGuards },
      if ready then .acquired else .pending)

/-- `Drop` of a future: a registered one leaves its queue and passes the turn on. -/
def dropFuture (s : RwState W) (f : Nat) (u : Fut Access Unit W) : RwState W :=
  let s := { s with futs := s.futs.set f none }
  if u.registered.isSome then s.settle (s.lock.deregisterIn u.registered u.kind).wakeNext else s

def exec (width : Nat) (s : RwState W) : RwOp W → Option (RwState W × RwOutcome)
  | .tryRead =>
    match s.lock.tryRead width with
    | .error _ => some (s, .panicked)
    | .ok none => some (s, .refused)
    | .ok (some l) => some ({ s with lock := l, readGuards := s.readGuards + 1 }, .acquired)
  | .tryWrite =>
    match s.lock.tryWrite with
    | none => some (s, .refused)
    | some l => some ({ s with lock := l, writeGuards := s.writeGuards + 1 }, .acquired)
  | .dropReadGuard =>
    if s.readGuards = 0 then none
    else some ({ s with readGuards := s.readGuards - 1 }.settle s.lock.releaseRead, .done)
  | .dropWriteGuard =>
    if s.writeGuards = 0 then none
    else some ({ s with writeGuards := s.writeGuards - 1 }.settle s.lock.releaseWrite, .done)
  | .create f kind =>
    match s.futs f with
    | some _ => none
    | none => some ({ s with futs := s.futs.set f (some (.fresh kind)) }, .done)
  | .poll f waker => (s.futs f).map fun u => s.pollFuture width f u waker
  | .dropFuture f => (s.futs f).map fun u => (s.dropFuture f u, .done)

end RwState

/-- Every sequence of calls on one lock. -/
def rwMachine (W : Type v) [Waker W] (width : Nat) : Machine (RwState W) (RwOp W) where
  init := .init
  step s op := (s.exec width op).map Prod.fst

end Cynosure.SiteC
