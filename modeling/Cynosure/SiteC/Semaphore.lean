import Mathlib.Tactic
import Cynosure.Lib.Machine
import Cynosure.SiteC.WaitQueue

/-! # The counting semaphore `LocalSemaphore`

Unlike the locks, a wake does not pop the woken entry: the future deregisters
itself when it acquires. The request of an entry decides whether it is woken.
-/

universe v

namespace Cynosure.SiteC

structure LocalSemaphore (W : Type v) where
  permits : Nat
  waiters : Waiters Nat W
  nextId : UInt64
  deriving DecidableEq, Repr

namespace LocalSemaphore

variable {W : Type v}

def new (permits : Nat) : LocalSemaphore W := ⟨permits, [], 0⟩

def tryAcquireMany (s : LocalSemaphore W) (n : Nat) : Option (LocalSemaphore W) :=
  if n ≤ s.permits then some { s with permits := s.permits - n } else none

/-- `checked_add(n).expect(..)`, for a `usize` of `width` bits. -/
def bumpPermits (width : Nat) (s : LocalSemaphore W) (n : Nat) : Except String (LocalSemaphore W) :=
  if s.permits + n < 2 ^ width then .ok { s with permits := s.permits + n }
  else .error "LocalSemaphore permit count overflow"

def canAcquireFair (s : LocalSemaphore W) (n : Nat) (id : Option UInt64) : Bool :=
  if s.permits < n then false
  else match s.waiters.head? with
    | none => true
    | some front => some front.id == id

/-- The wakers that `wake_next` invokes: the front's, if its request fits. -/
def wakeNext (s : LocalSemaphore W) : List W :=
  match s.waiters.head? with
  | none => []
  | some front => if s.permits < front.req then [] else [front.waker]

def addPermits (width : Nat) (s : LocalSemaphore W) (n : Nat) :
    Except String (LocalSemaphore W × List W) := do
  let s ← s.bumpPermits width n
  return (s, if s.waiters.isEmpty then [] else s.wakeNext)

def release (width : Nat) (s : LocalSemaphore W) (n : Nat) :
    Except String (LocalSemaphore W × List W) := do
  let s ← s.bumpPermits width n
  return (s, if s.waiters.isEmpty then [] else s.wakeNext)

/-- The acquiring branch of `Acquire::poll`: take, deregister, cascade. -/
def acquired (s : LocalSemaphore W) (n : Nat) (slot : Option (Entry Nat W)) : LocalSemaphore W :=
  { s with permits := s.permits - n, waiters := s.waiters.deregister slot }

variable [Waker W]

def register (s : LocalSemaphore W) (slot : Option (Entry Nat W)) (n : Nat) (waker : W) :
    LocalSemaphore W × Option (Entry Nat W) :=
  let r := s.waiters.register s.nextId slot n waker
  ({ s with waiters := r.1, nextId := r.2.1 }, r.2.2)

/-- `Acquire::poll`: the semaphore, the slot, whether it is `Ready`, and the wakes. -/
def poll (s : LocalSemaphore W) (n : Nat) (slot : Option (Entry Nat W)) (waker : W) :
    LocalSemaphore W × Option (Entry Nat W) × Bool × List W :=
  if s.canAcquireFair n (slot.map Entry.id) then
    (s.acquired n slot, none, true, (s.acquired n slot).wakeNext)
  else
    let (s, slot) := s.register slot n waker
    if s.canAcquireFair n (slot.map Entry.id) then
      (s.acquired n slot, none, true, (s.acquired n slot).wakeNext)
    else (s, slot, false, [])

end LocalSemaphore

/-- The semaphore with its live permits and futures, and the totals that left it or came
in from outside. -/
structure SemState (W : Type v) where
  sem : LocalSemaphore W
  futs : Futs Nat Nat W
  held : List Nat
  forgotten : Nat
  added : Nat

inductive SemOp (W : Type v) where
  | tryAcquireMany (n : Nat)
  | addPermits (n : Nat)
  /-- `acquire_many(n)`: a future under an unused name. -/
  | create (f : Nat) (n : Nat)
  | poll (f : Nat) (waker : W)
  | dropFuture (f : Nat)
  /-- `Drop` of the `i`-th live permit. -/
  | dropPermit (i : Nat)
  | forget (i : Nat)

inductive SemOutcome where
  | acquired | refused | pending | done | panicked
  deriving DecidableEq, Repr

namespace SemState

variable {W : Type v}

def init (permits : Nat) : SemState W := ⟨.new permits, fun _ => none, [], 0, 0⟩

variable [Waker W]

def pollFuture (s : SemState W) (f : Nat) (u : Fut Nat Nat W) (waker : W) :
    SemState W × SemOutcome :=
  let r := s.sem.poll u.kind u.registered waker
  ({ s with sem := r.1
            futs := (s.futs.set f (some (u.afterPoll r.2.1 r.2.2.1 waker))).wake r.2.2.2
            held := if r.2.2.1 then s.held ++ [u.kind] else s.held },
    if r.2.2.1 then .acquired else .pending)

def dropFuture (s : SemState W) (f : Nat) (u : Fut Nat Nat W) : SemState W :=
  if u.registered.isSome then
    let sem := { s.sem with waiters := s.sem.waiters.deregister u.registered }
    { s with sem := sem, futs := (s.futs.set f none).wake sem.wakeNext }
  else { s with futs := s.futs.set f none }

def exec (width : Nat) (s : SemState W) : SemOp W → Option (SemState W × SemOutcome)
  | .tryAcquireMany n =>
    match s.sem.tryAcquireMany n with
    | none => some (s, .refused)
    | some sem => some ({ s with sem := sem, held := s.held ++ [n] }, .acquired)
  | .addPermits n =>
    match s.sem.addPermits width n with
    | .error _ => some (s, .panicked)
    | .ok (sem, ws) =>
      some ({ s with sem := sem, futs := s.futs.wake ws, added := s.added + n }, .done)
  | .create f n =>
    match s.futs f with
    | some _ => none
    | none => some ({ s with futs := s.futs.set f (some (.fresh n)) }, .done)
  | .poll f waker => (s.futs f).map fun u => s.pollFuture f u waker
  | .dropFuture f => (s.futs f).map fun u => (s.dropFuture f u, .done)
  | .dropPermit i =>
    (s.held[i]?).map fun n =>
      match s.sem.release width n with
      | .error _ => ({ s with held := s.held.eraseIdx i }, .panicked)
      | .ok (sem, ws) =>
        ({ s with sem := sem, futs := s.futs.wake ws, held := s.held.eraseIdx i }, .done)
  | .forget i =>
    (s.held[i]?).map fun n =>
      ({ s with held := s.held.eraseIdx i, forgotten := s.forgotten + n }, .done)

end SemState

/-- Every sequence of calls on one semaphore. -/
def semMachine (W : Type v) [Waker W] (width permits : Nat) : Machine (SemState W) (SemOp W) where
  init := .init permits
  step s op := (s.exec width op).map Prod.fst

end Cynosure.SiteC
