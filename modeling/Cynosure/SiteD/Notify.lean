import Mathlib.Logic.Function.Basic
import Cynosure.Lib.Waker

/-! # `AtomicWaker` and `WaiterSlot`, one atomic step at a time

Each `*Pc` names the next atomic access of a call in the source, and each `*Step`
performs it: the shared state after it, where the call goes on (or that it has
returned), and the waker it invokes. Accesses to the waker cell are steps of their
own, although only the holder of a lock bit makes them.
-/

universe u v

namespace Cynosure.SiteD

variable {W : Type u}

/-- The state word is `WAITING` when neither bit is set. -/
structure AtomicWaker (W : Type u) where
  registering : Bool
  waking : Bool
  waker : Option W
  deriving DecidableEq, Repr

def AtomicWaker.new : AtomicWaker W := ⟨false, false, none⟩

inductive RegisterPc (W : Type u) where
  /-- `compare_exchange(WAITING, REGISTERING)` -/
  | lock (waker : W)
  | compare (waker : W)
  | store (waker : W)
  /-- `compare_exchange(REGISTERING, WAITING)` -/
  | unlock (waker : W)
  /-- the raced wake: `take().unwrap()`, `swap(WAITING)`, `wake()` -/
  | take
  | swap (taken : W)
  | wake (taken : W)
  | wakeByRef (waker : W)
  | panicked
  deriving DecidableEq, Repr

inductive WakePc (W : Type u) where
  /-- `fetch_or(WAKING)` -/
  | fetchOr
  | take
  /-- `fetch_and(!WAKING)` -/
  | fetchAnd (taken : Option W)
  | wake (taken : W)
  deriving DecidableEq, Repr

structure WaiterSlot (W : Type u) where
  waker : AtomicWaker W
  armed : Bool
  deriving DecidableEq, Repr

def WaiterSlot.new : WaiterSlot W := ⟨.new, false⟩

inductive ArmPc (W : Type u) where
  | register (pc : RegisterPc W)
  | store
  deriving DecidableEq, Repr

inductive SignalPc (W : Type u) where
  | load
  /-- `signal_slow`: `armed.swap(false)` -/
  | swap
  | wake (pc : WakePc W)
  deriving DecidableEq, Repr

namespace AtomicWaker

def wakeStep (a : AtomicWaker W) : WakePc W → AtomicWaker W × Option (WakePc W) × Option W
  | .fetchOr => ({ a with waking := true },
      if a.registering || a.waking then none else some .take, none)
  | .take => ({ a with waker := none }, some (.fetchAnd a.waker), none)
  | .fetchAnd taken => ({ a with waking := false }, taken.map .wake, none)
  | .wake taken => (a, none, some taken)

variable [Waker W]

def registerStep (a : AtomicWaker W) :
    RegisterPc W → AtomicWaker W × Option (RegisterPc W) × Option W
  | .lock waker =>
    if a.registering || a.waking then (a, some (.wakeByRef waker), none)
    else ({ a with registering := true }, some (.compare waker), none)
  | .compare waker =>
    (a, some (if a.waker.any (Waker.willWake · waker) then .unlock waker else .store waker), none)
  | .store waker => ({ a with waker := some waker }, some (.unlock waker), none)
  | .unlock _ =>
    if a.waking then (a, some .take, none) else ({ a with registering := false }, none, none)
  | .take =>
    match a.waker with
    | some taken => ({ a with waker := none }, some (.swap taken), none)
    | none => (a, some .panicked, none)
  | .swap taken => ({ a with registering := false, waking := false }, some (.wake taken), none)
  | .wake taken => (a, none, some taken)
  | .wakeByRef waker => (a, none, some waker)
  | .panicked => (a, some .panicked, none)

end AtomicWaker

namespace WaiterSlot

def signalStep (s : WaiterSlot W) : SignalPc W → WaiterSlot W × Option (SignalPc W) × Option W
  | .load => (s, if s.armed then some .swap else none, none)
  | .swap => ({ s with armed := false }, if s.armed then some (.wake .fetchOr) else none, none)
  | .wake pc =>
    let r := s.waker.wakeStep pc
    ({ s with waker := r.1 }, r.2.1.map .wake, r.2.2)

def disarm (s : WaiterSlot W) : WaiterSlot W := { s with armed := false }

variable [Waker W]

def armStep (s : WaiterSlot W) : ArmPc W → WaiterSlot W × Option (ArmPc W) × Option W
  | .register pc =>
    let r := s.waker.registerStep pc
    ({ s with waker := r.1 }, some ((r.2.1.map .register).getD .store), r.2.2)
  | .store => ({ s with armed := true }, none, none)

end WaiterSlot

/-- Where the waiter is: not armed in its current poll, inside `arm`, or past it. -/
inductive Phase (W : Type u) where
  | out
  | arming (pc : ArmPc W)
  | armed
  deriving DecidableEq, Repr

/-- A slot in use by one waiter and the signallers `ι`. `current` is the waker of the last
poll and `woken` a wake of its task since that poll began; `published` records a call of
`signal` that began after the slot was last armed. -/
structure SlotUse (W : Type u) (ι : Type v) where
  slot : WaiterSlot W
  phase : Phase W
  current : Option W
  woken : Bool
  signals : ι → Option (SignalPc W)
  published : Bool

namespace SlotUse

variable {ι : Type v}

def new : SlotUse W ι := ⟨.new, .out, none, false, fun _ => none, false⟩

def beginPoll (s : SlotUse W ι) (waker : W) : SlotUse W ι :=
  { s with phase := .out, current := some waker, woken := false }

def beginArm (s : SlotUse W ι) (waker : W) : SlotUse W ι :=
  { s with phase := .arming (.register (.lock waker)) }

/-- The waiter no longer parks on this slot; a stale registration may stay behind. -/
def leave (s : SlotUse W ι) : SlotUse W ι := { s with phase := .out }

def disarm (s : SlotUse W ι) : SlotUse W ι := { s with slot := s.slot.disarm, phase := .out }

variable [Waker W]

def note (s : SlotUse W ι) (woken : Option W) : SlotUse W ι :=
  { s with woken := s.woken || woken.any fun v => s.current.any fun w => Waker.task v == Waker.task w }

def armStep (s : SlotUse W ι) (pc : ArmPc W) : SlotUse W ι :=
  let r := s.slot.armStep pc
  { (s.note r.2.2) with
    slot := r.1
    phase := match r.2.1 with
      | some pc => .arming pc
      | none => .armed
    published := if r.2.1.isSome then s.published else false }

variable [DecidableEq ι]

def beginSignal (s : SlotUse W ι) (i : ι) : SlotUse W ι :=
  { s with signals := Function.update s.signals i (some .load), published := true }

def signalStep (s : SlotUse W ι) (i : ι) (pc : SignalPc W) : SlotUse W ι :=
  let r := s.slot.signalStep pc
  { (s.note r.2.2) with slot := r.1, signals := Function.update s.signals i r.2.1 }

end SlotUse

end Cynosure.SiteD
