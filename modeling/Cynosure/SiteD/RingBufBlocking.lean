import Cynosure.BlockingSettles
import Cynosure.SiteD.RingBufJobs
import Cynosure.SiteD.RingBufMoves

/-! # The blocking calls of the ring buffer

Producer and consumer are two threads that only make the blocking calls. Each parks
until its waker, which is its own handle, unparks it.
-/

namespace Cynosure.SiteD

/-- `ThreadWaker`: one waker for each thread. -/
instance : Waker RingSide where
  task
    | .producer => 0
    | .consumer => 1
  willWake a b := a == b
  task_eq_of_willWake h := by rw [beq_iff_eq.mp h]

instance : Fintype RingSide := ⟨{.producer, .consumer}, fun i => by cases i <;> simp⟩

theorem RingSide.eq_of_task {i j : RingSide} (h : Waker.task i = Waker.task j) : i = j := by
  cases i <;> cases j <;> first | rfl | cases h

namespace Ring

open Prog

variable {w : Nat} {T ρ : Type}

def RingJob (T : Type) : RingSide → Type
  | .producer => PushJob T
  | .consumer => PopJob T

/-- The slot in which a side waits. -/
def waitSlot (s : RingState w T RingSide) : RingSide → SlotUse RingSide Unit
  | .producer => s.producerSlot
  | .consumer => s.consumerSlot

def slotUnparks (x y : SlotUse RingSide Unit) (i : RingSide) : Bool :=
  decide (x.armWakes y = some i) || decide (SlotUse.signalWakes () x y = some i)

def ringUnparks (s t : RingState w T RingSide) (i : RingSide) : Bool :=
  slotUnparks s.producerSlot t.producerSlot i || slotUnparks s.consumerSlot t.consumerSlot i

def ringBlocking (r : RingBuf w) : Blocking (RingState w T RingSide) RingSide (RingOp T RingSide)
    PUnit.{1} (Option (RingOut T)) (RingJob T) where
  threads := ringThreads r
  op := fun {i} job =>
    match i, job with
    | .producer, job => PushJob.op job
    | .consumer, job => PopJob.op job
  blocks := fun _ => true
  poll
    | .producer => .pollPush .producer
    | .consumer => .pollPop .consumer
  pending
    | .producer, s => s.pushFuture.isSome
    | .consumer, s => s.popFuture.isSome
  unparks := ringUnparks
  returns
    | .producer, s => s.producerOut
    | .consumer, s => s.consumerOut

variable {r : RingBuf w}

/-- The number of items that a job moves. -/
def jobSize : {i : RingSide} → RingJob T i → Nat
  | .producer, job => (PushJob.items job).length
  | .consumer, job => PopJob.count job

/-- A side moves items, and then has news for the other side until it has signalled. -/
def ringProgress (r : RingBuf w) : (ringBlocking (T := T) r).Progress where
  moved
    | .producer, s => s.accepted.length
    | .consumer, s => s.taken.length
  size := jobSize
  busy
    | .producer, s => s.consumerSlot.signals () ≠ none
    | .consumer, s => s.producerSlot.signals () ≠ none
  restless s := s.producerSlot.restless + s.consumerSlot.restless

section Steps

variable {s t : ThreadState (RingState w T RingSide) RingSide PUnit.{1}}
  {a : ThreadOp RingSide (RingOp T RingSide)} {i : RingSide}

/-- What a step of one side leaves to the other. -/
theorem ring_rely (hs : (ringThreads r).machine.Reachable s) (h : (ringThreads r).exec s a = some t)
    (hi : i ≠ a.party) : (ringBoth r).rely i s.mem t.mem :=
  ((ringBoth_sound r).exec_guar ((ringBoth_sound r).reachable hs) h).2 i hi

theorem ring_step_does (hs : (ringThreads r).machine.Reachable s)
    (h : (ringThreads r).exec s a = some t) : RingDoes a s.mem t.mem :=
  (ring_does r).reachable (ringBoth_sound r) (fun _ _ => rfl) hs h

theorem ring_frame (hs : (ringThreads r).machine.Reachable s)
    (h : (ringThreads r).exec s a = some t) (hi : i ≠ a.party) :
    (ringProgress r).moved i t.mem = (ringProgress r).moved i s.mem ∧
      ((ringProgress r).busy i t.mem ↔ (ringProgress r).busy i s.mem) ∧
        (ringBlocking r).pending i t.mem = (ringBlocking r).pending i s.mem := by
  have hrely := ring_rely hs h hi
  cases i with
  | producer =>
    obtain ⟨hring, hwait⟩ : ProducerRely s.mem t.mem ∧ PushRely s.mem t.mem := hrely
    refine ⟨congrArg List.length hring.accepted, ?_, congrArg Option.isSome hwait.future⟩
    change t.mem.consumerSlot.signals () ≠ none ↔ s.mem.consumerSlot.signals () ≠ none
    rw [hwait.signals]
  | consumer =>
    obtain ⟨hring, hwait⟩ : ConsumerRely s.mem t.mem ∧ PopRely s.mem t.mem := hrely
    refine ⟨congrArg List.length hring.taken, ?_, congrArg Option.isSome hwait.future⟩
    change t.mem.producerSlot.signals () ≠ none ↔ s.mem.producerSlot.signals () ≠ none
    rw [hwait.signals]

theorem ring_mono (hs : (ringThreads r).machine.Reachable s)
    (h : (ringThreads r).exec s a = some t) :
    (ringProgress r).moved a.party s.mem ≤ (ringProgress r).moved a.party t.mem := by
  cases hi : a.party with
  | producer =>
    have hrely := ring_rely (i := .consumer) hs h (by simp [hi])
    exact (show ConsumerRely s.mem t.mem from hrely.1).accepted.length_le
  | consumer =>
    have hrely := ring_rely (i := .producer) hs h (by simp [hi])
    exact (show ProducerRely s.mem t.mem from hrely.1).taken

theorem ring_starts (hs : (ringThreads r).machine.Reachable s)
    (h : (ringThreads r).exec s a = some t) (hbusy : (ringProgress r).busy a.party t.mem) :
    (ringProgress r).busy a.party s.mem ∨
      (ringProgress r).moved a.party s.mem < (ringProgress r).moved a.party t.mem := by
  have hdoes := ring_step_does hs h
  by_cases hs : (ringProgress r).busy a.party s.mem
  · exact .inl hs
  right
  cases a with
  | call i op =>
    cases i with
    | producer =>
      have hcalled : PushCalled op s.mem t.mem := hdoes
      change t.mem.consumerSlot.signals () ≠ none at hbusy
      rw [hcalled.other] at hbusy
      exact absurd hbusy hs
    | consumer =>
      have hcalled : PopCalled op s.mem t.mem := hdoes
      change t.mem.producerSlot.signals () ≠ none at hbusy
      rw [hcalled.other] at hbusy
      exact absurd hbusy hs
  | step i =>
    cases i with
    | producer => exact (show PushDoes s.mem t.mem from hdoes).news (not_not.mp hs) hbusy
    | consumer => exact (show PopDoes s.mem t.mem from hdoes).news (not_not.mp hs) hbusy

theorem ring_idle (hs : (ringThreads r).machine.Reachable s) (hidle : s.running i = none) :
    ¬ (ringProgress r).busy i s.mem := by
  obtain ⟨-, hpush, hpop⟩ := reachable_waits hs
  cases i with
  | producer => exact not_not.mpr (hpush hidle).quiet
  | consumer => exact not_not.mpr (hpop hidle).quiet

end Steps

section Rests

variable {x y : SlotUse RingSide Unit}

/-- In a slot that nobody signals only the waiter wakes anyone, and at most one thread. -/
theorem slotUnparks_sum (hx : x.signals () = none) :
    (slotUnparks x y .producer).toNat + (slotUnparks x y .consumer).toNat =
      (x.armWakes y).isSome.toNat := by
  have hnone : SlotUse.signalWakes () x y = none := by rw [SlotUse.signalWakes, hx]
  simp only [slotUnparks, hnone]
  cases x.armWakes y with
  | none => rfl
  | some v => cases v <;> rfl

theorem restless_same (x : SlotUse RingSide Unit) :
    x.restless + (x.armWakes x).isSome.toNat ≤ x.restless := by
  simp [SlotUse.armWakes_same_phase]

theorem onOwnSlot_restless (op : RingOp T RingSide) (x : SlotUse RingSide Unit) :
    (onOwnSlot op x).restless + (x.armWakes (onOwnSlot op x)).isSome.toNat ≤ x.restless := by
  have hout : ∀ y : SlotUse RingSide Unit, y.phase = .out →
      y.restless + (x.armWakes y).isSome.toNat ≤ x.restless := by
    intro y hy
    simp [SlotUse.armWakes_of_out hy, SlotUse.restless, hy]
  cases op <;> first | exact hout _ rfl | exact restless_same x

/-- One slot is the waiter's own, nobody signals it, and the other one is as it was. -/
theorem ring_rests_of {s t : RingState w T RingSide}
    (hp : t.producerSlot.restless + (s.producerSlot.armWakes t.producerSlot).isSome.toNat ≤
      s.producerSlot.restless)
    (hc : t.consumerSlot.restless + (s.consumerSlot.armWakes t.consumerSlot).isSome.toNat ≤
      s.consumerSlot.restless)
    (hps : s.producerSlot.signals () = none) (hcs : s.consumerSlot.signals () = none) :
    t.producerSlot.restless + t.consumerSlot.restless + ∑ j, (ringUnparks s t j).toNat ≤
      s.producerSlot.restless + s.consumerSlot.restless := by
  have hor : ∀ a b : Bool, (a || b).toNat ≤ a.toNat + b.toNat := by decide
  have hsum : ∑ j, (ringUnparks s t j).toNat =
      (ringUnparks s t .producer).toNat + (ringUnparks s t .consumer).toNat :=
    Finset.sum_pair (by decide)
  have hproducer := hor (slotUnparks s.producerSlot t.producerSlot .producer)
    (slotUnparks s.consumerSlot t.consumerSlot .producer)
  have hconsumer := hor (slotUnparks s.producerSlot t.producerSlot .consumer)
    (slotUnparks s.consumerSlot t.consumerSlot .consumer)
  have hpsum := slotUnparks_sum (y := t.producerSlot) hps
  have hcsum := slotUnparks_sum (y := t.consumerSlot) hcs
  rw [hsum, ringUnparks, ringUnparks]
  omega

variable {s t : ThreadState (RingState w T RingSide) RingSide PUnit.{1}}
  {a : ThreadOp RingSide (RingOp T RingSide)}

theorem ring_rests (hs : (ringThreads r).machine.Reachable s)
    (h : (ringThreads r).exec s a = some t) (hsq : ∀ j, ¬ (ringProgress r).busy j s.mem)
    (htq : ∀ j, ¬ (ringProgress r).busy j t.mem) :
    (ringProgress r).restless t.mem + ∑ j, ((ringBlocking r).unparks s.mem t.mem j).toNat ≤
      (ringProgress r).restless s.mem := by
  have hdoes := ring_step_does hs h
  obtain ⟨⟨-, hwait⟩, -, -⟩ := reachable_waits hs
  have hcs : s.mem.consumerSlot.signals () = none := not_not.mp (hsq .producer)
  have hps : s.mem.producerSlot.signals () = none := not_not.mp (hsq .consumer)
  have hct : t.mem.consumerSlot.signals () = none := not_not.mp (htq .producer)
  have hpt : t.mem.producerSlot.signals () = none := not_not.mp (htq .consumer)
  cases a with
  | call i op =>
    cases i with
    | producer =>
      have hcalled : PushCalled op s.mem t.mem := hdoes
      refine ring_rests_of ?_ ?_ hps hcs
      · rw [hcalled.own]
        exact onOwnSlot_restless op _
      · rw [hcalled.other]
        exact restless_same _
    | consumer =>
      have hcalled : PopCalled op s.mem t.mem := hdoes
      refine ring_rests_of ?_ ?_ hps hcs
      · rw [hcalled.other]
        exact restless_same _
      · rw [hcalled.own]
        exact onOwnSlot_restless op _
  | step i =>
    cases i with
    | producer =>
      have hpush : PushDoes s.mem t.mem := hdoes
      refine ring_rests_of (hpush.own.restless hwait.producer fun _ => hps) ?_ hps hcs
      rw [hpush.other.eq_of_quiet hcs hct]
      exact restless_same _
    | consumer =>
      have hpop : PopDoes s.mem t.mem := hdoes
      refine ring_rests_of ?_ (hpop.own.restless hwait.consumer fun _ => hcs) hps hcs
      rw [hpop.other.eq_of_quiet hps hpt]
      exact restless_same _

end Rests

section Jobs

variable {s t : ThreadState (RingState w T RingSide) RingSide PUnit.{1}} {i : RingSide}
  {job : RingJob T i}

/-- What a job that found the ring in `s` has done to it in `t`. -/
def JobHeld : (i : RingSide) → RingJob T i → RingState w T RingSide → RingState w T RingSide → Prop
  | .producer, job, s, t => PushHeld s.accepted t job
  | .consumer, job, s, t => PopHeld s.taken t job

theorem jobRun_held (hs : (ringThreads r).machine.Reachable s)
    (h : (ringBlocking r).JobRun i job s t) : JobHeld i job s.mem t.mem := by
  induction h with
  | call h =>
    have hholds := (ringCalls_sound r).reachable hs
    cases i with
    | producer => exact (push_creates hholds h).1
    | consumer => exact (pop_creates hholds h).1
  | poll _ h h' ih =>
    have hholds := (ringCalls_sound r).reachable (h.reachable hs)
    cases i with
    | producer => exact (push_polls hholds ih h').held
    | consumer => exact (pop_polls hholds ih h').held

theorem ring_job (hs : (ringThreads r).machine.Reachable s)
    (h : (ringBlocking r).JobRun i job s t) :
    (ringProgress r).moved i t.mem ≤ (ringProgress r).moved i s.mem + (ringProgress r).size job := by
  have hheld := jobRun_held hs h
  cases i with
  | producer => exact PushHeld.le hheld
  | consumer => exact PopHeld.le hheld

theorem ringProgress_sound (r : RingBuf w) : (ringProgress (T := T) r).Sound where
  resume _ _ := rfl
  own hs h hi := (ring_frame hs h hi).2.2
  frame hs h hi := ⟨(ring_frame hs h hi).1, (ring_frame hs h hi).2.1⟩
  mono := ring_mono
  starts := ring_starts
  idle := ring_idle
  rests := ring_rests
  job := ring_job

end Jobs

end Ring

end Cynosure.SiteD
