import Cynosure.Lib.Actions
import Cynosure.SiteD.SlotProg

/-! # What the parties do to a wait slot

The waiter arms the slot and gives it up, a signaller begins a call of `signal` and takes
its steps. The last access of a raced `register`, and the last one of a `signal` that
found a waker, invoke that waker; a waiter whose slot nobody signals wakes itself at most
for a signal that came to it earlier.
-/

namespace Cynosure.SiteD

variable {W ι : Type} [Waker W]

namespace SlotUse

inductive WaiterMoves : SlotUse W ι → SlotUse W ι → Prop
  | same (s) : WaiterMoves s s
  | disarm (s) : WaiterMoves s s.disarm
  | beginArm (s waker) (h : s.phase = .out) : WaiterMoves s (s.beginArm waker)
  | armStep (s pc) (h : s.phase = .arming pc) : WaiterMoves s (s.armStep pc)

inductive SignalMoves [DecidableEq ι] (i : ι) : SlotUse W ι → SlotUse W ι → Prop
  | same (s) : SignalMoves i s s
  | begin (s) (h : s.signals i = none) : SignalMoves i s (s.beginSignal i)
  | step (s pc) (h : s.signals i = some pc) : SignalMoves i s (s.signalStep i pc)

/-- The waker that the waiter invokes in going from `s` to `t`. -/
def armWakes (s t : SlotUse W ι) : Option W :=
  match s.phase, t.phase with
  | .arming (.register (.wake taken)), .arming .store => some taken
  | .arming (.register (.wakeByRef waker)), .arming .store => some waker
  | _, _ => none

/-- The waker that signaller `i` invokes in going from `s` to `t`. -/
def signalWakes (i : ι) (s t : SlotUse W ι) : Option W :=
  match s.signals i, t.signals i with
  | some (.wake (.wake taken)), none => some taken
  | _, _ => none

/-- The number of wakes that the waiter may still give itself while nobody signals. -/
def restless (s : SlotUse W ι) : Nat :=
  match s.phase with
  | .arming (.register (.compare _)) => s.slot.waker.waking.toNat
  | .arming (.register (.store _)) => s.slot.waker.waking.toNat
  | .arming (.register (.unlock _)) => s.slot.waker.waking.toNat
  | .arming (.register .take) => 1
  | .arming (.register (.swap _)) => 1
  | .arming (.register (.wake _)) => 1
  | .arming (.register (.wakeByRef _)) => 1
  | _ => 0

theorem armWakes_armStep {s : SlotUse W ι} {pc : ArmPc W} (h : s.phase = .arming pc) :
    armWakes s (s.armStep pc) = (s.slot.armStep pc).2.2 := by
  cases pc with
  | store => simp [armWakes, h, SlotUse.armStep, WaiterSlot.armStep]
  | register pc =>
    cases pc with
    | lock waker =>
      cases hlock : s.slot.waker.registering || s.slot.waker.waking <;>
        simp [armWakes, h, SlotUse.armStep, WaiterSlot.armStep, AtomicWaker.registerStep, hlock]
    | compare waker =>
      cases hany : s.slot.waker.waker.any (Waker.willWake · waker) <;>
        simp [armWakes, h, SlotUse.armStep, WaiterSlot.armStep, AtomicWaker.registerStep, hany]
    | unlock waker =>
      cases hwaking : s.slot.waker.waking <;>
        simp [armWakes, h, SlotUse.armStep, WaiterSlot.armStep, AtomicWaker.registerStep, hwaking]
    | take =>
      cases hwaker : s.slot.waker.waker <;>
        simp [armWakes, h, SlotUse.armStep, WaiterSlot.armStep, AtomicWaker.registerStep, hwaker]
    | _ => simp [armWakes, h, SlotUse.armStep, WaiterSlot.armStep, AtomicWaker.registerStep]

theorem signalWakes_signalStep [DecidableEq ι] {i : ι} {s : SlotUse W ι} {pc : SignalPc W}
    (h : s.signals i = some pc) :
    signalWakes i s (s.signalStep i pc) = (s.slot.signalStep pc).2.2 := by
  have hsig : (s.signalStep i pc).signals i = (s.slot.signalStep pc).2.1 := by
    simp [SlotUse.signalStep]
  rw [signalWakes, h, hsig]
  cases pc with
  | wake pc => cases pc <;> simp [WaiterSlot.signalStep, AtomicWaker.wakeStep]
  | _ => simp [WaiterSlot.signalStep]

omit [Waker W] in
theorem armWakes_same_phase {s t : SlotUse W ι} (h : t.phase = s.phase) : armWakes s t = none := by
  rw [armWakes, h]
  split
  · simp_all
  · simp_all
  · rfl

theorem WaiterMoves.current {s t : SlotUse W ι} (h : WaiterMoves s t) : t.current = s.current := by
  cases h <;> rfl

theorem SignalMoves.current [DecidableEq ι] {i : ι} {s t : SlotUse W ι} (h : SignalMoves i s t) :
    t.current = s.current := by
  cases h <;> rfl

theorem SignalMoves.eq_of_quiet [DecidableEq ι] {i : ι} {s t : SlotUse W ι}
    (h : SignalMoves i s t) (hs : s.signals i = none) (ht : t.signals i = none) : t = s := by
  cases h with
  | same => rfl
  | begin => simp at ht
  | step pc hpc => simp [hs] at hpc

/-- The task of the current poll is woken by a waker that was invoked. -/
theorem note_woken {s : SlotUse W ι} {woken : Option W} (hs : s.woken = false)
    (h : (s.note woken).woken = true) :
    ∃ v w, woken = some v ∧ s.current = some w ∧ Waker.task v = Waker.task w := by
  simp only [note, hs, Bool.false_or, Option.any_eq_true, beq_iff_eq] at h
  obtain ⟨v, hv, w, hw, htask⟩ := h
  exact ⟨v, w, hv, hw, htask⟩

theorem WaiterMoves.woken {s t : SlotUse W ι} (h : WaiterMoves s t) (hs : s.woken = false)
    (ht : t.woken = true) :
    ∃ v w, armWakes s t = some v ∧ s.current = some w ∧ Waker.task v = Waker.task w := by
  cases h with
  | same => simp [hs] at ht
  | disarm => simp [SlotUse.disarm, hs] at ht
  | beginArm => simp [SlotUse.beginArm, hs] at ht
  | armStep pc hpc =>
    rw [armWakes_armStep hpc]
    exact note_woken hs ht

theorem SignalMoves.woken [DecidableEq ι] {i : ι} {s t : SlotUse W ι} (h : SignalMoves i s t)
    (hs : s.woken = false) (ht : t.woken = true) :
    ∃ v w, signalWakes i s t = some v ∧ s.current = some w ∧ Waker.task v = Waker.task w := by
  cases h with
  | same => simp [hs] at ht
  | begin => simp [SlotUse.beginSignal, hs] at ht
  | step pc hpc =>
    rw [signalWakes_signalStep hpc]
    exact note_woken hs ht

omit [Waker W] in
theorem armWakes_of_out {s t : SlotUse W ι} (h : t.phase = .out) : armWakes s t = none := by
  rw [armWakes, h]
  split
  · simp_all
  · simp_all
  · rfl

section Restless

variable {s t : SlotUse W ι}

theorem armStep_restless (hI : SlotInv s) (hquiet : ∀ i, s.signals i = none) {pc : ArmPc W}
    (h : s.phase = .arming pc) :
    (s.armStep pc).restless + (armWakes s (s.armStep pc)).isSome.toNat ≤ s.restless := by
  cases pc with
  | store => simp [restless, armWakes, h, SlotUse.armStep, WaiterSlot.armStep]
  | register pc =>
    have hfits := hI.arming pc h
    cases pc with
    | lock waker =>
      have hregistering : s.slot.waker.registering = false := by
        by_contra hlocked
        obtain ⟨pc, hpc, hlocked⟩ := hI.locked.mp (by simpa using hlocked)
        rw [h] at hpc
        cases hpc
        exact hlocked
      have hwaking : s.slot.waker.waking = false := by
        by_contra hwaking
        obtain ⟨i, p, hp, -⟩ := hI.held (by simpa using hwaking) hregistering
        simp [hquiet] at hp
      simp [restless, armWakes, h, SlotUse.armStep, WaiterSlot.armStep, AtomicWaker.registerStep,
        hregistering, hwaking]
    | compare waker =>
      cases hany : s.slot.waker.waker.any (Waker.willWake · waker) <;>
        simp [restless, armWakes, h, SlotUse.armStep, WaiterSlot.armStep, AtomicWaker.registerStep,
          hany]
    | store waker =>
      simp [restless, armWakes, h, SlotUse.armStep, WaiterSlot.armStep, AtomicWaker.registerStep]
    | unlock waker =>
      cases hwaking : s.slot.waker.waking <;>
        simp [restless, armWakes, h, SlotUse.armStep, WaiterSlot.armStep, AtomicWaker.registerStep,
          hwaking]
    | take =>
      obtain ⟨-, v, hv, -⟩ := hfits
      simp [restless, armWakes, h, SlotUse.armStep, WaiterSlot.armStep, AtomicWaker.registerStep, hv]
    | swap taken =>
      simp [restless, armWakes, h, SlotUse.armStep, WaiterSlot.armStep, AtomicWaker.registerStep]
    | wake taken =>
      simp [restless, armWakes, h, SlotUse.armStep, WaiterSlot.armStep, AtomicWaker.registerStep]
    | wakeByRef waker =>
      simp [restless, armWakes, h, SlotUse.armStep, WaiterSlot.armStep, AtomicWaker.registerStep]
    | panicked => exact hfits.elim

/-- A waiter whose slot nobody signals uses up its wakes. -/
theorem WaiterMoves.restless (h : WaiterMoves s t) (hI : SlotInv s)
    (hquiet : ∀ i, s.signals i = none) :
    t.restless + (armWakes s t).isSome.toNat ≤ s.restless := by
  cases h with
  | same => simp [armWakes_same_phase]
  | disarm => simp [SlotUse.restless, armWakes, SlotUse.disarm]
  | beginArm waker hout => simp [SlotUse.restless, armWakes, SlotUse.beginArm, hout]
  | armStep pc hpc => exact armStep_restless hI hquiet hpc

end Restless

end SlotUse

end Cynosure.SiteD
