import Cynosure.Lib.Machine
import Cynosure.SiteD.NotifyInvariant

/-! # The wait loop around a `WaiterSlot`

One waiter polls by check, arm, re-check, and then disarms and finishes or returns
`Pending`. Any number of signallers make the condition true and call `signal`. The
condition may become false again at any moment: whoever uses up what it stands
for is not part of the handshake.
-/

universe u v

namespace Cynosure.SiteD

/-- Where the waiter's future is: not polled, inside a poll, or parked after `Pending`. -/
inductive WaitPc (W : Type u) where
  | idle
  | check (waker : W)
  | arm
  | recheck
  | disarm
  | pending
  deriving DecidableEq, Repr

/-- `rose` records that the condition became true after the last re-check. -/
structure WaitState (W : Type u) (ι : Type v) where
  use : SlotUse W ι
  cond : Bool
  pc : WaitPc W
  rose : Bool

inductive WaitOp (W : Type u) (ι : Type v) where
  | poll (waker : W)
  | step
  | cancel
  | retract
  | publish (i : ι)
  | signal (i : ι)
  deriving DecidableEq, Repr

namespace WaitState

variable {W : Type u} {ι : Type v} [Waker W] [DecidableEq ι]

def init : WaitState W ι := ⟨.new, false, .idle, false⟩

def polling (s : WaitState W ι) : Bool :=
  match s.pc with
  | .idle | .pending => false
  | _ => true

def waiterStep (s : WaitState W ι) : Option (WaitState W ι) :=
  match s.pc with
  | .idle | .pending => none
  | .check waker =>
    if s.cond then some { s with pc := .idle }
    else some { s with use := s.use.beginArm waker, pc := .arm }
  | .arm =>
    match s.use.phase with
    | .arming pc => some { s with use := s.use.armStep pc }
    | _ => some { s with pc := .recheck }
  | .recheck => some { s with pc := if s.cond then .disarm else .pending, rose := false }
  | .disarm => some { s with use := s.use.disarm, pc := .idle }

def exec (s : WaitState W ι) : WaitOp W ι → Option (WaitState W ι)
  | .poll waker =>
    if s.polling then none else some { s with use := s.use.beginPoll waker, pc := .check waker }
  | .step => s.waiterStep
  | .cancel => if s.polling then none else some { s with use := s.use.leave, pc := .idle }
  | .retract => some { s with cond := false }
  | .publish i =>
    match s.use.signals i with
    | some _ => none
    | none => some { s with cond := true, use := s.use.beginSignal i, rose := s.rose || !s.cond }
  | .signal i => (s.use.signals i).map fun pc => { s with use := s.use.signalStep i pc }

end WaitState

def waitMachine (W : Type u) (ι : Type v) [Waker W] [DecidableEq ι] :
    Machine (WaitState W ι) (WaitOp W ι) := ⟨.init, WaitState.exec⟩

variable {W : Type u} {ι : Type v} [Waker W]

structure WaitInv (s : WaitState W ι) : Prop where
  slot : SlotInv s.use
  current : ∀ waker, s.pc = .check waker → s.use.phase = .out ∧ s.use.current = some waker
  arming : (∃ pc, s.use.phase = .arming pc) → s.pc = .arm
  armed : s.pc = .recheck ∨ s.pc = .disarm ∨ s.pc = .pending → s.use.phase = .armed
  begun : s.pc = .arm → s.use.phase ≠ .out
  rose : s.pc = .pending → s.rose = true → s.use.published = true

namespace WaitInv

/-- A finished or cancelled poll leaves the slot to whoever still signals it. -/
theorem idle {s : WaitState W ι} (h : SlotInv s.use) (hpc : s.pc = .idle)
    (hs : ∀ pc, s.use.phase ≠ .arming pc) : WaitInv s where
  slot := h
  current := fun _ hp => by simp [hpc] at hp
  arming := fun ⟨pc, hp⟩ => absurd hp (hs pc)
  armed := fun hp => by simp [hpc] at hp
  begun := fun hp => by simp [hpc] at hp
  rose := fun hp => by simp [hpc] at hp

theorem init : WaitInv (WaitState.init : WaitState W ι) :=
  idle .new rfl fun _ hp => by cases hp

theorem not_arming {s : WaitState W ι} (h : WaitInv s) (hs : s.pc ≠ .arm) (pc : ArmPc W) :
    s.use.phase ≠ .arming pc :=
  fun hp => hs (h.arming ⟨pc, hp⟩)

theorem between {s : WaitState W ι} (h : WaitInv s) (hs : ¬ s.polling = true) (pc : ArmPc W) :
    s.use.phase ≠ .arming pc := by
  apply h.not_arming
  intro hp
  simp [WaitState.polling, hp] at hs

theorem waiterStep {s t : WaitState W ι} (h : WaitInv s) (hs : s.waiterStep = some t) :
    WaitInv t := by
  unfold WaitState.waiterStep at hs
  cases hpc : s.pc with
  | idle => simp [hpc] at hs
  | pending => simp [hpc] at hs
  | check waker =>
    obtain ⟨hout, hcur⟩ := h.current waker hpc
    simp only [hpc] at hs
    split at hs <;> cases hs
    · exact idle h.slot rfl fun pc hp => by simp [hout] at hp
    · exact {
        slot := h.slot.beginArm hout hcur
        current := fun _ hp => by cases hp
        arming := fun _ => rfl
        armed := fun hp => by simp at hp
        begun := fun _ hp => by cases hp
        rose := fun hp => by cases hp }
  | arm =>
    simp only [hpc] at hs
    cases hph : s.use.phase with
    | out => exact absurd hph (h.begun hpc)
    | armed =>
      simp only [hph] at hs
      cases hs
      exact {
        slot := h.slot
        current := fun _ hp => by cases hp
        arming := fun hp => by simp [hph] at hp
        armed := fun _ => hph
        begun := fun hp => by cases hp
        rose := fun hp => by cases hp }
    | arming pc =>
      simp only [hph] at hs
      cases hs
      refine {
        slot := h.slot.armStep hph
        current := fun _ hp => by cases hp
        arming := fun _ => rfl
        armed := fun hp => by simp at hp
        begun := fun _ hp => ?_
        rose := fun hp => by cases hp }
      simp only [SlotUse.armStep] at hp
      split at hp <;> cases hp
  | recheck =>
    have hph := h.armed (.inl hpc)
    simp only [hpc] at hs
    cases hs
    refine {
      slot := h.slot
      current := fun _ hp => ?_
      arming := fun hp => by simp [hph] at hp
      armed := fun _ => hph
      begun := fun hp => ?_
      rose := fun _ hr => by cases hr }
    · simp only at hp
      split at hp <;> cases hp
    · simp only at hp
      split at hp <;> cases hp
  | disarm =>
    simp only [hpc] at hs
    cases hs
    exact idle (h.slot.quit (h.not_arming (by simp [hpc])) rfl rfl rfl) rfl fun _ hp => by cases hp

variable [DecidableEq ι]

theorem exec {s t : WaitState W ι} {a : WaitOp W ι} (h : WaitInv s) (hs : s.exec a = some t) :
    WaitInv t := by
  cases a with
  | poll waker =>
    simp only [WaitState.exec, Option.ite_none_left_eq_some, Option.some.injEq] at hs
    obtain ⟨hidle, rfl⟩ := hs
    exact {
      slot := h.slot.quit (h.between hidle) rfl rfl rfl
      current := fun _ hp => by
        cases hp
        exact ⟨rfl, rfl⟩
      arming := fun ⟨_, hp⟩ => by cases hp
      armed := fun hp => by simp at hp
      begun := fun hp => by cases hp
      rose := fun hp => by cases hp }
  | step => exact h.waiterStep hs
  | cancel =>
    simp only [WaitState.exec, Option.ite_none_left_eq_some, Option.some.injEq] at hs
    obtain ⟨hidle, rfl⟩ := hs
    exact idle (h.slot.quit (h.between hidle) rfl rfl rfl) rfl fun _ hp => by cases hp
  | retract =>
    cases hs
    exact ⟨h.slot, h.current, h.arming, h.armed, h.begun, h.rose⟩
  | publish i =>
    simp only [WaitState.exec] at hs
    split at hs <;> cases hs
    rename_i hi
    exact ⟨h.slot.beginSignal hi, h.current, h.arming, h.armed, h.begun, fun _ _ => rfl⟩
  | signal i =>
    obtain ⟨pc, hi, rfl⟩ := Option.map_eq_some_iff.mp hs
    exact ⟨h.slot.signalStep hi, h.current, h.arming, h.armed, h.begun, h.rose⟩

end WaitInv

variable [DecidableEq ι]

/-- A parked waiter whose condition became true after its re-check has been woken, or
some call of `signal` has yet to return. -/
theorem waiter_slot_loses_no_wakeup (s : WaitState W ι) (h : (waitMachine W ι).Reachable s) :
    ¬ (s.pc = .pending ∧ s.use.woken = false ∧ s.rose = true ∧ ∀ i, s.use.signals i = none) := by
  have hI : WaitInv s := h.invariant .init fun _ _ _ => WaitInv.exec
  rintro ⟨hpc, hw, hr, hidle⟩
  have hpub := hI.slot.not_published (hI.armed (.inr (.inr hpc))) hw hidle
  simp [hI.rose hpc hr] at hpub

/-- A signaller that publishes after the re-check of the first poll has claimed the flag and
returned: the waiter has been woken. -/
theorem waiter_slot_wakes_parked_task : ∃ s : WaitState Waker.OfTask (Fin 1),
    (waitMachine Waker.OfTask (Fin 1)).run .init
      (.poll ⟨0⟩ :: List.replicate 8 .step ++ .publish 0 :: List.replicate 6 (.signal 0)) = some s ∧
    s.pc = .pending ∧ s.rose = true ∧ (∀ i, s.use.signals i = none) ∧ s.use.woken = true := by
  refine ⟨_, rfl, rfl, rfl, by decide, ?_⟩
  have h := @waiter_slot_loses_no_wakeup Waker.OfTask (Fin 1) _ _ _
    ⟨.poll ⟨0⟩ :: List.replicate 8 .step ++ .publish 0 :: List.replicate 6 (.signal 0), rfl⟩
  rw [← Bool.not_eq_false]
  exact fun hw => h ⟨rfl, hw, rfl, by decide⟩

end Cynosure.SiteD
