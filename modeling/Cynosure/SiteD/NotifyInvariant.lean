import Mathlib.Tactic
import Cynosure.SiteD.Notify

/-! # No signal after arming is lost

The three pieces of state behind a parked waiter are the armed flag, the lock bits
of the waker cell, and the calls of `signal` in flight. The invariant says who is
responsible for the next wake. As long as the task has not been woken since its
poll began, its waker is in the cell or in the hands of a signaller, and either
the flag is still set or some signaller has claimed it. Signallers left over from
an earlier arming may steal the waker, but then they wake the current poll.
-/

universe u v

namespace Cynosure.SiteD

variable {W : Type u} {ι : Type v}

namespace SignalPc

/-- Between `fetch_or` and `fetch_and`, with access to the cell. -/
def holds : SignalPc W → Prop
  | .wake .take => True
  | .wake (.fetchAnd _) => True
  | _ => False

def claims : SignalPc W → Prop
  | .wake .fetchOr => True
  | .wake .take => True
  | _ => False

def carries (v : W) : SignalPc W → Prop
  | .wake (.fetchAnd taken) => taken = some v
  | .wake (.wake taken) => taken = v
  | _ => False

def asks : SignalPc W → Prop
  | .load => True
  | .swap => True
  | _ => False

end SignalPc

namespace RegisterPc

/-- Between the two `compare_exchange`s, or the first and the `swap`. -/
def locked : RegisterPc W → Prop
  | .compare _ => True
  | .store _ => True
  | .unlock _ => True
  | .take => True
  | .swap _ => True
  | .panicked => True
  | _ => False

def Fits (a : AtomicWaker W) (right : W → Prop) : RegisterPc W → Prop
  | .lock waker => right waker
  | .compare waker => right waker
  | .store waker => right waker
  | .unlock _ => ∃ v, a.waker = some v ∧ right v
  | .take => a.waking = true ∧ ∃ v, a.waker = some v ∧ right v
  | .swap taken => right taken
  | .wake taken => right taken
  | .wakeByRef waker => right waker
  | .panicked => False

end RegisterPc

/-- Some call of `signal` in flight satisfies the predicate. -/
def Someone (signals : ι → Option (SignalPc W)) (P : SignalPc W → Prop) : Prop :=
  ∃ i p, signals i = some p ∧ P p

theorem Someone.update [DecidableEq ι] {signals : ι → Option (SignalPc W)} {P : SignalPc W → Prop}
    (h : Someone signals P) {i : ι} {pc : SignalPc W} (hi : signals i = some pc)
    (r : Option (SignalPc W)) (hr : P pc → ∃ q, r = some q ∧ P q) :
    Someone (Function.update signals i r) P := by
  obtain ⟨j, p, hj, hp⟩ := h
  by_cases hji : j = i
  · subst hji
    rw [hi] at hj
    cases hj
    obtain ⟨q, rfl, hq⟩ := hr hp
    exact ⟨j, q, by simp, hq⟩
  · exact ⟨j, p, by simp [hji, hj], hp⟩

theorem Someone.mono {signals : ι → Option (SignalPc W)} {P Q : SignalPc W → Prop}
    (h : Someone signals P) (hPQ : ∀ p, P p → Q p) : Someone signals Q := by
  obtain ⟨i, p, hi, hp⟩ := h
  exact ⟨i, p, hi, hPQ p hp⟩

theorem someone_update_self [DecidableEq ι] (signals : ι → Option (SignalPc W)) (i : ι)
    {q : SignalPc W} {P : SignalPc W → Prop} (hq : P q) :
    Someone (Function.update signals i (some q)) P :=
  ⟨i, q, by simp, hq⟩

namespace SlotUse

variable [Waker W]

/-- The waker wakes the task of the current poll. -/
def Right (s : SlotUse W ι) (v : W) : Prop := ∃ w, s.current = some w ∧ Waker.task v = Waker.task w

def Kept (s : SlotUse W ι) : Prop :=
  (∃ v, s.slot.waker.waker = some v ∧ s.Right v) ∨
    ∃ v, s.Right v ∧ Someone s.signals (SignalPc.carries v)

end SlotUse

open SlotUse

structure SlotInv [Waker W] (s : SlotUse W ι) : Prop where
  locked : s.slot.waker.registering = true ↔ ∃ pc, s.phase = .arming (.register pc) ∧ pc.locked
  holding : ∀ i p, s.signals i = some p → p.holds →
    s.slot.waker.waking = true ∧ s.slot.waker.registering = false ∧
      ∀ j q, s.signals j = some q → q.holds → j = i
  held : s.slot.waker.waking = true → s.slot.waker.registering = false →
    Someone s.signals SignalPc.holds
  emptied : ∀ i v, s.signals i = some (.wake (.fetchAnd v)) → s.slot.waker.waker = none
  arming : ∀ pc, s.phase = .arming (.register pc) → pc.Fits s.slot.waker s.Right
  kept : s.phase = .arming .store ∨ s.phase = .armed → s.woken = false → s.Kept
  turn : s.phase = .armed → s.woken = false → s.slot.armed = true ∨
    Someone s.signals SignalPc.claims ∨ ∃ v, s.Right v ∧ Someone s.signals (SignalPc.carries v)
  heard : s.phase = .armed → s.published = true →
    s.slot.armed = false ∨ Someone s.signals SignalPc.asks

namespace SlotInv

variable [Waker W]

theorem new : SlotInv (SlotUse.new : SlotUse W ι) where
  locked := by simp [SlotUse.new, WaiterSlot.new, AtomicWaker.new]
  holding := fun _ _ h => by cases h
  held := fun h => by cases h
  emptied := fun _ _ h => by cases h
  arming := fun _ h => by cases h
  kept := fun h => by simp [SlotUse.new] at h
  turn := fun h => by cases h
  heard := fun h => by cases h

/-- A waiter that is not inside `arm` may give up the slot and drop every promise. -/
theorem quit {s t : SlotUse W ι} (h : SlotInv s) (hs : ∀ pc, s.phase ≠ .arming pc)
    (hw : t.slot.waker = s.slot.waker) (hsig : t.signals = s.signals) (ht : t.phase = .out) :
    SlotInv t where
  locked := by
    rw [hw, h.locked, ht]
    constructor
    · rintro ⟨pc, hpc, -⟩
      exact absurd hpc (hs _)
    · rintro ⟨pc, hpc, -⟩
      cases hpc
  holding := by
    rw [hw, hsig]
    exact h.holding
  held := by
    rw [hw, hsig]
    exact h.held
  emptied := by
    rw [hw, hsig]
    exact h.emptied
  arming := fun _ hpc => by
    rw [ht] at hpc
    cases hpc
  kept := fun hp => by simp [ht] at hp
  turn := fun hp => by simp [ht] at hp
  heard := fun hp => by simp [ht] at hp

theorem beginArm {s : SlotUse W ι} (h : SlotInv s) {waker : W} (hs : s.phase = .out)
    (hc : s.current = some waker) : SlotInv (s.beginArm waker) where
  locked := by
    change s.slot.waker.registering = true ↔ _
    rw [h.locked, hs]
    constructor
    · rintro ⟨pc, hpc, -⟩
      cases hpc
    · rintro ⟨pc, hpc, hl⟩
      cases hpc
      exact hl.elim
  holding := h.holding
  held := h.held
  emptied := h.emptied
  arming := fun pc hpc => by
    cases hpc
    exact ⟨waker, hc, rfl⟩
  kept := fun hp => by simp [SlotUse.beginArm] at hp
  turn := fun hp => by cases hp
  heard := fun hp => by cases hp

/-- While the waiter holds the cell no signaller does. -/
theorem not_holds {s : SlotUse W ι} (h : SlotInv s) {pc : RegisterPc W}
    (hp : s.phase = .arming (.register pc)) (hl : pc.locked) :
    s.slot.waker.registering = true ∧ ∀ i p, s.signals i = some p → ¬ p.holds := by
  have hr : s.slot.waker.registering = true := h.locked.mpr ⟨pc, hp, hl⟩
  refine ⟨hr, fun i p hi hh => ?_⟩
  have := (h.holding i p hi hh).2.1
  simp [hr] at this

/-- The shape of every step of `register` that leaves the signallers alone. -/
theorem advance {s t : SlotUse W ι} (h : SlotInv s) {pc : RegisterPc W}
    (hp : s.phase = .arming (.register pc)) (hsig : t.signals = s.signals)
    (hc : t.current = s.current) {next : ArmPc W} (ht : t.phase = .arming next)
    (hlock : t.slot.waker.registering = true ↔ ∃ q, next = .register q ∧ q.locked)
    (hwaking : t.slot.waker.waking = s.slot.waker.waking ∨
      t.slot.waker.waking = false ∧ pc.locked)
    (hreg : (∃ i p, s.signals i = some p ∧ p.holds) → t.slot.waker.registering = false)
    (hfree : t.slot.waker.waking = true → t.slot.waker.registering = false →
      s.slot.waker.registering = false)
    (hcell : t.slot.waker.waker = s.slot.waker.waker ∨ pc.locked)
    (hfit : ∀ q, next = .register q → q.Fits t.slot.waker s.Right)
    (hkept : next = .store → t.woken = false → t.Kept) : SlotInv t where
  locked := by
    rw [hlock, ht]
    simp
  holding := by
    rw [hsig]
    intro i p hi hh
    obtain ⟨h1, h2, h3⟩ := h.holding i p hi hh
    refine ⟨?_, hreg ⟨i, p, hi, hh⟩, h3⟩
    rcases hwaking with hw | ⟨-, hl⟩
    · rw [hw, h1]
    · exact absurd hh ((h.not_holds hp hl).2 i p hi)
  held := by
    intro hw hr
    rw [hsig]
    rcases hwaking with he | ⟨he, -⟩
    · exact h.held (he ▸ hw) (hfree hw hr)
    · simp [he] at hw
  emptied := by
    rw [hsig]
    intro i v hi
    rcases hcell with hw | hl
    · rw [hw]
      exact h.emptied i v hi
    · exact absurd trivial ((h.not_holds hp hl).2 i _ hi)
  arming := fun q hq => by
    rw [ht] at hq
    have hR : t.Right = s.Right := by
      funext v
      simp [SlotUse.Right, hc]
    rw [hR]
    exact hfit q (by cases hq; rfl)
  kept := fun hq hw => by
    rw [ht] at hq
    exact hkept (by simpa using hq) hw
  turn := fun hq => by
    rw [ht] at hq
    cases hq
  heard := fun hq => by
    rw [ht] at hq
    cases hq

theorem right_woken {s : SlotUse W ι} {v : W} (hv : s.Right v) : (s.note (some v)).woken = true := by
  obtain ⟨w, hw, ht⟩ := hv
  simp [SlotUse.note, hw, ht]

@[simp] theorem note_none (s : SlotUse W ι) : s.note none = s := by
  simp [SlotUse.note]

theorem registerStep {s : SlotUse W ι} (h : SlotInv s) {pc : RegisterPc W}
    (hp : s.phase = .arming (.register pc)) : SlotInv (s.armStep (.register pc)) := by
  have hfit := h.arming pc hp
  have hunlocked : ¬ pc.locked → s.slot.waker.registering = false := by
    intro hl
    rw [← Bool.not_eq_true, h.locked, hp]
    rintro ⟨q, hq, hql⟩
    cases hq
    exact hl hql
  cases pc with
  | lock waker =>
    have hr : s.slot.waker.registering = false := hunlocked id
    cases hw : s.slot.waker.waking with
    | true =>
      simp only [SlotUse.armStep, WaiterSlot.armStep, AtomicWaker.registerStep, hr, hw, Bool.or_true,
        if_true, note_none]
      refine h.advance hp rfl rfl rfl ?_ (.inl rfl) (fun _ => hr) (fun _ _ => hr) (.inl rfl) ?_ ?_
      · simp [hr, RegisterPc.locked]
      · rintro q ⟨⟩
        exact hfit
      · rintro ⟨⟩
    | false =>
      simp only [SlotUse.armStep, WaiterSlot.armStep, AtomicWaker.registerStep, hr, hw, Bool.or_self,
        Bool.false_eq_true, if_false, note_none]
      refine h.advance hp rfl rfl rfl ?_ (.inl hw.symm) ?_ (fun _ _ => hr) (.inl rfl) ?_ ?_
      · simp [RegisterPc.locked]
      · rintro ⟨i, p, hi, hh⟩
        have := (h.holding i p hi hh).1
        simp [hw] at this
      · rintro q ⟨⟩
        exact hfit
      · rintro ⟨⟩
  | compare waker =>
    obtain ⟨hr, hno⟩ := h.not_holds hp trivial
    simp only [SlotUse.armStep, WaiterSlot.armStep, AtomicWaker.registerStep, note_none]
    split
    · rename_i hsame
      obtain ⟨v, hv, hwill⟩ := (Option.any_eq_true _ _).mp hsame
      obtain ⟨w, hw, ht⟩ := hfit
      refine h.advance hp rfl rfl rfl ?_ (.inl rfl) ?_ ?_ (.inl rfl) ?_ ?_
      · simp [hr, RegisterPc.locked]
      · rintro ⟨i, p, hi, hh⟩
        exact absurd hh (hno i p hi)
      · intro _ h0
        exact h0
      · rintro q ⟨⟩
        exact ⟨v, hv, w, hw, (Waker.task_eq_of_willWake hwill).trans ht⟩
      · rintro ⟨⟩
    · refine h.advance hp rfl rfl rfl ?_ (.inl rfl) ?_ ?_ (.inl rfl) ?_ ?_
      · simp [hr, RegisterPc.locked]
      · rintro ⟨i, p, hi, hh⟩
        exact absurd hh (hno i p hi)
      · intro _ h0
        exact h0
      · rintro q ⟨⟩
        exact hfit
      · rintro ⟨⟩
  | store waker =>
    obtain ⟨hr, hno⟩ := h.not_holds hp trivial
    simp only [SlotUse.armStep, WaiterSlot.armStep, AtomicWaker.registerStep, note_none]
    refine h.advance hp rfl rfl rfl ?_ (.inl rfl) ?_ ?_ (.inr trivial) ?_ ?_
    · simp [hr, RegisterPc.locked]
    · rintro ⟨i, p, hi, hh⟩
      exact absurd hh (hno i p hi)
    · intro _ h0
      exact h0
    · rintro q ⟨⟩
      exact ⟨waker, rfl, hfit⟩
    · rintro ⟨⟩
  | unlock waker =>
    obtain ⟨hr, hno⟩ := h.not_holds hp trivial
    cases hw : s.slot.waker.waking with
    | true =>
      simp only [SlotUse.armStep, WaiterSlot.armStep, AtomicWaker.registerStep, hw, if_true, note_none]
      refine h.advance hp rfl rfl rfl ?_ (.inl rfl) ?_ ?_ (.inl rfl) ?_ ?_
      · simp [hr, RegisterPc.locked]
      · rintro ⟨i, p, hi, hh⟩
        exact absurd hh (hno i p hi)
      · intro _ h0
        exact h0
      · rintro q ⟨⟩
        exact ⟨hw, hfit⟩
      · rintro ⟨⟩
    | false =>
      simp only [SlotUse.armStep, WaiterSlot.armStep, AtomicWaker.registerStep, hw,
        Bool.false_eq_true, if_false, note_none]
      refine h.advance hp rfl rfl rfl ?_ (.inl hw.symm) ?_ ?_ (.inl rfl) ?_ ?_
      · simp
      · exact fun _ => rfl
      · rintro ⟨⟩
      · rintro q ⟨⟩
      · exact fun _ _ => .inl hfit
  | take =>
    obtain ⟨hr, hno⟩ := h.not_holds hp trivial
    obtain ⟨hw, v, hv, hright⟩ := hfit
    simp only [SlotUse.armStep, WaiterSlot.armStep, AtomicWaker.registerStep, hv, note_none]
    refine h.advance hp rfl rfl rfl ?_ (.inl rfl) ?_ ?_ (.inr trivial) ?_ ?_
    · simp [hr, RegisterPc.locked]
    · rintro ⟨i, p, hi, hh⟩
      exact absurd hh (hno i p hi)
    · intro _ h0
      exact h0
    · rintro q ⟨⟩
      exact hright
    · rintro ⟨⟩
  | swap taken =>
    simp only [SlotUse.armStep, WaiterSlot.armStep, AtomicWaker.registerStep, note_none]
    refine h.advance hp rfl rfl rfl ?_ (.inr ⟨rfl, trivial⟩) ?_ ?_ (.inl rfl) ?_ ?_
    · simp [RegisterPc.locked]
    · exact fun _ => rfl
    · rintro ⟨⟩
    · rintro q ⟨⟩
      exact hfit
    · rintro ⟨⟩
  | wake _ | wakeByRef _ =>
    have hr : s.slot.waker.registering = false := hunlocked id
    refine h.advance hp rfl rfl rfl ?_ (.inl rfl) (fun _ => hr) (fun _ _ => hr) (.inl rfl) ?_ ?_
    · simp [SlotUse.armStep, WaiterSlot.armStep, AtomicWaker.registerStep, hr]
    · rintro q ⟨⟩
    · intro _ hw
      have := right_woken hfit
      simp [SlotUse.armStep, WaiterSlot.armStep, AtomicWaker.registerStep, this] at hw
  | panicked => exact hfit.elim

theorem armStep {s : SlotUse W ι} (h : SlotInv s) {pc : ArmPc W} (hp : s.phase = .arming pc) :
    SlotInv (s.armStep pc) := by
  cases pc with
  | register pc => exact h.registerStep hp
  | store =>
    have hr : s.slot.waker.registering = false := by
      rw [← Bool.not_eq_true, h.locked, hp]
      rintro ⟨q, hq, -⟩
      cases hq
    have hstep : s.armStep .store = { s with
        slot := { s.slot with armed := true }, phase := .armed, published := false } := by
      simp [SlotUse.armStep, WaiterSlot.armStep]
    rw [hstep]
    exact {
      locked := by simp [hr]
      holding := h.holding
      held := h.held
      emptied := h.emptied
      arming := fun _ hq => by cases hq
      kept := fun _ hw => h.kept (.inl hp) hw
      turn := fun _ _ => .inl rfl
      heard := fun _ hpub => by cases hpub }

variable [DecidableEq ι]

theorem beginSignal {s : SlotUse W ι} (h : SlotInv s) {i : ι} (hi : s.signals i = none) :
    SlotInv (s.beginSignal i) := by
  have hold : ∀ {P : SignalPc W → Prop}, Someone s.signals P →
      Someone (Function.update s.signals i (some .load)) P := by
    rintro P ⟨j, p, hj, hp⟩
    have hji : j ≠ i := by
      rintro rfl
      simp [hi] at hj
    exact ⟨j, p, by simp [hji, hj], hp⟩
  have hback : ∀ {j p}, Function.update s.signals i (some .load) j = some p → p ≠ .load →
      s.signals j = some p := by
    intro j p hj hp
    by_cases hji : j = i
    · subst hji
      simp only [Function.update_self, Option.some.injEq] at hj
      exact absurd hj.symm hp
    · simpa [hji] using hj
  exact {
    locked := h.locked
    holding := fun j p hj hh => by
      have hne : ∀ q : SignalPc W, q.holds → q ≠ .load := by
        rintro q hq rfl
        exact hq
      obtain ⟨h1, h2, h3⟩ := h.holding j p (hback hj (hne p hh)) hh
      exact ⟨h1, h2, fun k q hk hq => h3 k q (hback hk (hne q hq)) hq⟩
    held := fun hw hr => hold (h.held hw hr)
    emptied := fun j v hj => h.emptied j v (hback hj (by simp))
    arming := h.arming
    kept := fun hp hw => (h.kept hp hw).imp id fun ⟨v, hv, hs⟩ => ⟨v, hv, hold hs⟩
    turn := fun hp hw => (h.turn hp hw).imp id (Or.imp hold fun ⟨v, hv, hs⟩ => ⟨v, hv, hold hs⟩)
    heard := fun _ _ => .inr (someone_update_self _ _ trivial) }

/-- The shape of every step of `signal` that neither enters nor leaves the cell. -/
theorem passSignal {s t : SlotUse W ι} (h : SlotInv s) {i : ι} {pc : SignalPc W}
    (hi : s.signals i = some pc) (hpc : ¬ pc.holds) {r : Option (SignalPc W)}
    (ht : t.signals = Function.update s.signals i r) (hr : ∀ q, r = some q → ¬ q.holds)
    (hwaker : t.slot.waker = s.slot.waker) (hphase : t.phase = s.phase)
    (hc : t.current = s.current)
    (hkept : s.phase = .arming .store ∨ s.phase = .armed → t.woken = false → t.Kept)
    (hturn : s.phase = .armed → t.woken = false → t.slot.armed = true ∨
      Someone t.signals SignalPc.claims ∨ ∃ v, t.Right v ∧ Someone t.signals (SignalPc.carries v))
    (hheard : s.phase = .armed → t.published = true →
      t.slot.armed = false ∨ Someone t.signals SignalPc.asks) : SlotInv t := by
  have hback : ∀ {j p}, t.signals j = some p → p.holds → s.signals j = some p := by
    intro j p hj hp
    rw [ht] at hj
    by_cases hji : j = i
    · subst hji
      rw [Function.update_self] at hj
      exact absurd hp (hr p hj)
    · simpa [hji] using hj
  exact {
    locked := by rw [hwaker, hphase]; exact h.locked
    holding := fun j p hj hh => by
      obtain ⟨h1, h2, h3⟩ := h.holding j p (hback hj hh) hh
      rw [hwaker]
      exact ⟨h1, h2, fun k q hk hq => h3 k q (hback hk hq) hq⟩
    held := fun hw hreg => by
      rw [hwaker] at hw hreg
      rw [ht]
      exact (h.held hw hreg).update hi r fun hp => absurd hp hpc
    emptied := fun j v hj => by
      rw [hwaker]
      exact h.emptied j v (hback hj trivial)
    arming := fun q hq => by
      have hR : t.Right = s.Right := by
        funext v
        simp [SlotUse.Right, hc]
      rw [hR, hwaker]
      exact h.arming q (hphase ▸ hq)
    kept := fun hp => hkept (hphase ▸ hp)
    turn := fun hp => hturn (hphase ▸ hp)
    heard := fun hp => hheard (hphase ▸ hp) }

/-- A waker in somebody's hands stays there when `i` moves on without dropping one. -/
theorem carried_update {s : SlotUse W ι} {i : ι} {pc : SignalPc W} (hi : s.signals i = some pc)
    {r : Option (SignalPc W)} (hr : ∀ v, s.Right v → pc.carries v → ∃ q, r = some q ∧ q.carries v)
    (h : ∃ v, s.Right v ∧ Someone s.signals (SignalPc.carries v)) :
    ∃ v, s.Right v ∧ Someone (Function.update s.signals i r) (SignalPc.carries v) := by
  obtain ⟨v, hv, hs⟩ := h
  exact ⟨v, hv, hs.update hi r (hr v hv)⟩

theorem loadStep {s : SlotUse W ι} (h : SlotInv s) {i : ι} (hi : s.signals i = some .load) :
    SlotInv (s.signalStep i .load) := by
  simp only [SlotUse.signalStep, WaiterSlot.signalStep, note_none]
  have hdrop : ∀ v, s.Right v → (SignalPc.load : SignalPc W).carries v →
      ∃ q, (if s.slot.armed then some SignalPc.swap else none) = some q ∧ q.carries v :=
    fun _ _ hf => hf.elim
  refine h.passSignal hi id rfl ?_ rfl rfl rfl ?_ ?_ ?_
  · intro q hq
    split at hq <;> cases hq
    exact id
  · exact fun hp hw => (h.kept hp hw).imp id (carried_update hi hdrop)
  · exact fun hp hw => (h.turn hp hw).imp id
      (Or.imp (fun hs => hs.update hi _ fun hf => hf.elim) (carried_update hi hdrop))
  · intro hp hpub
    cases ha : s.slot.armed with
    | true => exact .inr (someone_update_self _ _ trivial)
    | false => exact .inl rfl

theorem swapStep {s : SlotUse W ι} (h : SlotInv s) {i : ι} (hi : s.signals i = some .swap) :
    SlotInv (s.signalStep i .swap) := by
  simp only [SlotUse.signalStep, WaiterSlot.signalStep, note_none]
  have hdrop : ∀ v, s.Right v → (SignalPc.swap : SignalPc W).carries v →
      ∃ q, (if s.slot.armed then some (SignalPc.wake .fetchOr) else none) = some q ∧ q.carries v :=
    fun _ _ hf => hf.elim
  refine h.passSignal hi id rfl ?_ rfl rfl rfl ?_ ?_ ?_
  · intro q hq
    split at hq <;> cases hq
    exact id
  · exact fun hp hw => (h.kept hp hw).imp id (carried_update hi hdrop)
  · intro hp hw
    right
    cases ha : s.slot.armed with
    | true => exact .inl (someone_update_self _ _ trivial)
    | false =>
      rcases h.turn hp hw with ht | ht | ht
      · simp [ha] at ht
      · exact .inl (ht.update hi _ fun hf => hf.elim)
      · exact .inr (carried_update hi (fun _ _ hf => hf.elim) ht)
  · exact fun _ _ => .inl rfl

/-- `fetch_or` on a cell that a peer holds: the peer wakes, or has taken the waker. -/
theorem fetchOrStep_waking {s : SlotUse W ι} (h : SlotInv s) {i : ι}
    (hi : s.signals i = some (.wake .fetchOr)) (hr : s.slot.waker.registering = false)
    (hw : s.slot.waker.waking = true) :
    SlotInv { s with signals := Function.update s.signals i none } := by
  have hdrop : ∀ v, s.Right v → (SignalPc.wake .fetchOr : SignalPc W).carries v →
      ∃ q, (none : Option (SignalPc W)) = some q ∧ q.carries v := fun _ _ hf => hf.elim
  refine h.passSignal hi id rfl (fun q hq => by cases hq) rfl rfl rfl ?_ ?_ ?_
  · exact fun hp hn => (h.kept hp hn).imp id (carried_update hi hdrop)
  · intro hp hn
    right
    obtain ⟨k, p, hk, hh⟩ := h.held hw hr
    have hki : k ≠ i := by
      rintro rfl
      rw [hi] at hk
      cases hk
      exact hh
    have hk' : Function.update s.signals i none k = some p := by simp [hki, hk]
    cases p with
    | load => exact hh.elim
    | swap => exact hh.elim
    | wake q =>
      cases q with
      | fetchOr => exact hh.elim
      | wake v => exact hh.elim
      | take => exact .inl ⟨k, _, hk', trivial⟩
      | fetchAnd v =>
        have hcell := h.emptied k v hk
        rcases h.kept (.inr hp) hn with ⟨w, hw', -⟩ | hc
        · simp [hcell] at hw'
        · exact .inr (carried_update hi hdrop hc)
  · exact fun hp hpub => (h.heard hp hpub).imp id fun hs => hs.update hi _ fun hf => hf.elim

/-- The shape of every step of `signal` that enters the cell, uses it or leaves it. -/
theorem holderStep {s t : SlotUse W ι} (h : SlotInv s) {i : ι}
    (hno : ∀ j q, j ≠ i → s.signals j = some q → ¬ q.holds)
    (hfree : s.slot.waker.registering = false) {r : Option (SignalPc W)}
    (ht : t.signals = Function.update s.signals i r)
    (hreg : t.slot.waker.registering = false)
    (hbit : t.slot.waker.waking = true ↔ ∃ q, r = some q ∧ q.holds)
    (hempty : ∀ v, r = some (.wake (.fetchAnd v)) → t.slot.waker.waker = none)
    (hphase : t.phase = s.phase) (hc : t.current = s.current)
    (hkept : s.phase = .arming .store ∨ s.phase = .armed → t.woken = false → t.Kept)
    (hturn : s.phase = .armed → t.woken = false → t.slot.armed = true ∨
      Someone t.signals SignalPc.claims ∨ ∃ v, t.Right v ∧ Someone t.signals (SignalPc.carries v))
    (hheard : s.phase = .armed → t.published = true →
      t.slot.armed = false ∨ Someone t.signals SignalPc.asks) : SlotInv t := by
  have hself : ∀ {j q}, t.signals j = some q → q.holds → j = i ∧ r = some q := by
    intro j q hj hq
    rw [ht] at hj
    by_cases hji : j = i
    · subst hji
      exact ⟨rfl, by simpa using hj⟩
    · rw [Function.update_of_ne hji] at hj
      exact absurd hq (hno j q hji hj)
  have hunlocked : ∀ pc, s.phase = .arming (.register pc) → ¬ pc.locked := by
    intro pc hp hl
    have := h.locked.mpr ⟨pc, hp, hl⟩
    simp [hfree] at this
  exact {
    locked := by
      rw [hreg, hphase]
      constructor
      · rintro ⟨⟩
      · rintro ⟨pc, hp, hl⟩
        exact absurd hl (hunlocked pc hp)
    holding := fun j q hj hh => by
      obtain ⟨rfl, hq⟩ := hself hj hh
      exact ⟨hbit.mpr ⟨q, hq, hh⟩, hreg, fun k p hk hp => (hself hk hp).1⟩
    held := fun hw _ => by
      obtain ⟨q, rfl, hq⟩ := hbit.mp hw
      rw [ht]
      exact someone_update_self _ _ hq
    emptied := fun j v hj => hempty v (hself hj trivial).2
    arming := fun pc hp => by
      have hR : t.Right = s.Right := by
        funext v
        simp [SlotUse.Right, hc]
      rw [hphase] at hp
      rw [hR]
      have hfit := h.arming pc hp
      have hl := hunlocked pc hp
      cases pc <;> first | exact hfit | exact absurd trivial hl
    kept := fun hp => hkept (hphase ▸ hp)
    turn := fun hp => hturn (hphase ▸ hp)
    heard := fun hp => hheard (hphase ▸ hp) }

theorem fetchOrStep {s : SlotUse W ι} (h : SlotInv s) {i : ι}
    (hi : s.signals i = some (.wake .fetchOr)) : SlotInv (s.signalStep i (.wake .fetchOr)) := by
  simp only [SlotUse.signalStep, WaiterSlot.signalStep, AtomicWaker.wakeStep, note_none]
  cases hr : s.slot.waker.registering with
  | true =>
    -- the registering waiter sees the bit when it unlocks
    obtain ⟨pc, hp, hl⟩ := h.locked.mp hr
    have hno := (h.not_holds hp hl).2
    have hback : ∀ {j q}, Function.update s.signals i (none : Option (SignalPc W)) j = some q →
        s.signals j = some q := by
      intro j q hj
      by_cases hji : j = i
      · simp [hji] at hj
      · simpa [hji] using hj
    exact {
      locked := by simpa [hr] using ⟨pc, hp, hl⟩
      holding := fun j q hj hh => absurd hh (hno j q (hback hj))
      held := fun _ hr' => by cases hr'
      emptied := fun j v hj => absurd trivial (hno j _ (hback hj))
      arming := fun q hq => by
        have := h.arming q hq
        cases q <;> first | exact this | exact ⟨rfl, this.2⟩
      kept := fun hp' => by simp [hp] at hp'
      turn := fun hp' => by simp [hp] at hp'
      heard := fun hp' => by simp [hp] at hp' }
  | false =>
    cases hw : s.slot.waker.waking with
    | true =>
      have hslot : { s.slot with waker := { s.slot.waker with waking := true } } = s.slot := by
        rw [← hw]
      have := h.fetchOrStep_waking hi hr hw
      simpa only [← hr, hslot, Bool.or_true, if_true, Option.map_none] using this
    | false =>
      have hno : ∀ j q, j ≠ i → s.signals j = some q → ¬ q.holds := fun j q _ hj hh => by
        have := (h.holding j q hj hh).1
        simp [hw] at this
      simp only [Bool.or_self, Bool.false_eq_true, if_false, Option.map_some]
      refine h.holderStep hno hr rfl rfl ?_ ?_ rfl rfl ?_ ?_ ?_
      · simp [SignalPc.holds]
      · simp
      · exact fun hp hn => (h.kept hp hn).imp id (carried_update hi fun _ _ hf => hf.elim)
      · exact fun _ _ => .inr (.inl (someone_update_self _ _ trivial))
      · exact fun hp hpub => (h.heard hp hpub).imp id fun hs => hs.update hi _ fun hf => hf.elim

theorem takeStep {s : SlotUse W ι} (h : SlotInv s) {i : ι}
    (hi : s.signals i = some (.wake .take)) : SlotInv (s.signalStep i (.wake .take)) := by
  simp only [SlotUse.signalStep, WaiterSlot.signalStep, AtomicWaker.wakeStep, note_none,
    Option.map_some]
  obtain ⟨hw, hr, hsole⟩ := h.holding i _ hi trivial
  -- the waker of a parked task passes from the cell into the hands of `i`
  have hmoved : s.phase = .arming .store ∨ s.phase = .armed → s.woken = false → ∃ v, s.Right v ∧
      Someone (Function.update s.signals i (some (.wake (.fetchAnd s.slot.waker.waker))))
        (SignalPc.carries v) := by
    intro hp hn
    rcases h.kept hp hn with ⟨v, hv, hright⟩ | hc
    · exact ⟨v, hright, someone_update_self _ _ hv⟩
    · exact carried_update hi (fun _ _ hf => hf.elim) hc
  refine h.holderStep (fun j q hji hj hq => hji (hsole j q hj hq)) hr rfl hr ?_ ?_ rfl rfl ?_ ?_ ?_
  · simpa [SignalPc.holds] using hw
  · exact fun _ _ => rfl
  · exact fun hp hn => .inr (hmoved hp hn)
  · exact fun hp hn => .inr (.inr (hmoved (.inr hp) hn))
  · exact fun hp hpub => (h.heard hp hpub).imp id fun hs => hs.update hi _ fun hf => hf.elim

theorem fetchAndStep {s : SlotUse W ι} (h : SlotInv s) {i : ι} {taken : Option W}
    (hi : s.signals i = some (.wake (.fetchAnd taken))) :
    SlotInv (s.signalStep i (.wake (.fetchAnd taken))) := by
  simp only [SlotUse.signalStep, WaiterSlot.signalStep, AtomicWaker.wakeStep, note_none]
  obtain ⟨hw, hr, hsole⟩ := h.holding i _ hi trivial
  have hdrop : ∀ v, s.Right v → (SignalPc.wake (.fetchAnd taken)).carries v →
      ∃ q, (taken.map WakePc.wake).map SignalPc.wake = some q ∧ q.carries v := by
    rintro v - hv
    have hv : taken = some v := hv
    exact ⟨.wake (.wake v), by simp [hv], rfl⟩
  refine h.holderStep (fun j q hji hj hq => hji (hsole j q hj hq)) hr rfl hr ?_ ?_ rfl rfl ?_ ?_ ?_
  · simp only [Bool.false_eq_true, Option.map_map, Option.map_eq_some_iff, false_iff]
    rintro ⟨q, ⟨v, -, rfl⟩, hq⟩
    exact hq
  · intro v hv
    simp at hv
  · exact fun hp hn => (h.kept hp hn).imp id (carried_update hi hdrop)
  · exact fun hp hn => (h.turn hp hn).imp id
      (Or.imp (fun hs => hs.update hi _ fun hf => hf.elim) (carried_update hi hdrop))
  · exact fun hp hpub => (h.heard hp hpub).imp id fun hs => hs.update hi _ fun hf => hf.elim

theorem wakeStep {s : SlotUse W ι} (h : SlotInv s) {i : ι} {taken : W}
    (hi : s.signals i = some (.wake (.wake taken))) :
    SlotInv (s.signalStep i (.wake (.wake taken))) := by
  have hstep : s.signalStep i (.wake (.wake taken)) =
      { (s.note (some taken)) with signals := Function.update s.signals i none } := by
    simp [SlotUse.signalStep, WaiterSlot.signalStep, AtomicWaker.wakeStep, SlotUse.note]
  rw [hstep]
  have hdrop : (s.note (some taken)).woken = false → ∀ v, s.Right v →
      (SignalPc.wake (.wake taken)).carries v →
      ∃ q, (none : Option (SignalPc W)) = some q ∧ q.carries v := by
    rintro hn v hright rfl
    simp [right_woken hright] at hn
  have hwoken : (s.note (some taken)).woken = false → s.woken = false := by
    intro hn
    simp only [SlotUse.note, Bool.or_eq_false_iff] at hn
    exact hn.1
  refine h.passSignal hi id rfl (fun q hq => by cases hq) rfl rfl rfl ?_ ?_ ?_
  · exact fun hp hn => (h.kept hp (hwoken hn)).imp id (carried_update hi (hdrop hn))
  · exact fun hp hn => (h.turn hp (hwoken hn)).imp id
      (Or.imp (fun hs => hs.update hi _ fun hf => hf.elim) (carried_update hi (hdrop hn)))
  · exact fun hp hpub => (h.heard hp hpub).imp id fun hs => hs.update hi _ fun hf => hf.elim

theorem signalStep {s : SlotUse W ι} (h : SlotInv s) {i : ι} {pc : SignalPc W}
    (hi : s.signals i = some pc) : SlotInv (s.signalStep i pc) := by
  cases pc with
  | load => exact h.loadStep hi
  | swap => exact h.swapStep hi
  | wake pc =>
    cases pc with
    | fetchOr => exact h.fetchOrStep hi
    | take => exact h.takeStep hi
    | fetchAnd taken => exact h.fetchAndStep hi
    | wake taken => exact h.wakeStep hi

omit [DecidableEq ι] in
/-- A waiter past `arm` that was not woken has missed no signal once they have all returned. -/
theorem not_published {s : SlotUse W ι} (h : SlotInv s) (hp : s.phase = .armed)
    (hw : s.woken = false) (hidle : ∀ i, s.signals i = none) : s.published = false := by
  have hnobody : ∀ P, ¬ Someone s.signals P := by
    rintro P ⟨i, p, hi, -⟩
    simp [hidle i] at hi
  rw [← Bool.not_eq_true]
  intro hpub
  rcases h.heard hp hpub with ha | ha
  · rcases h.turn hp hw with ht | ht | ⟨v, -, ht⟩
    · simp [ha] at ht
    · exact hnobody _ ht
    · exact hnobody _ ht
  · exact hnobody _ ha

end SlotInv

end Cynosure.SiteD
