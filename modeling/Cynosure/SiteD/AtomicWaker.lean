import Mathlib.Tactic
import Cynosure.Lib.Machine
import Cynosure.SiteD.Notify

/-! # The waker cell under one registering task and any number of wakers

The cell alone, without the armed flag around it. One task calls `register` as often
as it likes, the callers `ι` call `wake`, and every atomic access is a step of its
own. The log lists, newest first, what a registered waker can live through: it is
passed to `register`, it takes the place of another one in the cell, it is invoked.
-/

universe u v

namespace Cynosure.SiteD

variable {W : Type u} {ι : Type v}

inductive CellEvent (W : Type u) where
  | passed (waker : W)
  | stored (old : Option W) (waker : W)
  | woke (waker : W)
  deriving DecidableEq, Repr

structure CellUse (W : Type u) (ι : Type v) where
  cell : AtomicWaker W
  register : Option (RegisterPc W)
  wakes : ι → Option (WakePc W)
  log : List (CellEvent W)

inductive CellOp (W : Type u) (ι : Type v) where
  | register (waker : W)
  | registerStep
  | wake (i : ι)
  | wakeStep (i : ι)

namespace CellUse

def new : CellUse W ι := ⟨.new, none, fun _ => none, []⟩

def noted (cell : AtomicWaker W) : RegisterPc W → Option W → List (CellEvent W)
  | .store waker, _ => [.stored cell.waker waker]
  | _, woken => (woken.map CellEvent.woke).toList

section Steps

variable [Waker W] [DecidableEq ι]

def registerStep (s : CellUse W ι) (pc : RegisterPc W) : CellUse W ι :=
  let r := s.cell.registerStep pc
  { s with cell := r.1, register := r.2.1, log := noted s.cell pc r.2.2 ++ s.log }

omit [Waker W] in
def wakeStep (s : CellUse W ι) (i : ι) (pc : WakePc W) : CellUse W ι :=
  let r := s.cell.wakeStep pc
  { s with
    cell := r.1
    wakes := Function.update s.wakes i r.2.1
    log := (r.2.2.map CellEvent.woke).toList ++ s.log }

def step (s : CellUse W ι) : CellOp W ι → Option (CellUse W ι)
  | .register waker =>
    match s.register with
    | some _ => none
    | none => some { s with register := some (.lock waker), log := .passed waker :: s.log }
  | .registerStep => s.register.map s.registerStep
  | .wake i =>
    match s.wakes i with
    | some _ => none
    | none => some { s with wakes := Function.update s.wakes i (some .fetchOr) }
  | .wakeStep i => (s.wakes i).map (s.wakeStep i)

end Steps

def machine (W : Type u) (ι : Type v) [Waker W] [DecidableEq ι] : Machine (CellUse W ι) (CellOp W ι) where
  init := new
  step := step

/-- No call is in progress. -/
def Quiet (s : CellUse W ι) : Prop := s.register = none ∧ ∀ i, s.wakes i = none

end CellUse

/-- From the exchange that sets `REGISTERING` to the one that clears it. -/
def RegisterPc.inCell : RegisterPc W → Prop
  | .compare _ => True
  | .store _ => True
  | .unlock _ => True
  | .take => True
  | .swap _ => True
  | _ => False

/-- From the `fetch_or` that found `WAITING` to the `fetch_and`. -/
def WakePc.inCell : WakePc W → Prop
  | .take => True
  | .fetchAnd _ => True
  | _ => False

/-- The party has access to the cell; `none` is the registering task. -/
def CellUse.InCell (s : CellUse W ι) : Option ι → Prop
  | none => ∃ pc, s.register = some pc ∧ pc.inCell
  | some i => ∃ pc, s.wakes i = some pc ∧ pc.inCell

/-- `v` is the waker `w` or passes for it. -/
def Stands [Waker W] (v w : W) : Prop := v = w ∨ Waker.willWake v w = true

/-- A registration after the one of `w` put its own waker where one that stands for `w` was. -/
def Replaced [Waker W] (w : W) (newer : List (CellEvent W)) : Prop :=
  ∃ later u between v, newer = later ++ .passed u :: between ∧ .stored (some v) u ∈ later ∧ Stands v w

/-- The call of `register` that `w` was passed to has not stored or invoked anything yet. -/
def RegisterPc.offers (w : W) : RegisterPc W → Prop
  | .lock waker => waker = w
  | .compare waker => waker = w
  | .store waker => waker = w
  | .wakeByRef waker => waker = w
  | _ => False

def RegisterPc.bears (v : W) : RegisterPc W → Prop
  | .swap taken => taken = v
  | .wake taken => taken = v
  | _ => False

def WakePc.bears (v : W) : WakePc W → Prop
  | .fetchAnd taken => taken = some v
  | .wake taken => taken = v
  | _ => False

def lastPassed (log : List (CellEvent W)) : Option W :=
  log.findSome? fun
    | .passed w => some w
    | _ => none

/-- What `register` knows at each of its accesses. -/
def RegisterPc.Knows (cell : AtomicWaker W) (log : List (CellEvent W)) : RegisterPc W → Prop
  | .lock waker => lastPassed log = some waker
  | .compare waker => lastPassed log = some waker
  | .store waker => lastPassed log = some waker
  | .unlock _ => ∃ v, cell.waker = some v
  | .take => cell.waking = true ∧ ∃ v, cell.waker = some v
  | .panicked => False
  | _ => True

namespace CellUse

/-- Where a registered waker can be: in the cell, or in the hands of one of the parties. -/
def Has (s : CellUse W ι) (v : W) : Prop :=
  s.cell.waker = some v ∨ (∃ pc, s.register = some pc ∧ pc.bears v) ∨
    ∃ i pc, s.wakes i = some pc ∧ pc.bears v

/-- `newer` is what happened since the call that `w` was passed to. -/
def Offered (s : CellUse W ι) (w : W) (newer : List (CellEvent W)) : Prop :=
  lastPassed newer = none ∧ ∃ pc, s.register = some pc ∧ pc.offers w

def Fate [Waker W] (s : CellUse W ι) (w : W) (newer : List (CellEvent W)) : Prop :=
  s.Offered w newer ∨ (∃ v, s.Has v ∧ Stands v w) ∨ (∃ v, .woke v ∈ newer ∧ Stands v w) ∨
    Replaced w newer

end CellUse

/-- Each observed old value gives the cell to one party. -/
structure CellLocks (s : CellUse W ι) : Prop where
  registering : s.cell.registering = true ↔ s.InCell none
  holding : ∀ i, s.InCell (some i) → s.cell.waking = true ∧ s.cell.registering = false ∧
    ∀ j, s.InCell (some j) → j = i
  held : s.cell.waking = true → s.cell.registering = false → ∃ i, s.InCell (some i)

structure CellInv [Waker W] (s : CellUse W ι) : Prop where
  locks : CellLocks s
  knows : ∀ pc, s.register = some pc → pc.Knows s.cell s.log
  fate : ∀ newer w older, s.log = newer ++ .passed w :: older → s.Fate w newer

/-! ## The lock bits -/

namespace CellLocks

open CellUse

theorem new : CellLocks (CellUse.new : CellUse W ι) where
  registering := by simp [CellUse.new, AtomicWaker.new, InCell]
  holding := fun _ h => by simp [CellUse.new, InCell] at h
  held := fun h => by simp [CellUse.new, AtomicWaker.new] at h

theorem eq_of_inCell {s : CellUse W ι} (h : CellLocks s) {p q : Option ι} (hp : s.InCell p)
    (hq : s.InCell q) : p = q := by
  cases p with
  | none =>
    cases q with
    | none => rfl
    | some j =>
      have hr := (h.holding j hq).2.1
      rw [h.registering.mpr hp] at hr
      cases hr
  | some i =>
    cases q with
    | none =>
      have hr := (h.holding i hp).2.1
      rw [h.registering.mpr hq] at hr
      cases hr
    | some j => rw [(h.holding i hp).2.2 j hq]

/-- The registering task moves; it changes a bit only where no waker is in the cell. -/
theorem move {s t : CellUse W ι} (h : CellLocks s) (hw : t.wakes = s.wakes)
    (hreg : t.cell.registering = true ↔ t.InCell none)
    (hbits : t.cell.registering = s.cell.registering ∧ t.cell.waking = s.cell.waking ∨
      (s.cell.waking = false ∨ s.cell.registering = true) ∧
        (t.cell.waking = false ∨ t.cell.registering = true)) : CellLocks t where
  registering := hreg
  holding := fun i hi => by
    have hi' : s.InCell (some i) := by rwa [InCell, hw] at hi
    obtain ⟨h1, h2, h3⟩ := h.holding i hi'
    rcases hbits with ⟨hr, hwk⟩ | ⟨hs, -⟩
    · refine ⟨hwk.trans h1, hr.trans h2, fun j hj => h3 j ?_⟩
      rwa [InCell, hw] at hj
    · simp [h1, h2] at hs
  held := fun h1 h2 => by
    rcases hbits with ⟨hr, hwk⟩ | ⟨-, ht⟩
    · obtain ⟨i, hi⟩ := h.held (hwk ▸ h1) (hr ▸ h2)
      exact ⟨i, by rwa [InCell, hw]⟩
    · simp [h1, h2] at ht

variable [Waker W]

theorem registerStep {s : CellUse W ι} (h : CellLocks s) {pc : RegisterPc W}
    (hpc : s.register = some pc) (hk : pc.Knows s.cell s.log) : CellLocks (s.registerStep pc) := by
  have hin : s.InCell none ↔ pc.inCell := by simp [InCell, hpc]
  have hreg := h.registering.trans hin
  apply h.move (t := s.registerStep pc) rfl
  · cases pc with
    | lock waker => cases hr : s.cell.registering <;> cases hw : s.cell.waking <;>
        simp_all [CellUse.registerStep, AtomicWaker.registerStep, InCell, RegisterPc.inCell]
    | compare waker =>
      simp only [CellUse.registerStep, AtomicWaker.registerStep, InCell]
      split <;> simp_all [RegisterPc.inCell]
    | unlock waker => cases hw : s.cell.waking <;>
        simp_all [CellUse.registerStep, AtomicWaker.registerStep, InCell, RegisterPc.inCell]
    | take =>
      obtain ⟨-, v, hv⟩ := hk
      simp_all [CellUse.registerStep, AtomicWaker.registerStep, InCell, RegisterPc.inCell]
    | panicked => exact hk.elim
    | store | swap | wake | wakeByRef =>
      simp_all [CellUse.registerStep, AtomicWaker.registerStep, InCell, RegisterPc.inCell]
  · cases pc with
    | lock waker => cases hr : s.cell.registering <;> cases hw : s.cell.waking <;>
        simp [CellUse.registerStep, AtomicWaker.registerStep, hr, hw]
    | unlock waker => cases hw : s.cell.waking <;>
        simp [CellUse.registerStep, AtomicWaker.registerStep, hw, hreg, RegisterPc.inCell]
    | take =>
      obtain ⟨-, v, hv⟩ := hk
      simp [CellUse.registerStep, AtomicWaker.registerStep, hv]
    | panicked => exact hk.elim
    | swap taken =>
      simp [CellUse.registerStep, AtomicWaker.registerStep, hreg, RegisterPc.inCell]
    | compare | store | wake | wakeByRef =>
      simp [CellUse.registerStep, AtomicWaker.registerStep]

variable [DecidableEq ι]

omit [Waker W] in
theorem inCell_update {s t : CellUse W ι} {i : ι} {r : Option (WakePc W)}
    (ht : t.wakes = Function.update s.wakes i r) (j : ι) :
    t.InCell (some j) ↔ if j = i then ∃ pc, r = some pc ∧ pc.inCell else s.InCell (some j) := by
  simp only [InCell, ht]
  split
  · rename_i hj
    rw [hj, Function.update_self]
  · rename_i hj
    rw [Function.update_of_ne hj]

omit [Waker W] in
/-- A waker that stays outside, or stays inside, changes no bit but may set `WAKING` again. -/
theorem pass {s t : CellUse W ι} (h : CellLocks s) {i : ι} {r : Option (WakePc W)}
    (ht : t.wakes = Function.update s.wakes i r) (hreg : t.register = s.register)
    (hsame : (∃ pc, r = some pc ∧ pc.inCell) ↔ s.InCell (some i))
    (hr : t.cell.registering = s.cell.registering)
    (hw : t.cell.waking = s.cell.waking ∨
      t.cell.waking = true ∧ (s.cell.waking = true ∨ s.cell.registering = true)) : CellLocks t := by
  have hin : ∀ j, t.InCell (some j) ↔ s.InCell (some j) := by
    intro j
    rw [inCell_update ht]
    split
    · rename_i hj
      rw [hj, hsame]
    · rfl
  exact {
    registering := by
      rw [hr, h.registering, InCell, InCell, hreg]
    holding := fun j hj => by
      obtain ⟨h1, h2, h3⟩ := h.holding j ((hin j).mp hj)
      refine ⟨?_, hr.trans h2, fun k hk => h3 k ((hin k).mp hk)⟩
      rcases hw with hw | hw
      · exact hw.trans h1
      · exact hw.1
    held := fun h1 h2 => by
      have hs : s.cell.waking = true := by
        rcases hw with hw | ⟨-, hw | hw⟩
        · exact hw ▸ h1
        · exact hw
        · rw [← hr, h2] at hw
          cases hw
      obtain ⟨j, hj⟩ := h.held hs (hr ▸ h2)
      exact ⟨j, (hin j).mpr hj⟩ }

omit [Waker W] in
theorem wakeStep {s : CellUse W ι} (h : CellLocks s) {i : ι} {pc : WakePc W}
    (hpc : s.wakes i = some pc) : CellLocks (s.wakeStep i pc) := by
  have hin : s.InCell (some i) ↔ pc.inCell := by simp [InCell, hpc]
  have hnone : (s.wakeStep i pc).InCell none ↔ s.InCell none := by
    simp [InCell, CellUse.wakeStep]
  cases pc with
  | fetchOr =>
    cases hbusy : s.cell.registering || s.cell.waking with
    | true =>
      apply h.pass (t := s.wakeStep i .fetchOr) rfl rfl
      · simp [hin, AtomicWaker.wakeStep, hbusy, WakePc.inCell]
      · rfl
      · rw [Bool.or_eq_true, or_comm] at hbusy
        exact .inr ⟨rfl, hbusy⟩
    | false =>
      -- the exchange found `WAITING`, so nobody is in the cell
      obtain ⟨hr, hw⟩ := Bool.or_eq_false_iff.mp hbusy
      have hfree : ∀ j, ¬ s.InCell (some j) := by
        intro j hj
        have := (h.holding j hj).1
        rw [hw] at this
        cases this
      have hcell : ∀ j, (s.wakeStep i .fetchOr).InCell (some j) ↔ j = i := by
        intro j
        rw [inCell_update rfl]
        simp [AtomicWaker.wakeStep, hbusy, WakePc.inCell, hfree j]
      exact {
        registering := h.registering.trans hnone.symm
        holding := fun j hj => ⟨rfl, hr, fun k hk => by rw [(hcell j).mp hj, (hcell k).mp hk]⟩
        held := fun _ _ => ⟨i, (hcell i).mpr rfl⟩ }
  | take =>
    apply h.pass (t := s.wakeStep i .take) rfl rfl
    · simp [hin, AtomicWaker.wakeStep, WakePc.inCell]
    · rfl
    · exact .inl rfl
  | fetchAnd taken =>
    obtain ⟨-, -, honly⟩ := h.holding i (hin.mpr trivial)
    have hcell : ∀ j, ¬ (s.wakeStep i (.fetchAnd taken)).InCell (some j) := by
      intro j
      rw [inCell_update rfl]
      split
      · simp [AtomicWaker.wakeStep, WakePc.inCell]
      · rename_i hj
        exact fun hs => hj (honly j hs)
    exact {
      registering := h.registering.trans hnone.symm
      holding := fun j hj => absurd hj (hcell j)
      held := fun hw => by cases hw }
  | wake taken =>
    apply h.pass (t := s.wakeStep i (.wake taken)) rfl rfl
    · simp [hin, AtomicWaker.wakeStep, WakePc.inCell]
    · rfl
    · exact .inl rfl

end CellLocks

/-! ## The fate of a registered waker -/

theorem lastPassed_append_of_none {new log : List (CellEvent W)} (h : lastPassed new = none) :
    lastPassed (new ++ log) = lastPassed log := by
  rw [lastPassed] at h
  simp [lastPassed, List.findSome?_append, h]

theorem lastPassed_eq_some {log : List (CellEvent W)} {u : W} (h : lastPassed log = some u) :
    ∃ later between, log = later ++ .passed u :: between := by
  obtain ⟨later, e, between, rfl, he, -⟩ := List.findSome?_eq_some_iff.mp h
  cases e with
  | passed w =>
    cases he
    exact ⟨later, between, rfl⟩
  | stored | woke => cases he

theorem split_log {new log newer older : List (CellEvent W)} {w : W} (hnew : lastPassed new = none)
    (h : new ++ log = newer ++ .passed w :: older) :
    ∃ rest, newer = new ++ rest ∧ log = rest ++ .passed w :: older := by
  rcases List.append_eq_append_iff.mp h with ⟨rest, rfl, hlog⟩ | ⟨rest, rfl, hlog⟩
  · exact ⟨rest, rfl, hlog⟩
  · cases rest with
    | nil => exact ⟨[], by simp, by simpa using hlog.symm⟩
    | cons e rest =>
      obtain ⟨rfl, -⟩ := List.cons.inj hlog
      simp [lastPassed, List.findSome?_append] at hnew

variable [Waker W]

theorem Replaced.append {w : W} {newer : List (CellEvent W)} (h : Replaced w newer)
    (new : List (CellEvent W)) : Replaced w (new ++ newer) := by
  obtain ⟨later, u, between, v, rfl, hmem, hv⟩ := h
  exact ⟨new ++ later, u, between, v, by simp, List.mem_append_right _ hmem, hv⟩

namespace CellUse

theorem Fate.of_has {s : CellUse W ι} {v w : W} {newer : List (CellEvent W)} (h : s.Has v)
    (hw : Stands v w) : s.Fate w newer :=
  .inr (.inl ⟨v, h, hw⟩)

theorem Fate.of_woke {s : CellUse W ι} {v w : W} {newer : List (CellEvent W)} (hw : Stands v w) :
    s.Fate w (.woke v :: newer) :=
  .inr (.inr (.inl ⟨v, List.mem_cons_self, hw⟩))

/-- Only a waker that is still somewhere has a fate that a step can change. -/
theorem Fate.step {s t : CellUse W ι} {w : W} {newer : List (CellEvent W)} (h : s.Fate w newer)
    (new : List (CellEvent W)) (hoffer : s.Offered w newer → t.Fate w (new ++ newer))
    (hhas : ∀ v, s.Has v → Stands v w → t.Fate w (new ++ newer)) : t.Fate w (new ++ newer) := by
  rcases h with h | ⟨v, hv, hw⟩ | ⟨v, hv, hw⟩ | h
  · exact hoffer h
  · exact hhas v hv hw
  · exact .inr (.inr (.inl ⟨v, List.mem_append_right _ hv, hw⟩))
  · exact .inr (.inr (.inr (h.append new)))

/-- A step of `register` concerns its own waker, the one in the cell and the one it has taken. -/
theorem Fate.ofRegister {s t : CellUse W ι} {pc : RegisterPc W} {w : W}
    {newer new : List (CellEvent W)} (h : s.Fate w newer) (hpc : s.register = some pc)
    (hwakes : t.wakes = s.wakes)
    (hoffer : lastPassed newer = none → pc.offers w → t.Fate w (new ++ newer))
    (hcell : ∀ v, s.cell.waker = some v → Stands v w → t.Fate w (new ++ newer))
    (htaken : ∀ v, pc.bears v → Stands v w → t.Fate w (new ++ newer)) : t.Fate w (new ++ newer) := by
  apply h.step _
  · rintro ⟨hnone, q, hq, hw⟩
    rw [hpc, Option.some.injEq] at hq
    exact hoffer hnone (hq ▸ hw)
  · rintro v (hv | ⟨q, hq, hv⟩ | hv) hw
    · exact hcell v hv hw
    · rw [hpc, Option.some.injEq] at hq
      exact htaken v (hq ▸ hv) hw
    · rw [← hwakes] at hv
      exact .of_has (.inr (.inr hv)) hw

theorem Fate.registerStep {s : CellUse W ι} {pc : RegisterPc W} {w : W}
    {newer older : List (CellEvent W)} (h : s.Fate w newer) (hpc : s.register = some pc)
    (hk : pc.Knows s.cell s.log) (hlog : s.log = newer ++ .passed w :: older) :
    (s.registerStep pc).Fate w (noted s.cell pc (s.cell.registerStep pc).2.2 ++ newer) := by
  have hsame : (s.registerStep pc).wakes = s.wakes := rfl
  cases pc with
  | lock waker =>
    apply h.ofRegister hpc hsame
    · intro hnone hw
      refine .inl ⟨?_, ?_⟩
      · simp only [AtomicWaker.registerStep]
        split <;> exact hnone
      · simp only [CellUse.registerStep, AtomicWaker.registerStep]
        split <;> exact ⟨_, rfl, hw⟩
    · intro v hv hw
      refine .of_has (.inl ?_) hw
      simp only [CellUse.registerStep, AtomicWaker.registerStep]
      split <;> exact hv
    · exact fun v hv => hv.elim
  | compare waker =>
    apply h.ofRegister hpc hsame
    · rintro hnone rfl
      cases hsame : s.cell.waker.any (Waker.willWake · waker) with
      | true =>
        obtain ⟨v, hv, hwill⟩ := (Option.any_eq_true _ _).mp hsame
        exact .of_has (.inl hv) (.inr hwill)
      | false =>
        refine .inl ⟨hnone, .store waker, ?_, rfl⟩
        simp [CellUse.registerStep, AtomicWaker.registerStep, hsame]
    · exact fun v hv hw => .of_has (.inl hv) hw
    · exact fun v hv => hv.elim
  | store waker =>
    apply h.ofRegister hpc hsame
    · rintro - rfl
      exact .of_has (.inl rfl) (.inl rfl)
    · intro v hv hw
      cases hlast : lastPassed newer with
      | none =>
        -- the call is the one of `w`, so the waker that comes into the cell is `w`
        rw [RegisterPc.Knows, hlog, lastPassed_append_of_none hlast] at hk
        cases hk
        exact .of_has (.inl rfl) (.inl rfl)
      | some u =>
        have hu : u = waker := by
          rw [RegisterPc.Knows, hlog, lastPassed, List.findSome?_append] at hk
          rw [lastPassed] at hlast
          simpa [hlast] using hk
        subst hu
        obtain ⟨later, between, rfl⟩ := lastPassed_eq_some hlast
        refine .inr (.inr (.inr ⟨.stored (some v) u :: later, u, between, v, ?_, List.mem_cons_self, hw⟩))
        simp [noted, hv]
    · exact fun v hv => hv.elim
  | unlock waker =>
    apply h.ofRegister hpc hsame
    · exact fun _ hw => hw.elim
    · intro v hv hw
      refine .of_has (.inl ?_) hw
      simp only [CellUse.registerStep, AtomicWaker.registerStep]
      split <;> exact hv
    · exact fun v hv => hv.elim
  | take =>
    obtain ⟨-, u, hu⟩ := hk
    apply h.ofRegister hpc hsame
    · exact fun _ hw => hw.elim
    · intro v hv hw
      refine .of_has (.inr (.inl ⟨.swap v, ?_, rfl⟩)) hw
      simp [CellUse.registerStep, AtomicWaker.registerStep, hv]
    · exact fun v hv => hv.elim
  | swap taken =>
    apply h.ofRegister hpc hsame
    · exact fun _ hw => hw.elim
    · exact fun v hv hw => .of_has (.inl hv) hw
    · exact fun v hv hw => .of_has (.inr (.inl ⟨.wake taken, rfl, hv⟩)) hw
  | wake taken =>
    apply h.ofRegister hpc hsame
    · exact fun _ hw => hw.elim
    · exact fun v hv hw => .of_has (.inl hv) hw
    · rintro v rfl hw
      exact .of_woke hw
  | wakeByRef waker =>
    apply h.ofRegister hpc hsame
    · rintro - rfl
      exact .of_woke (.inl rfl)
    · exact fun v hv hw => .of_has (.inl hv) hw
    · exact fun v hv => hv.elim
  | panicked => exact hk.elim

variable [DecidableEq ι]

theorem Fate.wakeStep {s : CellUse W ι} {i : ι} {pc : WakePc W} {w : W}
    {newer : List (CellEvent W)} (h : s.Fate w newer) (hpc : s.wakes i = some pc) :
    (s.wakeStep i pc).Fate w (((s.cell.wakeStep pc).2.2.map CellEvent.woke).toList ++ newer) := by
  have hself : (s.wakeStep i pc).wakes i = (s.cell.wakeStep pc).2.1 := Function.update_self _ _ _
  apply h.step _
  · rintro ⟨hnone, hw⟩
    refine .inl ⟨?_, hw⟩
    cases pc <;> exact hnone
  · rintro v (hv | hv | ⟨j, q, hq, hv⟩) hw
    · cases pc with
      | take => exact .of_has (.inr (.inr ⟨i, .fetchAnd s.cell.waker, hself, hv⟩)) hw
      | fetchOr | fetchAnd | wake => exact .of_has (.inl hv) hw
    · exact .of_has (.inr (.inl hv)) hw
    · by_cases hj : j = i
      · subst hj
        rw [hpc, Option.some.injEq] at hq
        subst hq
        cases pc with
        | fetchOr | take => exact hv.elim
        | fetchAnd taken =>
          obtain rfl : taken = some v := hv
          exact .of_has (.inr (.inr ⟨j, .wake v, hself, rfl⟩)) hw
        | wake taken =>
          obtain rfl : taken = v := hv
          exact .of_woke hw
      · exact .of_has (.inr (.inr ⟨j, q, (Function.update_of_ne hj _ _).trans hq, hv⟩)) hw

end CellUse

namespace CellInv

open CellUse

theorem new : CellInv (CellUse.new : CellUse W ι) where
  locks := .new
  knows := fun _ h => by cases h
  fate := fun newer _ _ h => by cases newer <;> cases h

/-- The waker in the cell is safe while the registering task has the lock. -/
theorem register_after {s : CellUse W ι} (h : CellInv s) {pc q : RegisterPc W}
    (hpc : s.register = some pc) (hq : (s.registerStep pc).register = some q) :
    q.Knows (s.registerStep pc).cell (s.registerStep pc).log := by
  have hk := h.knows pc hpc
  cases pc with
  | lock waker =>
    simp only [CellUse.registerStep, AtomicWaker.registerStep] at hq ⊢
    split at hq
    · cases hq
      trivial
    · rename_i hfree
      cases hq
      rw [if_neg hfree]
      exact hk
  | compare waker =>
    simp only [CellUse.registerStep, AtomicWaker.registerStep, Option.some.injEq] at hq ⊢
    split at hq
    · rename_i hsame
      obtain ⟨v, hv, -⟩ := (Option.any_eq_true _ _).mp hsame
      rw [← hq]
      exact ⟨v, hv⟩
    · rw [← hq]
      exact hk
  | store waker =>
    cases hq
    exact ⟨waker, rfl⟩
  | unlock waker =>
    simp only [CellUse.registerStep, AtomicWaker.registerStep] at hq ⊢
    split at hq
    · rename_i hw
      cases hq
      simpa [hw, RegisterPc.Knows] using hk
    · cases hq
  | take =>
    obtain ⟨-, v, hv⟩ := hk
    simp only [CellUse.registerStep, AtomicWaker.registerStep, hv, Option.some.injEq] at hq
    rw [← hq]
    trivial
  | swap taken =>
    cases hq
    trivial
  | wake | wakeByRef => cases hq
  | panicked => exact hk.elim

variable [DecidableEq ι]

theorem register_during {s : CellUse W ι} (h : CellInv s) {i : ι} {pc : WakePc W}
    (hpc : s.wakes i = some pc) {q : RegisterPc W} (hq : s.register = some q) :
    q.Knows (s.wakeStep i pc).cell (s.wakeStep i pc).log := by
  have hk := h.knows q hq
  have hlast : lastPassed (s.wakeStep i pc).log = lastPassed s.log := by
    cases pc <;> rfl
  -- a waker that empties the cell or clears a bit has the cell to itself
  have hcell : q.inCell → (s.wakeStep i pc).cell.waker = s.cell.waker ∧
      (s.cell.waking = true → (s.wakeStep i pc).cell.waking = true) := by
    intro hin
    have hout : ¬ pc.inCell := by
      intro hp
      cases h.locks.eq_of_inCell (p := none) (q := some i) ⟨q, hq, hin⟩ ⟨pc, hpc, hp⟩
    cases pc with
    | fetchOr => exact ⟨rfl, fun _ => rfl⟩
    | wake taken => exact ⟨rfl, id⟩
    | take | fetchAnd => exact absurd trivial hout
  cases q with
  | lock | compare | store => exact hlast.trans hk
  | unlock waker =>
    obtain ⟨v, hv⟩ := hk
    exact ⟨v, (hcell trivial).1.trans hv⟩
  | take =>
    obtain ⟨hw, v, hv⟩ := hk
    exact ⟨(hcell trivial).2 hw, v, (hcell trivial).1.trans hv⟩
  | panicked => exact hk
  | swap | wake | wakeByRef => trivial

theorem step {s t : CellUse W ι} {a : CellOp W ι} (h : CellInv s)
    (ht : (machine W ι).step s a = some t) : CellInv t := by
  cases a with
  | register waker =>
    cases hreg : s.register with
    | some pc => simp [machine, CellUse.step, hreg] at ht
    | none =>
      simp only [machine, CellUse.step, hreg, Option.some.injEq] at ht
      subst ht
      exact {
        locks := by
          refine h.locks.move (t := ⟨s.cell, _, s.wakes, _⟩) rfl ?_ ?_
          · simp [h.locks.registering, InCell, hreg, RegisterPc.inCell]
          · exact .inl ⟨rfl, rfl⟩
        knows := by
          rintro pc ⟨⟩
          rfl
        fate := by
          intro newer w older hlog
          cases newer with
          | nil =>
            obtain ⟨⟨⟩, -⟩ := List.cons.inj hlog
            exact .inl ⟨rfl, _, rfl, rfl⟩
          | cons e newer =>
            obtain ⟨rfl, hrest⟩ := List.cons.inj hlog
            apply (h.fate newer w older hrest).step [_]
            · rintro ⟨-, pc, hpc, -⟩
              rw [hreg] at hpc
              cases hpc
            · rintro v (hv | ⟨pc, hpc, -⟩ | hv) hw
              · exact .of_has (.inl hv) hw
              · rw [hreg] at hpc
                cases hpc
              · exact .of_has (.inr (.inr hv)) hw }
  | registerStep =>
    obtain ⟨pc, hpc, rfl⟩ := Option.map_eq_some_iff.mp ht
    have hk := h.knows pc hpc
    exact {
      locks := h.locks.registerStep hpc hk
      knows := fun q hq => h.register_after hpc hq
      fate := by
        intro newer w older hlog
        obtain ⟨rest, rfl, hrest⟩ := split_log (by
          cases pc <;> first | rfl | (simp only [AtomicWaker.registerStep]; split <;> rfl)) hlog
        exact (h.fate rest w older hrest).registerStep hpc hk hrest }
  | wake i =>
    cases hi : s.wakes i with
    | some pc => simp [machine, CellUse.step, hi] at ht
    | none =>
      simp only [machine, CellUse.step, hi, Option.some.injEq] at ht
      subst ht
      have hkeep : ∀ {j pc}, s.wakes j = some pc →
          Function.update s.wakes i (some .fetchOr) j = some pc := by
        intro j pc hj
        rw [Function.update_of_ne, hj]
        rintro rfl
        rw [hi] at hj
        cases hj
      exact {
        locks := by
          refine h.locks.pass (t := ⟨s.cell, s.register, _, _⟩) rfl rfl ?_ ?_ ?_
          · simp [InCell, hi, WakePc.inCell]
          · rfl
          · exact .inl rfl
        knows := h.knows
        fate := by
          intro newer w older hlog
          apply (h.fate newer w older hlog).step []
          · exact .inl
          · rintro v (hv | hv | ⟨j, pc, hj, hv⟩) hw
            · exact .of_has (.inl hv) hw
            · exact .of_has (.inr (.inl hv)) hw
            · exact .of_has (.inr (.inr ⟨j, pc, hkeep hj, hv⟩)) hw }
  | wakeStep i =>
    obtain ⟨pc, hpc, rfl⟩ := Option.map_eq_some_iff.mp ht
    exact {
      locks := h.locks.wakeStep hpc
      knows := fun q hq => h.register_during hpc hq
      fate := by
        intro newer w older hlog
        obtain ⟨rest, rfl, hrest⟩ := split_log (by cases pc <;> rfl) hlog
        exact (h.fate rest w older hrest).wakeStep hpc }

theorem reachable {s : CellUse W ι} (h : (machine W ι).Reachable s) : CellInv s :=
  h.invariant new fun _ _ _ hs ht => hs.step ht

omit [DecidableEq ι] in
theorem quiet_fate {s : CellUse W ι} (h : CellInv s) (hq : s.Quiet) {newer older : List (CellEvent W)}
    {w : W} (hlog : s.log = newer ++ .passed w :: older) :
    (∃ v, s.cell.waker = some v ∧ Stands v w) ∨ (∃ v, .woke v ∈ newer ∧ Stands v w) ∨
      Replaced w newer := by
  rcases h.fate newer w older hlog with ⟨-, pc, hpc, -⟩ | ⟨v, hv | ⟨pc, hpc, -⟩ | ⟨i, pc, hpc, -⟩, hw⟩ | h
  · rw [hq.1] at hpc
    cases hpc
  · exact .inl ⟨v, hv, hw⟩
  · rw [hq.1] at hpc
    cases hpc
  · rw [hq.2 i] at hpc
    cases hpc
  · exact .inr h

end CellInv

namespace CellUse

variable [DecidableEq ι]

/-- One party at a time has the cell, the raced wake finds a waker in it, no call leaves a bit
behind, and no registered waker is lost. -/
theorem waker_cell_is_exclusive_and_never_wedged {s : CellUse W ι} (h : (machine W ι).Reachable s) :
    (∀ p q, s.InCell p → s.InCell q → p = q) ∧
    (∀ w, s.register = some (.unlock w) → s.cell.registering = true) ∧
    (s.register = some .take → s.cell.registering = true ∧ s.cell.waking = true ∧
      ∃ v, s.cell.waker = some v) ∧
    s.register ≠ some .panicked ∧
    (s.Quiet → s.cell.registering = false ∧ s.cell.waking = false ∧
      ∀ newer w older, s.log = newer ++ .passed w :: older →
        (∃ v, s.cell.waker = some v ∧ Stands v w) ∨ (∃ v, .woke v ∈ newer ∧ Stands v w) ∨
          Replaced w newer) := by
  have hinv := CellInv.reachable h
  refine ⟨fun p q => hinv.locks.eq_of_inCell, ?_, ?_, ?_, ?_⟩
  · intro w hw
    exact hinv.locks.registering.mpr ⟨_, hw, trivial⟩
  · intro ht
    obtain ⟨hwaking, hcell⟩ := hinv.knows _ ht
    exact ⟨hinv.locks.registering.mpr ⟨_, ht, trivial⟩, hwaking, hcell⟩
  · exact fun hp => hinv.knows _ hp
  · intro hq
    have hreg : s.cell.registering = false := by
      rw [← Bool.not_eq_true, hinv.locks.registering]
      rintro ⟨pc, hpc, -⟩
      rw [hq.1] at hpc
      cases hpc
    refine ⟨hreg, ?_, fun newer w older hlog => hinv.quiet_fate hq hlog⟩
    rw [← Bool.not_eq_true]
    intro hw
    obtain ⟨i, pc, hpc, -⟩ := hinv.locks.held hw hreg
    rw [hq.2 i] at hpc
    cases hpc

/-- A wake that comes while the waker is being stored leaves it to the registering task. -/
theorem waker_cell_raced_wake :
    ∃ s : CellUse Waker.OfTask Unit, (machine Waker.OfTask Unit).run new
        [.register ⟨1⟩, .registerStep, .registerStep, .wake (), .wakeStep (), .registerStep,
          .registerStep] = some s ∧
      s.register = some .take ∧ s.cell.registering = true ∧ s.cell.waking = true ∧
        ∃ v, s.cell.waker = some v := by
  apply Machine.exists_end (c := fun s => decide (s.register = some .take)) _ (by decide)
  intro s hrun htake
  have hreg := of_decide_eq_true htake
  exact ⟨hreg, (waker_cell_is_exclusive_and_never_wedged ⟨_, hrun⟩).2.2.1 hreg⟩

end CellUse

end Cynosure.SiteD
