import Cynosure.Lib.Layer
import Cynosure.SiteD.NotifyInvariant

/-! # The calls of a `WaiterSlot` as programs

A caller runs `signal` and `arm` to their end, one atomic access after the other. The
counts below are the longest paths through the two calls, and `rank` shows that no
path is longer.
-/

universe u v

namespace Cynosure.SiteD

variable {W : Type u} {ι : Type v}

def SignalPc.rank : SignalPc W → Nat
  | .load => 6
  | .swap => 5
  | .wake .fetchOr => 4
  | .wake .take => 3
  | .wake (.fetchAnd _) => 2
  | .wake (.wake _) => 1

def ArmPc.rank : ArmPc W → Nat
  | .register (.lock _) => 8
  | .register (.compare _) => 7
  | .register (.store _) => 6
  | .register (.unlock _) => 5
  | .register .take => 4
  | .register (.swap _) => 3
  | .register (.wake _) => 2
  | .register (.wakeByRef _) => 2
  | .register .panicked => 2
  | .store => 1

theorem SignalPc.rank_pos (pc : SignalPc W) : 0 < pc.rank := by
  cases pc with
  | load => simp [SignalPc.rank]
  | swap => simp [SignalPc.rank]
  | wake pc => cases pc <;> simp [SignalPc.rank]

theorem ArmPc.rank_pos (pc : ArmPc W) : 0 < pc.rank := by
  cases pc with
  | store => simp [ArmPc.rank]
  | register pc => cases pc <;> simp [ArmPc.rank]

theorem WaiterSlot.signalStep_rank {s : WaiterSlot W} {pc next : SignalPc W}
    (h : (s.signalStep pc).2.1 = some next) : next.rank < pc.rank := by
  cases pc with
  | load =>
    simp only [signalStep, Option.ite_none_right_eq_some, Option.some.injEq] at h
    rw [← h.2]
    simp [SignalPc.rank]
  | swap =>
    simp only [signalStep, Option.ite_none_right_eq_some, Option.some.injEq] at h
    rw [← h.2]
    simp [SignalPc.rank]
  | wake pc =>
    cases pc <;> simp [signalStep, AtomicWaker.wakeStep, Option.map_eq_some_iff] at h
    · rw [← h.2]
      simp [SignalPc.rank]
    · rw [← h]
      simp [SignalPc.rank]
    · obtain ⟨v, -, rfl⟩ := h
      simp [SignalPc.rank]

variable [Waker W]

namespace SlotUse

section Signal

variable [DecidableEq ι]

def signalFrom (i : ι) : Nat → SignalPc W → Prog (SlotUse W ι) PUnit.{1}
  | 0, _ => .ret ⟨⟩
  | n + 1, pc => .act (·.signalStep i pc) fun s =>
    match (s.slot.signalStep pc).2.1 with
    | none => .ret ⟨⟩
    | some next => signalFrom i n next

/-- The rest of a call of `signal` whose publishing store was `beginSignal`. -/
def signal (i : ι) : Prog (SlotUse W ι) PUnit.{1} := signalFrom i 6 .load

end Signal

def armFrom : Nat → ArmPc W → Prog (SlotUse W ι) PUnit.{1}
  | 0, _ => .ret ⟨⟩
  | n + 1, pc => .act (·.armStep pc) fun s =>
    match (s.slot.armStep pc).2.1 with
    | none => .ret ⟨⟩
    | some next => armFrom n next

def arm (waker : W) : Prog (SlotUse W ι) PUnit.{1} :=
  .act (·.beginArm waker) fun _ => armFrom 8 (.register (.lock waker))

/-- What the steps of signallers leave of a slot to its waiter; a signal that began stays so. -/
structure WaiterSees (s t : SlotUse W ι) : Prop where
  phase : t.phase = s.phase
  current : t.current = s.current
  published : t.published = false → s.published = false

omit [Waker W] in
theorem WaiterSees.refl (s : SlotUse W ι) : WaiterSees s s := ⟨rfl, rfl, id⟩

omit [Waker W] in
theorem WaiterSees.trans {r s t : SlotUse W ι} (h : WaiterSees r s) (h' : WaiterSees s t) :
    WaiterSees r t :=
  ⟨h'.phase.trans h.phase, h'.current.trans h.current, fun hp => h.published (h'.published hp)⟩

@[simp] theorem armStep_signals (s : SlotUse W ι) (pc : ArmPc W) :
    (s.armStep pc).signals = s.signals := rfl

@[simp] theorem armStep_current (s : SlotUse W ι) (pc : ArmPc W) :
    (s.armStep pc).current = s.current := rfl

section Signallers

variable [DecidableEq ι]

omit [Waker W] in
theorem sees_beginSignal (s : SlotUse W ι) (i : ι) : WaiterSees s (s.beginSignal i) :=
  ⟨rfl, rfl, fun h => by cases h⟩

theorem sees_signalStep (s : SlotUse W ι) (i : ι) (pc : SignalPc W) :
    WaiterSees s (s.signalStep i pc) :=
  ⟨rfl, rfl, id⟩

omit [Waker W] in
@[simp] theorem beginSignal_signals_self (s : SlotUse W ι) (i : ι) :
    (s.beginSignal i).signals i = some .load := by
  simp [beginSignal]

omit [Waker W] in
theorem beginSignal_signals_of_ne (s : SlotUse W ι) {i j : ι} (h : j ≠ i) :
    (s.beginSignal i).signals j = s.signals j := by
  simp [beginSignal, h]

theorem signalStep_signals_of_ne (s : SlotUse W ι) {i j : ι} (pc : SignalPc W) (h : j ≠ i) :
    (s.signalStep i pc).signals j = s.signals j := by
  simp [signalStep, h]

end Signallers

end SlotUse

section Rules

variable {S W ι : Type} [Waker W] {get : S → SlotUse W ι} {set : S → SlotUse W ι → S}
  {P : S → Prop}

section Signal

variable [DecidableEq ι] {L : Layer S} {C : Contract S}

/-- A call of `signal` runs to its end beside whatever else the party knows. -/
theorem signalFrom_layer {i : ι} (hget : ∀ s x, get (set s x) = x)
    (hP : ∀ pc, L.Stable fun s => P s ∧ (get s).signals i = pc)
    (hstep : ∀ s pc, L.inv s → P s → (get s).signals i = some pc →
      L.Keeps P s (set s ((get s).signalStep i pc)))
    (n : Nat) (pc : SignalPc W) (hn : pc.rank ≤ n) :
    L.Triple (fun s => P s ∧ (get s).signals i = some pc)
      ((SlotUse.signalFrom i n pc).zoom get set) fun _ s => P s ∧ (get s).signals i = none := by
  induction n generalizing pc with
  | zero =>
    have := pc.rank_pos
    omega
  | succ n ih =>
    refine .act (hP _) fun s hs h hbase hguar => ?_
    obtain ⟨hinv, hextra, hP'⟩ := hstep s pc hs h.1 h.2 hbase hguar
    have hsig : (get (set s ((get s).signalStep i pc))).signals i =
        ((get s).slot.signalStep pc).2.1 := by
      rw [hget]
      simp [SlotUse.signalStep]
    refine ⟨hinv, hextra, ?_⟩
    cases hnext : ((get s).slot.signalStep pc).2.1 with
    | none =>
      simp only [hnext] at hsig ⊢
      exact fun t ht hst => hP none _ t ht hst ⟨hP', hsig⟩
    | some next =>
      simp only [hnext] at hsig ⊢
      have hrank := WaiterSlot.signalStep_rank hnext
      exact ih next (by omega) _ ⟨hbase, hinv⟩ ⟨hP', hsig⟩

theorem signal_layer {i : ι} (hget : ∀ s x, get (set s x) = x)
    (hP : ∀ pc, L.Stable fun s => P s ∧ (get s).signals i = pc)
    (hstep : ∀ s pc, L.inv s → P s → (get s).signals i = some pc →
      L.Keeps P s (set s ((get s).signalStep i pc))) :
    L.Triple (fun s => P s ∧ (get s).signals i = some .load)
      ((SlotUse.signal i).zoom get set) fun _ s => P s ∧ (get s).signals i = none :=
  signalFrom_layer hget hP hstep 6 .load le_rfl

theorem signal_triple {i : ι} (hget : ∀ s x, get (set s x) = x)
    (hP : ∀ pc, C.Stable fun s => P s ∧ (get s).signals i = pc)
    (hstep : ∀ s pc, C.inv s → P s → (get s).signals i = some pc →
      C.inv (set s ((get s).signalStep i pc)) ∧ C.guar s (set s ((get s).signalStep i pc)) ∧
        P (set s ((get s).signalStep i pc))) :
    C.Triple (fun s => P s ∧ (get s).signals i = some .load)
      ((SlotUse.signal i).zoom get set) fun _ s => P s ∧ (get s).signals i = none :=
  .of_asLayer (signal_layer hget (fun pc => Contract.asLayer_stable (hP pc))
    fun s pc hs h hsig _ _ => hstep s pc hs.2 h hsig)

end Signal

theorem SlotInv.armStep_rank {s : SlotUse W ι} {pc next : ArmPc W} (h : SlotInv s)
    (hp : s.phase = .arming pc) (hnext : (s.slot.armStep pc).2.1 = some next) :
    next.rank < pc.rank := by
  cases pc with
  | store => simp [WaiterSlot.armStep] at hnext
  | register pc =>
    have hfit := h.arming pc hp
    simp only [WaiterSlot.armStep, Option.some.injEq] at hnext
    subst hnext
    cases pc with
    | lock waker =>
      simp only [AtomicWaker.registerStep]
      split <;> simp [ArmPc.rank]
    | compare waker =>
      simp only [AtomicWaker.registerStep]
      split <;> simp [ArmPc.rank]
    | unlock waker =>
      simp only [AtomicWaker.registerStep]
      split <;> simp [ArmPc.rank]
    | take =>
      obtain ⟨-, v, hv, -⟩ := hfit
      simp [AtomicWaker.registerStep, hv, ArmPc.rank]
    | panicked => exact hfit.elim
    | store => simp [AtomicWaker.registerStep, ArmPc.rank]
    | swap => simp [AtomicWaker.registerStep, ArmPc.rank]
    | wake => simp [AtomicWaker.registerStep, ArmPc.rank]
    | wakeByRef => simp [AtomicWaker.registerStep, ArmPc.rank]

section Arm

variable {L : Layer S} {C : Contract S}

theorem armFrom_layer (hget : ∀ s x, get (set s x) = x) (hslot : ∀ s, L.inv s → SlotInv (get s))
    (hP : ∀ phase, L.Stable fun s => P s ∧ (get s).phase = phase)
    (hstep : ∀ s pc, L.inv s → P s → (get s).phase = .arming pc →
      L.Keeps P s (set s ((get s).armStep pc)))
    (n : Nat) (pc : ArmPc W) (hn : pc.rank ≤ n) :
    L.Triple (fun s => P s ∧ (get s).phase = .arming pc)
      ((SlotUse.armFrom n pc).zoom get set) fun _ s => P s ∧ (get s).phase = .armed := by
  induction n generalizing pc with
  | zero =>
    have := pc.rank_pos
    omega
  | succ n ih =>
    refine .act (hP _) fun s hs h hbase hguar => ?_
    obtain ⟨hinv, hextra, hP'⟩ := hstep s pc hs h.1 h.2 hbase hguar
    refine ⟨hinv, hextra, ?_⟩
    have hphase : ∀ r, ((get s).slot.armStep pc).2.1 = r →
        (get (set s ((get s).armStep pc))).phase =
          match r with
          | some pc => .arming pc
          | none => .armed := by
      rintro r rfl
      rw [hget]
      rfl
    cases hnext : ((get s).slot.armStep pc).2.1 with
    | none =>
      simp only [hnext]
      exact fun t ht hst => hP .armed _ t ht hst ⟨hP', hphase _ hnext⟩
    | some next =>
      simp only [hnext]
      have hrank := (hslot s hs).armStep_rank h.2 hnext
      exact ih next (by omega) _ ⟨hbase, hinv⟩ ⟨hP', hphase _ hnext⟩

/-- `arm` starts outside the slot and leaves it armed. -/
theorem arm_layer (hget : ∀ s x, get (set s x) = x) (hslot : ∀ s, L.inv s → SlotInv (get s))
    (hP : ∀ phase, L.Stable fun s => P s ∧ (get s).phase = phase)
    (hstep : ∀ s pc, L.inv s → P s → (get s).phase = .arming pc →
      L.Keeps P s (set s ((get s).armStep pc)))
    {waker : W} (hbegin : ∀ s, L.inv s → P s → (get s).phase = .out →
      L.Keeps P s (set s ((get s).beginArm waker))) :
    L.Triple (fun s => P s ∧ (get s).phase = .out) ((SlotUse.arm waker).zoom get set)
      fun _ s => P s ∧ (get s).phase = .armed := by
  refine .act (hP _) fun s hs h hbase hguar => ?_
  obtain ⟨hinv, hextra, hP'⟩ := hbegin s hs h.1 h.2 hbase hguar
  refine ⟨hinv, hextra, armFrom_layer hget hslot hP hstep 8 _ le_rfl _ ⟨hbase, hinv⟩ ⟨hP', ?_⟩⟩
  rw [hget]
  rfl

theorem arm_triple (hget : ∀ s x, get (set s x) = x) (hslot : ∀ s, C.inv s → SlotInv (get s))
    (hP : ∀ phase, C.Stable fun s => P s ∧ (get s).phase = phase)
    (hstep : ∀ s pc, C.inv s → P s → (get s).phase = .arming pc →
      C.inv (set s ((get s).armStep pc)) ∧ C.guar s (set s ((get s).armStep pc)) ∧
        P (set s ((get s).armStep pc)))
    {waker : W} (hbegin : ∀ s, C.inv s → P s → (get s).phase = .out →
      C.inv (set s ((get s).beginArm waker)) ∧ C.guar s (set s ((get s).beginArm waker)) ∧
        P (set s ((get s).beginArm waker))) :
    C.Triple (fun s => P s ∧ (get s).phase = .out) ((SlotUse.arm waker).zoom get set)
      fun _ s => P s ∧ (get s).phase = .armed :=
  .of_asLayer (arm_layer hget (fun s hs => hslot s hs.2)
    (fun phase => Contract.asLayer_stable (hP phase))
    (fun s pc hs h hphase _ _ => hstep s pc hs.2 h hphase)
    fun s hs h hphase _ _ => hbegin s hs.2 h hphase)

end Arm

end Rules

end Cynosure.SiteD
