import Cynosure.SiteC.SemaphoreFront
import Cynosure.SiteC.WaitTokens

/-! # The order of `acquire` on `LocalSemaphore`

The semaphore keeps no arrival times: who came first is where its entry stands in the
queue. A history of first polls is kept beside the code here, and the queue is shown to
agree with it as long as no poll takes an entry out of the middle and appends it again.
-/

universe v

namespace Cynosure.SiteC

variable {W : Type v}

/-- The semaphore with the number of each live future's first poll, and whether it has
completed since. -/
structure FairState (W : Type v) where
  base : SemState W
  clock : Nat
  arrival : Nat → Option Nat
  completed : Nat → Bool

section LosesPlace

variable [Waker W]

/-- The call is a poll that cannot acquire and registers its future anew: under a token that
another live future holds, or by moving its entry from before another one to the back. -/
def SemState.LosesPlace (s : SemState W) : SemOp W → Prop
  | .poll f waker => ∃ u, s.futs f = some u ∧
      s.sem.canAcquireFair u.kind (u.registered.map Entry.id) = false ∧
      s.sem.waiters.stale u.registered waker = true ∧
      (u.registered = none ∧ s.futs.Holds s.sem.nextId ∨
        ∃ e x, u.registered = some e ∧ s.sem.waiters.getLast? = some x ∧ x.id ≠ e.id)
  | _ => False

end LosesPlace

namespace FairState

def init (permits : Nat) : FairState W := ⟨.init permits, 0, fun _ => none, fun _ => false⟩

/-- The history after a call that left the semaphore in `t`. -/
def record (s : FairState W) (t : SemState W) (o : SemOutcome) : SemOp W → FairState W
  | .poll f _ =>
    { base := t
      clock := s.clock + 1
      arrival := Function.update s.arrival f (some ((s.arrival f).getD s.clock))
      completed := Function.update s.completed f (s.completed f || o == .acquired) }
  | .create f _ | .dropFuture f =>
    { s with base := t
             arrival := Function.update s.arrival f none
             completed := Function.update s.completed f false }
  | _ => { s with base := t }

variable [Waker W]

def exec (width : Nat) (s : FairState W) (op : SemOp W) : Option (FairState W) :=
  (s.base.exec width op).map fun r => s.record r.1 r.2 op

/-- The call is a poll that is `Ready` although a future that was first polled before this one
is still waiting for its first permit. -/
def Overtakes (width : Nat) (s : FairState W) (op : SemOp W) : Prop :=
  (s.base.exec width op).map Prod.snd = some .acquired ∧ ∃ f waker, op = .poll f waker ∧
    ∃ g a, s.arrival g = some a ∧ s.completed g = false ∧ ∀ b, s.arrival f = some b → a < b

end FairState

def fairMachine (W : Type v) [Waker W] (width permits : Nat) :
    Machine (FairState W) (SemOp W) where
  init := .init permits
  step := FairState.exec width

/-- The history changes nothing: its runs are those of the semaphore. -/
theorem fairMachine_run_base [Waker W] (width permits : Nat) (s : FairState W)
    (ops : List (SemOp W)) :
    ((fairMachine W width permits).run s ops).map FairState.base =
      (semMachine W width permits).run s.base ops := by
  induction ops generalizing s with
  | nil => rfl
  | cons op ops ih =>
    cases h : s.base.exec width op with
    | none => simp [Machine.run, fairMachine, semMachine, FairState.exec, h]
    | some r =>
      have hbase : (s.record r.1 r.2 op).base = r.1 := by cases op <;> rfl
      have hstep : (fairMachine W width permits).step s op = some (s.record r.1 r.2 op) := by
        simp [fairMachine, FairState.exec, h]
      have hstep' : (semMachine W width permits).step s.base op = some r.1 := by
        simp [semMachine, h]
      rw [Machine.run, Machine.run, hstep, hstep', Option.bind_some, Option.bind_some, ih, hbase]

/-- A poll that cannot acquire at once registers, and then acquires or stays pending. -/
theorem LocalSemaphore.poll_second [Waker W] (s : LocalSemaphore W) {n : Nat}
    {slot : Option (Entry Nat W)} (waker : W) (h : s.canAcquireFair n (slot.map Entry.id) = false) :
    s.poll n slot waker = ((s.register slot n waker).1.acquired n (s.register slot n waker).2, none,
      true, ((s.register slot n waker).1.acquired n (s.register slot n waker).2).wakeNext) ∨
    s.poll n slot waker = ((s.register slot n waker).1, (s.register slot n waker).2, false, []) := by
  by_cases h2 : (s.register slot n waker).1.canAcquireFair n
      ((s.register slot n waker).2.map Entry.id) = true
  · exact .inl (by simp [poll, h, h2])
  · exact .inr (by simp [poll, h, h2])

/-- The queue agrees with the history. -/
structure FairSound [Waker W] (s : FairState W) : Prop where
  sound : SemSound s.base
  distinct : s.base.futs.Distinct
  nodup : s.base.sem.waiters.ids.Nodup
  queued : ∀ f e, s.base.futs.slot f = some e → e ∈ s.base.sem.waiters
  arrived : ∀ f e, s.base.futs.slot f = some e → (s.arrival f).isSome = true
  early : ∀ f a, s.arrival f = some a → a < s.clock
  waiting : ∀ f a, s.arrival f = some a → s.completed f = false →
    ∃ e, s.base.futs.slot f = some e
  order : s.base.sem.waiters.Pairwise fun x y => ∀ f g a b, s.base.futs.slot f = some x →
    s.base.futs.slot g = some y → s.completed g = false → s.arrival f = some a →
    s.arrival g = some b → a < b

namespace FairSound

variable [Waker W]

theorem init (permits : Nat) : FairSound (FairState.init permits : FairState W) where
  sound := .init permits
  distinct := ⟨fun hf => by cases hf⟩
  nodup := List.nodup_nil
  queued := fun _ _ h => by cases h
  arrived := fun _ _ h => by cases h
  early := fun _ _ h => by cases h
  waiting := fun _ _ h => by cases h
  order := List.Pairwise.nil

/-- A call that touches neither the slots nor the queue. -/
theorem of_slots {s : FairState W} (h : FairSound s) {t : SemState W} (hs : SemSound t)
    (hd : t.futs.Distinct) (hslot : ∀ f, t.futs.slot f = s.base.futs.slot f)
    (hq : t.sem.waiters = s.base.sem.waiters) : FairSound { s with base := t } where
  sound := hs
  distinct := hd
  nodup := hq ▸ h.nodup
  queued := fun f e he => hq ▸ h.queued f e (hslot f ▸ he)
  arrived := fun f e he => h.arrived f e (hslot f ▸ he)
  early := h.early
  waiting := fun f a ha hc => by
    rw [hslot]
    exact h.waiting f a ha hc
  order := by
    simp only [hslot, hq]
    exact h.order

/-- The history of one future is set back or completed, and its entry leaves the queue. -/
theorem leave {s : FairState W} (h : FairSound s) {t : FairState W} {f : Nat}
    (hs : SemSound t.base) (hd : t.base.futs.Distinct)
    (hsub : t.base.sem.waiters.Sublist s.base.sem.waiters)
    (hf : t.base.futs.slot f = none) (hslot : ∀ g, g ≠ f → t.base.futs.slot g = s.base.futs.slot g)
    (hkeep : ∀ g e, g ≠ f → s.base.futs.slot g = some e → e ∈ t.base.sem.waiters)
    (hclock : s.clock ≤ t.clock) (harr : ∀ g, g ≠ f → t.arrival g = s.arrival g)
    (hcomp : ∀ g, g ≠ f → t.completed g = s.completed g)
    (hfut : ∀ a, t.arrival f = some a → a < t.clock ∧ t.completed f = true) : FairSound t := by
  have hne : ∀ {g e}, t.base.futs.slot g = some e → g ≠ f := by
    rintro g e he rfl
    simp [hf] at he
  refine ⟨hs, hd, hsub.map _ |>.nodup h.nodup, ?_, ?_, ?_, ?_, ?_⟩
  · intro g e he
    exact hkeep g e (hne he) (hslot g (hne he) ▸ he)
  · intro g e he
    rw [harr g (hne he)]
    exact h.arrived g e (hslot g (hne he) ▸ he)
  · intro g a ha
    by_cases hgf : g = f
    · exact (hfut a (hgf ▸ ha)).1
    · exact (h.early g a (harr g hgf ▸ ha)).trans_le hclock
  · intro g a ha hc
    by_cases hgf : g = f
    · subst hgf
      rw [(hfut a ha).2] at hc
      cases hc
    · rw [hslot g hgf]
      exact h.waiting g a (harr g hgf ▸ ha) (hcomp g hgf ▸ hc)
  · refine (h.order.sublist hsub).imp ?_
    intro x y hxy g k a b hx hy hc ha hb
    have hg := hne hx
    have hk := hne hy
    exact hxy g k a b (hslot g hg ▸ hx) (hslot k hk ▸ hy) (hcomp k hk ▸ hc) (harr g hg ▸ ha)
      (harr k hk ▸ hb)

/-- The polled future's token is no other's. -/
theorem register_ne {s : FairState W} (h : FairSound s) {f : Nat} {u : Fut Nat Nat W} {waker : W}
    (hf : s.base.futs f = some u) (hfresh : u.registered = none → ¬ s.base.futs.Holds s.base.sem.nextId)
    {e : Entry Nat W} (he : (s.base.sem.register u.registered u.kind waker).2 = some e) {g : Nat}
    {x : Entry Nat W} (hgf : g ≠ f) (hx : s.base.futs.slot g = some x) : x.id ≠ e.id := by
  obtain ⟨v, hg, hv⟩ := Futs.slot_eq_some.mp hx
  exact h.distinct.register_ne hf hfresh he hgf hg hv

/-- A poll that acquires: its entry, old or just made, leaves the queue. -/
theorem acquired {s t : FairState W} (h : FairSound s) {f : Nat} {u : Fut Nat Nat W}
    (hf : s.base.futs f = some u) (hs : SemSound t.base) (waker : W) (ws : List W)
    (hsem : t.base.sem = s.base.sem.acquired u.kind u.registered ∨
      t.base.sem = (s.base.sem.register u.registered u.kind waker).1.acquired u.kind
        (s.base.sem.register u.registered u.kind waker).2 ∧
      (u.registered = none → ¬ s.base.futs.Holds s.base.sem.nextId))
    (hfuts : t.base.futs = (s.base.futs.set f (some (u.afterPoll none true waker))).wake ws)
    (hclock : t.clock = s.clock + 1)
    (harr : t.arrival = Function.update s.arrival f (some ((s.arrival f).getD s.clock)))
    (hcomp : t.completed = Function.update s.completed f true) : FairSound t := by
  obtain ⟨e, he, -, -, hreg⟩ :=
    s.base.sem.waiters.register_spec s.base.sem.nextId u.registered u.kind waker
  -- In both cases what leaves the queue are the entries under the future's own token.
  have hq : t.base.sem.waiters = s.base.sem.waiters.deregister u.registered ∨
      t.base.sem.waiters = s.base.sem.waiters.without e.id ∧
        (u.registered = none → ¬ s.base.futs.Holds s.base.sem.nextId) := by
    rcases hsem with hsem | ⟨hsem, hfresh⟩
    · exact .inl (by rw [hsem]; rfl)
    · refine .inr ⟨?_, hfresh⟩
      have hw : t.base.sem.waiters = Waiters.without
          (s.base.sem.waiters.register s.base.sem.nextId u.registered u.kind waker).1 e.id := by
        rw [hsem]
        simp only [LocalSemaphore.acquired, LocalSemaphore.register, he, Waiters.deregister]
      rw [hw]
      rcases hreg with ⟨hreg, -⟩ | ⟨hreg, -⟩
      · rw [hreg]
      · rw [hreg]
        simp [Waiters.without]
  refine h.leave (f := f) hs ?_ ?_ ?_ ?_ ?_ (by omega) ?_ ?_ ?_
  · rw [hfuts]
    exact Futs.Distinct.wake (h.distinct.emptied rfl) ws
  · rcases hq with hq | ⟨hq, -⟩
    · rw [hq]
      exact Waiters.deregister_sublist _ _
    · rw [hq]
      exact List.filter_sublist
  · rw [hfuts, Futs.slot_wake, Futs.slot_set_same]
    rfl
  · intro g hgf
    rw [hfuts, Futs.slot_wake, Futs.slot_set_ne _ hgf]
  · intro g x hgf hx
    have hmem := h.queued g x hx
    rcases hq with hq | ⟨hq, hfresh⟩
    · rw [hq, Waiters.mem_deregister]
      refine ⟨hmem, fun y hy hid => hgf ?_⟩
      exact h.distinct.slot_eq hx ((Futs.slot_of hf).trans hy) hid
    · rw [hq, Waiters.mem_without]
      exact ⟨hmem, h.register_ne hf hfresh he hgf hx⟩
  · intro g hgf
    rw [harr, Function.update_of_ne hgf]
  · intro g hgf
    rw [hcomp, Function.update_of_ne hgf]
  · intro a ha
    rw [harr, Function.update_self, Option.some.injEq] at ha
    rw [hcomp, Function.update_self, hclock]
    refine ⟨?_, rfl⟩
    cases hb : s.arrival f with
    | none =>
      rw [hb, Option.getD_none] at ha
      omega
    | some b =>
      rw [hb, Option.getD_some] at ha
      have := h.early f b hb
      omega

/-- What `register` does to the order: nothing, or a new entry behind all others. -/
theorem register_order {s : FairState W} (h : FairSound s) {f : Nat} {u : Fut Nat Nat W} {waker : W}
    (hf : s.base.futs f = some u)
    (h1 : s.base.sem.canAcquireFair u.kind (u.registered.map Entry.id) = false)
    (hok : ¬ s.base.LosesPlace (.poll f waker)) {e : Entry Nat W}
    (he : (s.base.sem.register u.registered u.kind waker).2 = some e) :
    s.base.sem.register u.registered u.kind waker = (s.base.sem, u.registered) ∨
    ((s.base.sem.register u.registered u.kind waker).1.waiters =
        s.base.sem.waiters.without e.id ++ [e] ∧
      ∀ x ∈ s.base.sem.waiters.without e.id, ∀ g a b, s.base.futs.slot g = some x →
        s.completed f = false → s.arrival g = some a → (s.arrival f).getD s.clock = b → a < b) := by
  by_cases hstale : s.base.sem.waiters.stale u.registered waker = true
  · right
    simp only [LocalSemaphore.register, Waiters.register, hstale, if_true, Option.some.injEq] at he ⊢
    subst he
    refine ⟨rfl, ?_⟩
    rintro x hx g a b hg hc ha rfl
    obtain ⟨hx, hne⟩ := Waiters.mem_without.mp hx
    cases hr : u.registered with
    | none =>
      -- A future that is not registered and never completed is polled for the first time.
      have hfirst : s.arrival f = none := by
        by_contra hsome
        obtain ⟨b, hb⟩ := Option.ne_none_iff_exists'.mp hsome
        obtain ⟨e, he⟩ := h.waiting f b hb hc
        rw [Futs.slot_of hf, hr] at he
        cases he
      rw [hfirst]
      exact h.early g a ha
    | some old =>
      -- The entry stood last, so everything else in the queue stands before it.
      have hslot : s.base.futs.slot f = some old := (Futs.slot_of hf).trans hr
      obtain ⟨b, hb⟩ := Option.isSome_iff_exists.mp (h.arrived f old hslot)
      rw [hb, Option.getD_some]
      rw [hr] at hne
      have hmem := h.queued f old hslot
      obtain ⟨init, last, hq⟩ : ∃ init last, s.base.sem.waiters = init ++ [last] :=
        ⟨_, _, (List.dropLast_append_getLast (List.ne_nil_of_mem hmem)).symm⟩
      have hlast : last.id = old.id := by
        by_contra hid
        exact hok ⟨u, hf, h1, hstale, .inr ⟨old, last, hr, by simp [hq], hid⟩⟩
      have horder := h.order
      have hnodup := h.nodup
      rw [hq, List.pairwise_append] at horder
      rw [hq, Waiters.ids, List.map_append, List.nodup_append] at hnodup
      rw [hq, List.mem_append, List.mem_singleton] at hx hmem
      have hold : old = last := by
        rcases hmem with hmem | hmem
        · exact absurd hlast.symm (hnodup.2.2 _ (List.mem_map_of_mem hmem) _ (by simp))
        · exact hmem
      rcases hx with hx | hx
      · exact horder.2.2 x hx last (List.mem_singleton_self _) g f a b hg (hold ▸ hslot) hc ha hb
      · rw [hx, hlast] at hne
        exact absurd rfl hne
  · have hreg : s.base.sem.register u.registered u.kind waker = (s.base.sem, u.registered) := by
      simp [LocalSemaphore.register, Waiters.register, hstale]
    exact .inl hreg

/-- A poll that stays pending. -/
theorem pending {s t : FairState W} (h : FairSound s) {f : Nat} {u : Fut Nat Nat W} {waker : W}
    (hf : s.base.futs f = some u) (hs : SemSound t.base)
    (h1 : s.base.sem.canAcquireFair u.kind (u.registered.map Entry.id) = false)
    (hok : ¬ s.base.LosesPlace (.poll f waker))
    (hfresh : u.registered = none → ¬ s.base.futs.Holds s.base.sem.nextId)
    (hsem : t.base.sem = (s.base.sem.register u.registered u.kind waker).1)
    (hfuts : t.base.futs = s.base.futs.set f
      (some (u.afterPoll (s.base.sem.register u.registered u.kind waker).2 false waker)))
    (hclock : t.clock = s.clock + 1)
    (harr : t.arrival = Function.update s.arrival f (some ((s.arrival f).getD s.clock)))
    (hcomp : t.completed = s.completed) : FairSound t := by
  obtain ⟨e, he, -, -, -⟩ :=
    s.base.sem.waiters.register_spec s.base.sem.nextId u.registered u.kind waker
  have hreg := h.register_order hf h1 hok he
  have hself : t.base.futs.slot f = some e := by
    rw [hfuts, Futs.slot_set_same]
    exact he
  have hother : ∀ g, g ≠ f → t.base.futs.slot g = s.base.futs.slot g := fun g hgf => by
    rw [hfuts, Futs.slot_set_ne _ hgf]
  have hdistinct : t.base.futs.Distinct := by
    rw [hfuts]
    exact h.distinct.register hf hfresh rfl
  have hbefore : ∀ g, g ≠ f → t.arrival g = s.arrival g := fun g hgf => by
    rw [harr, Function.update_of_ne hgf]
  have hnow : t.arrival f = some ((s.arrival f).getD s.clock) := by
    rw [harr, Function.update_self]
  have hmem : ∀ g x, t.base.futs.slot g = some x → x ∈ t.base.sem.waiters := by
    intro g x hx
    rw [hsem]
    by_cases hgf : g = f
    · subst hgf
      rw [hself, Option.some.injEq] at hx
      rw [← hx]
      exact h.distinct.mem_register_self h.sound.owns hf he
    · rw [hother g hgf] at hx
      obtain ⟨v, hg, hv⟩ := Futs.slot_eq_some.mp hx
      exact h.distinct.mem_register hf hfresh hgf hg hv (h.queued g x hx)
  refine ⟨hs, hdistinct, ?_, hmem, ?_, ?_, ?_, ?_⟩
  · rw [hsem]
    exact Waiters.nodup_register h.nodup _ _ _ _
  · intro g x hx
    by_cases hgf : g = f
    · simp [hgf, hnow]
    · rw [hbefore g hgf]
      exact h.arrived g x (hother g hgf ▸ hx)
  · intro g a ha
    rw [hclock]
    by_cases hgf : g = f
    · subst hgf
      rw [hnow, Option.some.injEq] at ha
      cases hb : s.arrival g with
      | none =>
        rw [hb, Option.getD_none] at ha
        omega
      | some b =>
        rw [hb, Option.getD_some] at ha
        have := h.early g b hb
        omega
    · have := h.early g a (hbefore g hgf ▸ ha)
      omega
  · intro g a ha hc
    by_cases hgf : g = f
    · exact ⟨e, hgf ▸ hself⟩
    · rw [hother g hgf]
      exact h.waiting g a (hbefore g hgf ▸ ha) (hcomp ▸ hc)
  · -- An entry of the old queue is another future's, or the slot and its arrival are the old ones.
    have hold : ∀ {g x}, t.base.futs.slot g = some x → x ∈ s.base.sem.waiters → x.id ≠ e.id ∨
        u.registered = some e → s.base.futs.slot g = some x ∧ s.arrival g = t.arrival g := by
      intro g x hx hxq hne
      by_cases hgf : g = f
      · subst hgf
        rw [hself, Option.some.injEq] at hx
        subst hx
        have hr := hne.resolve_left fun hid => hid rfl
        have hslot := (Futs.slot_of hf).trans hr
        obtain ⟨a, ha⟩ := Option.isSome_iff_exists.mp (h.arrived g e hslot)
        exact ⟨hslot, by rw [hnow, ha, Option.getD_some]⟩
      · exact ⟨hother g hgf ▸ hx, (hbefore g hgf).symm⟩
    have hpairs : ∀ q : Waiters Nat W, q.Sublist s.base.sem.waiters →
        (∀ x ∈ q, x.id ≠ e.id ∨ u.registered = some e) →
        q.Pairwise fun x y => ∀ g k a b, t.base.futs.slot g = some x → t.base.futs.slot k = some y →
          t.completed k = false → t.arrival g = some a → t.arrival k = some b → a < b := by
      intro q hsub hne
      refine (h.order.sublist hsub).imp_of_mem ?_
      intro x y hx hy hxy g k a b hgx hky hc ha hb
      obtain ⟨hg, hga⟩ := hold hgx (hsub.subset hx) (hne x hx)
      obtain ⟨hk, hkb⟩ := hold hky (hsub.subset hy) (hne y hy)
      exact hxy g k a b hg hk (hcomp ▸ hc) (hga.trans ha) (hkb.trans hb)
    rw [hsem]
    rcases hreg with hreg | ⟨hreg, hlast⟩
    · have hr : (s.base.sem.register u.registered u.kind waker).2 = some e := he
      rw [hreg] at hr ⊢
      exact hpairs _ (List.Sublist.refl _) fun _ _ => .inr hr
    · rw [hreg, List.pairwise_append]
      have hne : ∀ x ∈ s.base.sem.waiters.without e.id, x.id ≠ e.id :=
        fun x hx => (Waiters.mem_without.mp hx).2
      refine ⟨hpairs _ List.filter_sublist fun x hx => .inl (hne x hx),
        List.pairwise_singleton _ _, ?_⟩
      intro x hx y hy g k a b hgx hky hc ha hb
      rw [List.mem_singleton] at hy
      subst hy
      obtain rfl := hdistinct.slot_eq hky hself rfl
      have hgk : g ≠ k := by
        rintro rfl
        rw [hself, Option.some.injEq] at hgx
        exact hne x hx (by rw [hgx])
      rw [hnow, Option.some.injEq] at hb
      exact hlast x hx g a b (hother g hgk ▸ hgx) (hcomp ▸ hc) (hbefore g hgk ▸ ha) hb

theorem dropFuture {s : FairState W} (h : FairSound s) {f : Nat} {u : Fut Nat Nat W}
    (hf : s.base.futs f = some u) (hs : SemSound (s.base.dropFuture f u)) :
    FairSound (s.record (s.base.dropFuture f u) .done (.dropFuture f)) := by
  have hsem : (s.base.dropFuture f u).sem.waiters =
      s.base.sem.waiters.deregister u.registered := by
    unfold SemState.dropFuture
    cases u.registered <;> rfl
  have hslot : ∀ g, (s.base.dropFuture f u).futs.slot g = (s.base.futs.set f none).slot g := by
    intro g
    unfold SemState.dropFuture
    split
    · exact Futs.slot_wake _ _ _
    · rfl
  refine h.leave (f := f) hs ?_ ?_ ?_ ?_ ?_ le_rfl ?_ ?_ ?_
  · unfold FairState.record SemState.dropFuture
    dsimp only
    split
    · exact Futs.Distinct.wake (h.distinct.erase f) _
    · exact h.distinct.erase f
  · change (s.base.dropFuture f u).sem.waiters.Sublist _
    rw [hsem]
    exact Waiters.deregister_sublist _ _
  · exact (hslot f).trans (Futs.slot_set_same _ _ _)
  · exact fun g hgf => (hslot g).trans (Futs.slot_set_ne _ hgf _)
  · intro g x hgf hx
    change x ∈ (s.base.dropFuture f u).sem.waiters
    rw [hsem, Waiters.mem_deregister]
    refine ⟨h.queued g x hx, fun y hy hid => hgf ?_⟩
    exact h.distinct.slot_eq hx ((Futs.slot_of hf).trans hy) hid
  · exact fun g hgf => Function.update_of_ne hgf _ _
  · exact fun g hgf => Function.update_of_ne hgf _ _
  · intro a ha
    change Function.update s.arrival f none f = some a at ha
    rw [Function.update_self] at ha
    cases ha

theorem create {s : FairState W} (h : FairSound s) {f n : Nat} (hf : s.base.futs f = none)
    {t : SemState W} (hs : SemSound t) (hsem : t.sem = s.base.sem)
    (hfuts : t.futs = s.base.futs.set f (some (.fresh n))) :
    FairSound (s.record t .done (.create f n)) := by
  have hslot : ∀ g, t.futs.slot g = s.base.futs.slot g := by
    intro g
    rw [hfuts]
    by_cases hgf : g = f
    · subst hgf
      simp [Futs.slot, hf, Fut.fresh]
    · exact Futs.slot_set_ne _ hgf _
  refine h.leave (f := f) hs ?_ ?_ ?_ ?_ ?_ le_rfl ?_ ?_ ?_
  · change t.futs.Distinct
    rw [hfuts]
    exact h.distinct.emptied rfl
  · change t.sem.waiters.Sublist _
    rw [hsem]
  · exact (hslot f).trans (by simp [Futs.slot, hf])
  · exact fun g _ => hslot g
  · intro g x _ hx
    change x ∈ t.sem.waiters
    rw [hsem]
    exact h.queued g x hx
  · exact fun g hgf => Function.update_of_ne hgf _ _
  · exact fun g hgf => Function.update_of_ne hgf _ _
  · intro a ha
    change Function.update s.arrival f none f = some a at ha
    rw [Function.update_self] at ha
    cases ha

/-- A first registration draws a token that nobody holds, unless the place is lost. -/
theorem fresh_token {s : SemState W} {f : Nat} {u : Fut Nat Nat W} {waker : W}
    (hf : s.futs f = some u) (hok : ¬ s.LosesPlace (.poll f waker))
    (h1 : s.sem.canAcquireFair u.kind (u.registered.map Entry.id) = false)
    (hr : u.registered = none) : ¬ s.futs.Holds s.sem.nextId := by
  intro hheld
  refine hok ⟨u, hf, h1, ?_, .inl ⟨hr, hheld⟩⟩
  rw [hr]
  rfl

theorem poll {s : FairState W} (h : FairSound s) {f : Nat} {u : Fut Nat Nat W} {waker : W}
    (hf : s.base.futs f = some u) (hok : ¬ s.base.LosesPlace (.poll f waker))
    (hs : SemSound (s.base.pollFuture f u waker).1) :
    FairSound (s.record (s.base.pollFuture f u waker).1 (s.base.pollFuture f u waker).2
      (.poll f waker)) := by
  by_cases h1 : s.base.sem.canAcquireFair u.kind (u.registered.map Entry.id) = true
  · have hpoll : s.base.sem.poll u.kind u.registered waker =
        (s.base.sem.acquired u.kind u.registered, none, true,
          (s.base.sem.acquired u.kind u.registered).wakeNext) := by
      simp [LocalSemaphore.poll, h1]
    exact h.acquired hf hs waker (s.base.sem.poll u.kind u.registered waker).2.2.2
      (.inl (by simp [FairState.record, SemState.pollFuture, hpoll]))
      (by simp [FairState.record, SemState.pollFuture, hpoll]) rfl rfl
      (by simp [FairState.record, SemState.pollFuture, hpoll])
  · have h1 : s.base.sem.canAcquireFair u.kind (u.registered.map Entry.id) = false := by
      simpa using h1
    have hfresh := fresh_token hf hok h1
    rcases s.base.sem.poll_second waker h1 with hpoll | hpoll
    · exact h.acquired hf hs waker (s.base.sem.poll u.kind u.registered waker).2.2.2
        (.inr ⟨by simp [FairState.record, SemState.pollFuture, hpoll], hfresh⟩)
        (by simp [FairState.record, SemState.pollFuture, hpoll]) rfl rfl
        (by simp [FairState.record, SemState.pollFuture, hpoll])
    · exact h.pending hf hs h1 hok hfresh (by simp [FairState.record, SemState.pollFuture, hpoll])
        (by simp [FairState.record, SemState.pollFuture, hpoll]) rfl rfl
        (by simp [FairState.record, SemState.pollFuture, hpoll])

theorem step {width : Nat} {s t : FairState W} {op : SemOp W} (h : FairSound s)
    (hok : ¬ s.base.LosesPlace op) (hs : s.exec width op = some t) : FairSound t := by
  obtain ⟨⟨b, o⟩, hb, rfl⟩ := Option.map_eq_some_iff.mp hs
  have hstep := SemState.exec_step hb
  have hsound := h.sound.next hstep
  have hquiet : ∀ ws, b.futs = s.base.futs.wake ws → b.sem.waiters = s.base.sem.waiters →
      FairSound { s with base := b } := by
    intro ws hfuts hq
    refine h.of_slots hsound ?_ (fun f => ?_) hq
    · rw [hfuts]
      exact h.distinct.wake ws
    · rw [hfuts, Futs.slot_wake]
  cases op with
  | tryAcquireMany n =>
    cases hstep with
    | keep hsem hfuts => exact hquiet [] (by rw [hfuts, Futs.wake_nil]) (by rw [hsem])
    | tryAcquire hsem hfuts => exact hquiet [] (by rw [hfuts, Futs.wake_nil]) (by rw [hsem])
    | bump hsem hfuts => exact hquiet _ hfuts (by rw [hsem])
  | addPermits n =>
    cases hstep with
    | keep hsem hfuts => exact hquiet [] (by rw [hfuts, Futs.wake_nil]) (by rw [hsem])
    | bump hsem hfuts => exact hquiet _ hfuts (by rw [hsem])
  | dropPermit i =>
    cases hstep with
    | keep hsem hfuts => exact hquiet [] (by rw [hfuts, Futs.wake_nil]) (by rw [hsem])
    | bump hsem hfuts => exact hquiet _ hfuts (by rw [hsem])
  | forget i =>
    cases hstep with
    | keep hsem hfuts => exact hquiet [] (by rw [hfuts, Futs.wake_nil]) (by rw [hsem])
    | bump hsem hfuts => exact hquiet _ hfuts (by rw [hsem])
  | create f n =>
    cases hf : s.base.futs f with
    | some u => simp [SemState.exec, hf] at hb
    | none =>
      simp only [SemState.exec, hf, Option.some.injEq, Prod.mk.injEq] at hb
      exact h.create hf hsound (by rw [← hb.1]) (by rw [← hb.1])
  | poll f waker =>
    obtain ⟨u, hf, hu⟩ := Option.map_eq_some_iff.mp hb
    cases hu
    exact h.poll hf hok hsound
  | dropFuture f =>
    obtain ⟨u, hf, hu⟩ := Option.map_eq_some_iff.mp hb
    cases hu
    exact h.dropFuture hf hsound

/-- What a future that acquires at once finds: an empty queue, or its own entry in front. -/
theorem front_of_canAcquireFair {s : FairState W} (h : FairSound s) {f n : Nat} {u : Fut Nat Nat W}
    (hf : s.base.futs f = some u)
    (h1 : s.base.sem.canAcquireFair n (u.registered.map Entry.id) = true) :
    s.base.sem.waiters = [] ∨ ∃ e rest, s.base.futs.slot f = some e ∧
      s.base.sem.waiters = e :: rest := by
  cases hq : s.base.sem.waiters with
  | nil => exact .inl rfl
  | cons front rest =>
    right
    simp only [LocalSemaphore.canAcquireFair, hq, List.head?_cons] at h1
    split at h1
    · cases h1
    · obtain ⟨e, he, hid⟩ := Option.map_eq_some_iff.mp (beq_iff_eq.mp h1).symm
      have hslot : s.base.futs.slot f = some e := (Futs.slot_of hf).trans he
      obtain ⟨k, v, hk, -, hv⟩ := h.sound.owns front (by simp [hq])
      have hkf : k = f := h.distinct.eq hk hf hv he hid.symm
      subst hkf
      rw [hf] at hk
      cases hk
      rw [he] at hv
      cases hv
      exact ⟨front, rest, hslot, rfl⟩

theorem not_overtakes {width : Nat} {s : FairState W} {op : SemOp W} (h : FairSound s)
    (hok : ¬ s.base.LosesPlace op) : ¬ s.Overtakes width op := by
  rintro ⟨hready, f, waker, rfl, g, a, ha, hc, hlater⟩
  obtain ⟨x, hx⟩ := h.waiting g a ha hc
  have hxq := h.queued g x hx
  have hgf : g ≠ f := by
    rintro rfl
    exact absurd (hlater a ha) (lt_irrefl a)
  obtain ⟨r, hr, hout⟩ := Option.map_eq_some_iff.mp hready
  obtain ⟨u, hf, hu⟩ := Option.map_eq_some_iff.mp hr
  by_cases h1 : s.base.sem.canAcquireFair u.kind (u.registered.map Entry.id) = true
  · rcases h.front_of_canAcquireFair hf h1 with hq | ⟨e, rest, hslot, hq⟩
    · simp [hq] at hxq
    · -- The overtaken entry stands behind the front, so it arrived later.
      obtain ⟨b, hb⟩ := Option.isSome_iff_exists.mp (h.arrived f e hslot)
      have horder := h.order
      rw [hq, List.pairwise_cons] at horder
      rw [hq, List.mem_cons] at hxq
      rcases hxq with rfl | hxq
      · exact hgf (h.distinct.slot_eq hx hslot rfl)
      · have := horder.1 x hxq f g b a hslot hx hc hb ha
        have := hlater b hb
        omega
  · have h1 : s.base.sem.canAcquireFair u.kind (u.registered.map Entry.id) = false := by
      simpa using h1
    have hfresh := fresh_token hf hok h1
    have h2 : (s.base.sem.register u.registered u.kind waker).1.canAcquireFair u.kind
        ((s.base.sem.register u.registered u.kind waker).2.map Entry.id) = true := by
      by_contra h2
      have hpoll : s.base.sem.poll u.kind u.registered waker =
          ((s.base.sem.register u.registered u.kind waker).1,
            (s.base.sem.register u.registered u.kind waker).2, false, []) := by
        simp [LocalSemaphore.poll, h1, h2]
      rw [← hu] at hout
      simp [SemState.pollFuture, hpoll] at hout
    obtain ⟨e, he, -, -, -⟩ :=
      s.base.sem.waiters.register_spec s.base.sem.nextId u.registered u.kind waker
    rcases h.register_order hf h1 hok he with hreg | ⟨hq, -⟩
    · rw [hreg, h1] at h2
      cases h2
    · -- The overtaken entry is still queued, and stands before the new one.
      have hmem : x ∈ s.base.sem.waiters.without e.id :=
        Waiters.mem_without.mpr ⟨hxq, h.register_ne hf hfresh he hgf hx⟩
      cases hw : s.base.sem.waiters.without e.id with
      | nil => simp [hw] at hmem
      | cons front rest =>
        have hfront : front ∈ s.base.sem.waiters.without e.id := by simp [hw]
        have hne : front.id ≠ e.id := (Waiters.mem_without.mp hfront).2
        have he' : (s.base.sem.register u.registered u.kind waker).2 = some e := he
        simp only [LocalSemaphore.canAcquireFair, hq, hw, he', List.cons_append, List.head?_cons,
          Option.map_some] at h2
        split at h2
        · cases h2
        · exact hne (by simpa using h2)

end FairSound

/-- In a run in which no poll gives up its place in the queue, no `acquire` overtakes another that
was first polled before it, whatever the two request. -/
theorem semaphore_acquire_is_fifo [Waker W] (width permits : Nat) (ops : List (SemOp W))
    (s : FairState W)
    (hok : (fairMachine W width permits).Along (fun s op => ¬ s.base.LosesPlace op)
      (.init permits) ops)
    (h : (fairMachine W width permits).run (.init permits) ops = some s) (op : SemOp W)
    (hop : ¬ s.base.LosesPlace op) : ¬ s.Overtakes width op :=
  (Machine.run_preserves_along (I := FairSound) (fun _ _ _ hI hok hs => hI.step hok hs)
    (.init permits) hok h).not_overtakes hop

/-- A request for two permits waits while one is free; a later request for one is not let past. -/
theorem semaphore_small_request_waits : ∃ s : FairState Waker.OfTask,
    (fairMachine Waker.OfTask 64 1).run (.init 1) [.create 0 2, .create 1 1, .poll 0 ⟨0⟩] = some s ∧
    s.base.sem.permits = 1 ∧
    (s.base.exec 64 (.poll 1 ⟨1⟩)).map Prod.snd ≠ some .acquired := by
  refine Machine.exists_end (c := fun s => decide (s.base.sem.permits = 1 ∧ s.arrival 0 = some 0 ∧
    s.completed 0 = false ∧ s.arrival 1 = none ∧ s.base.sem.nextId = 1 ∧
    s.base.futs 1 = some (.fresh 1) ∧ s.base.futs 0 = some ⟨2, some ⟨0, 2, ⟨0⟩⟩, some ⟨0⟩, false, false⟩))
    _ (by decide +kernel) ?_
  intro s hrun hs
  obtain ⟨hpermits, harr, hcomp, hfirst, hnext, hf, hg⟩ := of_decide_eq_true hs
  have hfutures : ∀ f, s.base.futs (f + 2) = none := by
    intro f
    cases hrun
    rfl
  refine ⟨hpermits, fun hready => ?_⟩
  have hok : (fairMachine Waker.OfTask 64 1).Along (fun s op => ¬ s.base.LosesPlace op) (.init 1)
      [.create 0 2, .create 1 1, .poll 0 ⟨0⟩] := by
    refine ⟨id, id, ?_, trivial⟩
    rintro ⟨u, hu, -, -, ⟨-, f, v, e, hv, he, -⟩ | ⟨e, x, he, -⟩⟩
    · rcases f with _ | _ | f <;> cases hv <;> cases he
    · cases hu
      cases he
  refine semaphore_acquire_is_fifo 64 1 _ s hok hrun (.poll 1 ⟨1⟩) ?_
    ⟨hready, 1, ⟨1⟩, rfl, 0, 0, harr, hcomp, fun b hb => ?_⟩
  · rintro ⟨u, hu, -, -, ⟨-, f, v, e, hv, he, hid⟩ | ⟨e, x, he, -⟩⟩
    · rcases f with _ | _ | f
      · rw [hg, Option.some.injEq] at hv
        rw [← hv, Option.some.injEq] at he
        rw [← he, hnext] at hid
        cases hid
      · rw [hf, Option.some.injEq] at hv
        rw [← hv] at he
        cases he
      · rw [hfutures] at hv
        cases hv
    · rw [hf, Option.some.injEq] at hu
      rw [← hu] at he
      cases he
  · rw [hfirst] at hb
    cases hb

/-- The first of two waiting requests is polled again with another task's waker, and the second
then gets the only permit. -/
theorem semaphore_migrated_poll_is_overtaken : ∃ s : FairState Waker.OfTask,
    (fairMachine Waker.OfTask 64 0).run (.init 0)
      [.create 0 2, .create 1 1, .poll 0 ⟨0⟩, .poll 1 ⟨1⟩, .poll 0 ⟨2⟩, .addPermits 1] = some s ∧
    s.Overtakes 64 (.poll 1 ⟨1⟩) := by
  refine Machine.exists_end (c := fun s => decide (
    (s.base.exec 64 (.poll 1 ⟨1⟩)).map Prod.snd = some .acquired ∧ s.arrival 0 = some 0 ∧
    s.completed 0 = false ∧ s.arrival 1 = some 1)) _ (by decide +kernel) ?_
  intro s _ hs
  obtain ⟨hready, harr, hcomp, hlater⟩ := of_decide_eq_true hs
  refine ⟨hready, 1, ⟨1⟩, rfl, 0, 0, harr, hcomp, fun b hb => ?_⟩
  rw [hlater, Option.some.injEq] at hb
  omega

end Cynosure.SiteC
