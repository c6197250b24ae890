import Cynosure.SiteC.Semaphore

/-! # The front waiter of `LocalSemaphore`

A wake is owed to the front entry as soon as its request fits. Every path that
adds permits or removes the front ends in `wake_next`, except one: a poll that
cannot acquire and comes with a new waker takes its entry out and appends it,
so that another entry becomes the front without a wake.
-/

universe v

namespace Cynosure.SiteC

variable {W : Type v}

namespace SemState

/-- A front entry whose request fits belongs to a future woken since its last poll. -/
def FrontServed (s : SemState W) : Prop :=
  ∀ e, s.sem.waiters.head? = some e → e.req ≤ s.sem.permits →
    ∃ f u, s.futs f = some u ∧ u.registered = some e ∧ u.woken = true

variable [Waker W]

/-- The call is a poll that cannot acquire, moves the front entry to the back, and so
brings forward an entry that fits and whose future has not been woken. -/
def RotatesFront (s : SemState W) : SemOp W → Prop
  | .poll f waker => ∃ u front e, s.futs f = some u ∧ s.sem.waiters.head? = some front ∧
      s.sem.canAcquireFair u.kind (u.registered.map Entry.id) = false ∧
      s.sem.waiters.stale u.registered waker = true ∧
      Waiters.registerId s.sem.nextId u.registered = front.id ∧
      (s.sem.waiters.without front.id).head? = some e ∧ e.req ≤ s.sem.permits ∧
      ¬ ∃ g v, s.futs g = some v ∧ v.registered = some e ∧ v.woken = true
  | _ => False

end SemState

/-- Slots agree with polls, carry the future's own request, and own the queue. -/
structure SemSound [Waker W] (s : SemState W) : Prop where
  consistent : s.futs.Consistent
  request : ∀ f u e, s.futs f = some u → u.registered = some e → e.req = u.kind
  owns : s.futs.Owns (fun _ => True) s.sem.waiters

namespace LocalSemaphore

theorem addPermits_eq (width : Nat) (s : LocalSemaphore W) (n : Nat) :
    (∃ m, s.addPermits width n = .error m) ∨ s.addPermits width n =
      .ok ({ s with permits := s.permits + n }, { s with permits := s.permits + n }.wakeNext) := by
  unfold addPermits bumpPermits
  split
  · right
    cases s.waiters <;> simp [bind, Except.bind, pure, Except.pure, wakeNext]
  · exact .inl ⟨_, rfl⟩

theorem release_eq (width : Nat) (s : LocalSemaphore W) (n : Nat) :
    s.release width n = s.addPermits width n := rfl

theorem not_canAcquireFair_front {s : LocalSemaphore W} {n : Nat} {e : Entry Nat W}
    (h : s.canAcquireFair n (some e.id) = false) (he : s.waiters.head? = some e) :
    s.permits < n := by
  simp only [canAcquireFair, he] at h
  split at h
  · assumption
  · simp at h

theorem wakeNext_of_front {s : LocalSemaphore W} {e : Entry Nat W} (he : s.waiters.head? = some e)
    (hfit : e.req ≤ s.permits) : s.wakeNext = [e.waker] := by
  simp [wakeNext, he, hfit]

variable [Waker W]

/-- The queue and the slot after a poll that registers and does not acquire. -/
theorem poll_cases (s : LocalSemaphore W) (n : Nat) (slot : Option (Entry Nat W)) (waker : W) :
    (s.poll n slot waker = (s.acquired n slot, none, true, (s.acquired n slot).wakeNext)) ∨
    (s.poll n slot waker = ((s.register slot n waker).1.acquired n (s.register slot n waker).2, none,
      true, ((s.register slot n waker).1.acquired n (s.register slot n waker).2).wakeNext)) ∨
    (s.canAcquireFair n (slot.map Entry.id) = false ∧
      (s.register slot n waker).1.canAcquireFair n ((s.register slot n waker).2.map Entry.id) = false ∧
      s.poll n slot waker = ((s.register slot n waker).1, (s.register slot n waker).2, false, [])) := by
  by_cases h1 : s.canAcquireFair n (slot.map Entry.id) = true
  · exact .inl (by simp [poll, h1])
  · by_cases h2 : (s.register slot n waker).1.canAcquireFair n
        ((s.register slot n waker).2.map Entry.id) = true
    · exact .inr (.inl (by simp [poll, h1, h2]))
    · exact .inr (.inr ⟨by simpa using h1, by simpa using h2, by simp [poll, h1, h2]⟩)

end LocalSemaphore

/-- What a call can do to the semaphore and the futures. -/
inductive SemStep [Waker W] (s : SemState W) : SemOp W → SemState W → Prop
  /-- Refusals, panics and forgotten permits. -/
  | keep {op : SemOp W} {t : SemState W} (hsem : t.sem = s.sem) (hfuts : t.futs = s.futs) :
    SemStep s op t
  | tryAcquire {n : Nat} {t : SemState W} (hsem : t.sem = { s.sem with permits := s.sem.permits - n })
    (hfuts : t.futs = s.futs) : SemStep s (.tryAcquireMany n) t
  /-- `add_permits` and the drop of a permit. -/
  | bump {op : SemOp W} {t : SemState W} {n : Nat}
    (hsem : t.sem = { s.sem with permits := s.sem.permits + n })
    (hfuts : t.futs = s.futs.wake t.sem.wakeNext) : SemStep s op t
  | create {f n : Nat} (hf : s.futs f = none) :
    SemStep s (.create f n) { s with futs := s.futs.set f (some (.fresh n)) }
  | pollAcquired {f : Nat} {u : Fut Nat Nat W} {waker : W} {t : SemState W} (hf : s.futs f = some u)
    (hsem : t.sem = s.sem.acquired u.kind u.registered ∨
      t.sem = (s.sem.register u.registered u.kind waker).1.acquired u.kind
        (s.sem.register u.registered u.kind waker).2)
    (hfuts : t.futs = (s.futs.set f (some (u.afterPoll none true waker))).wake t.sem.wakeNext) :
    SemStep s (.poll f waker) t
  | pollPending {f : Nat} {u : Fut Nat Nat W} {waker : W} {t : SemState W} (hf : s.futs f = some u)
    (h1 : s.sem.canAcquireFair u.kind (u.registered.map Entry.id) = false)
    (h2 : (s.sem.register u.registered u.kind waker).1.canAcquireFair u.kind
      ((s.sem.register u.registered u.kind waker).2.map Entry.id) = false)
    (hsem : t.sem = (s.sem.register u.registered u.kind waker).1)
    (hfuts : t.futs = s.futs.set f
      (some (u.afterPoll (s.sem.register u.registered u.kind waker).2 false waker))) :
    SemStep s (.poll f waker) t
  | dropFuture {f : Nat} {u : Fut Nat Nat W} (hf : s.futs f = some u) :
    SemStep s (.dropFuture f) (s.dropFuture f u)

namespace SemState

variable [Waker W]

theorem pollFuture_step (s : SemState W) {f : Nat} {u : Fut Nat Nat W} (waker : W)
    (hf : s.futs f = some u) : SemStep s (.poll f waker) (s.pollFuture f u waker).1 := by
  rcases s.sem.poll_cases u.kind u.registered waker with h | h | ⟨h1, h2, h⟩
  · exact .pollAcquired hf (.inl (by simp [pollFuture, h])) (by simp [pollFuture, h])
  · exact .pollAcquired hf (.inr (by simp [pollFuture, h])) (by simp [pollFuture, h])
  · exact .pollPending hf h1 h2 (by simp [pollFuture, h]) (by simp [pollFuture, h])

theorem exec_step {width : Nat} {s t : SemState W} {op : SemOp W} {o : SemOutcome}
    (h : s.exec width op = some (t, o)) : SemStep s op t := by
  cases op with
  | tryAcquireMany n =>
    simp only [exec, LocalSemaphore.tryAcquireMany] at h
    split at h <;> rename_i hn <;> split at hn <;> cases h <;> cases hn
    · exact .keep rfl rfl
    · exact .tryAcquire rfl rfl
  | addPermits n =>
    rcases s.sem.addPermits_eq width n with ⟨m, hm⟩ | hm <;>
      simp only [exec, hm, Option.some.injEq, Prod.mk.injEq] at h
    · exact h.1 ▸ .keep rfl rfl
    · exact h.1 ▸ .bump rfl rfl
  | create f n =>
    cases hf : s.futs f with
    | some u => simp [exec, hf] at h
    | none =>
      simp only [exec, hf, Option.some.injEq, Prod.mk.injEq] at h
      exact h.1 ▸ .create hf
  | poll f waker =>
    obtain ⟨u, hf, hu⟩ := Option.map_eq_some_iff.mp h
    have ht : (s.pollFuture f u waker).1 = t := congrArg Prod.fst hu
    exact ht ▸ s.pollFuture_step waker hf
  | dropFuture f =>
    obtain ⟨u, hf, hu⟩ := Option.map_eq_some_iff.mp h
    have ht : s.dropFuture f u = t := congrArg Prod.fst hu
    exact ht ▸ .dropFuture hf
  | dropPermit i =>
    obtain ⟨n, -, hu⟩ := Option.map_eq_some_iff.mp h
    rcases s.sem.addPermits_eq width n with ⟨m, hm⟩ | hm <;>
      simp only [LocalSemaphore.release_eq, hm, Prod.mk.injEq] at hu
    · exact hu.1 ▸ .keep rfl rfl
    · exact hu.1 ▸ .bump rfl rfl
  | forget i =>
    obtain ⟨n, -, hu⟩ := Option.map_eq_some_iff.mp h
    cases hu
    exact .keep rfl rfl

end SemState

theorem semMachine_step [Waker W] {width permits : Nat} {s t : SemState W} {op : SemOp W}
    (h : (semMachine W width permits).step s op = some t) : SemStep s op t := by
  obtain ⟨⟨t', o⟩, he, rfl⟩ := Option.map_eq_some_iff.mp h
  exact SemState.exec_step he

namespace SemSound

variable [Waker W]

theorem init (permits : Nat) : SemSound (SemState.init permits : SemState W) where
  consistent := fun _ _ h => by cases h
  request := fun _ _ _ h => by cases h
  owns := fun _ h => by cases h

/-- Only the futures and the queue matter. -/
theorem of_eq {s t : SemState W} (h : SemSound s) (hfuts : t.futs = s.futs)
    (hq : t.sem.waiters = s.sem.waiters) : SemSound t :=
  ⟨hfuts ▸ h.consistent, hfuts ▸ h.request, hfuts ▸ hq ▸ h.owns⟩

theorem wake {s t : SemState W} (h : SemSound s) {ws : List W} (hfuts : t.futs = s.futs.wake ws)
    (hq : t.sem.waiters = s.sem.waiters) : SemSound t := by
  refine ⟨hfuts ▸ h.consistent.wake ws, ?_, hfuts ▸ hq ▸ h.owns.wake ws⟩
  intro f u e hf he
  rw [hfuts] at hf
  obtain ⟨v, hv, rfl⟩ := Futs.wake_eq_some.mp hf
  exact h.request f v e hv he

theorem request_set {s : SemState W} (h : SemSound s) {f : Nat} {v : Fut Nat Nat W}
    (hv : ∀ e, v.registered = some e → e.req = v.kind) :
    ∀ g u e, s.futs.set f (some v) g = some u → u.registered = some e → e.req = u.kind := by
  intro g u e hg he
  by_cases hgf : g = f
  · subst hgf
    rw [Futs.set_same] at hg
    cases hg
    exact hv e he
  · rw [Futs.set_ne _ hgf] at hg
    exact h.request g u e hg he

/-- The request of the slot that a poll leaves is the future's own. -/
theorem register_request {s : SemState W} (h : SemSound s) {f : Nat} {u : Fut Nat Nat W}
    (hf : s.futs f = some u) (waker : W) {e : Entry Nat W}
    (he : (s.sem.register u.registered u.kind waker).2 = some e) : e.req = u.kind := by
  simp only [LocalSemaphore.register, Waiters.register] at he
  split at he
  · cases he
    rfl
  · exact h.request f u e hf he

theorem registered {s : SemState W} (h : SemSound s) {f : Nat} {u : Fut Nat Nat W}
    (hf : s.futs f = some u) (waker : W) {t : SemState W}
    (hsem : t.sem.waiters = (s.sem.register u.registered u.kind waker).1.waiters)
    (hfuts : t.futs = s.futs.set f
      (some (u.afterPoll (s.sem.register u.registered u.kind waker).2 false waker))) :
    SemSound t := by
  obtain ⟨e, hs, ht, -, -⟩ := s.sem.waiters.register_spec s.sem.nextId u.registered u.kind waker
  refine ⟨hfuts ▸ h.consistent.set f (u.consistent_pending hs ht), ?_, ?_⟩
  · rw [hfuts]
    exact h.request_set fun x hx => h.register_request hf waker hx
  · rw [hfuts, hsem]
    exact h.owns.register (v := u.afterPoll _ false waker) hf trivial _ _ _ rfl

theorem deregister {s : SemState W} (h : SemSound s) {f : Nat} {u : Fut Nat Nat W}
    (hf : s.futs f = some u) (waker : W) {t : SemState W}
    (hsem : t.sem.waiters = s.sem.waiters.deregister u.registered)
    (hfuts : t.futs = s.futs.set f (some (u.afterPoll none true waker))) : SemSound t := by
  refine ⟨hfuts ▸ h.consistent.set f (u.consistent_ready waker), ?_, ?_⟩
  · rw [hfuts]
    exact h.request_set fun x hx => by cases hx
  · rw [hfuts, hsem]
    exact h.owns.deregister hf _

theorem erase {s : SemState W} (h : SemSound s) {f : Nat} {u : Fut Nat Nat W}
    (hf : s.futs f = some u) {t : SemState W}
    (hsem : t.sem.waiters = s.sem.waiters.deregister u.registered)
    (hfuts : t.futs = s.futs.set f none) : SemSound t := by
  refine ⟨hfuts ▸ h.consistent.erase f, ?_, ?_⟩
  · intro g v e hg he
    rw [hfuts] at hg
    by_cases hgf : g = f
    · subst hgf
      simp at hg
    · rw [Futs.set_ne _ hgf] at hg
      exact h.request g v e hg he
  · rw [hfuts, hsem]
    exact h.owns.deregister hf _

/-- After `wake_next` the front is served, whatever happened before. -/
theorem served_wakeNext {s t : SemState W} (h : SemSound s) (hq : t.sem.waiters = s.sem.waiters)
    (hfuts : t.futs = s.futs.wake t.sem.wakeNext) : t.FrontServed := by
  intro e he hfit
  have hmem : e ∈ s.sem.waiters := hq ▸ List.mem_of_head? he
  rw [LocalSemaphore.wakeNext_of_front he hfit] at hfuts
  obtain ⟨f, u, hf, -, hu, -, hwoken⟩ :=
    h.consistent.woken_owner h.owns hmem (List.mem_singleton.mpr rfl)
  exact ⟨f, u, hfuts ▸ hf, hu, hwoken⟩

/-- A call that ends in `wake_next` from a sound intermediate state. -/
theorem settle {s t : SemState W} (h : SemSound { t with futs := s.futs })
    (hfuts : t.futs = s.futs.wake t.sem.wakeNext) : SemSound t ∧ t.FrontServed :=
  ⟨h.wake hfuts rfl, h.served_wakeNext rfl hfuts⟩

theorem pollAcquired {s t : SemState W} (h : SemSound s) {f : Nat} {u : Fut Nat Nat W} {waker : W}
    (hf : s.futs f = some u)
    (hsem : t.sem = s.sem.acquired u.kind u.registered ∨
      t.sem = (s.sem.register u.registered u.kind waker).1.acquired u.kind
        (s.sem.register u.registered u.kind waker).2)
    (hfuts : t.futs = (s.futs.set f (some (u.afterPoll none true waker))).wake t.sem.wakeNext) :
    SemSound t ∧ t.FrontServed := by
  refine settle (s := { t with futs := s.futs.set f (some (u.afterPoll none true waker)) }) ?_ hfuts
  rcases hsem with hsem | hsem
  · exact h.deregister hf waker (by rw [hsem]; rfl) rfl
  · -- The slot was filled by `register` and emptied again by `deregister`.
    let u' := u.afterPoll (s.sem.register u.registered u.kind waker).2 false waker
    have hr := h.registered hf waker (t := { s with
      sem := (s.sem.register u.registered u.kind waker).1, futs := s.futs.set f (some u') }) rfl rfl
    have hd := hr.deregister (f := f) (u := u') (Futs.set_same _ _ _) waker
      (t := { t with futs := (s.futs.set f (some u')).set f (some (u.afterPoll none true waker)) })
      (by rw [hsem]; rfl) rfl
    simpa [Futs.set] using hd

theorem next {s t : SemState W} {op : SemOp W} (h : SemSound s) (hs : SemStep s op t) :
    SemSound t := by
  cases hs with
  | keep hsem hfuts => exact h.of_eq hfuts (by rw [hsem])
  | tryAcquire hsem hfuts => exact h.of_eq hfuts (by rw [hsem])
  | bump hsem hfuts => exact (settle (t := t) (h.of_eq rfl (by rw [hsem])) hfuts).1
  | create hf =>
    exact ⟨h.consistent.set _ (Fut.consistent_fresh _), h.request_set fun x hx => (by cases hx),
      h.owns.set_of fun u hu => (by simp [hf] at hu)⟩
  | pollAcquired hf hsem hfuts => exact (h.pollAcquired hf hsem hfuts).1
  | pollPending hf h1 h2 hsem hfuts => exact h.registered hf _ (by rw [hsem]) hfuts
  | @dropFuture f u hf =>
    unfold SemState.dropFuture
    split
    · exact (settle (s := { s with futs := s.futs.set f none }) (h.erase hf rfl rfl) rfl).1
    · rename_i hr
      have hr : u.registered = none := by simpa using hr
      exact h.erase hf (by simp [hr]) rfl

theorem served_dropFuture {s : SemState W} (h : SemSound s) {f : Nat} {u : Fut Nat Nat W}
    (hf : s.futs f = some u) (hS : s.FrontServed) : (s.dropFuture f u).FrontServed := by
  unfold SemState.dropFuture
  split
  · exact (settle (s := { s with futs := s.futs.set f none }) (h.erase hf rfl rfl) rfl).2
  · rename_i hr
    have hr : u.registered = none := by simpa using hr
    intro e he hfit
    obtain ⟨g, v, hg, hv, hw⟩ := hS e he hfit
    have hgf : g ≠ f := by
      rintro rfl
      rw [hf] at hg
      cases hg
      simp [hr] at hv
    exact ⟨g, v, (Futs.set_ne _ hgf _).trans hg, hv, hw⟩

/-- The poll that stays pending: the front is served again, unless it was rotated. -/
theorem served_pending {s t : SemState W} (h : SemSound s) (hS : s.FrontServed) {f : Nat}
    {u : Fut Nat Nat W} {waker : W} (hok : ¬ s.RotatesFront (.poll f waker)) (hf : s.futs f = some u)
    (h1 : s.sem.canAcquireFair u.kind (u.registered.map Entry.id) = false)
    (h2 : (s.sem.register u.registered u.kind waker).1.canAcquireFair u.kind
      ((s.sem.register u.registered u.kind waker).2.map Entry.id) = false)
    (hsem : t.sem = (s.sem.register u.registered u.kind waker).1)
    (hfuts : t.futs = s.futs.set f
      (some (u.afterPoll (s.sem.register u.registered u.kind waker).2 false waker))) :
    t.FrontServed := by
  -- Owners other than the polled future keep their flag.
  have hother : ∀ e, (∀ x, u.registered = some x → x ≠ e) →
      (∃ g v, s.futs g = some v ∧ v.registered = some e ∧ v.woken = true) →
      ∃ g v, t.futs g = some v ∧ v.registered = some e ∧ v.woken = true := by
    rintro e hne ⟨g, v, hg, hv, hw⟩
    have hgf : g ≠ f := by
      rintro rfl
      rw [hf] at hg
      cases hg
      exact hne e hv rfl
    exact ⟨g, v, by rw [hfuts, Futs.set_ne _ hgf, hg], hv, hw⟩
  intro e he hfit
  rw [hsem] at he hfit
  by_cases hst : s.sem.waiters.stale u.registered waker = true
  · let e' : Entry Nat W := ⟨Waiters.registerId s.sem.nextId u.registered, u.kind, waker⟩
    have hreg : s.sem.register u.registered u.kind waker =
        ({ s.sem with waiters := s.sem.waiters.without e'.id ++ [e'],
                      nextId := if u.registered.isSome then s.sem.nextId else s.sem.nextId + 1 },
          some e') := by
      simp [LocalSemaphore.register, Waiters.register, hst, e']
    rw [hreg] at he hfit h2
    have hslot : ∀ x, u.registered = some x → e'.id = x.id := by
      rintro x hx
      simp [e', Waiters.registerId, hx]
    cases hq : s.sem.waiters.without e'.id with
    | nil =>
      -- The future stands alone, so it is the front and its request does not fit.
      have hee : e' = e := by simpa [hq] using he
      subst hee
      have := LocalSemaphore.not_canAcquireFair_front h2 he
      exact absurd hfit (by simpa [e'] using this)
    | cons x rest =>
      have hxe : x = e := by simpa [hq] using he
      subst hxe
      have hx : x ∈ s.sem.waiters ∧ x.id ≠ e'.id := Waiters.mem_without.mp (by simp [hq])
      have hne : ∀ y, u.registered = some y → y ≠ x := by
        rintro y hy rfl
        exact hx.2 (hslot y hy).symm
      obtain ⟨front, hfront⟩ : ∃ front, s.sem.waiters.head? = some front := by
        cases hw : s.sem.waiters with
        | nil => simp [hw] at hx
        | cons a as => exact ⟨a, rfl⟩
      by_cases hid : e'.id = front.id
      · by_contra hno
        refine hok ⟨u, front, x, hf, hfront, h1, hst, hid, ?_, hfit, fun hG => hno (hother x hne hG)⟩
        rw [← hid, hq]
        rfl
      · refine hother x hne (hS x ?_ hfit)
        cases hw : s.sem.waiters with
        | nil => simp [hw] at hx
        | cons a as =>
          simp only [hw, List.head?_cons, Option.some.injEq] at hfront
          subst hfront
          have : a.id ≠ e'.id := fun h => hid h.symm
          simp [hw, Waiters.without, this] at hq
          simp [hq.1]
  · have hreg : s.sem.register u.registered u.kind waker = (s.sem, u.registered) := by
      simp [LocalSemaphore.register, Waiters.register, hst]
    rw [hreg] at he hfit
    refine hother e ?_ (hS e he hfit)
    -- The front's own poll stays pending only when its request does not fit.
    rintro x hx rfl
    rw [hx] at h1
    have hlt := LocalSemaphore.not_canAcquireFair_front h1 he
    rw [← h.request f u x hf hx] at hlt
    exact absurd hfit (Nat.not_le.mpr hlt)

theorem served_step {s t : SemState W} {op : SemOp W} (h : SemSound s) (hS : s.FrontServed)
    (hok : ¬ s.RotatesFront op) (hs : SemStep s op t) : t.FrontServed := by
  cases hs with
  | keep hsem hfuts =>
    intro e he hfit
    rw [hsem] at he hfit
    rw [hfuts]
    exact hS e he hfit
  | tryAcquire hsem hfuts =>
    intro e he hfit
    rw [hsem] at he hfit
    rw [hfuts]
    exact hS e he (hfit.trans (Nat.sub_le _ _))
  | bump hsem hfuts => exact (settle (t := t) (h.of_eq rfl (by rw [hsem])) hfuts).2
  | @create f n hf =>
    intro e he hfit
    obtain ⟨g, v, hg, hv, hw⟩ := hS e he hfit
    have hgf : g ≠ f := by
      rintro rfl
      simp [hf] at hg
    exact ⟨g, v, (Futs.set_ne _ hgf _).trans hg, hv, hw⟩
  | pollAcquired hf hsem hfuts => exact (h.pollAcquired hf hsem hfuts).2
  | pollPending hf h1 h2 hsem hfuts => exact h.served_pending hS hok hf h1 h2 hsem hfuts
  | dropFuture hf => exact h.served_dropFuture hf hS

end SemSound

/-- The poll left out does break the property. -/
theorem rotated_unserved [Waker W] {s : SemState W} {f : Nat} {u : Fut Nat Nat W} {waker : W}
    (hf : s.futs f = some u) (hs : s.RotatesFront (.poll f waker)) :
    ¬ (s.pollFuture f u waker).1.FrontServed := by
  obtain ⟨u', front, e, hf', -, h1, hst, hid, he, hfit, hno⟩ := hs
  rw [hf] at hf'
  cases hf'
  let e' : Entry Nat W := ⟨front.id, u.kind, waker⟩
  let next := if u.registered.isSome then s.sem.nextId else s.sem.nextId + 1
  have hreg : s.sem.register u.registered u.kind waker =
      ({ s.sem with waiters := s.sem.waiters.without front.id ++ [e'], nextId := next }, some e') := by
    simp [LocalSemaphore.register, Waiters.register, hst, hid, e', next]
  have hne : e.id ≠ front.id := (Waiters.mem_without.mp (List.mem_of_head? he)).2
  have hhead : (s.sem.waiters.without front.id ++ [e']).head? = some e := by simp [he]
  have h2 : LocalSemaphore.canAcquireFair
      { s.sem with waiters := s.sem.waiters.without front.id ++ [e'], nextId := next } u.kind
      (some e'.id) = false := by
    simp [LocalSemaphore.canAcquireFair, hhead, e', hne]
  have hpoll : s.sem.poll u.kind u.registered waker =
      ({ s.sem with waiters := s.sem.waiters.without front.id ++ [e'], nextId := next }, some e',
        false, []) := by
    simp [LocalSemaphore.poll, h1, hreg, h2]
  intro hS
  obtain ⟨g, v, hg, hv, hw⟩ := hS e (by simp [SemState.pollFuture, hpoll, he])
    (by simpa [SemState.pollFuture, hpoll] using hfit)
  simp only [SemState.pollFuture, hpoll, Futs.wake_nil] at hg
  by_cases hgf : g = f
  · subst hgf
    rw [Futs.set_same] at hg
    cases hg
    have hee : e' = e := Option.some.inj hv
    exact hne (by rw [← hee])
  · rw [Futs.set_ne _ hgf] at hg
    exact hno ⟨g, v, hg, hv, hw⟩

/-- In a run in which no poll rotates an unsatisfied front past a waiter that fits, a front
that fits has been woken since its last poll. -/
theorem semaphore_front_served [Waker W] (width permits : Nat) (ops : List (SemOp W))
    (s : SemState W)
    (hok : (semMachine W width permits).Along (fun s op => ¬ s.RotatesFront op) (.init permits) ops)
    (h : (semMachine W width permits).run (.init permits) ops = some s) : s.FrontServed := by
  have hI := Machine.run_preserves_along (I := fun s => SemSound s ∧ s.FrontServed)
    (fun _ _ _ hI hok hs => ⟨hI.1.next (semMachine_step hs),
      hI.1.served_step hI.2 hok (semMachine_step hs)⟩)
    ⟨.init permits, fun e he => by simp [SemState.init, LocalSemaphore.new] at he⟩ hok h
  exact hI.2

/-- Two waiters queue on an empty semaphore, and one permit arrives. -/
theorem semaphore_front_served_after_add : ∃ s : SemState Waker.OfTask,
    (semMachine Waker.OfTask 64 0).run (.init 0)
      [.create 0 1, .create 1 1, .poll 0 ⟨0⟩, .poll 1 ⟨1⟩, .addPermits 1] = some s ∧
    (∃ e, s.sem.waiters.head? = some e ∧ e.req ≤ s.sem.permits) ∧ s.FrontServed := by
  refine Machine.exists_end (c := fun s => decide
    (s.sem.waiters.head? = some ⟨0, 1, ⟨0⟩⟩ ∧ 1 ≤ s.sem.permits)) _ (by decide +kernel) ?_
  intro s hrun hs
  obtain ⟨hhead, hfit⟩ := of_decide_eq_true hs
  refine ⟨⟨_, hhead, hfit⟩, semaphore_front_served 64 0 _ s ?_ hrun⟩
  refine ⟨id, id, ?_, ?_, id, trivial⟩
  · rintro ⟨u, front, e, -, hfront, -⟩
    cases hfront
  · rintro ⟨u, front, e, hu, hfront, -, -, hid, -⟩
    cases hu
    cases hfront
    cases hid

/-- A large request at the front is polled again with another task's waker: it moves behind
a small one, which fits and is not woken. -/
theorem semaphore_rotation_strands_waiter : ∃ s : SemState Waker.OfTask,
    (semMachine Waker.OfTask 64 0).run (.init 0)
      [.create 0 2, .create 1 1, .poll 0 ⟨0⟩, .poll 1 ⟨1⟩, .addPermits 1, .poll 0 ⟨2⟩] = some s ∧
    ¬ s.FrontServed := by
  refine ⟨_, rfl, fun h => ?_⟩
  obtain ⟨f, u, hf, hu, hw⟩ := h ⟨1, 1, ⟨1⟩⟩ rfl (by decide)
  rcases f with _ | _ | f
  · cases hf
    exact absurd hu (by decide)
  · cases hf
    exact absurd hw (by decide)
  · cases hf

end Cynosure.SiteC
