import Cynosure.Lib.Inevitable
import Cynosure.SiteC.Executor
import Cynosure.SiteC.SemaphoreCalls

/-! # Every request that `LocalSemaphore` can meet is met

The executor polls futures that are awake, but for the polls that take the front out of
its place, and the holders drop their permits. Nothing is popped by a wake here, so a
future waits in the queue until it acquires, and the front is met when all permits are back.
-/

universe v

namespace Cynosure.SiteC

variable {W : Type v} [Waker W]

/-- What an executor does: it polls futures that are awake, and drops permits. -/
def SemState.Executes (s : SemState W) : SemOp W → Prop
  | .poll f waker => f ∈ s.futs.awake ∧ ¬ s.RotatesFront (.poll f waker)
  | .dropPermit _ => True
  | _ => False

/-- Every registered future is queued. -/
structure SemQueued (s : SemState W) : Prop where
  distinct : s.futs.Distinct
  queued : ∀ f u e, s.futs f = some u → u.registered = some e → e ∈ s.sem.waiters

namespace SemQueued

variable {s t : SemState W} {f : Nat} {u : Fut Nat Nat W}

omit [Waker W] in
theorem init (permits : Nat) : SemQueued (SemState.init permits : SemState W) :=
  ⟨⟨fun hf => by cases hf⟩, fun _ _ _ hf => by cases hf⟩

omit [Waker W] in
/-- A future leaves the queue, for good or with its permits. -/
theorem deregister (h : SemQueued s) (sem : LocalSemaphore W) (hf : s.futs f = some u)
    {v : Option (Fut Nat Nat W)} (hv : v.bind Fut.registered = none)
    (hq : sem.waiters = s.sem.waiters.deregister u.registered) :
    SemQueued { s with sem := sem, futs := s.futs.set f v } := by
  refine ⟨h.distinct.emptied hv, fun g w e hg he => ?_⟩
  rcases Futs.set_eq_some hg with ⟨-, rfl⟩ | ⟨hgf, hg⟩
  · cases hv.symm.trans he
  · change e ∈ sem.waiters
    rw [hq]
    exact h.distinct.mem_deregister hf hg hgf he (h.queued g w e hg he)

theorem wake (h : SemQueued s) (ws : List W) : SemQueued { s with futs := s.futs.wake ws } := by
  refine ⟨h.distinct.wake ws, fun f v e hf he => ?_⟩
  obtain ⟨u, hu, rfl⟩ := Futs.wake_eq_some.mp hf
  exact h.queued f u e hu he

omit [Waker W] in
theorem of_eq (h : SemQueued s) (hfuts : t.futs = s.futs) (hq : t.sem.waiters = s.sem.waiters) :
    SemQueued t := by
  refine ⟨hfuts ▸ h.distinct, ?_⟩
  rw [hfuts, hq]
  exact h.queued

theorem register (h : SemQueued s) (hS : SemSound s) (hf : s.futs f = some u)
    (hfresh : u.registered = none → ¬ s.futs.Holds s.sem.nextId) (waker : W) :
    SemQueued { s with
      sem := (s.sem.register u.registered u.kind waker).1
      futs := s.futs.set f
        (some (u.afterPoll (s.sem.register u.registered u.kind waker).2 false waker)) } := by
  have hslot : (u.afterPoll (s.sem.register u.registered u.kind waker).2 false waker).registered =
      (s.sem.waiters.register s.sem.nextId u.registered u.kind waker).2.2 := rfl
  refine ⟨h.distinct.register hf hfresh hslot, fun g w e hg he => ?_⟩
  rcases Futs.set_eq_some hg with ⟨rfl, hw⟩ | ⟨hgf, hg⟩
  · cases hw
    exact h.distinct.mem_register_self hS.owns hf he
  · exact h.distinct.mem_register hf hfresh hgf hg he (h.queued g w e hg he)

theorem step {op : SemOp W} (h : SemQueued s) (hS : SemSound s)
    (hfresh : ∀ f waker u, op = .poll f waker → s.futs f = some u → u.registered = none →
      ¬ s.futs.Holds s.sem.nextId) (hs : SemStep s op t) : SemQueued t := by
  cases hs with
  | keep hsem hfuts => exact h.of_eq hfuts (by rw [hsem])
  | tryAcquire hsem hfuts => exact h.of_eq hfuts (by rw [hsem])
  | bump hsem hfuts => exact (h.wake _).of_eq hfuts (by rw [hsem])
  | @create f n hf =>
    refine ⟨h.distinct.emptied rfl, fun g w e hg he => ?_⟩
    rcases Futs.set_eq_some hg with ⟨-, hw⟩ | ⟨-, hg⟩
    · cases hw
      cases he
    · exact h.queued g w e hg he
  | @pollAcquired f u waker t hf hsem hfuts =>
    rcases hsem with hsem | hsem
    · have hd := h.deregister t.sem hf (v := some (u.afterPoll none true waker)) rfl
        (by rw [hsem]; rfl)
      exact (hd.wake t.sem.wakeNext).of_eq hfuts rfl
    · -- The slot is filled by `register`, and emptied again.
      have hr := h.register hS hf (hfresh f waker u rfl hf) waker
      have hd := hr.deregister t.sem (Futs.set_same ..) (v := some (u.afterPoll none true waker))
        rfl (by rw [hsem]; rfl)
      refine (hd.wake t.sem.wakeNext).of_eq ?_ rfl
      rw [hfuts]
      simp [Futs.set]
  | @pollPending f u waker t hf h1 h2 hsem hfuts =>
    exact (h.register hS hf (hfresh f waker u rfl hf) waker).of_eq hfuts (by rw [hsem])
  | @dropFuture f u hf =>
    unfold SemState.dropFuture
    split
    · exact (h.deregister _ hf (v := none) rfl rfl).wake _
    · rename_i hr
      have hr : u.registered = none := by simpa using hr
      exact h.deregister s.sem hf rfl (by rw [hr]; rfl)

end SemQueued

/-- What the executor relies on: `total` permits are there or live, which fit in the count, and no
future that is still to be served asks for more. `futs` are the futures at the start. -/
structure SemServable (width total : Nat) (futs : Futs Nat Nat W) (s : SemState W) : Prop where
  sound : SemSound s
  served : s.FrontServed
  queued : SemQueued s
  issued : SemIssued (2 ^ 64) s
  sum : s.sem.permits + s.held.sum = total
  room : total < 2 ^ width
  fits : ∀ f u, s.futs f = some u → u.Unserved → u.kind ≤ total
  keeps : futs.Keeps s.futs

theorem semMachine_servable {width permits : Nat} {ops : List (SemOp W)} {s : SemState W}
    (hok : (semMachine W width permits).Along (fun s op => ¬ s.RotatesFront op) (.init permits) ops)
    (h : (semMachine W width permits).run (.init permits) ops = some s) (hlen : ops.length ≤ 2 ^ 64)
    (hroom : s.sem.permits + s.held.sum < 2 ^ width)
    (hfits : ∀ f u, s.futs f = some u → u.Unserved → u.kind ≤ s.sem.permits + s.held.sum) :
    SemServable width (s.sem.permits + s.held.sum) s.futs s := by
  have hserved := Machine.run_preserves_along (I := fun s => SemSound s ∧ s.FrontServed)
    (fun _ _ _ hI hok hs => ⟨hI.1.next (semMachine_step hs),
      hI.1.served_step hI.2 hok (semMachine_step hs)⟩)
    ⟨.init permits, fun e he => by simp [SemState.init, LocalSemaphore.new] at he⟩ hok h
  have hI := Machine.run_counts (M := semMachine W width permits) (n := 0)
    (I := fun n s => (SemSound s ∧ SemQueued s) ∧ SemIssued n s) ?_
    ⟨⟨.init permits, .init permits⟩, .init permits⟩ (show 0 + ops.length ≤ 2 ^ 64 by omega) h
  · obtain ⟨⟨hsound, hqueued⟩, hissued⟩ := hI
    exact ⟨hsound, hserved.2, hqueued, ⟨hissued.within.mono (by omega), hissued.nodup⟩, rfl, hroom,
      hfits, subset_refl _⟩
  · rintro n s op t hn ⟨⟨hS, hQ⟩, hissued⟩ hs
    have hstep := semMachine_step hs
    obtain ⟨m, hm, htokens⟩ := hissued.within.exists_issued
    exact ⟨⟨hS.next hstep, hQ.step hS (fun _ _ _ _ _ _ => htokens.fresh (by omega)) hstep⟩,
      hstep.issued_succ hn hissued⟩

namespace SemServable

variable {width total : Nat} {futs : Futs Nat Nat W} {s t : SemState W}

/-- A future completes, with its permits. -/
theorem ready_todo (h : SemServable width total futs s) {f : Nat} {u : Fut Nat Nat W}
    (hun : f ∈ s.futs.unserved) (waker : W) (ws : List W) :
    let futs' := (s.futs.set f (some (u.afterPoll none true waker))).wake ws
    futs'.todo (s.held ++ [u.kind]).length < s.futs.todo s.held.length ∧ futs.Keeps futs' ∧
      ∀ g v, futs' g = some v → v.Unserved → v.kind ≤ total := by
  refine ⟨?_, (h.keeps.set f).wake ws, fun g v hg hv => ?_⟩
  · rw [List.length_append, List.length_singleton]
    refine Futs.todo_ready h.issued.within.finite hun ?_ _
    rw [Futs.unserved_wake, Futs.unserved_ready]
  · obtain ⟨w, hw, rfl⟩ := Futs.wake_eq_some.mp hg
    rcases Futs.set_eq_some hw with ⟨-, hw⟩ | ⟨-, hw⟩
    · cases hw
      obtain ⟨-, hready⟩ | hwait := hv
      · cases hready
      · cases hwait
    · exact h.fits g w hw hv

/-- A poll of an awake future completes it, or is its first or uses up the wake. -/
theorem poll_todo (h : SemServable width total futs s) {f : Nat} {waker : W} {u : Fut Nat Nat W}
    (hf : s.futs f = some u) (hawake : f ∈ s.futs.awake) (ht : (s.pollFuture f u waker).1 = t) :
    t.futs.todo t.held.length < s.futs.todo s.held.length ∧ futs.Keeps t.futs ∧
      (∀ g v, t.futs g = some v → v.Unserved → v.kind ≤ total) ∧
      t.sem.permits + t.held.sum = total := by
  have hunserved := s.futs.awake_subset_unserved hawake
  have htotal := h.sum
  subst ht
  by_cases h1 : s.sem.canAcquireFair u.kind (u.registered.map Entry.id) = true
  · have hle := LocalSemaphore.le_of_canAcquireFair h1
    simp only [SemState.pollFuture, LocalSemaphore.poll, h1, if_true]
    obtain ⟨htodo, hkeeps, hfits⟩ := h.ready_todo (u := u) hunserved waker
      (s.sem.acquired u.kind u.registered).wakeNext
    refine ⟨htodo, hkeeps, hfits, ?_⟩
    simp only [LocalSemaphore.acquired, List.sum_append, List.sum_singleton]
    omega
  · by_cases h2 : (s.sem.register u.registered u.kind waker).1.canAcquireFair u.kind
        ((s.sem.register u.registered u.kind waker).2.map Entry.id) = true
    · have hle := LocalSemaphore.le_of_canAcquireFair h2
      change u.kind ≤ s.sem.permits at hle
      simp only [SemState.pollFuture, LocalSemaphore.poll, h1, h2, if_true]
      obtain ⟨htodo, hkeeps, hfits⟩ := h.ready_todo (u := u) hunserved waker
        ((s.sem.register u.registered u.kind waker).1.acquired u.kind
          (s.sem.register u.registered u.kind waker).2).wakeNext
      refine ⟨htodo, hkeeps, hfits, ?_⟩
      change s.sem.permits - u.kind + (s.held ++ [u.kind]).sum = total
      rw [List.sum_append, List.sum_singleton]
      omega
    · have hpoll : s.sem.poll u.kind u.registered waker =
          ((s.sem.register u.registered u.kind waker).1,
            (s.sem.register u.registered u.kind waker).2, false, []) := by
        simp only [LocalSemaphore.poll, h1, h2, Bool.false_eq_true, if_false]
      simp only [SemState.pollFuture, hpoll, Futs.wake_nil, Bool.false_eq_true, if_false]
      refine ⟨Futs.todo_pending h.issued.within.finite hawake _ _ _ _, h.keeps.set f, ?_, htotal⟩
      intro g v hg hv
      rcases Futs.set_eq_some hg with ⟨rfl, hw⟩ | ⟨-, hw⟩
      · cases hw
        obtain ⟨w, hw, hun⟩ := hunserved
        cases hf.symm.trans hw
        exact h.fits g u hf hun
      · exact h.fits g v hw hv

/-- One step of the executor gets something done. -/
theorem step {permits : Nat} {op : SemOp W} (h : SemServable width total futs s)
    (hop : s.Executes op) (hs : (semMachine W width permits).step s op = some t) :
    SemServable width total futs t ∧ t.futs.todo t.held.length < s.futs.todo s.held.length := by
  have hstep := semMachine_step hs
  have hfresh : ∀ f waker u, op = .poll f waker → s.futs f = some u → u.registered = none →
      ¬ s.futs.Holds s.sem.nextId := by
    rintro f waker u rfl hf hnone
    exact h.issued.within.fresh hf (h.sound.consistent.unpolled_of_awake hop.1 hf hnone)
  have hissued : SemIssued (2 ^ 64) t := by
    refine hstep.issued h.issued (le_refl _) (le_refl _) ?_ ?_
    · rintro f m rfl
      exact hop.elim
    · rintro f waker u rfl hf hnone hpolled
      exact absurd (h.sound.consistent.unpolled_of_awake hop.1 hf hnone) hpolled
  have hrotates : ¬ s.RotatesFront op := by
    cases op with
    | poll f waker => exact hop.2
    | _ => exact id
  have hnext (htotal : t.sem.permits + t.held.sum = total)
      (hfits : ∀ g u, t.futs g = some u → u.Unserved → u.kind ≤ total) (hkeeps : futs.Keeps t.futs) :
      SemServable width total futs t :=
    ⟨h.sound.next hstep, h.sound.served_step h.served hrotates hstep,
      h.queued.step h.sound hfresh hstep, hissued, htotal, h.room, hfits, hkeeps⟩
  obtain ⟨⟨t', o⟩, hexec, rfl⟩ := Option.map_eq_some_iff.mp hs
  cases op with
  | poll f waker =>
    obtain ⟨u, hf, hu⟩ := Option.map_eq_some_iff.mp hexec
    obtain ⟨hlt, hkeeps, hfits, htotal⟩ := h.poll_todo hf hop.1 (congrArg Prod.fst hu)
    exact ⟨hnext htotal hfits hkeeps, hlt⟩
  | dropPermit i =>
    obtain ⟨n, hn, hu⟩ := Option.map_eq_some_iff.mp hexec
    have hsum := SemCalls.sum_eraseIdx hn
    have htotal := h.sum
    have hroom := h.room
    have hi := (List.getElem?_eq_some_iff.mp hn).1
    have hrelease : s.sem.release width n = .ok ({ s.sem with permits := s.sem.permits + n },
        { s.sem with permits := s.sem.permits + n }.wakeNext) := by
      rcases s.sem.addPermits_eq width n with ⟨m, hm⟩ | hm
      · rw [LocalSemaphore.addPermits, LocalSemaphore.bumpPermits, if_pos (by omega)] at hm
        cases hm
      · exact hm
    rw [hrelease] at hu
    cases hu
    refine ⟨hnext ?_ ?_ (h.keeps.wake _), s.futs.todo_drop _ ?_⟩
    · change s.sem.permits + n + (s.held.eraseIdx i).sum = total
      omega
    · intro g v hg hv
      obtain ⟨w, hw, rfl⟩ := Futs.wake_eq_some.mp hg
      exact h.fits g w hw hv
    · change (s.held.eraseIdx i).length < s.held.length
      rw [List.length_eraseIdx_of_lt hi]
      omega
  | _ => exact hop.elim

/-- The first poll of a future draws a token that the front does not have. -/
theorem unpolled_rotates_nothing (h : SemServable width total futs s) {f : Nat} {u : Fut Nat Nat W}
    (hf : s.futs f = some u) (hfirst : u.Unpolled) (waker : W) : ¬ s.RotatesFront (.poll f waker) := by
  rintro ⟨v, front, e, hv, hfront, -, -, hid, -⟩
  cases hf.symm.trans hv
  have hnone : u.registered = none := by
    cases hr : u.registered with
    | none => rfl
    | some x =>
      obtain ⟨p, hp, -⟩ := (h.sound.consistent f u hf).slot x hr
      cases hfirst.1.symm.trans hp
  obtain ⟨g, w, hg, -, hw⟩ := h.sound.owns front (List.mem_of_head? hfront)
  rw [hnone] at hid
  exact h.issued.within.fresh hf hfirst ⟨g, w, front, hg, hw, hid.symm⟩

/-- When all permits are back, the front is met. -/
theorem exists_front (h : SemServable width total futs s) (hheld : s.held = []) {f : Nat}
    {u : Fut Nat Nat W} (hf : s.futs f = some u) (hwait : u.Waiting) :
    ∃ f u e, s.futs f = some u ∧ u.registered = some e ∧ u.woken = true ∧
      s.sem.waiters.head? = some e ∧ u.kind ≤ s.sem.permits := by
  obtain ⟨e, he⟩ := (h.sound.consistent f u hf).waiting_iff.mp hwait
  have htotal := h.sum
  rw [hheld, List.sum_nil] at htotal
  obtain ⟨x, hx⟩ : ∃ x, s.sem.waiters.head? = some x := by
    cases hq : s.sem.waiters with
    | nil => exact absurd (h.queued.queued f u e hf he) (by simp [hq])
    | cons x rest => exact ⟨x, rfl⟩
  obtain ⟨g, v, hg, -, hv⟩ := h.sound.owns x (List.mem_of_head? hx)
  have hreq := h.sound.request g v x hg hv
  have hle := h.fits g v hg (.inr ((h.sound.consistent g v hg).waiting_iff.mpr ⟨x, hv⟩))
  obtain ⟨k, w, hk, hw, hwoken⟩ := h.served x hx (by omega)
  have hkind := h.sound.request k w x hk hw
  exact ⟨k, w, x, hk, hw, hwoken, hx, by omega⟩

/-- As long as somebody has not completed or has permits, the executor has something to do. -/
theorem can_go [Nonempty W] {permits : Nat} (h : SemServable width total futs s)
    (hP : ¬ (s.held = [] ∧ futs.Served s.futs)) :
    ∃ t, (semMachine W width permits).Chooses SemState.Executes s t := by
  by_cases hheld : s.held = []
  · have hne := h.keeps.unserved_nonempty fun hserved => hP ⟨hheld, hserved⟩
    obtain ⟨f, u, hf, hfirst | hwait⟩ := hne
    · obtain ⟨waker⟩ := ‹Nonempty W›
      refine Machine.exists_chooses (a := .poll f waker) ⟨⟨u, hf, .inl hfirst⟩, ?_⟩ ?_
      · exact h.unpolled_rotates_nothing hf hfirst waker
      · simp [semMachine, SemState.exec, hf]
    · obtain ⟨g, v, e, hg, he, hwoken, hfront, hle⟩ := h.exists_front hheld hf hwait
      have hwait := (h.sound.consistent g v hg).waiting_iff.mpr ⟨e, he⟩
      refine Machine.exists_chooses (a := .poll g e.waker) ⟨⟨v, hg, .inr ⟨hwait, hwoken⟩⟩, ?_⟩ ?_
      · rintro ⟨w, -, -, hw, -, hblocked, -⟩
        cases hg.symm.trans hw
        rw [he] at hblocked
        have := LocalSemaphore.not_canAcquireFair_front hblocked hfront
        omega
      · simp [semMachine, SemState.exec, hg]
  · obtain ⟨n, rest, hcons⟩ := List.exists_cons_of_ne_nil hheld
    refine Machine.exists_chooses (a := .dropPermit 0) trivial ?_
    simp [semMachine, SemState.exec, hcons]

end SemServable

/-- Whatever an executor that polls awake futures and drops permits chooses to do, every future
that is there gets its permits, if there are as many in the semaphore and with their holders. The
polls that it must not make move an unmet front behind a request that fits. -/
theorem semaphore_executor_serves_all [Nonempty W] (width permits : Nat) (ops : List (SemOp W)) (s : SemState W)
    (hok : (semMachine W width permits).Along (fun s op => ¬ s.RotatesFront op) (.init permits) ops)
    (h : (semMachine W width permits).run (.init permits) ops = some s) (hlen : ops.length ≤ 2 ^ 64)
    (hroom : s.sem.permits + s.held.sum < 2 ^ width)
    (hfits : ∀ f u, s.futs f = some u → u.Unserved → u.kind ≤ s.sem.permits + s.held.sum) :
    Inevitable ((semMachine W width permits).Chooses SemState.Executes)
      (fun t => t.held = [] ∧ s.futs.Served t.futs) s := by
  refine Inevitable.of_measure wellFounded_lt (fun t => t.futs.todo t.held.length)
    (I := SemServable width (s.sem.permits + s.held.sum) s.futs) ?_
    (fun t ht => ht.can_go) (semMachine_servable hok h hlen hroom hfits)
  rintro t t' ht ⟨op, hop, hstep⟩
  exact ht.step hop hstep

/-- Requests for two permits and for one wait behind a holder of both, and another request for
two was never polled. -/
theorem semaphore_executor_serves_two : ∃ s : SemState Waker.OfTask,
    (semMachine Waker.OfTask 64 2).run (.init 2) [.tryAcquireMany 2, .create 0 2, .create 1 1,
      .create 2 2, .poll 0 ⟨0⟩, .poll 1 ⟨1⟩] = some s ∧
    (s.sem.permits = 0 ∧ s.held = [2] ∧ s.sem.waiters = [⟨0, 2, ⟨0⟩⟩, ⟨1, 1, ⟨1⟩⟩] ∧
      s.futs 2 = some (.fresh 2)) ∧
    Inevitable ((semMachine Waker.OfTask 64 2).Chooses SemState.Executes)
      (fun t => t.held = [] ∧ s.futs.Served t.futs) s := by
  obtain ⟨s, hrun, hs, hkinds⟩ : ∃ s : SemState Waker.OfTask,
      (semMachine Waker.OfTask 64 2).run (.init 2) [.tryAcquireMany 2, .create 0 2, .create 1 1,
        .create 2 2, .poll 0 ⟨0⟩, .poll 1 ⟨1⟩] = some s ∧
      (s.sem.permits = 0 ∧ s.held = [2] ∧ s.sem.waiters = [⟨0, 2, ⟨0⟩⟩, ⟨1, 1, ⟨1⟩⟩] ∧
        s.futs 2 = some (.fresh 2)) ∧ ∀ f u, s.futs f = some u → u.kind ≤ 2 := by
    refine ⟨_, rfl, ⟨rfl, rfl, rfl, rfl⟩, fun f u hf => ?_⟩
    rcases f with _ | _ | _ | f <;> cases hf <;> decide
  have htotal : s.sem.permits + s.held.sum = 2 := by simp [hs.1, hs.2.1]
  refine ⟨s, hrun, hs, semaphore_executor_serves_all 64 2 _ s ?_ hrun (by decide) (by simp [htotal])
    fun f u hf _ => htotal ▸ hkinds f u hf⟩
  refine ⟨id, id, id, id, ?_, ?_, trivial⟩
  · rintro ⟨u, front, e, -, hfront, -⟩
    cases hfront
  · rintro ⟨u, front, e, hu, hfront, -, -, hid, -⟩
    cases hu
    cases hfront
    cases hid

end Cynosure.SiteC
