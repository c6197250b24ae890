import Cynosure.SiteC.RwLockSteps

/-! # Exclusion and the turn of `LocalRwLock`

The source never writes down who is entitled to a free lock. It is a write
future that `wake_next` has popped: whenever the lock is free and a future is
queued, some waiting writer has been woken and not polled again. Readers never
hold the turn, because `wake_next` pops all of them at once.
-/

universe v

namespace Cynosure.SiteC

variable {W : Type v}

namespace RwState

/-- A write future that is waiting and has been woken since its last poll. -/
def WokenWriter (s : RwState W) : Prop :=
  ∃ f u, s.futs f = some u ∧ u.kind = .write ∧ u.Waiting ∧ u.woken = true

def Turn (s : RwState W) : Prop :=
  s.lock.Free → s.lock.readWaiters ≠ [] ∨ s.lock.writeWaiters ≠ [] → s.WokenWriter

theorem Turn.of_held {s : RwState W} (h : ¬ s.lock.Free) : s.Turn :=
  fun hf => absurd hf h

theorem WokenWriter.of_set {s t : RwState W} {f : Nat} {v : Option (Fut Access Unit W)}
    (h : s.WokenWriter) (ht : t.futs = s.futs.set f v)
    (hf : ∀ u, s.futs f = some u → u.kind = .read) : t.WokenWriter := by
  obtain ⟨g, u, hg, hk, hw, hn⟩ := h
  have hgf : g ≠ f := by
    rintro rfl
    have := hf u hg
    rw [hk] at this
    cases this
  exact ⟨g, u, by rw [ht, Futs.set_ne _ hgf, hg], hk, hw, hn⟩

end RwState

open RwState

variable [Waker W]

/-- The counters agree with the live guards, and the queues with the live futures. -/
structure RwSound (s : RwState W) : Prop where
  readers : s.lock.readers = s.readGuards
  writer : s.writeGuards = if s.lock.writer then 1 else 0
  exclusive : s.lock.writer = true → s.lock.readers = 0
  consistent : s.futs.Consistent
  ownsRead : s.futs.Owns (· = .read) s.lock.readWaiters
  ownsWrite : s.futs.Owns (· = .write) s.lock.writeWaiters

/-- Popping the front of `writeWaiters` wakes its owner. -/
theorem RwSound.wokenWriter_of_pop {s t : RwState W} (h : RwSound s) {e : Entry Unit W}
    {rest : Waiters Unit W} (hq : s.lock.writeWaiters = e :: rest)
    (ht : t.futs = s.futs.wake [e.waker]) : t.WokenWriter := by
  obtain ⟨f, u, hf, hk, -, hwait, hwoken⟩ := h.consistent.woken_owner h.ownsWrite
    (e := e) (by simp [hq]) (List.mem_singleton.mpr rfl)
  exact ⟨f, u, ht ▸ hf, hk, hwait, hwoken⟩

/-- `wake_next`, run in a sound state, keeps it sound and hands out the turn. -/
theorem RwSound.settle {s : RwState W} {l : LocalRwLock W} (h : RwSound { s with lock := l }) :
    RwSound (s.settle l.wakeNext) ∧ (s.settle l.wakeNext).Turn ∧
      (l.Free → (s.settle l.wakeNext).lock.readWaiters ≠ [] →
        (s.settle l.wakeNext).WokenWriter) := by
  by_cases hf : l.Free
  · cases hq : l.writeWaiters with
    | cons e rest =>
      have hw : (s.settle l.wakeNext).WokenWriter :=
        h.wokenWriter_of_pop hq (by rw [RwState.settle, l.wakeNext_of_writer hf hq])
      refine ⟨?_, fun _ _ => hw, fun _ _ => hw⟩
      simp only [RwState.settle, l.wakeNext_of_writer hf hq]
      refine ⟨h.readers, h.writer, h.exclusive, h.consistent.wake _, h.ownsRead.wake _, ?_⟩
      exact (h.ownsWrite.subset fun x hx => by simp [hq, hx]).wake _
    | nil =>
      simp only [RwState.settle, l.wakeNext_of_no_writer hf hq]
      refine ⟨⟨h.readers, h.writer, h.exclusive, h.consistent.wake _, ?_, h.ownsWrite.wake _⟩,
        ?_, ?_⟩
      · intro e he
        cases he
      · intro _ hne
        simp [hq] at hne
      · intro _ hne
        simp at hne
  · simp only [RwState.settle, l.wakeNext_of_held hf, Futs.wake_nil]
    exact ⟨h, fun hfree => absurd hfree hf, fun hfree => absurd hfree hf⟩

theorem RwSound.init : RwSound (RwState.init : RwState W) where
  readers := rfl
  writer := rfl
  exclusive := fun h => by cases h
  consistent := fun _ _ h => by cases h
  ownsRead := fun _ h => by cases h
  ownsWrite := fun _ h => by cases h

theorem RwSound.pollPending {s : RwState W} (h : RwSound s) {f : Nat} {u : Fut Access Unit W}
    (waker : W) (hf : s.futs f = some u) :
    RwSound { s with
      lock := (s.lock.registerIn u.registered waker u.kind).1
      futs := s.futs.set f
        (some (u.afterPoll (s.lock.registerIn u.registered waker u.kind).2 false waker)) } := by
  cases hk : u.kind with
  | read =>
    obtain ⟨e, hs, ht, -, -⟩ :=
      s.lock.readWaiters.register_spec s.lock.nextId u.registered () waker
    refine ⟨h.readers, h.writer, h.exclusive,
      h.consistent.set f (u.consistent_pending hs ht),
      h.ownsRead.register (v := u.afterPoll _ false waker) hf hk _ _ _ rfl, h.ownsWrite.set_of ?_⟩
    · intro u' hu' hw
      rw [hf] at hu'
      cases hu'
      rw [hk] at hw
      cases hw
  | write =>
    obtain ⟨e, hs, ht, -, -⟩ :=
      s.lock.writeWaiters.register_spec s.lock.nextId u.registered () waker
    refine ⟨h.readers, h.writer, h.exclusive,
      h.consistent.set f (u.consistent_pending hs ht),h.ownsRead.set_of ?_,
      h.ownsWrite.register (v := u.afterPoll _ false waker) hf hk _ _ _ rfl⟩
    · intro u' hu' hw
      rw [hf] at hu'
      cases hu'
      rw [hk] at hw
      cases hw

/-- A future leaves its queue, for good or with a guard. -/
theorem RwSound.deregister {s : RwState W} (h : RwSound s) {f : Nat} {u : Fut Access Unit W}
    {v : Option (Fut Access Unit W)} (hf : s.futs f = some u)
    (hv : (s.futs.set f v).Consistent) :
    RwSound { s with lock := s.lock.deregisterIn u.registered u.kind, futs := s.futs.set f v } := by
  have hother : ∀ (k : Access) (q : Waiters Unit W), u.kind ≠ k → s.futs.Owns (· = k) q →
      (s.futs.set f v).Owns (· = k) q := by
    intro k q hk hq
    refine hq.set_of ?_
    intro u' hu' hw
    rw [hf] at hu'
    cases hu'
    exact absurd hw hk
  cases hk : u.kind with
  | read =>
    exact ⟨h.readers, h.writer, h.exclusive, hv, h.ownsRead.deregister hf v,
      hother .write _ (by simp [hk]) h.ownsWrite⟩
  | write =>
    exact ⟨h.readers, h.writer, h.exclusive, hv,
      hother .read _ (by simp [hk]) h.ownsRead, h.ownsWrite.deregister hf v⟩

theorem RwSound.afterDropRead {s : RwState W} (h : RwSound s) :
    RwSound { s with readGuards := s.readGuards - 1
                     lock := { s.lock with readers := s.lock.readers - 1 } } where
  readers := by simp [h.readers]
  writer := h.writer
  exclusive := fun hw => by simp [h.exclusive hw]
  consistent := h.consistent
  ownsRead := h.ownsRead
  ownsWrite := h.ownsWrite

theorem RwSound.afterDropWrite {s : RwState W} (h : RwSound s) (hg : 0 < s.writeGuards) :
    RwSound { s with writeGuards := s.writeGuards - 1
                     lock := { s.lock with writer := false } } where
  readers := h.readers
  writer := by
    have := h.writer
    split at this <;> simp_all
  exclusive := fun hw => by cases hw
  consistent := h.consistent
  ownsRead := h.ownsRead
  ownsWrite := h.ownsWrite

theorem RwSound.dropFuture {s : RwState W} (h : RwSound s) {f : Nat} {u : Fut Access Unit W}
    (hf : s.futs f = some u) : RwSound (s.dropFuture f u) := by
  have hd := h.deregister hf (h.consistent.erase f)
  unfold RwState.dropFuture
  split
  · exact hd.settle.1
  · rename_i hr
    have hr : u.registered = none := by simpa using hr
    cases hk : u.kind <;> simpa [hr, hk, LocalRwLock.deregisterIn] using hd

theorem RwSound.step {s t : RwState W} {op : RwOp W} (h : RwSound s) (hs : RwStep s op t) :
    RwSound t := by
  cases hs with
  | stay => exact h
  | tryRead hw =>
    exact ⟨by simp [h.readers], h.writer, fun hw' => by simp [hw] at hw', h.consistent, h.ownsRead,
      h.ownsWrite⟩
  | tryWrite hfree =>
    refine ⟨h.readers, ?_, fun _ => hfree.1, h.consistent, h.ownsRead, h.ownsWrite⟩
    simp [h.writer, hfree.2]
  | dropReadGuard _ => exact h.afterDropRead.settle.1
  | dropWriteGuard hg => exact (h.afterDropWrite hg).settle.1
  | create hf =>
    refine ⟨h.readers, h.writer, h.exclusive, h.consistent.set _ (Fut.consistent_fresh _),
      h.ownsRead.set_of ?_, h.ownsWrite.set_of ?_⟩
    · intro u hu
      simp [hf] at hu
    · intro u hu
      simp [hf] at hu
  | pollPending hf _ => exact h.pollPending _ hf
  | @pollRead f u waker hf hk hw _ =>
    have hd := h.deregister hf (h.consistent.set f (u.consistent_ready waker))
    rw [hk] at hd
    exact ⟨by simp [h.readers], hd.writer, fun hw' => by simp [hw] at hw', hd.consistent,
      hd.ownsRead, hd.ownsWrite⟩
  | @pollWrite f u waker hf hk hfree =>
    have hd := h.deregister hf (h.consistent.set f (u.consistent_ready waker))
    rw [hk] at hd
    refine ⟨hd.readers, ?_, fun _ => hfree.1, hd.consistent, hd.ownsRead, hd.ownsWrite⟩
    simp [h.writer, hfree.2]
  | dropFuture hf => exact h.dropFuture hf

theorem RwSound.turn_step {s t : RwState W} {op : RwOp W} (h : RwSound s) (hT : s.Turn)
    (hs : RwStep s op t) : t.Turn := by
  cases hs with
  | stay => exact hT
  | tryRead _ => exact .of_held (by simp [LocalRwLock.Free])
  | tryWrite _ => exact .of_held (by simp [LocalRwLock.Free])
  | dropReadGuard _ => exact h.afterDropRead.settle.2.1
  | dropWriteGuard hg => exact (h.afterDropWrite hg).settle.2.1
  | create hf =>
    intro hfree hne
    exact (hT hfree hne).of_set rfl (fun u hu => by simp [hf] at hu)
  | @pollPending f u waker hf hb =>
    -- A write poll is pending only on a held lock. A read poll is pending on a free
    -- lock only behind a queued writer, and then the old turn still stands.
    intro hfree _
    cases hk : u.kind with
    | write =>
      rw [hk] at hb hfree
      exact absurd hfree hb
    | read =>
      rw [hk] at hb hfree
      have hq : s.lock.writeWaiters ≠ [] := by
        rcases hb with hw | hq
        · exact absurd hfree.2 (by simp [LocalRwLock.registerIn, hw])
        · exact hq
      refine (hT hfree (.inr hq)).of_set rfl ?_
      intro u' hu'
      rw [hf] at hu'
      cases hu'
      exact hk
  | pollRead _ _ _ _ => exact .of_held (by simp [LocalRwLock.Free])
  | pollWrite _ _ _ => exact .of_held (by simp [LocalRwLock.Free])
  | @dropFuture f u hf =>
    have hd := h.deregister hf (h.consistent.erase f)
    unfold RwState.dropFuture
    split
    · exact hd.settle.2.1
    · rename_i hr
      intro hfree hne
      obtain ⟨g, v, hg, hk, hw, hn⟩ := hT hfree hne
      have hgf : g ≠ f := by
        rintro rfl
        rw [hf] at hg
        cases hg
        obtain ⟨e, he⟩ := (h.consistent g u hf).waiting_iff.mp hw
        simp [he] at hr
      exact ⟨g, v, (Futs.set_ne _ hgf _).trans hg, hk, hw, hn⟩

theorem rwMachine_sound {width : Nat} {ops : List (RwOp W)} {s : RwState W}
    (h : (rwMachine W width).run .init ops = some s) : RwSound s ∧ s.Turn :=
  Machine.run_preserves (I := fun s => RwSound s ∧ s.Turn)
    (fun _ _ _ hI hs => ⟨hI.1.step (rwMachine_step hs), hI.1.turn_step hI.2 (rwMachine_step hs)⟩)
    ⟨.init, fun _ hne => by simp [RwState.init, LocalRwLock.new] at hne⟩ h

/-- A write future polled on a free lock acquires it. -/
theorem pollFuture_acquires {width : Nat} {t : RwState W} {f : Nat} {u : Fut Access Unit W}
    (hf : t.futs f = some u) (hk : u.kind = .write) (hfree : t.lock.Free) (waker : W) :
    (t.exec width (.poll f waker)).map Prod.snd = some .acquired := by
  simp [exec, hf, pollFuture, hk, LocalRwLock.pollWrite_of_free u.registered waker hfree]

/-- The guards are what the cells say they are, and a free lock with a queue has been
offered to a live future, which gets it if it is a writer and polls in time. -/
theorem rwlock_excludes_and_offers_turn (width : Nat) (ops : List (RwOp W)) (s : RwState W)
    (h : (rwMachine W width).run .init ops = some s) :
    s.lock.readers = s.readGuards ∧ (s.lock.writer = true ↔ s.writeGuards = 1) ∧
    s.writeGuards ≤ 1 ∧ ¬ (0 < s.lock.readers ∧ s.lock.writer = true) ∧
    (s.lock.Free → s.lock.readWaiters ≠ [] ∨ s.lock.writeWaiters ≠ [] →
      ∃ f u, s.futs f = some u ∧ u.Waiting ∧ u.woken = true ∧
        ∀ more t u', (rwMachine W width).run s more = some t → t.futs f = some u' →
          u'.kind = .write → t.lock.Free →
          ∀ waker, (t.exec width (.poll f waker)).map Prod.snd = some .acquired) := by
  obtain ⟨hs, hT⟩ := rwMachine_sound h
  have hw := hs.writer
  refine ⟨hs.readers, ?_, ?_, ?_, ?_⟩
  · cases hl : s.lock.writer <;> simp [hw, hl]
  · split at hw <;> omega
  · rintro ⟨hr, hl⟩
    have := hs.exclusive hl
    omega
  · intro hfree hne
    obtain ⟨f, u, hf, -, hwait, hwoken⟩ := hT hfree hne
    exact ⟨f, u, hf, hwait, hwoken, fun _ _ _ _ hf' hk hfree' => pollFuture_acquires hf' hk hfree'⟩

/-- A writer and a reader queue behind a read guard; its drop wakes the writer. -/
theorem rwlock_turn_after_guard_drop : ∃ s : RwState Waker.OfTask,
    (rwMachine Waker.OfTask 64).run .init
      [.tryRead, .create 0 .write, .poll 0 ⟨0⟩, .create 1 .read, .poll 1 ⟨1⟩, .dropReadGuard] =
      some s ∧
    s.lock.Free ∧ s.lock.readWaiters ≠ [] ∧ ∃ f u, s.futs f = some u ∧ u.Waiting ∧ u.woken = true := by
  refine ⟨_, rfl, ⟨rfl, rfl⟩, by decide, ?_⟩
  obtain ⟨-, -, -, -, h⟩ := rwlock_excludes_and_offers_turn 64
    [.tryRead, .create 0 .write, .poll 0 (⟨0⟩ : Waker.OfTask), .create 1 .read, .poll 1 ⟨1⟩,
      .dropReadGuard] _ rfl
  obtain ⟨f, u, hf, hwait, hwoken, -⟩ := h ⟨rfl, rfl⟩ (.inl (by decide))
  exact ⟨f, u, hf, hwait, hwoken⟩

end Cynosure.SiteC
