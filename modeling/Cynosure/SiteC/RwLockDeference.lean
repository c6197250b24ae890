import Cynosure.SiteC.RwLockTurn

/-! # Deference of readers to writers in `LocalRwLock`

Two things follow from deciding deference by the emptiness of `write_waiters`.
A reader parked behind a queued writer has a reason to wait only as long as that
writer is there, and `Drop` of the writer wakes it only when the lock is free.
And a writer that `wake_next` has popped is no longer deferred to, although it
has not acquired yet.
-/

universe v

namespace Cynosure.SiteC

variable {W : Type v}

namespace RwState

def WaitingWriter (s : RwState W) : Prop :=
  ∃ f u, s.futs f = some u ∧ u.kind = .write ∧ u.Waiting

/-- Every parked reader has a reason to be parked: a writer that holds or is queued,
or another future that is about to be polled. -/
def ReadersJustified (s : RwState W) : Prop :=
  ∀ f u e, s.futs f = some u → u.kind = .read → u.registered = some e →
    e ∈ s.lock.readWaiters → u.woken = false →
    s.lock.writer = true ∨
    (∃ g v x, s.futs g = some v ∧ v.kind = .write ∧ v.registered = some x ∧
      x ∈ s.lock.writeWaiters) ∨
    ∃ g v, g ≠ f ∧ s.futs g = some v ∧ v.Waiting ∧ v.woken = true

/-- The call drops the last write future that readers defer to, under live read guards. -/
def StrandsReaders (s : RwState W) : RwOp W → Prop
  | .dropFuture f => ∃ u, s.futs f = some u ∧ u.kind = .write ∧ u.Waiting ∧
      0 < s.lock.readers ∧ s.lock.readWaiters ≠ [] ∧
      s.lock.writeWaiters.deregister u.registered = [] ∧
      ¬ ∃ g v, g ≠ f ∧ s.futs g = some v ∧ v.kind = .write ∧ v.Waiting ∧ v.woken = true
  | _ => False

/-- Queued readers wait for a writer: one that holds, is queued, or was woken. -/
def Deferred (s : RwState W) : Prop :=
  s.lock.readWaiters ≠ [] → s.lock.writer = true ∨ s.lock.writeWaiters ≠ [] ∨ s.WokenWriter

variable [Waker W]

/-- A poll of a `read()` future acquires while a `write()` future is waiting. -/
def ReadsPastWriter (width : Nat) (s : RwState W) : RwOp W → Prop
  | .poll f waker => (∃ u, s.futs f = some u ∧ u.kind = .read) ∧ s.WaitingWriter ∧
      (s.exec width (.poll f waker)).map Prod.snd = some .acquired
  | _ => False

/-- The call polls a `read()` future between the pop of the last waiting writer by
`wake_next` and that writer's next poll, with room in the reader count. -/
def PollsInWindow (width : Nat) (s : RwState W) : RwOp W → Prop
  | .poll f _ => (∃ u, s.futs f = some u ∧ u.kind = .read) ∧ s.WaitingWriter ∧
      s.lock.writer = false ∧ s.lock.writeWaiters = [] ∧ s.lock.readers + 1 < 2 ^ width
  | _ => False

end RwState

open RwState

theorem deregister_ne_nil {ρ : Type*} {q : Waiters ρ W} {slot : Option (Entry ρ W)}
    (h : q.deregister slot ≠ []) : q ≠ [] := by
  rintro rfl
  cases slot <;> exact h rfl

variable [Waker W]

theorem RwSound.justified {s : RwState W} (h : RwSound s) (hD : s.Deferred) :
    s.ReadersJustified := by
  intro f u e hf hk he hmem _
  rcases hD (List.ne_nil_of_mem hmem) with hw | hq | ⟨g, v, hg, hkv, hwait, hwoken⟩
  · exact .inl hw
  · obtain ⟨x, hx⟩ := List.exists_mem_of_ne_nil _ hq
    obtain ⟨g, v, hg, hkv, hv⟩ := h.ownsWrite x hx
    exact .inr (.inl ⟨g, v, x, hg, hkv, hv, hx⟩)
  · refine .inr (.inr ⟨g, v, ?_, hg, hwait, hwoken⟩)
    rintro rfl
    rw [hf] at hg
    cases hg
    rw [hk] at hkv
    cases hkv

theorem RwSound.deferred_settle {s : RwState W} {l : LocalRwLock W}
    (h : RwSound { s with lock := l }) (hD : ¬ l.Free → (s.settle l.wakeNext).Deferred) :
    (s.settle l.wakeNext).Deferred := by
  by_cases hf : l.Free
  · exact fun hne => .inr (.inr (h.settle.2.2 hf hne))
  · exact hD hf

theorem RwState.settle_of_held {s : RwState W} {l : LocalRwLock W} (hf : ¬ l.Free) :
    s.settle l.wakeNext = { s with lock := l } := by
  simp only [RwState.settle, l.wakeNext_of_held hf, Futs.wake_nil]

theorem RwState.Deferred.pollPending {s : RwState W} {f : Nat} {u : Fut Access Unit W} {waker : W}
    (hb : s.lock.Blocks u.kind) :
    Deferred { s with
      lock := (s.lock.registerIn u.registered waker u.kind).1
      futs := s.futs.set f
        (some (u.afterPoll (s.lock.registerIn u.registered waker u.kind).2 false waker)) } := by
  intro hne
  cases hk : u.kind with
  | read =>
    rw [hk] at hb
    rcases hb with hw | hq
    · exact .inl hw
    · exact .inr (.inl hq)
  | write =>
    obtain ⟨e, -, -, hq, -⟩ :=
      s.lock.writeWaiters.register_spec s.lock.nextId u.registered () waker
    exact .inr (.inl hq)

/-- The one case that needs the condition: a waiting writer is dropped while read
guards are live, so that `wake_next` returns without waking anyone. -/
theorem RwSound.deferred_dropFuture {s : RwState W} (h : RwSound s) (hD : s.Deferred) {f : Nat}
    {u : Fut Access Unit W} (hf : s.futs f = some u) (hok : ¬ s.StrandsReaders (.dropFuture f)) :
    (s.dropFuture f u).Deferred := by
  have hd := h.deregister hf (h.consistent.erase f)
  have hc := h.consistent f u hf
  have hset : ∀ g v, g ≠ f → s.futs g = some v → s.futs.set f none g = some v := fun g v hg hv =>
    (Futs.set_ne _ hg _).trans hv
  unfold RwState.dropFuture
  split
  · rename_i hr
    obtain ⟨e, he⟩ := Option.isSome_iff_exists.mp hr
    refine hd.deferred_settle fun hheld => ?_
    simp only [settle_of_held hheld]
    intro hne
    cases hk : u.kind with
    | read =>
      simp only [hk, LocalRwLock.deregisterIn] at hne hheld
      rcases hD (deregister_ne_nil hne) with hw | hq | hW
      · exact .inl hw
      · exact .inr (.inl hq)
      · exact .inr (.inr (hW.of_set rfl fun u' hu' => by rw [hf] at hu'; cases hu'; exact hk))
    | write =>
      simp only [hk, LocalRwLock.deregisterIn] at hne hheld
      by_cases hw : s.lock.writer = true
      · exact .inl hw
      by_cases hq : s.lock.writeWaiters.deregister u.registered = []
      · by_cases hG : ∃ g v, g ≠ f ∧ s.futs g = some v ∧ v.kind = .write ∧ v.Waiting ∧ v.woken = true
        · obtain ⟨g, v, hgf, hg, hrest⟩ := hG
          exact .inr (.inr ⟨g, v, hset g v hgf hg, hrest⟩)
        · refine absurd ⟨u, hf, hk, hc.waiting_iff.mpr ⟨e, he⟩, ?_, hne, hq, hG⟩ hok
          simp only [LocalRwLock.Free, not_and, Bool.not_eq_false] at hheld
          exact Nat.pos_of_ne_zero fun h0 => hw (hheld h0)
      · exact .inr (.inl hq)
  · rename_i hr
    intro hne
    rcases hD hne with hw | hq | ⟨g, v, hg, hk, hwait, hwoken⟩
    · exact .inl hw
    · exact .inr (.inl hq)
    · have hgf : g ≠ f := by
        rintro rfl
        rw [hf] at hg
        cases hg
        obtain ⟨e, he⟩ := hc.waiting_iff.mp hwait
        simp [he] at hr
      exact .inr (.inr ⟨g, v, hset g v hgf hg, hk, hwait, hwoken⟩)

theorem RwSound.deferred_step {s t : RwState W} {op : RwOp W} (h : RwSound s) (hD : s.Deferred)
    (hok : ¬ s.StrandsReaders op) (hs : RwStep s op t) : t.Deferred := by
  cases hs with
  | stay => exact hD
  | tryRead _ => exact hD
  | tryWrite _ => exact fun _ => .inl rfl
  | dropReadGuard _ =>
    refine h.afterDropRead.deferred_settle fun hheld => ?_
    rw [settle_of_held hheld]
    exact hD
  | dropWriteGuard hg =>
    refine (h.afterDropWrite hg).deferred_settle fun hheld => ?_
    have hw := h.writer
    split at hw
    · rename_i hl
      exact absurd ⟨h.exclusive hl, rfl⟩ hheld
    · omega
  | create hf =>
    intro hne
    rcases hD hne with hw | hq | hW
    · exact .inl hw
    · exact .inr (.inl hq)
    · exact .inr (.inr (hW.of_set rfl fun u hu => by simp [hf] at hu))
  | pollPending _ hb => exact .pollPending hb
  | pollRead hf hk hw hq =>
    intro hne
    rcases hD (deregister_ne_nil hne) with hw' | hq' | hW
    · exact absurd hw' (by simp [hw])
    · exact absurd hq hq'
    · exact .inr (.inr (hW.of_set rfl fun u' hu' => by rw [hf] at hu'; cases hu'; exact hk))
  | pollWrite _ _ _ => exact fun _ => .inl rfl
  | dropFuture hf => exact h.deferred_dropFuture hD hf hok

/-- In a run that never drops the last deferred-to writer under live read guards, no
reader is parked that could read. -/
theorem rwlock_readers_justified (width : Nat) (ops : List (RwOp W)) (s : RwState W)
    (hok : (rwMachine W width).Along (fun s op => ¬ s.StrandsReaders op) .init ops)
    (h : (rwMachine W width).run .init ops = some s) : s.ReadersJustified := by
  have hI := Machine.run_preserves_along (I := fun s => RwSound s ∧ s.Deferred)
    (fun _ _ _ hI hok hs =>
      ⟨hI.1.step (rwMachine_step hs), hI.1.deferred_step hI.2 hok (rwMachine_step hs)⟩)
    ⟨.init, fun hne => by simp [RwState.init, LocalRwLock.new] at hne⟩ hok h
  exact hI.1.justified hI.2

/-- A reader parked behind the guard of a writer. -/
theorem rwlock_readers_justified_behind_writer : ∃ s : RwState Waker.OfTask,
    (rwMachine Waker.OfTask 64).run .init [.tryWrite, .create 0 .read, .poll 0 ⟨0⟩] = some s ∧
    s.lock.readWaiters ≠ [] ∧ s.ReadersJustified := by
  refine ⟨_, rfl, by decide,
    rwlock_readers_justified 64 [.tryWrite, .create 0 .read, .poll 0 ⟨0⟩] _ ?_ rfl⟩
  refine Machine.along_of_forall ?_ _
  rintro a ha s
  fin_cases ha <;> exact id

/-- The drop that the condition leaves out: a read guard is live, a reader defers to the
only queued writer, and the writer is cancelled. -/
theorem rwlock_cancelled_writer_strands_reader : ∃ s : RwState Waker.OfTask,
    (rwMachine Waker.OfTask 64).run .init
      [.tryRead, .create 0 .write, .poll 0 ⟨0⟩, .create 1 .read, .poll 1 ⟨1⟩, .dropFuture 0] =
      some s ∧ ¬ s.ReadersJustified := by
  refine ⟨_, rfl, fun h => ?_⟩
  rcases h 1 ⟨.read, some ⟨1, (), ⟨1⟩⟩, some ⟨1⟩, false, false⟩ ⟨1, (), ⟨1⟩⟩ rfl rfl rfl
    (by decide) rfl with hw | ⟨g, v, x, -, -, -, hx⟩ | ⟨g, v, hg, hv, -, hwoken⟩
  · exact absurd hw (by decide)
  · exact List.not_mem_nil hx
  · -- Name 0 is free again, name 1 is the reader itself, and nothing else was created.
    rcases g with _ | _ | g
    · cases hv
    · exact hg rfl
    · cases hv

/-- The step left out does break the property, unless some read future was already woken. -/
theorem RwSound.stranded {s : RwState W} (h : RwSound s) {f : Nat} {u : Fut Access Unit W}
    (hf : s.futs f = some u) (hs : s.StrandsReaders (.dropFuture f))
    (hread : ∀ g v, s.futs g = some v → v.kind = .read → v.woken = false) :
    ¬ (s.dropFuture f u).ReadersJustified := by
  obtain ⟨u', hf', hk, hwait, hr, hne, hq, hG⟩ := hs
  rw [hf] at hf'
  cases hf'
  obtain ⟨e, he⟩ := (h.consistent f u hf).waiting_iff.mp hwait
  have hheld : ¬ (s.lock.deregisterIn u.registered u.kind).Free := by
    rintro ⟨h0, -⟩
    rw [LocalRwLock.deregisterIn_readers] at h0
    omega
  have hdrop : s.dropFuture f u = { s with
      lock := s.lock.deregisterIn u.registered u.kind, futs := s.futs.set f none } := by
    simp only [RwState.dropFuture, he, Option.isSome_some, if_true]
    rw [he] at hheld
    exact settle_of_held hheld
  obtain ⟨x, hx⟩ := List.exists_mem_of_ne_nil _ hne
  obtain ⟨g, v, hg, hkv, hv⟩ := h.ownsRead x hx
  have hgf : g ≠ f := by
    rintro rfl
    rw [hf] at hg
    cases hg
    rw [hk] at hkv
    cases hkv
  rw [hdrop, hk]
  intro hJ
  rcases hJ g v x ((Futs.set_ne _ hgf _).trans hg) hkv hv hx (hread g v hg hkv) with
    hw | ⟨_, _, y, -, -, -, hy⟩ | ⟨k, w, -, hw, hwt, hwk⟩
  · have := h.exclusive hw
    omega
  · have hy' : y ∈ s.lock.writeWaiters.deregister u.registered := hy
    rw [hq] at hy'
    exact List.not_mem_nil hy'
  · have hkf : k ≠ f := by
      rintro rfl
      simp at hw
    have hw' : s.futs k = some w := (Futs.set_ne _ hkf _).symm.trans hw
    cases hkw : w.kind with
    | read => simp [hread k w hw' hkw] at hwk
    | write => exact hG ⟨k, w, hkf, hw', hkw, hwt, hwk⟩

theorem readsPastWriter_iff (width : Nat) (s : RwState W) (op : RwOp W) :
    s.ReadsPastWriter width op ↔ s.PollsInWindow width op := by
  cases op with
  | poll f waker =>
    simp only [ReadsPastWriter, PollsInWindow]
    refine and_congr_right ?_
    rintro ⟨u, hf, hk⟩
    refine and_congr_right fun _ => ?_
    by_cases hb : s.lock.writer = true ∨ s.lock.writeWaiters ≠ []
    · have hp := LocalRwLock.pollRead_of_blocked width u.registered waker hb
      simp only [exec, hf, Option.map_some, pollFuture, hk, hp, Bool.false_eq_true, if_false]
      constructor
      · intro h
        cases h
      · rintro ⟨hw, hq, -⟩
        rcases hb with hb | hb
        · simp [hw] at hb
        · exact absurd hq hb
    · obtain ⟨hw, hq⟩ : s.lock.writer = false ∧ s.lock.writeWaiters = [] := by simpa using hb
      have hp := LocalRwLock.pollRead_of_open width u.registered waker hw hq
      by_cases hr : s.lock.readers + 1 < 2 ^ width <;>
        simp [exec, hf, pollFuture, hk, hp, LocalRwLock.addReader, hr, Except.map, hw, hq]
  | _ => exact Iff.rfl

/-- A run respects write preference exactly when it never polls a reader in the window
between a writer's wake and its next poll. -/
theorem rwlock_write_preference_iff (width : Nat) (ops : List (RwOp W)) :
    (rwMachine W width).Along (fun s op => ¬ s.ReadsPastWriter width op) .init ops ↔
      (rwMachine W width).Along (fun s op => ¬ s.PollsInWindow width op) .init ops :=
  Machine.along_congr (fun s op => not_congr (readsPastWriter_iff width s op)) _ _

/-- A reader acquires between the wake of the only writer and that writer's next poll. -/
theorem rwlock_reader_overtakes_woken_writer : ∃ s : RwState Waker.OfTask,
    (rwMachine Waker.OfTask 64).run .init
      [.tryRead, .create 0 .write, .poll 0 ⟨0⟩, .dropReadGuard, .create 1 .read] = some s ∧
    s.ReadsPastWriter 64 (.poll 1 ⟨1⟩) :=
  ⟨_, rfl, ⟨.fresh .read, rfl, rfl⟩,
    ⟨0, ⟨.write, some ⟨0, (), ⟨0⟩⟩, some ⟨0⟩, true, false⟩, rfl, rfl, rfl⟩, by decide⟩

end Cynosure.SiteC
