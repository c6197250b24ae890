import Cynosure.SiteC.RwLock

/-! # What one call on `LocalRwLock` can do

Every call changes the machine in one of ten ways. The list is proved once from
the code, and each invariant is a case analysis over it.
-/

universe v

namespace Cynosure.SiteC

namespace LocalRwLock

variable {W : Type v}

theorem free_iff {l : LocalRwLock W} : (l.writer || decide (0 < l.readers)) = false ↔ l.Free := by
  simp [Free, and_comm]

theorem tryWrite_of_free {l : LocalRwLock W} (h : l.Free) :
    l.tryWrite = some { l with writer := true } := by
  simp [tryWrite, h.1, h.2]

theorem tryWrite_of_held {l : LocalRwLock W} (h : ¬ l.Free) : l.tryWrite = none := by
  simp only [tryWrite, Free, Bool.and_eq_true, beq_iff_eq, Bool.not_eq_true',
    ite_eq_right_iff, reduceCtorEq, imp_false] at h ⊢
  exact h

theorem addReader_cases (width : Nat) (l : LocalRwLock W) :
    (∃ m, l.addReader width = .error m) ∨
      l.addReader width = .ok { l with readers := l.readers + 1 } := by
  unfold addReader
  split
  · exact .inr rfl
  · exact .inl ⟨_, rfl⟩

theorem tryRead_of_writer {l : LocalRwLock W} (width : Nat) (h : l.writer = true) :
    l.tryRead width = .ok none := by
  simp [tryRead, h]

theorem tryRead_of_no_writer {l : LocalRwLock W} (width : Nat) (h : l.writer = false) :
    l.tryRead width = (l.addReader width).map some := by
  simp [tryRead, h]

theorem tryReadFair_of_blocked {l : LocalRwLock W} (width : Nat)
    (h : l.writer = true ∨ l.writeWaiters ≠ []) : l.tryReadFair width = .ok none := by
  rcases h with h | h <;> simp [tryReadFair, h]

theorem tryReadFair_of_open {l : LocalRwLock W} (width : Nat) (h : l.writer = false)
    (hq : l.writeWaiters = []) : l.tryReadFair width = (l.addReader width).map some := by
  simp [tryReadFair, h, hq]

theorem wakeNext_of_held {l : LocalRwLock W} (h : ¬ l.Free) : l.wakeNext = (l, []) := by
  have : (l.writer || decide (0 < l.readers)) = true := by
    rw [← Bool.not_eq_false, free_iff]
    exact h
  simp only [wakeNext, this, if_true]

theorem wakeNext_of_writer {l : LocalRwLock W} (h : l.Free) {e : Entry Unit W} {rest : Waiters Unit W}
    (hq : l.writeWaiters = e :: rest) :
    l.wakeNext = ({ l with writeWaiters := rest }, [e.waker]) := by
  simp only [wakeNext, free_iff.mpr h, Bool.false_eq_true, if_false, hq]

theorem wakeNext_of_no_writer {l : LocalRwLock W} (h : l.Free) (hq : l.writeWaiters = []) :
    l.wakeNext = ({ l with readWaiters := [] }, l.readWaiters.map Entry.waker) := by
  simp only [wakeNext, free_iff.mpr h, Bool.false_eq_true, if_false, hq]

@[simp] theorem deregisterIn_readers (l : LocalRwLock W) (slot : Option (Entry Unit W)) (k : Access) :
    (l.deregisterIn slot k).readers = l.readers := by cases k <;> rfl
@[simp] theorem deregisterIn_writer (l : LocalRwLock W) (slot : Option (Entry Unit W)) (k : Access) :
    (l.deregisterIn slot k).writer = l.writer := by cases k <;> rfl

variable [Waker W]

theorem pollRead_of_blocked {l : LocalRwLock W} (width : Nat) (slot : Option (Entry Unit W))
    (waker : W) (h : l.writer = true ∨ l.writeWaiters ≠ []) :
    l.pollRead width slot waker =
      .ok ((l.registerIn slot waker .read).1, (l.registerIn slot waker .read).2, false) := by
  have h' : (l.registerIn slot waker .read).1.tryReadFair width = .ok none :=
    tryReadFair_of_blocked width h
  simp [pollRead, tryReadFair_of_blocked width h, h', bind, Except.bind, pure, Except.pure]

theorem pollRead_of_open {l : LocalRwLock W} (width : Nat) (slot : Option (Entry Unit W))
    (waker : W) (h : l.writer = false) (hq : l.writeWaiters = []) :
    l.pollRead width slot waker =
      (l.addReader width).map fun l' => (l'.deregisterIn slot .read, none, true) := by
  rw [pollRead, tryReadFair_of_open width h hq]
  rcases l.addReader_cases width with ⟨m, hm⟩ | hm <;> rw [hm] <;> rfl

theorem pollWrite_of_free {l : LocalRwLock W} (slot : Option (Entry Unit W)) (waker : W)
    (h : l.Free) :
    l.pollWrite slot waker = ({ l with writer := true }.deregisterIn slot .write, none, true) := by
  simp [pollWrite, tryWrite_of_free h]

theorem pollWrite_of_held {l : LocalRwLock W} (slot : Option (Entry Unit W)) (waker : W)
    (h : ¬ l.Free) : l.pollWrite slot waker =
      ((l.registerIn slot waker .write).1, (l.registerIn slot waker .write).2, false) := by
  have h' : (l.registerIn slot waker .write).1.tryWrite = none := tryWrite_of_held h
  simp [pollWrite, tryWrite_of_held h, h']

end LocalRwLock

/-- What the future `u` must find for its poll to return `Pending`. -/
def LocalRwLock.Blocks {W : Type v} (l : LocalRwLock W) : Access → Prop
  | .read => l.writer = true ∨ l.writeWaiters ≠ []
  | .write => ¬ l.Free

/-- The ten effects of a call. `stay` is a refusal or a panic of the reader count. -/
inductive RwStep {W : Type v} [Waker W] (s : RwState W) : RwOp W → RwState W → Prop
  | stay {op : RwOp W} : RwStep s op s
  | tryRead (hw : s.lock.writer = false) :
    RwStep s .tryRead { s with lock := { s.lock with readers := s.lock.readers + 1 }
                               readGuards := s.readGuards + 1 }
  | tryWrite (hf : s.lock.Free) :
    RwStep s .tryWrite { s with lock := { s.lock with writer := true }
                                writeGuards := s.writeGuards + 1 }
  | dropReadGuard (hg : 0 < s.readGuards) :
    RwStep s .dropReadGuard ({ s with readGuards := s.readGuards - 1 }.settle s.lock.releaseRead)
  | dropWriteGuard (hg : 0 < s.writeGuards) :
    RwStep s .dropWriteGuard ({ s with writeGuards := s.writeGuards - 1 }.settle s.lock.releaseWrite)
  | create {f : Nat} {kind : Access} (hf : s.futs f = none) :
    RwStep s (.create f kind) { s with futs := s.futs.set f (some (.fresh kind)) }
  | pollPending {f : Nat} {u : Fut Access Unit W} {waker : W} (hf : s.futs f = some u)
    (hb : s.lock.Blocks u.kind) :
    RwStep s (.poll f waker) { s with
      lock := (s.lock.registerIn u.registered waker u.kind).1
      futs := s.futs.set f
        (some (u.afterPoll (s.lock.registerIn u.registered waker u.kind).2 false waker)) }
  | pollRead {f : Nat} {u : Fut Access Unit W} {waker : W} (hf : s.futs f = some u)
    (hk : u.kind = .read) (hw : s.lock.writer = false) (hq : s.lock.writeWaiters = []) :
    RwStep s (.poll f waker) { s with
      lock := { s.lock with readers := s.lock.readers + 1 }.deregisterIn u.registered .read
      futs := s.futs.set f (some (u.afterPoll none true waker))
      readGuards := s.readGuards + 1 }
  | pollWrite {f : Nat} {u : Fut Access Unit W} {waker : W} (hf : s.futs f = some u)
    (hk : u.kind = .write) (hfree : s.lock.Free) :
    RwStep s (.poll f waker) { s with
      lock := { s.lock with writer := true }.deregisterIn u.registered .write
      futs := s.futs.set f (some (u.afterPoll none true waker))
      writeGuards := s.writeGuards + 1 }
  | dropFuture {f : Nat} {u : Fut Access Unit W} (hf : s.futs f = some u) :
    RwStep s (.dropFuture f) (s.dropFuture f u)

namespace RwState

variable {W : Type v} [Waker W]

theorem pollFuture_step (width : Nat) (s : RwState W) {f : Nat} {u : Fut Access Unit W} (waker : W)
    (hf : s.futs f = some u) : RwStep s (.poll f waker) (s.pollFuture width f u waker).1 := by
  cases hk : u.kind with
  | read =>
    by_cases hb : s.lock.writer = true ∨ s.lock.writeWaiters ≠ []
    · have h : RwStep s (.poll f waker) _ := .pollPending hf (hk ▸ hb)
      simpa [pollFuture, hk, LocalRwLock.pollRead_of_blocked width u.registered waker hb] using h
    · obtain ⟨hw, hq⟩ : s.lock.writer = false ∧ s.lock.writeWaiters = [] := by simpa using hb
      have hp := LocalRwLock.pollRead_of_open width u.registered waker hw hq
      rcases s.lock.addReader_cases width with ⟨m, hm⟩ | hm
      · simp only [pollFuture, hk, hp, hm, Except.map]
        exact .stay
      · simp only [pollFuture, hk, hp, hm, Except.map, if_true]
        exact .pollRead hf hk hw hq
  | write =>
    by_cases hfree : s.lock.Free
    · simp only [pollFuture, hk, LocalRwLock.pollWrite_of_free u.registered waker hfree, if_true]
      exact .pollWrite hf hk hfree
    · have h : RwStep s (.poll f waker) _ := .pollPending hf (hk ▸ hfree)
      simpa [pollFuture, hk, LocalRwLock.pollWrite_of_held u.registered waker hfree] using h

theorem exec_step {width : Nat} {s t : RwState W} {op : RwOp W} {o : RwOutcome}
    (h : s.exec width op = some (t, o)) : RwStep s op t := by
  cases op with
  | tryRead =>
    cases hw : s.lock.writer with
    | true =>
      simp only [exec, LocalRwLock.tryRead_of_writer width hw, Option.some.injEq,
        Prod.mk.injEq] at h
      exact h.1 ▸ .stay
    | false =>
      rcases s.lock.addReader_cases width with ⟨m, hm⟩ | hm <;>
        simp only [exec, LocalRwLock.tryRead_of_no_writer width hw, hm, Except.map,
          Option.some.injEq, Prod.mk.injEq] at h
      · exact h.1 ▸ .stay
      · exact h.1 ▸ .tryRead hw
  | tryWrite =>
    by_cases hf : s.lock.Free
    · simp only [exec, LocalRwLock.tryWrite_of_free hf, Option.some.injEq, Prod.mk.injEq] at h
      exact h.1 ▸ .tryWrite hf
    · simp only [exec, LocalRwLock.tryWrite_of_held hf, Option.some.injEq, Prod.mk.injEq] at h
      exact h.1 ▸ .stay
  | dropReadGuard =>
    simp only [exec] at h
    split at h
    · cases h
    · rename_i hg
      simp only [Option.some.injEq, Prod.mk.injEq] at h
      exact h.1 ▸ .dropReadGuard (Nat.pos_of_ne_zero hg)
  | dropWriteGuard =>
    simp only [exec] at h
    split at h
    · cases h
    · rename_i hg
      simp only [Option.some.injEq, Prod.mk.injEq] at h
      exact h.1 ▸ .dropWriteGuard (Nat.pos_of_ne_zero hg)
  | create f kind =>
    cases hf : s.futs f with
    | some u => simp [exec, hf] at h
    | none =>
      simp only [exec, hf, Option.some.injEq, Prod.mk.injEq] at h
      exact h.1 ▸ .create hf
  | poll f waker =>
    obtain ⟨u, hf, hu⟩ := Option.map_eq_some_iff.mp h
    have ht : (s.pollFuture width f u waker).1 = t := congrArg Prod.fst hu
    exact ht ▸ s.pollFuture_step width waker hf
  | dropFuture f =>
    obtain ⟨u, hf, hu⟩ := Option.map_eq_some_iff.mp h
    have ht : s.dropFuture f u = t := congrArg Prod.fst hu
    exact ht ▸ .dropFuture hf

end RwState

theorem rwMachine_step {W : Type v} [Waker W] {width : Nat} {s t : RwState W} {op : RwOp W}
    (h : (rwMachine W width).step s op = some t) : RwStep s op t := by
  obtain ⟨⟨t', o⟩, he, rfl⟩ := Option.map_eq_some_iff.mp h
  exact RwState.exec_step he

end Cynosure.SiteC
