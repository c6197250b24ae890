import Mathlib.Tactic
import Cynosure.Lib.Reentrant
import Cynosure.SiteC.Semaphore

/-! # `LocalSemaphore` with callbacks that call it again

`poll`, `add_permits` and the destructors run user code: they clone, drop and wake wakers.
Here each call stops at such a callback, and any calls may run before it goes on. A poll
that took its permits carries them through two callbacks before it returns the `Permit`.
-/

universe v

namespace Cynosure.SiteC

/-- `Acquire::poll` in a callback. -/
inductive PollFrame (W : Type v) where
  /-- `n` permits are taken and the entry has left the queue; its waker is dropped. -/
  | took (n : Nat)
  /-- `wake_next` wakes the new front, before `Ready` is returned. -/
  | cascading (n : Nat)
  /-- `register` clones the waker, for an entry under the token `id`. -/
  | cloning (id : UInt64) (n : Nat) (waker : W)
  /-- `register` drops the waker that the new entry replaces. -/
  | registered (slot : Option (Entry Nat W)) (n : Nat)
  deriving DecidableEq, Repr

/-- The end of `Acquire::poll`. -/
inductive PollEnd (W : Type v) where
  | ready (n : Nat)
  | pending (slot : Option (Entry Nat W))
  /-- `permits - n` with `n` above the permits. -/
  | underflow
  deriving DecidableEq, Repr

namespace LocalSemaphore

variable {W : Type v}

/-- `permits.set(permits.get() - n)`. -/
def subPermits (s : LocalSemaphore W) (n : Nat) : Option (LocalSemaphore W) :=
  if n ≤ s.permits then some { s with permits := s.permits - n } else none

/-- An acquiring branch of `poll`, up to the drop of the waker in `deregister`. -/
def pollTake (s : LocalSemaphore W) (n : Nat) (slot : Option (Entry Nat W)) :
    LocalSemaphore W × Segment (PollFrame W) (PollEnd W) :=
  match s.subPermits n with
  | some t => ({ t with waiters := t.waiters.deregister slot }, .callback (.took n))
  | none => (s, .done .underflow)

def pollCheck (s : LocalSemaphore W) (n : Nat) (slot : Option (Entry Nat W)) :
    LocalSemaphore W × Segment (PollFrame W) (PollEnd W) :=
  if s.canAcquireFair n (slot.map Entry.id) then s.pollTake n slot
  else (s, .done (.pending slot))

/-- `poll` up to its first callback. -/
def pollEnter [Waker W] (s : LocalSemaphore W) (n : Nat) (slot : Option (Entry Nat W)) (waker : W) :
    LocalSemaphore W × Segment (PollFrame W) (PollEnd W) :=
  if s.canAcquireFair n (slot.map Entry.id) then s.pollTake n slot
  else if s.waiters.stale slot waker then
    ({ s with nextId := if slot.isSome then s.nextId else s.nextId + 1 },
      .callback (.cloning (Waiters.registerId s.nextId slot) n waker))
  else s.pollCheck n slot

/-- `poll` from a callback on, with the wakers that it invokes. -/
def pollResume (s : LocalSemaphore W) :
    PollFrame W → LocalSemaphore W × List W × Segment (PollFrame W) (PollEnd W)
  | .took n => (s, s.wakeNext, .callback (.cascading n))
  | .cascading n => (s, [], .done (.ready n))
  | .cloning id n waker =>
    ({ s with waiters := s.waiters.without id ++ [⟨id, n, waker⟩] }, [],
      .callback (.registered (some ⟨id, n, waker⟩) n))
  | .registered slot n => ((s.pollCheck n slot).1, [], (s.pollCheck n slot).2)

end LocalSemaphore

/-- A call on the semaphore in a callback. -/
inductive SemFrame (W : Type v) where
  | poll (f : Nat) (waker : W) (at_ : PollFrame W)
  /-- `Acquire::drop` removed its entry, and drops its waker. -/
  | cancelling
  /-- The wake that ends `add_permits`, `Permit::drop` and `Acquire::drop`. -/
  | waking

/-- The semaphore and its callers; a poll borrows its future until it ends. -/
structure SemCalls (W : Type v) extends SemState W where
  polling : List Nat
  /-- Some call panicked. -/
  panicked : Bool
  /-- Some subtraction underflowed. -/
  underflow : Bool

namespace SemCalls

variable {W : Type v}

def init (permits : Nat) : SemCalls W := ⟨.init permits, [], false, false⟩

variable [Waker W]

/-- The end of a poll gives the future back, and hands out the permit. -/
def pollEnd (s : SemCalls W) (f : Nat) (waker : W) : PollEnd W → SemCalls W × SemOutcome
  | .ready n =>
    ({ s with futs := s.futs.set f ((s.futs f).map fun u => u.afterPoll none true waker)
              polling := s.polling.erase f, held := s.held ++ [n] }, .acquired)
  | .pending slot =>
    ({ s with futs := s.futs.set f ((s.futs f).map fun u => u.afterPoll slot false waker)
              polling := s.polling.erase f }, .pending)
  | .underflow => ({ s with polling := s.polling.erase f, underflow := true }, .panicked)

/-- A poll that stopped in a callback, or ended. -/
def pollStopped (s : SemCalls W) (f : Nat) (waker : W) :
    Segment (PollFrame W) (PollEnd W) → SemCalls W × Segment (SemFrame W) SemOutcome
  | .callback at_ => (s, .callback (.poll f waker at_))
  | .done r => ((s.pollEnd f waker r).1, .done (s.pollEnd f waker r).2)

/-- `wake_next` as the last thing that a call does. -/
def wakeLast (s : SemCalls W) (ws : List W) : SemCalls W × Segment (SemFrame W) SemOutcome :=
  ({ s with futs := s.futs.wake ws }, if ws.isEmpty then .done .done else .callback .waking)

def enter (width : Nat) (s : SemCalls W) :
    SemOp W → Option (SemCalls W × Segment (SemFrame W) SemOutcome)
  | .tryAcquireMany n =>
    if n ≤ s.sem.permits then
      match s.sem.subPermits n with
      | some sem => some ({ s with sem := sem, held := s.held ++ [n] }, .done .acquired)
      | none => some ({ s with underflow := true }, .done .panicked)
    else some (s, .done .refused)
  | .addPermits n =>
    match s.sem.addPermits width n with
    | .error _ => some ({ s with panicked := true }, .done .panicked)
    | .ok (sem, ws) => some (wakeLast { s with sem := sem, added := s.added + n } ws)
  | .create f n =>
    match s.futs f with
    | some _ => none
    | none => some ({ s with futs := s.futs.set f (some (.fresh n)) }, .done .done)
  | .poll f waker =>
    if f ∈ s.polling then none
    else (s.futs f).map fun u =>
      pollStopped { s with sem := (s.sem.pollEnter u.kind u.registered waker).1
                           polling := f :: s.polling } f waker
        (s.sem.pollEnter u.kind u.registered waker).2
  | .dropFuture f =>
    if f ∈ s.polling then none
    else (s.futs f).map fun u =>
      if u.registered.isSome then
        ({ s with sem := { s.sem with waiters := s.sem.waiters.deregister u.registered }
                  futs := s.futs.set f none }, .callback .cancelling)
      else ({ s with futs := s.futs.set f none }, .done .done)
  | .dropPermit i =>
    (s.held[i]?).map fun n =>
      match s.sem.release width n with
      | .error _ => ({ s with held := s.held.eraseIdx i, panicked := true }, .done .panicked)
      | .ok (sem, ws) => wakeLast { s with sem := sem, held := s.held.eraseIdx i } ws
  | .forget i =>
    (s.held[i]?).map fun n =>
      ({ s with held := s.held.eraseIdx i, forgotten := s.forgotten + n }, .done .done)

def resume (s : SemCalls W) : SemFrame W → SemCalls W × Segment (SemFrame W) SemOutcome
  | .poll f waker at_ =>
    pollStopped { s with sem := (s.sem.pollResume at_).1
                         futs := s.futs.wake (s.sem.pollResume at_).2.1 } f waker
      (s.sem.pollResume at_).2.2
  | .cancelling => s.wakeLast s.sem.wakeNext
  | .waking => (s, .done .done)

end SemCalls

/-- Every nesting of calls on one semaphore. -/
def semCalls (W : Type v) [Waker W] (width permits : Nat) :
    Reentrant (SemCalls W) (SemOp W) (SemFrame W) SemOutcome where
  init := .init permits
  enter s op := s.enter width op
  resume s frame := s.resume frame

def PollFrame.permits {W : Type v} : PollFrame W → Nat
  | .took n => n
  | .cascading n => n
  | .cloning .. => 0
  | .registered .. => 0

def PollFrame.request {W : Type v} : PollFrame W → Nat
  | .took n => n
  | .cascading n => n
  | .cloning _ n _ => n
  | .registered _ n => n

def PollEnd.permits {W : Type v} : PollEnd W → Nat
  | .ready n => n
  | .pending _ => 0
  | .underflow => 0

namespace LocalSemaphore

variable {W : Type v}

/-- A part of a `poll` for `n` trades permits of the semaphore for permits that it carries or
returns. -/
structure Trades (n available : Nat) (r : LocalSemaphore W × Segment (PollFrame W) (PollEnd W)) :
    Prop where
  callback : ∀ at_, r.2 = .callback at_ → at_.request = n ∧ r.1.permits + at_.permits = available
  done : ∀ ended, r.2 = .done ended → r.1.permits + ended.permits = available
  ready : ∀ m, r.2 = .done (.ready m) → m = n
  no_underflow : r.2 ≠ .done .underflow

theorem trades_callback {s : LocalSemaphore W} {n available : Nat} {at_ : PollFrame W}
    (hn : at_.request = n) (h : s.permits + at_.permits = available) :
    Trades n available (s, .callback at_) where
  callback at' heq := by
    cases heq
    exact ⟨hn, h⟩
  done ended heq := by cases heq
  ready m heq := by cases heq
  no_underflow heq := by cases heq

theorem trades_ready {s : LocalSemaphore W} {n available : Nat} (h : s.permits + n = available) :
    Trades n available (s, .done (.ready n)) where
  callback at_ heq := by cases heq
  done ended heq := by
    cases heq
    exact h
  ready m heq := by
    cases heq
    rfl
  no_underflow heq := by cases heq

theorem trades_pending (s : LocalSemaphore W) (n : Nat) (slot : Option (Entry Nat W)) :
    Trades n s.permits (s, .done (.pending slot)) where
  callback at_ heq := by cases heq
  done ended heq := by
    cases heq
    rfl
  ready m heq := by cases heq
  no_underflow heq := by cases heq

variable {s : LocalSemaphore W} {n : Nat} {slot : Option (Entry Nat W)}

/-- The check guards the subtraction: no callback runs between the two. -/
theorem le_of_canAcquireFair {id : Option UInt64} (h : s.canAcquireFair n id = true) :
    n ≤ s.permits := by
  unfold canAcquireFair at h
  split at h
  · cases h
  · omega

theorem pollTake_trades (h : n ≤ s.permits) : Trades n s.permits (s.pollTake n slot) := by
  rw [pollTake, subPermits, if_pos h]
  exact trades_callback rfl (Nat.sub_add_cancel h)

theorem pollCheck_trades (s : LocalSemaphore W) (n : Nat) (slot : Option (Entry Nat W)) :
    Trades n s.permits (s.pollCheck n slot) := by
  unfold pollCheck
  split
  · exact pollTake_trades (le_of_canAcquireFair ‹_›)
  · exact trades_pending s n slot

theorem pollEnter_trades [Waker W] (s : LocalSemaphore W) (n : Nat) (slot : Option (Entry Nat W))
    (waker : W) : Trades n s.permits (s.pollEnter n slot waker) := by
  unfold pollEnter
  split
  · exact pollTake_trades (le_of_canAcquireFair ‹_›)
  · split
    · exact trades_callback rfl rfl
    · exact pollCheck_trades s n slot

theorem pollResume_trades (s : LocalSemaphore W) (at_ : PollFrame W) :
    Trades at_.request (s.permits + at_.permits) ((s.pollResume at_).1, (s.pollResume at_).2.2) := by
  cases at_ with
  | took n => exact trades_callback rfl rfl
  | cascading n => exact trades_ready rfl
  | cloning id n waker => exact trades_callback rfl rfl
  | registered slot n => exact pollCheck_trades s n slot

theorem addPermits_permits {width : Nat} {t : LocalSemaphore W} {ws : List W}
    (h : s.addPermits width n = .ok (t, ws)) : t.permits = s.permits + n := by
  unfold addPermits bumpPermits at h
  split at h
  · cases h
    rfl
  · cases h

end LocalSemaphore

section Alone

variable {W : Type v} [Waker W] {width permits : Nat}

theorem set_wake (futs : Futs Nat Nat W) (f : Nat) (u : Fut Nat Nat W) (waker : W) (ws : List W)
    (hu : futs f = some u) :
    (futs.wake ws).set f (((futs.wake ws) f).map fun u => u.afterPoll none true waker) =
      (futs.set f (some (u.afterPoll none true waker))).wake ws := by
  funext g
  by_cases hg : g = f
  · subst hg
    simp [Futs.set, Futs.wake, hu, Fut.afterPoll, Fut.wake]
  · simp [Futs.set, Futs.wake, hg]

namespace SemCalls

variable {s : SemCalls W} {f fuel : Nat} {u : Fut Nat Nat W} {waker : W}

theorem finish_take {n : Nat} {slot : Option (Entry Nat W)} (hu : s.futs f = some u) (hn : n ≤ s.sem.permits) :
    (semCalls W width permits).finish (fuel + 2)
        (pollStopped { s with sem := (s.sem.pollTake n slot).1 } f waker (s.sem.pollTake n slot).2) =
      some ({ s with sem := s.sem.acquired n slot
                     futs := (s.futs.set f (some (u.afterPoll none true waker))).wake
                       (s.sem.acquired n slot).wakeNext
                     polling := s.polling.erase f, held := s.held ++ [n] }, .acquired) := by
  rw [← set_wake s.futs f u waker _ hu, LocalSemaphore.pollTake, LocalSemaphore.subPermits, if_pos hn]
  simp only [pollStopped, Reentrant.finish, semCalls, resume, LocalSemaphore.pollResume, pollEnd,
    Futs.wake_nil]
  rfl

theorem finish_check (width permits fuel : Nat) (waker : W) (slot : Option (Entry Nat W))
    (hs : s.polling = [f]) (hu : s.futs f = some u) : ∃ t out, (semCalls W width permits).finish (fuel + 2)
        (pollStopped { s with sem := (s.sem.pollCheck u.kind slot).1 } f waker
          (s.sem.pollCheck u.kind slot).2) = some (t, out) ∧ t.polling = [] ∧
      (t.toSemState, out) = if s.sem.canAcquireFair u.kind (slot.map Entry.id) then
        ({ s.toSemState with
            sem := s.sem.acquired u.kind slot
            futs := (s.futs.set f (some (u.afterPoll none true waker))).wake
              (s.sem.acquired u.kind slot).wakeNext
            held := s.held ++ [u.kind] }, .acquired)
      else
        ({ s.toSemState with futs := s.futs.set f (some (u.afterPoll slot false waker)) }, .pending) := by
  unfold LocalSemaphore.pollCheck
  split
  · rename_i hcan
    exact ⟨_, _, finish_take hu (LocalSemaphore.le_of_canAcquireFair hcan), by simp [hs], rfl⟩
  · refine ⟨_, _, rfl, by simp [pollEnd, hs], ?_⟩
    simp [pollEnd, hu]

/-- A poll whose callbacks call nothing is the poll of the whole-call model. -/
theorem finish_poll (waker : W) (hs : s.polling = []) (hu : s.futs f = some u) :
    ∃ t out, (semCalls W width permits).finish 4
        (pollStopped { s with sem := (s.sem.pollEnter u.kind u.registered waker).1
                              polling := f :: s.polling } f waker
          (s.sem.pollEnter u.kind u.registered waker).2) = some (t, out) ∧ t.polling = [] ∧
      (t.toSemState, out) = s.toSemState.pollFuture f u waker := by
  unfold SemState.pollFuture LocalSemaphore.poll
  cases hfast : s.sem.canAcquireFair u.kind (u.registered.map Entry.id) with
  | true =>
    have henter : s.sem.pollEnter u.kind u.registered waker = s.sem.pollTake u.kind u.registered := by
      simp [LocalSemaphore.pollEnter, hfast]
    rw [henter]
    exact ⟨_, _, finish_take (s := { s with polling := f :: s.polling }) hu
      (LocalSemaphore.le_of_canAcquireFair hfast), by simp [hs], rfl⟩
  | false =>
    cases hstale : s.sem.waiters.stale u.registered waker with
    | true =>
      -- The entry is queued anew behind the clone of the waker, and the poll checks again.
      let e : Entry Nat W := ⟨Waiters.registerId s.sem.nextId u.registered, u.kind, waker⟩
      let numbered : LocalSemaphore W := { s.sem with
        nextId := if u.registered.isSome then s.sem.nextId else s.sem.nextId + 1 }
      let queued : LocalSemaphore W := { numbered with waiters := s.sem.waiters.without e.id ++ [e] }
      have henter : s.sem.pollEnter u.kind u.registered waker =
          (numbered, .callback (.cloning e.id u.kind waker)) := by
        simp [LocalSemaphore.pollEnter, hfast, hstale, numbered, e]
      have hclone : (semCalls W width permits).resume { s with sem := numbered, polling := [f] }
            (.poll f waker (.cloning e.id u.kind waker)) =
          ({ s with sem := queued, polling := [f] },
            .callback (.poll f waker (.registered (some e) u.kind))) := by
        simp only [semCalls, resume, LocalSemaphore.pollResume, pollStopped, Futs.wake_nil]
        rfl
      have hcheck : (semCalls W width permits).resume { s with sem := queued, polling := [f] }
            (.poll f waker (.registered (some e) u.kind)) =
          pollStopped { s with sem := (queued.pollCheck u.kind (some e)).1, polling := [f] } f waker
            (queued.pollCheck u.kind (some e)).2 := by
        simp only [semCalls, resume, LocalSemaphore.pollResume, Futs.wake_nil]
      have hreg : s.sem.register u.registered u.kind waker = (queued, some e) := by
        simp only [LocalSemaphore.register, Waiters.register, hstale]
        rfl
      obtain ⟨t, out, ht, hpolling, heq⟩ := finish_check (s := { s with sem := queued, polling := [f] })
        width permits 0 waker (some e) rfl hu
      refine ⟨t, out, ?_, hpolling, ?_⟩
      · rw [← ht, ← hcheck, hs, henter]
        change (semCalls W width permits).finish 3 ((semCalls W width permits).resume _ _) = _
        rw [hclone]
        rfl
      · rw [heq, hreg]
        dsimp only
        split <;> simp
    | false =>
      have henter : s.sem.pollEnter u.kind u.registered waker =
          s.sem.pollCheck u.kind u.registered := by
        simp [LocalSemaphore.pollEnter, hfast, hstale]
      have hreg : s.sem.register u.registered u.kind waker = (s.sem, u.registered) := by
        simp only [LocalSemaphore.register, Waiters.register, hstale]
        rfl
      obtain ⟨t, out, ht, hpolling, heq⟩ := finish_check (s := { s with polling := [f] })
        width permits 2 waker u.registered rfl hu
      refine ⟨t, out, ?_, hpolling, ?_⟩
      · rw [← ht, hs, henter]
      · rw [heq, hreg]
        simp [hfast]

theorem finish_wakeLast (fuel : Nat) (s : SemCalls W) (ws : List W) :
    (semCalls W width permits).finish (fuel + 1) (s.wakeLast ws) =
      some ({ s with futs := s.futs.wake ws }, .done) := by
  unfold wakeLast
  split
  · rfl
  · exact Reentrant.finish_done fuel _ _

theorem finish_exec {op : SemOp W} {t : SemState W} {out : SemOutcome} (hs : s.polling = [])
    (h : s.toSemState.exec width op = some (t, out)) :
    ∃ r t', s.enter width op = some r ∧ (semCalls W width permits).finish 4 r = some (t', out) ∧
      t'.polling = [] ∧ t'.toSemState = t := by
  have hidle (f : Nat) : f ∉ s.polling := by simp [hs]
  cases op with
  | tryAcquireMany n =>
    simp only [SemState.exec, LocalSemaphore.tryAcquireMany] at h
    split at h
    · rename_i hn
      split at hn
      · cases hn
      · cases h
        exact ⟨_, _, if_neg ‹_›, rfl, hs, rfl⟩
    · rename_i sem hn
      split at hn
      · rename_i hle
        cases hn
        cases h
        have henter : s.enter width (.tryAcquireMany n) = some
            ({ s with sem := { s.sem with permits := s.sem.permits - n }, held := s.held ++ [n] },
              .done .acquired) := by
          simp only [enter, LocalSemaphore.subPermits, if_pos hle]
        exact ⟨_, _, henter, rfl, hs, rfl⟩
      · cases hn
  | addPermits n =>
    simp only [SemState.exec] at h
    simp only [enter]
    cases hadd : s.sem.addPermits width n with
    | error msg =>
      rw [hadd] at h
      cases h
      exact ⟨_, _, rfl, rfl, hs, rfl⟩
    | ok r =>
      rw [hadd] at h
      cases h
      exact ⟨_, _, rfl, finish_wakeLast 3 _ _, hs, rfl⟩
  | create f n =>
    simp only [SemState.exec] at h
    simp only [enter]
    cases hf : s.futs f with
    | none =>
      rw [hf] at h
      cases h
      exact ⟨_, _, rfl, rfl, hs, rfl⟩
    | some u =>
      rw [hf] at h
      cases h
  | poll f waker =>
    obtain ⟨u, hu, heq⟩ := Option.map_eq_some_iff.mp h
    obtain ⟨t', out', hfinish, hpolling, ht'⟩ := finish_poll waker hs hu
    rw [heq] at ht'
    cases ht'
    refine ⟨_, t', ?_, hfinish, hpolling, rfl⟩
    simp only [enter, if_neg (hidle f), hu, Option.map_some]
  | dropFuture f =>
    obtain ⟨u, hu, heq⟩ := Option.map_eq_some_iff.mp h
    simp only [enter, if_neg (hidle f), hu, Option.map_some]
    cases heq
    unfold SemState.dropFuture
    split
    · exact ⟨_, _, rfl, finish_wakeLast 2 _ _, hs, rfl⟩
    · exact ⟨_, _, rfl, rfl, hs, rfl⟩
  | dropPermit i =>
    obtain ⟨n, hn, heq⟩ := Option.map_eq_some_iff.mp h
    simp only [enter, hn, Option.map_some]
    cases hrelease : s.sem.release width n with
    | error msg =>
      rw [hrelease] at heq
      cases heq
      exact ⟨_, _, rfl, rfl, hs, rfl⟩
    | ok r =>
      rw [hrelease] at heq
      cases heq
      exact ⟨_, _, rfl, finish_wakeLast 3 _ _, hs, rfl⟩
  | forget i =>
    obtain ⟨n, hn, heq⟩ := Option.map_eq_some_iff.mp h
    simp only [enter, hn, Option.map_some]
    cases heq
    exact ⟨_, _, rfl, rfl, hs, rfl⟩

theorem reachable_semMachine {t : SemState W} (h : (semMachine W width permits).Reachable t) :
    ∃ s, (semCalls W width permits).machine.Reachable ⟨s, []⟩ ∧ s.polling = [] ∧
      s.toSemState = t := by
  refine h.invariant (I := fun t => ∃ s, (semCalls W width permits).machine.Reachable ⟨s, []⟩ ∧
    s.polling = [] ∧ s.toSemState = t) ⟨.init permits, ⟨[], rfl⟩, rfl, rfl⟩ ?_
  rintro t op t' ⟨s, hreach, hs, rfl⟩ hstep
  obtain ⟨⟨t'', out⟩, hexec, rfl⟩ := Option.map_eq_some_iff.mp hstep
  obtain ⟨r, s', henter, hfinish, hs', rfl⟩ := finish_exec hs hexec
  exact ⟨s', Reentrant.reachable_finish hreach henter hfinish, hs', rfl⟩

end SemCalls

end Alone

def SemFrame.permits {W : Type v} : SemFrame W → Nat
  | .poll _ _ at_ => at_.permits
  | .cancelling => 0
  | .waking => 0

namespace SemCalls

variable {W : Type v} {s : SemCalls W} {initial c : Nat}

/-- Everything that counts permits: those available, live, forgotten and added. -/
def counts (s : SemCalls W) : Nat × List Nat × Nat × Nat :=
  (s.sem.permits, s.held, s.forgotten, s.added)

/-- With `c` permits carried by calls in progress. -/
structure Conserves (initial c : Nat) (s : SemCalls W) : Prop where
  no_underflow : s.underflow = false
  total : s.panicked = false →
    s.sem.permits + s.held.sum + s.forgotten + c = initial + s.added

theorem sum_eraseIdx {l : List Nat} {i n : Nat} (h : l[i]? = some n) :
    n + (l.eraseIdx i).sum = l.sum := by
  obtain ⟨hi, rfl⟩ := List.getElem?_eq_some_iff.mp h
  have := (List.getElem_cons_eraseIdx_perm hi).sum_eq
  rwa [List.sum_cons] at this

theorem Conserves.pollStopped {f n available : Nat} {waker : W} {t : SemCalls W}
    {r : LocalSemaphore W × Segment (PollFrame W) (PollEnd W)} {seg : Segment (SemFrame W) SemOutcome}
    (heq : s.pollStopped f waker r.2 = (t, seg)) (hsem : s.sem = r.1)
    (htrade : LocalSemaphore.Trades n available r) (hu : s.underflow = false)
    (htotal : s.panicked = false →
      available + s.held.sum + s.forgotten + c = initial + s.added) :
    Conserves initial (seg.carried SemFrame.permits + c) t := by
  obtain ⟨sem, stopped⟩ := r
  cases stopped with
  | callback at_ =>
    cases heq
    have hsum := (htrade.callback at_ rfl).2
    refine ⟨hu, fun hp => ?_⟩
    have := htotal hp
    simp only [Segment.carried_callback, SemFrame.permits, hsem] at hsum ⊢
    omega
  | done ended =>
    cases heq
    have hsum := htrade.done ended rfl
    cases ended with
    | ready n =>
      refine ⟨hu, fun hp => ?_⟩
      have := htotal hp
      simp only [pollEnd, Segment.carried_done, List.sum_append, List.sum_singleton,
        PollEnd.permits, hsem] at hsum ⊢
      omega
    | pending slot =>
      refine ⟨hu, fun hp => ?_⟩
      have := htotal hp
      simp only [pollEnd, Segment.carried_done, PollEnd.permits, hsem] at hsum ⊢
      omega
    | underflow => exact absurd rfl htrade.no_underflow

variable [Waker W]

theorem carried_wakeLast (s : SemCalls W) (ws : List W) :
    (s.wakeLast ws).2.carried SemFrame.permits = 0 := by
  unfold wakeLast
  split <;> simp [SemFrame.permits]

theorem Conserves.wakeLast {ws : List W} {t : SemCalls W} {seg : Segment (SemFrame W) SemOutcome}
    (heq : s.wakeLast ws = (t, seg)) (h : Conserves initial c s) :
    Conserves initial (seg.carried SemFrame.permits + c) t := by
  have hcarried := carried_wakeLast s ws
  rw [heq] at hcarried
  rw [hcarried, Nat.zero_add]
  cases heq
  exact ⟨h.no_underflow, h.total⟩

omit [Waker W] in
theorem Conserves.done (out : SemOutcome) (h : Conserves initial c s) :
    Conserves initial ((.done out : Segment (SemFrame W) SemOutcome).carried SemFrame.permits + c) s := by
  rwa [Segment.carried_done, Nat.zero_add]

theorem Conserves.enter {width : Nat} {op : SemOp W} {t : SemCalls W}
    {seg : Segment (SemFrame W) SemOutcome} (h : Conserves initial c s)
    (henter : s.enter width op = some (t, seg)) :
    Conserves initial (seg.carried SemFrame.permits + c) t := by
  cases op with
  | tryAcquireMany n =>
    simp only [SemCalls.enter, LocalSemaphore.subPermits] at henter
    split at henter
    · cases henter
      refine .done _ ⟨h.no_underflow, fun hp => ?_⟩
      have := h.total hp
      simp only [List.sum_append, List.sum_singleton]
      omega
    · cases henter
      exact .done _ h
  | addPermits n =>
    simp only [SemCalls.enter] at henter
    split at henter
    · cases henter
      exact .done _ ⟨h.no_underflow, fun hp => (by cases hp)⟩
    · rename_i sem ws hadd
      refine .wakeLast (Option.some.inj henter) ⟨h.no_underflow, fun hp => ?_⟩
      have := h.total hp
      simp only [LocalSemaphore.addPermits_permits hadd]
      omega
  | create f n =>
    simp only [SemCalls.enter] at henter
    split at henter
    · cases henter
    · cases henter
      exact .done _ ⟨h.no_underflow, h.total⟩
  | poll f waker =>
    simp only [SemCalls.enter] at henter
    split at henter
    · cases henter
    · obtain ⟨u, -, heq⟩ := Option.map_eq_some_iff.mp henter
      exact .pollStopped heq rfl (s.sem.pollEnter_trades u.kind u.registered waker)
        h.no_underflow h.total
  | dropFuture f =>
    simp only [SemCalls.enter] at henter
    split at henter
    · cases henter
    · obtain ⟨u, -, heq⟩ := Option.map_eq_some_iff.mp henter
      split at heq
      · cases heq
        rw [Segment.carried_callback, SemFrame.permits, Nat.zero_add]
        exact ⟨h.no_underflow, h.total⟩
      · cases heq
        exact .done _ ⟨h.no_underflow, h.total⟩
  | dropPermit i =>
    simp only [SemCalls.enter] at henter
    obtain ⟨n, hn, heq⟩ := Option.map_eq_some_iff.mp henter
    split at heq
    · cases heq
      exact .done _ ⟨h.no_underflow, fun hp => (by cases hp)⟩
    · rename_i sem ws hrelease
      refine .wakeLast heq ⟨h.no_underflow, fun hp => ?_⟩
      have := h.total hp
      have := sum_eraseIdx hn
      simp only [LocalSemaphore.addPermits_permits hrelease]
      omega
  | forget i =>
    simp only [SemCalls.enter] at henter
    obtain ⟨n, hn, heq⟩ := Option.map_eq_some_iff.mp henter
    cases heq
    refine .done _ ⟨h.no_underflow, fun hp => ?_⟩
    have := h.total hp
    have := sum_eraseIdx hn
    simp only
    omega

theorem Conserves.resume {frame : SemFrame W} (h : Conserves initial (frame.permits + c) s) :
    Conserves initial ((s.resume frame).2.carried SemFrame.permits + c) (s.resume frame).1 := by
  cases frame with
  | poll f waker at_ =>
    refine Conserves.pollStopped (s := { s with sem := (s.sem.pollResume at_).1
                                                futs := s.futs.wake (s.sem.pollResume at_).2.1 })
      rfl rfl (s.sem.pollResume_trades at_) h.no_underflow fun hp => ?_
    have := h.total hp
    simp only [SemFrame.permits] at this ⊢
    omega
  | cancelling =>
    rw [SemFrame.permits, Nat.zero_add] at h
    exact .wakeLast rfl h
  | waking =>
    rw [SemFrame.permits, Nat.zero_add] at h
    exact .done _ h

end SemCalls

variable {W : Type v} [Waker W]

theorem semCalls_cancel_counts {width permits f : Nat} {s t : Nested (SemCalls W) (SemFrame W)}
    (h : (semCalls W width permits).step s (.call (.dropFuture f)) = some t) :
    t.obj.counts = s.obj.counts := by
  obtain ⟨r, hr, rfl⟩ := Option.map_eq_some_iff.mp h
  change s.obj.enter width (.dropFuture f) = some r at hr
  simp only [SemCalls.enter] at hr
  split at hr
  · cases hr
  · obtain ⟨u, -, rfl⟩ := Option.map_eq_some_iff.mp hr
    split <;> rfl

/-- `LocalSemaphore` conserves permits, whatever its callbacks do: the permits available,
live, forgotten and carried by the polls in progress are those at the start and those
added, as long as no call panics; between calls no poll carries any. No subtraction
underflows, and neither a cancellation nor what it does behind its callbacks changes a count. -/
theorem semaphore_conserves_permits (width initial : Nat) {s : Nested (SemCalls W) (SemFrame W)}
    (h : (semCalls W width initial).machine.Reachable s) :
    s.obj.underflow = false ∧
      (s.obj.panicked = false → s.obj.sem.permits + s.obj.held.sum + s.obj.forgotten +
        (s.stack.map SemFrame.permits).sum = initial + s.obj.added) ∧
      (s.obj.panicked = false → s.stack = [] →
        s.obj.sem.permits + s.obj.held.sum + s.obj.forgotten = initial + s.obj.added) ∧
      (∀ f t, (semCalls W width initial).step s (.call (.dropFuture f)) = some t →
        t.obj.counts = s.obj.counts) ∧
      ∀ frame rest t, s.stack = frame :: rest → frame = .cancelling ∨ frame = .waking →
        (semCalls W width initial).step s .resume = some t → t.obj.counts = s.obj.counts := by
  obtain ⟨hI, -⟩ := Reentrant.carried_invariant SemFrame.permits (fun _ => True)
    (I := fun c s => SemCalls.Conserves initial c s)
    ⟨rfl, fun _ => rfl⟩ (fun c s op t seg hc henter => ⟨hc.enter henter, fun _ _ => trivial⟩)
    (fun c s frame _ hc => ⟨hc.resume, fun _ _ => trivial⟩) h
  refine ⟨hI.no_underflow, hI.total, fun hp hempty => ?_, fun f t => semCalls_cancel_counts, ?_⟩
  · have := hI.total hp
    rwa [hempty, List.map_nil, List.sum_nil, Nat.add_zero] at this
  · rintro frame rest t hstack hframe hstep
    simp only [Reentrant.step, hstack, Option.some.injEq] at hstep
    subst hstep
    rcases hframe with rfl | rfl <;> rfl

/-- A permit is dropped; its wake polls the waiter, which takes the permit and is suspended. -/
theorem semaphore_conserves_in_a_wake : ∃ s,
    (semCalls Waker.OfTask 64 1).machine.run ⟨.init 1, []⟩
        [.call (.tryAcquireMany 1), .call (.create 0 1), .call (.poll 0 ⟨1⟩), .resume, .resume,
          .call (.dropPermit 0), .call (.poll 0 ⟨1⟩)] = some s ∧
      (s.obj.panicked = false ∧ s.obj.sem.permits = 0 ∧ s.obj.held = [] ∧ s.stack.length = 2) ∧
      s.obj.sem.permits + s.obj.held.sum + s.obj.forgotten +
        (s.stack.map SemFrame.permits).sum = 1 + s.obj.added := by
  refine Machine.exists_end (M := (semCalls Waker.OfTask 64 1).machine)
    (c := fun s => decide (s.obj.panicked = false ∧ s.obj.sem.permits = 0 ∧ s.obj.held = [] ∧
      s.stack.length = 2)) _ (by decide +kernel) fun s hrun hs => ?_
  have hs := of_decide_eq_true hs
  exact ⟨hs, (semaphore_conserves_permits 64 1 ⟨_, hrun⟩).2.1 hs.1⟩

end Cynosure.SiteC
