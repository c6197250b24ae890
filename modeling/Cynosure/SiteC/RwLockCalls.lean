import Cynosure.SiteC.RwLockTurn
import Cynosure.SiteC.WaitCalls

/-! # `LocalRwLock` with callbacks that call it again

The polls and the destructors stop in the clone and the drop of a waker, and `wake_next`
stops at every waker that it invokes. Behind a writer it returns; otherwise it goes on to
pop readers until none is left, whatever the woken ones have done to the lock.
-/

universe v

namespace Cynosure.SiteC

/-- A call on the lock in a callback. -/
inductive RwFrame (W : Type v) where
  | poll (f : Nat) (waker : W) (kind : Access) (at_ : LockPoll)
  /-- The destructor of a future removed its entry, and drops its waker. -/
  | cancelling
  /-- `wake_next` wakes a writer. -/
  | wakingWriter
  /-- `wake_next` wakes a reader, and is to pop the next one. -/
  | wakingReader

/-- How many of `n` guards for `kind'` are for `kind`. -/
def Access.share (kind kind' : Access) (n : Nat) : Nat := if kind' = kind then n else 0

@[simp] theorem Access.share_zero (kind kind' : Access) : kind.share kind' 0 = 0 := by
  simp [share]

/-- The lock and its callers; a poll borrows its future until it ends. -/
structure RwCalls (W : Type v) extends RwState W where
  polling : List Nat

namespace LocalRwLock

variable {W : Type v}

/-- What a future of the kind tries, before and after its registration. -/
def tryAcquire (width : Nat) (l : LocalRwLock W) : Access → Except String (Option (LocalRwLock W))
  | .read => l.tryReadFair width
  | .write => .ok l.tryWrite

end LocalRwLock

namespace RwCalls

variable {W : Type v}

def init : RwCalls W := ⟨.init, []⟩

/-- A guard is handed out. -/
def addGuard (s : RwCalls W) (kind : Access) : RwCalls W :=
  { s with readGuards := s.readGuards + Access.read.share kind 1
           writeGuards := s.writeGuards + Access.write.share kind 1 }

/-- The poll is over. -/
def ended (s : RwCalls W) (f : Nat) : RwCalls W := { s with polling := s.polling.erase f }

/-- The lock is taken, and `deregister_in` empties the slot. -/
def take (s : RwCalls W) (f : Nat) (waker : W) (kind : Access) :
    RwCalls W × Segment (RwFrame W) RwOutcome :=
  let t := { s with lock := s.lock.deregisterIn (s.futs.slot f) kind
                    futs := s.futs.update f fun u => u.afterPoll none true waker }
  if (s.futs.slot f).isSome then (t, .callback (.poll f waker kind .took))
  else ((t.ended f).addGuard kind, .done .acquired)

/-- The second attempt of a poll, behind the registration. -/
def check (width : Nat) (s : RwCalls W) (f : Nat) (waker : W) (kind : Access) :
    RwCalls W × Segment (RwFrame W) RwOutcome :=
  match s.lock.tryAcquire width kind with
  | .error _ => (s.ended f, .done .panicked)
  | .ok (some l) => take { s with lock := l } f waker kind
  | .ok none => (s.ended f, .done .pending)

/-- A poll up to its first callback. -/
def pollEnter [Waker W] (width : Nat) (s : RwCalls W) (f : Nat) (waker : W) (kind : Access) :
    RwCalls W × Segment (RwFrame W) RwOutcome :=
  match s.lock.tryAcquire width kind with
  | .error _ => (s.ended f, .done .panicked)
  | .ok (some l) => take { s with lock := l } f waker kind
  | .ok none =>
    if (s.lock.waiting kind).stale (s.futs.slot f) waker then
      ({ s with lock := { s.lock with nextId := Waiters.counterAfter s.lock.nextId (s.futs.slot f) } },
        .callback (.poll f waker kind (.cloning (Waiters.registerId s.lock.nextId (s.futs.slot f)))))
    else
      check width { s with futs := s.futs.update f fun u => u.afterPoll u.registered false waker }
        f waker kind

/-- The clone is there: the entry is queued and the slot filled. -/
def requeue (s : RwCalls W) (f : Nat) (id : UInt64) (waker : W) (kind : Access) : RwCalls W :=
  { s with lock := s.lock.setWaiting ((s.lock.waiting kind).requeue ⟨id, (), waker⟩) kind
           futs := s.futs.update f fun u => u.afterPoll (some ⟨id, (), waker⟩) false waker }

def pollResume (width : Nat) (s : RwCalls W) (f : Nat) (waker : W) (kind : Access) :
    LockPoll → RwCalls W × Segment (RwFrame W) RwOutcome
  | .took => ((s.ended f).addGuard kind, .done .acquired)
  | .cloning id =>
    if (s.futs.slot f).isSome then
      (s.requeue f id waker kind, .callback (.poll f waker kind .registered))
    else (s.requeue f id waker kind).check width f waker kind
  | .registered => s.check width f waker kind

variable [Waker W]

/-- One round of the loop of `wake_next`. -/
def wakeReader (s : RwCalls W) : RwCalls W × Segment (RwFrame W) RwOutcome :=
  match s.lock.readWaiters with
  | e :: rest =>
    ({ s with lock := { s.lock with readWaiters := rest }, futs := s.futs.wake [e.waker] },
      .callback .wakingReader)
  | [] => (s, .done .done)

/-- `wake_next` as the last thing that a call does. -/
def wakeNext (s : RwCalls W) : RwCalls W × Segment (RwFrame W) RwOutcome :=
  if s.lock.writer || decide (0 < s.lock.readers) then (s, .done .done)
  else match s.lock.writeWaiters with
    | e :: rest =>
      ({ s with lock := { s.lock with writeWaiters := rest }, futs := s.futs.wake [e.waker] },
        .callback .wakingWriter)
    | [] => s.wakeReader

def enter (width : Nat) (s : RwCalls W) :
    RwOp W → Option (RwCalls W × Segment (RwFrame W) RwOutcome)
  | .tryRead =>
    match s.lock.tryRead width with
    | .error _ => some (s, .done .panicked)
    | .ok none => some (s, .done .refused)
    | .ok (some l) => some ({ s with lock := l, readGuards := s.readGuards + 1 }, .done .acquired)
  | .tryWrite =>
    match s.lock.tryWrite with
    | none => some (s, .done .refused)
    | some l => some ({ s with lock := l, writeGuards := s.writeGuards + 1 }, .done .acquired)
  | .dropReadGuard =>
    if s.readGuards = 0 then none
    else some (wakeNext { s with readGuards := s.readGuards - 1
                                 lock := { s.lock with readers := s.lock.readers - 1 } })
  | .dropWriteGuard =>
    if s.writeGuards = 0 then none
    else some (wakeNext { s with writeGuards := s.writeGuards - 1
                                 lock := { s.lock with writer := false } })
  | .create f kind =>
    match s.futs f with
    | some _ => none
    | none => some ({ s with futs := s.futs.set f (some (.fresh kind)) }, .done .done)
  | .poll f waker =>
    if f ∈ s.polling then none
    else (s.futs f).map fun u =>
      pollEnter width { s with polling := f :: s.polling } f waker u.kind
  | .dropFuture f =>
    if f ∈ s.polling then none
    else (s.futs f).map fun u =>
      if u.registered.isSome then
        ({ s with lock := s.lock.deregisterIn u.registered u.kind, futs := s.futs.set f none },
          .callback .cancelling)
      else ({ s with futs := s.futs.set f none }, .done .done)

def resume (width : Nat) (s : RwCalls W) : RwFrame W → RwCalls W × Segment (RwFrame W) RwOutcome
  | .poll f waker kind at_ => s.pollResume width f waker kind at_
  | .cancelling => s.wakeNext
  | .wakingWriter => (s, .done .done)
  | .wakingReader => s.wakeReader

end RwCalls

/-- Every nesting of calls on one lock. -/
def rwCalls (W : Type v) [Waker W] (width : Nat) :
    Reentrant (RwCalls W) (RwOp W) (RwFrame W) RwOutcome where
  init := .init
  enter s op := s.enter width op
  resume s frame := s.resume width frame

namespace LocalRwLock

variable {W : Type v} {l l' : LocalRwLock W} {width : Nat} {kind : Access}

/-- A successful attempt of a future of the kind. -/
inductive Acquires (l : LocalRwLock W) : Access → LocalRwLock W → Prop
  | read (hw : l.writer = false) (hq : l.writeWaiters = []) :
    Acquires l .read { l with readers := l.readers + 1 }
  | write (hf : l.Free) : Acquires l .write { l with writer := true }

theorem acquires_of_some (h : l.tryAcquire width kind = .ok (some l')) : l.Acquires kind l' := by
  cases kind with
  | read =>
    by_cases hb : l.writer = true ∨ l.writeWaiters ≠ []
    · rw [tryAcquire, tryReadFair_of_blocked width hb] at h
      cases h
    · obtain ⟨hw, hq⟩ : l.writer = false ∧ l.writeWaiters = [] := by simpa using hb
      rw [tryAcquire, tryReadFair_of_open width hw hq] at h
      rcases l.addReader_cases width with ⟨m, hm⟩ | hm <;> rw [hm] at h <;> cases h
      exact .read hw hq
  | write =>
    by_cases hf : l.Free
    · rw [tryAcquire, tryWrite_of_free hf] at h
      cases h
      exact .write hf
    · rw [tryAcquire, tryWrite_of_held hf] at h
      cases h

theorem blocks_of_none (h : l.tryAcquire width kind = .ok none) : l.Blocks kind := by
  cases kind with
  | read =>
    by_contra hb
    obtain ⟨hw, hq⟩ : l.writer = false ∧ l.writeWaiters = [] := by simpa [Blocks] using hb
    rw [tryAcquire, tryReadFair_of_open width hw hq] at h
    rcases l.addReader_cases width with ⟨m, hm⟩ | hm <;> rw [hm] at h <;> cases h
  | write =>
    intro hf
    rw [tryAcquire, tryWrite_of_free hf] at h
    cases h

/-- The reader count only overflows with readers about. -/
theorem not_free_of_error (hwidth : 0 < width) {msg : String}
    (h : l.tryAcquire width kind = .error msg) : ¬ l.Free := by
  rintro ⟨hr, hw⟩
  cases kind with
  | read =>
    have hroom : 0 + 1 < 2 ^ width := Nat.one_lt_two_pow (by omega)
    simp only [tryAcquire, tryReadFair, addReader, hw, hr, hroom, if_true] at h
    split at h <;> cases h
  | write => cases h

theorem tryAcquire_of_blocks (h : l.Blocks kind) : l.tryAcquire width kind = .ok none := by
  cases kind with
  | read => exact tryReadFair_of_blocked width h
  | write => exact congrArg _ (tryWrite_of_held h)

/-- What the future queues does not let it in. -/
theorem Blocks.requeue (h : l.Blocks kind) (nextId : UInt64) (q : Waiters Unit W) :
    ({ l with nextId := nextId }.setWaiting q kind).Blocks kind := by
  cases kind <;> exact h

theorem Acquires.not_free (h : l.Acquires kind l') : ¬ l'.Free := by
  cases h <;> simp [Free]

end LocalRwLock

section Alone

theorem RwState.pollFuture_of_blocks {W : Type v} [Waker W] {s : RwState W} {f : Nat}
    {u : Fut Access Unit W} (width : Nat) (waker : W) (hb : s.lock.Blocks u.kind) : s.pollFuture width f u waker =
      ({ s with
        lock := (s.lock.registerIn u.registered waker u.kind).1
        futs := s.futs.set f
          (some (u.afterPoll (s.lock.registerIn u.registered waker u.kind).2 false waker)) },
        .pending) := by
  cases hk : u.kind with
  | read =>
    rw [hk] at hb
    simp [pollFuture, hk, LocalRwLock.pollRead_of_blocked width u.registered waker hb]
  | write =>
    rw [hk] at hb
    simp [pollFuture, hk, LocalRwLock.pollWrite_of_held u.registered waker hb]

variable {W : Type v} [Waker W] {width : Nat}

namespace RwCalls

variable {s : RwCalls W} {f : Nat} {u : Fut Access Unit W} {waker : W} {kind : Access}

theorem finish_take (width : Nat) (waker : W) (kind : Access) (fuel : Nat) (hu : s.futs f = some u) :
    (rwCalls W width).finish (fuel + 1) (s.take f waker kind) =
      some (({ s with lock := s.lock.deregisterIn u.registered kind
                      futs := s.futs.set f (some (u.afterPoll none true waker)) }.ended f).addGuard kind,
        .acquired) := by
  rw [take, Futs.slot_of hu, Futs.update_of hu]
  split
  · exact Reentrant.finish_done (O := rwCalls W width) fuel _ _
  · exact Reentrant.finish_done _ _ _

theorem finish_cloning (width f : Nat) (waker : W) (kind : Access) (id : UInt64) (fuel : Nat)
    (hblocks : (s.requeue f id waker kind).lock.tryAcquire width kind = .ok none) :
    (rwCalls W width).finish (fuel + 2) (s, .callback (.poll f waker kind (.cloning id))) =
      some ((s.requeue f id waker kind).ended f, .pending) := by
  have hcheck : (s.requeue f id waker kind).check width f waker kind =
      ((s.requeue f id waker kind).ended f, .done .pending) := by
    rw [check, hblocks]
  change (rwCalls W width).finish (fuel + 1) (s.pollResume width f waker kind (.cloning id)) = _
  rw [pollResume]
  split
  · change (rwCalls W width).finish fuel ((s.requeue f id waker kind).check width f waker kind) = _
    rw [hcheck, Reentrant.finish_done]
  · rw [hcheck, Reentrant.finish_done]

/-- A poll whose callbacks call nothing is the poll of the whole-call model. -/
theorem finish_poll (width : Nat) (waker : W) (hs : s.polling = []) (hu : s.futs f = some u) :
    ∃ t out, (rwCalls W width).finish 2
        (pollEnter width { s with polling := f :: s.polling } f waker u.kind) = some (t, out) ∧
      t.polling = [] ∧ (t.toRwState, out) = s.toRwState.pollFuture width f u waker := by
  cases htry : s.lock.tryAcquire width u.kind with
  | error msg =>
    simp only [pollEnter, htry]
    refine ⟨_, _, Reentrant.finish_done 2 _ _, by simp [ended, hs], ?_⟩
    cases hk : u.kind with
    | read =>
      rw [hk, LocalRwLock.tryAcquire] at htry
      simp [RwState.pollFuture, hk, LocalRwLock.pollRead, htry, bind, Except.bind, ended]
    | write =>
      rw [hk] at htry
      cases htry
  | ok r =>
    cases r with
    | some l =>
      have htake := finish_take (s := { s with lock := l, polling := f :: s.polling }) width waker
        u.kind 1 hu
      simp only [pollEnter, htry]
      refine ⟨_, _, htake, by simp [addGuard, ended, hs], ?_⟩
      cases hk : u.kind with
      | read =>
        rw [hk, LocalRwLock.tryAcquire] at htry
        simp [RwState.pollFuture, hk, LocalRwLock.pollRead, htry, bind, Except.bind, pure, Except.pure,
          addGuard, ended, Access.share]
      | write =>
        rw [hk, LocalRwLock.tryAcquire, Except.ok.injEq] at htry
        simp [RwState.pollFuture, hk, LocalRwLock.pollWrite, htry, addGuard, ended, Access.share]
    | none =>
      have hblocks : s.lock.Blocks u.kind := LocalRwLock.blocks_of_none htry
      rw [RwState.pollFuture_of_blocks width waker hblocks]
      simp only [pollEnter, htry, Futs.slot_of hu]
      cases hstale : (s.lock.waiting u.kind).stale u.registered waker with
      | false =>
        have hcheck : check width { s with
            futs := s.futs.set f (some (u.afterPoll u.registered false waker))
            polling := f :: s.polling } f waker u.kind = (ended { s with
              futs := s.futs.set f (some (u.afterPoll u.registered false waker))
              polling := f :: s.polling } f, .done .pending) := by
          simp only [check, htry]
        simp only [Bool.false_eq_true, if_false, Futs.update_of hu]
        refine ⟨_, .pending, (congrArg _ hcheck).trans (Reentrant.finish_done 2 _ _),
          by simp [ended, hs], ?_⟩
        rw [s.lock.registerIn_eq, Waiters.register_of_queued hstale]
        obtain ⟨e, -, hslot, -, -, -⟩ := Waiters.of_not_stale hstale
        cases hk : u.kind <;> simp [ended, hslot, Waiters.counterAfter, LocalRwLock.setWaiting,
          LocalRwLock.waiting]
      | true =>
        have hclone := finish_cloning (s := { s with
          lock := { s.lock with nextId := Waiters.counterAfter s.lock.nextId u.registered }
          polling := f :: s.polling }) width f waker u.kind
            (Waiters.registerId s.lock.nextId u.registered) 0
            (LocalRwLock.tryAcquire_of_blocks (hblocks.requeue _ _))
        rw [requeue, Futs.update_of hu] at hclone
        simp only [if_true]
        refine ⟨_, _, hclone, by simp [ended, hs], ?_⟩
        rw [s.lock.registerIn_eq, Waiters.register_of_stale hstale]
        cases hk : u.kind <;> rfl

theorem wake_wake (futs : Futs Access Unit W) (ws vs : List W) :
    (futs.wake ws).wake vs = futs.wake (ws ++ vs) := by
  funext f
  cases hf : futs f with
  | none => simp [Futs.wake, hf]
  | some u => cases hp : u.polled <;> simp [Futs.wake, hf, Fut.wake, hp, Waker.wokenBy, Bool.or_assoc]

/-- The loop of `wake_next` wakes every reader. -/
theorem finish_wakeReader {q : Waiters Unit W} (hq : s.lock.readWaiters = q) :
    (rwCalls W width).finish q.length s.wakeReader =
      some ({ s with lock := { s.lock with readWaiters := [] }
                     futs := s.futs.wake (q.map Entry.waker) }, .done) := by
  induction q generalizing s with
  | nil =>
    rw [wakeReader, hq]
    have hsame : ({ s.lock with readWaiters := [] } : LocalRwLock W) = s.lock := by rw [← hq]
    simp [Reentrant.finish_done, hsame]
  | cons e q ih =>
    rw [wakeReader, hq]
    refine (ih (s := { s with
      lock := { s.lock with readWaiters := q }, futs := s.futs.wake [e.waker] }) rfl).trans ?_
    rw [wake_wake]
    rfl

theorem finish_wakeNext (width : Nat) (s : RwCalls W) : ∃ fuel, (rwCalls W width).finish fuel s.wakeNext =
    some ({ s with toRwState := s.settle s.lock.wakeNext }, .done) := by
  unfold wakeNext LocalRwLock.wakeNext
  split
  · exact ⟨0, by simp [Reentrant.finish_done, RwState.settle]⟩
  · cases hq : s.lock.writeWaiters with
    | cons e rest => exact ⟨1, rfl⟩
    | nil =>
      refine ⟨_, (finish_wakeReader rfl).trans ?_⟩
      simp only [RwState.settle, hq]

theorem finish_exec {op : RwOp W} {t : RwState W} {out : RwOutcome} (hs : s.polling = [])
    (h : s.toRwState.exec width op = some (t, out)) :
    ∃ fuel r t', s.enter width op = some r ∧ (rwCalls W width).finish fuel r = some (t', out) ∧
      t'.polling = [] ∧ t'.toRwState = t := by
  have hidle (f : Nat) : f ∉ s.polling := by simp [hs]
  cases op with
  | tryRead =>
    rcases hread : s.lock.tryRead width with _ | _ | _ <;>
      simp only [RwState.exec, enter, hread] at h ⊢ <;> cases h <;>
      exact ⟨0, _, _, rfl, rfl, hs, rfl⟩
  | tryWrite =>
    cases hwrite : s.lock.tryWrite <;> simp only [RwState.exec, enter, hwrite] at h ⊢ <;> cases h <;>
      exact ⟨0, _, _, rfl, rfl, hs, rfl⟩
  | dropReadGuard =>
    simp only [RwState.exec, enter] at h ⊢
    split at h
    · cases h
    · rename_i hg
      cases h
      rw [if_neg hg]
      obtain ⟨fuel, hfuel⟩ := finish_wakeNext width { s with
        readGuards := s.readGuards - 1, lock := { s.lock with readers := s.lock.readers - 1 } }
      exact ⟨fuel, _, _, rfl, hfuel, hs, rfl⟩
  | dropWriteGuard =>
    simp only [RwState.exec, enter] at h ⊢
    split at h
    · cases h
    · rename_i hg
      cases h
      rw [if_neg hg]
      obtain ⟨fuel, hfuel⟩ := finish_wakeNext width { s with
        writeGuards := s.writeGuards - 1, lock := { s.lock with writer := false } }
      exact ⟨fuel, _, _, rfl, hfuel, hs, rfl⟩
  | create f kind =>
    cases hf : s.futs f <;> simp only [RwState.exec, enter, hf] at h ⊢ <;> cases h
    exact ⟨0, _, _, rfl, rfl, hs, rfl⟩
  | poll f waker =>
    obtain ⟨u, hu, heq⟩ := Option.map_eq_some_iff.mp h
    obtain ⟨t', out', hfinish, hpolling, ht'⟩ := finish_poll width waker hs hu
    rw [heq] at ht'
    cases ht'
    refine ⟨2, _, t', ?_, hfinish, hpolling, rfl⟩
    simp only [enter, if_neg (hidle f), hu, Option.map_some]
  | dropFuture f =>
    obtain ⟨u, hu, heq⟩ := Option.map_eq_some_iff.mp h
    simp only [enter, if_neg (hidle f), hu, Option.map_some]
    cases heq
    unfold RwState.dropFuture
    split
    · obtain ⟨fuel, hfuel⟩ := finish_wakeNext width { s with
        lock := s.lock.deregisterIn u.registered u.kind, futs := s.futs.set f none }
      exact ⟨fuel + 1, _, _, rfl, hfuel, hs, rfl⟩
    · exact ⟨0, _, _, rfl, rfl, hs, rfl⟩

theorem reachable_rwMachine {t : RwState W} (h : (rwMachine W width).Reachable t) :
    ∃ s, (rwCalls W width).machine.Reachable ⟨s, []⟩ ∧ s.polling = [] ∧ s.toRwState = t := by
  refine h.invariant (I := fun t => ∃ s, (rwCalls W width).machine.Reachable ⟨s, []⟩ ∧
    s.polling = [] ∧ s.toRwState = t) ⟨.init, ⟨[], rfl⟩, rfl, rfl⟩ ?_
  rintro t op t' ⟨s, hreach, hs, rfl⟩ hstep
  obtain ⟨⟨t'', out⟩, hexec, rfl⟩ := Option.map_eq_some_iff.mp hstep
  obtain ⟨fuel, r, s', henter, hfinish, hs', rfl⟩ := finish_exec hs hexec
  exact ⟨s', Reentrant.reachable_finish hreach henter hfinish, hs', rfl⟩

end RwCalls

end Alone

namespace RwFrame

variable {W : Type v}

/-- The guards of one kind that a suspended call holds. -/
def guards (kind : Access) : RwFrame W → Nat
  | .poll _ _ kind' at_ => kind.share kind' at_.guards
  | .cancelling => 0
  | .wakingWriter => 0
  | .wakingReader => 0

/-- The future that a suspended call borrows. -/
def polls : RwFrame W → Option (Nat × Access)
  | .poll f _ kind _ => some (f, kind)
  | .cancelling => none
  | .wakingWriter => none
  | .wakingReader => none

/-- The token of an entry that is still to be queued. -/
def reserves : RwFrame W → Option (Nat × UInt64)
  | .poll f _ _ at_ => at_.reserves f
  | .cancelling => none
  | .wakingWriter => none
  | .wakingReader => none

/-- The call is still to try for the write lock, or to run `wake_next`. -/
def ServesWriters : RwFrame W → Prop
  | .poll _ _ kind at_ => kind = .write ∧ at_.Checks
  | .cancelling => True
  | .wakingWriter => False
  | .wakingReader => False

/-- The call is still to try for the lock, to run `wake_next` or to wake more readers. -/
def PassesOn : RwFrame W → Prop
  | .poll _ _ _ at_ => at_.Checks
  | .cancelling => True
  | .wakingWriter => False
  | .wakingReader => True

theorem polls_of_reserves {stack : List (RwFrame W)} {f : Nat} {id : UInt64}
    (h : (f, id) ∈ stack.filterMap reserves) : ∃ k, (f, k) ∈ stack.filterMap polls := by
  obtain ⟨frame, hmem, hr⟩ := List.mem_filterMap.mp h
  cases frame with
  | poll g waker kind at_ =>
    refine ⟨kind, List.mem_filterMap.mpr ⟨_, hmem, ?_⟩⟩
    rw [polls, LockPoll.of_reserves hr]
  | cancelling => cases hr
  | wakingWriter => cases hr
  | wakingReader => cases hr

theorem eq_of_reserves {frame : RwFrame W} {f : Nat} {id : UInt64}
    (h : frame.reserves = some (f, id)) : ∃ waker kind, frame = .poll f waker kind (.cloning id) := by
  cases frame with
  | poll g waker kind at_ =>
    cases at_ with
    | took => cases h
    | cloning id =>
      cases h
      exact ⟨waker, kind, rfl⟩
    | registered => cases h
  | cancelling => cases h
  | wakingWriter => cases h
  | wakingReader => cases h

theorem passesOn_of_servesWriters {frame : RwFrame W} (h : frame.ServesWriters) :
    frame.PassesOn := by
  cases frame with
  | poll g waker kind at_ => exact h.2
  | cancelling => trivial
  | wakingWriter => exact h.elim
  | wakingReader => exact h.elim

/-- The guards of one kind held by suspended calls. -/
def held (kind : Access) (stack : List (RwFrame W)) : Nat := (stack.map (guards kind)).sum

@[simp] theorem held_nil (kind : Access) : held kind ([] : List (RwFrame W)) = 0 := rfl

@[simp] theorem held_cons (kind : Access) (frame : RwFrame W) (stack : List (RwFrame W)) :
    held kind (frame :: stack) = frame.guards kind + held kind stack := rfl

end RwFrame

namespace LocalRwLock

variable {W : Type v} {l l' : LocalRwLock W} {width r w : Nat} {kind : Access}

theorem Acquires.waiting_eq (h : l.Acquires kind l') (k : Access) : l'.waiting k = l.waiting k := by
  cases h <;> cases k <;> rfl

theorem Acquires.nextId_eq (h : l.Acquires kind l') : l'.nextId = l.nextId := by
  cases h <;> rfl

/-- The cells count `r` read guards and `w` write guards, never both. -/
structure Counts (l : LocalRwLock W) (r w : Nat) : Prop where
  readers : l.readers = r
  writer : w = if l.writer then 1 else 0
  exclusive : l.writer = true → l.readers = 0

theorem Counts.congr {r' w' : Nat} (h : l.Counts r w) (hr : r' = r) (hw : w' = w) :
    l.Counts r' w' := by
  rw [hr, hw]
  exact h

theorem Counts.acquire (h : l.Counts r w) (ha : l.Acquires kind l') :
    l'.Counts (r + Access.read.share kind 1) (w + Access.write.share kind 1) := by
  cases ha with
  | read hw hq =>
    refine ⟨by simp [Access.share, h.readers], by simp [Access.share, h.writer], fun hw' => ?_⟩
    cases hw.symm.trans hw'
  | write hf =>
    refine ⟨by simp [Access.share, h.readers], ?_, fun _ => hf.1⟩
    simp [Access.share, h.writer, hf.2]

theorem Counts.releaseRead (h : l.Counts r w) :
    ({ l with readers := l.readers - 1 } : LocalRwLock W).Counts (r - 1) w :=
  ⟨congrArg (· - 1) h.readers, h.writer, fun hw => by simp [h.exclusive hw]⟩

theorem Counts.releaseWrite (h : l.Counts r w) (hw : 0 < w) :
    ({ l with writer := false } : LocalRwLock W).Counts r (w - 1) := by
  refine ⟨h.readers, ?_, fun hw' => by cases hw'⟩
  have := h.writer
  split at this <;> simp_all

theorem Counts.not_free (h : l.Counts r w) (hg : 0 < r + w) : ¬ l.Free := by
  rintro ⟨hr, hw⟩
  have := h.writer
  simp only [hw, Bool.false_eq_true, if_false] at this
  have := h.readers
  omega

theorem Counts.of_same (h : l.Counts r w) (l' : LocalRwLock W) (hr : l'.readers = l.readers) (hw : l'.writer = l.writer) :
    l'.Counts r w :=
  ⟨hr ▸ h.readers, hw ▸ h.writer, by rw [hr, hw]; exact h.exclusive⟩

section Queues

variable {futs : Futs Access Unit W} {f : Nat} {u : Fut Access Unit W}

/-- Each queue holds entries of live futures of its kind, one of each token. -/
structure Queues (l : LocalRwLock W) (futs : Futs Access Unit W) : Prop where
  owns : ∀ kind, futs.Owns (· = kind) (l.waiting kind)
  nodup : ∀ kind, (l.waiting kind).ids.Nodup

theorem Queues.of_same (h : l.Queues futs) (hq : ∀ kind, l'.waiting kind = l.waiting kind) :
    l'.Queues futs :=
  ⟨fun kind => hq kind ▸ h.owns kind, fun kind => hq kind ▸ h.nodup kind⟩

theorem Queues.sublist (h : l.Queues futs) (hq : ∀ kind, (l'.waiting kind).Sublist (l.waiting kind)) :
    l'.Queues futs :=
  ⟨fun kind => (h.owns kind).subset fun _ he => (hq kind).subset he,
    fun kind => (h.nodup kind).sublist ((hq kind).map Entry.id)⟩

theorem Queues.wake [Waker W] (h : l.Queues futs) (ws : List W) : l.Queues (futs.wake ws) :=
  ⟨fun kind => (h.owns kind).wake ws, h.nodup⟩

/-- The other queue has nothing of the future. -/
theorem Queues.set_other (h : l.Queues futs) (hu : futs f = some u) (hk : u.kind ≠ kind)
    (v : Option (Fut Access Unit W)) : (futs.set f v).Owns (· = kind) (l.waiting kind) := by
  refine (h.owns kind).set_of fun w hw hwk => ?_
  cases hu.symm.trans hw
  exact absurd hwk hk

theorem Queues.deregister (h : l.Queues futs) (hu : futs f = some u)
    (v : Option (Fut Access Unit W)) :
    (l.deregisterIn u.registered u.kind).Queues (futs.set f v) := by
  rw [deregisterIn_eq]
  refine ⟨fun kind => ?_, fun kind => ?_⟩ <;> rw [waiting_setWaiting] <;> split
  · rename_i hk
    subst hk
    exact (h.owns _).deregister hu v
  · rename_i hk
    exact h.set_other hu (Ne.symm hk) v
  · exact Waiters.nodup_deregister (h.nodup _) _
  · exact h.nodup kind

theorem Queues.requeue (h : l.Queues futs) (hu : futs f = some u) {v : Fut Access Unit W}
    {e : Entry Unit W} (hid : ∀ x, u.registered = some x → x.id = e.id) (hk : v.kind = u.kind)
    (hv : v.registered = some e) :
    (l.setWaiting ((l.waiting u.kind).requeue e) u.kind).Queues (futs.set f (some v)) := by
  refine ⟨fun kind => ?_, fun kind => ?_⟩ <;> rw [waiting_setWaiting] <;> split
  · rename_i hkind
    subst hkind
    exact (h.owns _).requeue hu hid hk hv
  · rename_i hkind
    exact h.set_other hu (Ne.symm hkind) _
  · exact Waiters.nodup_append (h.nodup _) e
  · exact h.nodup kind

theorem Queues.set_same_slot (h : l.Queues futs) (hu : futs f = some u) {v : Fut Access Unit W}
    (hk : v.kind = u.kind) (hv : v.registered = u.registered) : l.Queues (futs.set f (some v)) := by
  refine ⟨fun kind => ?_, h.nodup⟩
  by_cases hkind : u.kind = kind
  · subst hkind
    exact (h.owns _).set_same_slot hu hk hv
  · exact h.set_other hu hkind _

theorem Queues.set_fresh (h : l.Queues futs) (hf : futs f = none) (v : Option (Fut Access Unit W)) :
    l.Queues (futs.set f v) :=
  ⟨fun kind => (h.owns kind).set_of fun u hu => by simp [hf] at hu, h.nodup⟩

theorem Queues.set_unregistered (h : l.Queues futs) (hu : futs f = some u) (hr : u.registered = none)
    (v : Option (Fut Access Unit W)) : l.Queues (futs.set f v) := by
  refine ⟨fun kind => (h.owns kind).set_of fun w hw _ e he => ?_, h.nodup⟩
  cases hu.symm.trans hw
  cases hr.symm.trans he

end Queues

end LocalRwLock

open RwFrame

/-- The lock, its callers, and the calls suspended in callbacks. -/
structure RwNested {W : Type v} [Waker W] (stack : List (RwFrame W)) (s : RwCalls W) : Prop where
  counts : s.lock.Counts (s.readGuards + held .read stack) (s.writeGuards + held .write stack)
  queues : s.lock.Queues s.futs
  consistent : s.futs.Consistent
  writers : s.lock.Free → s.lock.writeWaiters ≠ [] →
    s.WokenWriter ∨ ∃ frame ∈ stack, frame.ServesWriters
  readers : s.lock.Free → s.lock.readWaiters ≠ [] → s.WokenWriter ∨ ∃ frame ∈ stack, frame.PassesOn
  borrowed : s.futs.Borrowed s.polling (stack.filterMap polls) (stack.filterMap reserves)

namespace RwNested

variable {W : Type v} [Waker W] {stack rest : List (RwFrame W)} {s t : RwCalls W} {f width : Nat}
  {waker : W} {kind : Access} {seg : Segment (RwFrame W) RwOutcome}

theorem init : RwNested [] (RwCalls.init : RwCalls W) where
  counts := ⟨rfl, rfl, fun h => by cases h⟩
  queues := by
    refine ⟨fun kind e he => ?_, fun kind => ?_⟩ <;> cases kind
    · cases he
    · cases he
    · exact List.nodup_nil
    · exact List.nodup_nil
  consistent _ _ hf := by cases hf
  writers _ hne := absurd rfl hne
  readers _ hne := absurd rfl hne
  borrowed := Futs.borrowed_init

/-- On a held lock there is nobody to serve. -/
theorem of_held (hc : s.lock.Counts (s.readGuards + held .read stack) (s.writeGuards + held .write stack))
    (hq : s.lock.Queues s.futs) (hs : s.futs.Consistent)
    (hb : s.futs.Borrowed s.polling (stack.filterMap polls) (stack.filterMap reserves))
    (hf : ¬ s.lock.Free) : RwNested stack s :=
  ⟨hc, hq, hs, fun hfree => absurd hfree hf, fun hfree => absurd hfree hf, hb⟩

/-- A poll begins; it is to try for the lock. -/
theorem begin_poll (h : RwNested stack s) (hf : f ∉ s.polling) {u : Fut Access Unit W}
    (hu : s.futs f = some u) (waker : W) :
    RwNested (.poll f waker u.kind .registered :: stack) { s with polling := f :: s.polling } where
  counts := by simpa [guards, LockPoll.guards] using h.counts
  queues := h.queues
  consistent := h.consistent
  writers hfree hne := (h.writers hfree hne).imp_right List.exists_mem_cons_of_exists
  readers _ _ := .inr ⟨_, List.mem_cons_self, trivial⟩
  borrowed := h.borrowed.start hf hu

theorem take {l : LocalRwLock W} (h : RwNested (.poll f waker kind .registered :: rest) s)
    (ha : s.lock.Acquires kind l)
    (ht : RwCalls.take { s with lock := l } f waker kind = (t, seg)) :
    RwNested (seg.frames ++ rest) t := by
  have hb : s.futs.Borrowed s.polling ((f, kind) :: rest.filterMap polls)
      ([] ++ rest.filterMap reserves) := h.borrowed
  obtain ⟨u, hu, hk⟩ := hb.live f kind List.mem_cons_self
  subst hk
  have hset := hb.set_top (u := u.afterPoll none true waker) (fun _ _ => polls_of_reserves) rfl
  have hq := (h.queues.of_same ha.waiting_eq).deregister hu (some (u.afterPoll none true waker))
  have hconsistent := h.consistent.set f (u.consistent_ready waker)
  have hc := (h.counts.acquire ha).of_same (l.deregisterIn u.registered u.kind)
    (LocalRwLock.deregisterIn_readers ..) (LocalRwLock.deregisterIn_writer ..)
  have hfree : ¬ (l.deregisterIn u.registered u.kind).Free := by
    have := ha.not_free
    rwa [LocalRwLock.Free, LocalRwLock.deregisterIn_readers, LocalRwLock.deregisterIn_writer]
  rw [RwCalls.take] at ht
  simp only [Futs.update_of hu, Futs.slot_of hu] at ht
  split at ht
  · cases ht
    refine of_held (hc.congr ?_ ?_) hq hconsistent hset hfree <;>
      simp only [held_cons, Segment.frames, List.cons_append, List.nil_append, guards,
        LockPoll.guards, Access.share_zero] <;> omega
  · cases ht
    refine of_held (hc.congr ?_ ?_) hq hconsistent hset.finish hfree <;>
      simp only [RwCalls.addGuard, RwCalls.ended, held_cons, Segment.frames, List.nil_append, guards,
        LockPoll.guards, Access.share_zero] <;> omega

/-- A read poll that finds a writer queued leaves the lock to it. -/
theorem blocked (h : RwNested (.poll f waker kind .registered :: rest) s) (hb : s.lock.Blocks kind) :
    RwNested rest (s.ended f) := by
  have hwriters : s.lock.Free → s.lock.writeWaiters ≠ [] →
      s.WokenWriter ∨ ∃ frame ∈ rest, frame.ServesWriters := by
    intro hfree hne
    refine (h.writers hfree hne).imp_right ?_
    rintro ⟨frame, hmem, hs⟩
    rcases List.mem_cons.mp hmem with rfl | hmem
    · obtain ⟨rfl, -⟩ := hs
      exact absurd hfree hb
    · exact ⟨frame, hmem, hs⟩
  refine ⟨?_, h.queues, h.consistent, hwriters, fun hfree _ => ?_, h.borrowed.finish⟩
  · simpa [guards, LockPoll.guards, RwCalls.ended] using h.counts
  · have hne : s.lock.writeWaiters ≠ [] := by
      cases kind with
      | read =>
        rcases hb with hw | hq
        · exact absurd (hw.symm.trans hfree.2) (by decide)
        · exact hq
      | write => exact absurd hfree hb
    refine (hwriters hfree hne).imp_right ?_
    rintro ⟨x, hx, hs⟩
    exact ⟨x, hx, passesOn_of_servesWriters hs⟩

theorem check (hwidth : 0 < width) (h : RwNested (.poll f waker kind .registered :: rest) s)
    (ht : s.check width f waker kind = (t, seg)) : RwNested (seg.frames ++ rest) t := by
  unfold RwCalls.check at ht
  split at ht
  · rename_i hacquire
    cases ht
    refine of_held ?_ h.queues h.consistent h.borrowed.finish
      (LocalRwLock.not_free_of_error hwidth hacquire)
    simpa [guards, LockPoll.guards, RwCalls.ended, Segment.frames] using h.counts
  · exact h.take (LocalRwLock.acquires_of_some ‹_›) ht
  · cases ht
    exact h.blocked (LocalRwLock.blocks_of_none ‹_›)

/-- The polled future owns the entries under its token, and nothing else changes. -/
theorem requeue {id : UInt64} (h : RwNested (.poll f waker kind (.cloning id) :: rest) s) :
    RwNested (.poll f waker kind .registered :: rest) (s.requeue f id waker kind) := by
  have hb : s.futs.Borrowed s.polling ((f, kind) :: rest.filterMap polls)
      ([(f, id)] ++ rest.filterMap reserves) := h.borrowed
  obtain ⟨u, hu, hk⟩ := hb.live f kind List.mem_cons_self
  subst hk
  have hown : ∀ e, u.registered = some e → e.id = id := by
    intro e he
    exact hb.ids f id List.mem_cons_self e ((Futs.slot_of hu).trans he)
  have hreaders : (s.requeue f id waker u.kind).lock.readers = s.lock.readers := by
    rw [RwCalls.requeue]
    cases u.kind <;> rfl
  have hwriter : (s.requeue f id waker u.kind).lock.writer = s.lock.writer := by
    rw [RwCalls.requeue]
    cases u.kind <;> rfl
  have hqueues := h.queues.requeue (e := ⟨id, (), waker⟩)
    (v := u.afterPoll (some ⟨id, (), waker⟩) false waker) hu hown rfl rfl
  refine ⟨?_, ?_, ?_, fun hfree hne => ?_, fun _ _ => .inr ⟨_, List.mem_cons_self, trivial⟩, ?_⟩
  · refine (h.counts.of_same _ hreaders hwriter).congr ?_ ?_ <;>
      simp [guards, LockPoll.guards, RwCalls.requeue]
  · rwa [RwCalls.requeue, Futs.update_of hu]
  · rw [RwCalls.requeue, Futs.update_of hu]
    exact h.consistent.set f (u.consistent_pending rfl rfl)
  · -- A writer is served by its own poll, and a reader leaves the writers' turn alone.
    cases hkind : u.kind with
    | write => exact .inr ⟨_, List.mem_cons_self, rfl, trivial⟩
    | read =>
      rw [hkind] at hfree hne hreaders hwriter
      have hfree : s.lock.Free := ⟨hreaders ▸ hfree.1, hwriter ▸ hfree.2⟩
      rcases h.writers hfree hne with hw | ⟨frame, hmem, hs⟩
      · refine .inl (hw.of_set (Futs.update_of hu _) fun v hv => ?_)
        cases hu.symm.trans hv
        exact hkind
      · rcases List.mem_cons.mp hmem with rfl | hmem
        · cases hkind.symm.trans hs.1
        · exact .inr ⟨frame, List.mem_cons_of_mem _ hmem, hs⟩
  · rw [RwCalls.requeue, Futs.update_of hu]
    exact hb.set_top (fun _ _ => polls_of_reserves) rfl

theorem wokenWriter_wake {l : LocalRwLock W} (h : s.WokenWriter) (ws : List W) :
    RwState.WokenWriter { s.toRwState with lock := l, futs := s.futs.wake ws } := by
  obtain ⟨f, u, hf, hk, hwait, hwoken⟩ := h
  exact ⟨f, u.wake ws, Futs.wake_eq_some.mpr ⟨u, hf, rfl⟩, hk, hwait, Fut.wake_woken_of hwoken⟩

/-- A call that is to serve nobody but readers stops on top of the others. -/
theorem wakeReader (hc : s.lock.Counts (s.readGuards + held .read stack) (s.writeGuards + held .write stack))
    (hq : s.lock.Queues s.futs) (hs : s.futs.Consistent)
    (hwriters : s.lock.Free → s.lock.writeWaiters ≠ [] →
      s.WokenWriter ∨ ∃ frame ∈ stack, frame.ServesWriters)
    (hb : s.futs.Borrowed s.polling (stack.filterMap polls) (stack.filterMap reserves))
    (ht : s.wakeReader = (t, seg)) : RwNested (seg.frames ++ stack) t := by
  unfold RwCalls.wakeReader at ht
  split at ht
  · rename_i e waiters hwaiters
    cases ht
    refine ⟨?_, ?_, hs.wake _, fun hfree hne => ?_, fun _ _ => .inr ⟨_, List.mem_cons_self, trivial⟩,
      hb.wake _⟩
    · simpa [guards, Segment.frames] using hc.of_same { s.lock with readWaiters := waiters } rfl rfl
    · refine LocalRwLock.Queues.wake (l := { s.lock with readWaiters := waiters }) (hq.sublist ?_) _
      intro kind
      cases kind with
      | read =>
        change waiters.Sublist s.lock.readWaiters
        rw [hwaiters]
        exact List.sublist_cons_self e waiters
      | write => exact List.Sublist.refl _
    · exact (hwriters hfree hne).imp (fun hw => wokenWriter_wake hw _) List.exists_mem_cons_of_exists
  · rename_i hwaiters
    cases ht
    exact ⟨hc, hq, hs, hwriters, fun _ hne => absurd hwaiters hne, hb⟩

theorem wakeNext (hc : s.lock.Counts (s.readGuards + held .read stack) (s.writeGuards + held .write stack))
    (hq : s.lock.Queues s.futs) (hs : s.futs.Consistent)
    (hb : s.futs.Borrowed s.polling (stack.filterMap polls) (stack.filterMap reserves))
    (ht : s.wakeNext = (t, seg)) : RwNested (seg.frames ++ stack) t := by
  unfold RwCalls.wakeNext at ht
  split at ht
  · rename_i hheld
    cases ht
    refine of_held hc hq hs hb fun hfree => ?_
    rw [LocalRwLock.free_iff.mpr hfree] at hheld
    cases hheld
  · split at ht
    · rename_i e waiters hwaiters
      cases ht
      have hwoken : RwState.WokenWriter { s.toRwState with
          lock := { s.lock with writeWaiters := waiters }, futs := s.futs.wake [e.waker] } := by
        obtain ⟨f, u, hf, hk, -, hwait, hwoken⟩ := hs.woken_owner (hq.owns .write) (e := e)
          (by simp [LocalRwLock.waiting, hwaiters]) (List.mem_singleton_self _)
        exact ⟨f, u, hf, hk, hwait, hwoken⟩
      refine ⟨?_, ?_, hs.wake _, fun _ _ => .inl hwoken, fun _ _ => .inl hwoken, hb.wake _⟩
      · simpa [guards, Segment.frames] using
          hc.of_same { s.lock with writeWaiters := waiters } rfl rfl
      · refine LocalRwLock.Queues.wake (l := { s.lock with writeWaiters := waiters }) (hq.sublist ?_) _
        intro kind
        cases kind with
        | read => exact List.Sublist.refl _
        | write =>
          change waiters.Sublist s.lock.writeWaiters
          rw [hwaiters]
          exact List.sublist_cons_self e waiters
    · exact wakeReader hc hq hs (fun _ hne => absurd ‹_› hne) hb ht

theorem tryRead (h : RwNested stack s) (ht : s.enter width .tryRead = some (t, seg)) :
    RwNested (seg.frames ++ stack) t := by
  simp only [RwCalls.enter] at ht
  split at ht
  · cases ht
    exact h
  · cases ht
    exact h
  · rename_i l hacquire
    cases ht
    cases hw : s.lock.writer with
    | true =>
      rw [s.lock.tryRead_of_writer width hw] at hacquire
      cases hacquire
    | false =>
      rw [s.lock.tryRead_of_no_writer width hw] at hacquire
      rcases s.lock.addReader_cases width with ⟨m, hm⟩ | hm <;> rw [hm] at hacquire <;> cases hacquire
      refine of_held ?_ (h.queues.of_same fun kind => by cases kind <;> rfl) h.consistent h.borrowed
        (by simp [LocalRwLock.Free])
      refine ⟨?_, h.counts.writer, fun hw' => by simp [hw] at hw'⟩
      have := h.counts.readers
      change s.lock.readers + 1 = s.readGuards + 1 + held .read stack
      omega

theorem tryWrite (h : RwNested stack s) (ht : s.enter width .tryWrite = some (t, seg)) :
    RwNested (seg.frames ++ stack) t := by
  simp only [RwCalls.enter] at ht
  split at ht
  · cases ht
    exact h
  · rename_i l hacquire
    cases ht
    have hfree : s.lock.Free := by
      by_contra hheld
      rw [LocalRwLock.tryWrite_of_held hheld] at hacquire
      cases hacquire
    rw [LocalRwLock.tryWrite_of_free hfree] at hacquire
    cases hacquire
    refine of_held ?_ (h.queues.of_same fun kind => by cases kind <;> rfl) h.consistent h.borrowed
      (by simp [LocalRwLock.Free])
    refine ⟨h.counts.readers, ?_, fun _ => hfree.1⟩
    have := h.counts.writer
    simp only [hfree.2, Bool.false_eq_true, if_false] at this
    change s.writeGuards + 1 + held .write stack = 1
    omega

theorem dropReadGuard (h : RwNested stack s) (ht : s.enter width .dropReadGuard = some (t, seg)) :
    RwNested (seg.frames ++ stack) t := by
  simp only [RwCalls.enter] at ht
  split at ht
  · cases ht
  · rename_i hg
    let u : RwCalls W := { s with readGuards := s.readGuards - 1
                                  lock := { s.lock with readers := s.lock.readers - 1 } }
    refine wakeNext (s := u) (h.counts.releaseRead.congr ?_ rfl)
      (h.queues.of_same fun kind => by cases kind <;> rfl) h.consistent h.borrowed (Option.some.inj ht)
    change s.readGuards - 1 + held .read stack = s.readGuards + held .read stack - 1
    omega

theorem dropWriteGuard (h : RwNested stack s) (ht : s.enter width .dropWriteGuard = some (t, seg)) :
    RwNested (seg.frames ++ stack) t := by
  simp only [RwCalls.enter] at ht
  split at ht
  · cases ht
  · rename_i hg
    let u : RwCalls W := { s with writeGuards := s.writeGuards - 1
                                  lock := { s.lock with writer := false } }
    refine wakeNext (s := u) ((h.counts.releaseWrite (by omega)).congr rfl ?_)
      (h.queues.of_same fun kind => by cases kind <;> rfl) h.consistent h.borrowed (Option.some.inj ht)
    change s.writeGuards - 1 + held .write stack = s.writeGuards + held .write stack - 1
    omega

/-- A future that was not waiting is replaced. -/
theorem set_idle {v : Option (Fut Access Unit W)} (h : RwNested stack s) (hf : f ∉ s.polling)
    (hr : ∀ u, s.futs f = some u → u.registered = none)
    (hq : s.lock.Queues (s.futs.set f v)) (hs : (s.futs.set f v).Consistent) :
    RwNested stack { s with futs := s.futs.set f v } := by
  have hwoken : s.WokenWriter → RwState.WokenWriter { s.toRwState with futs := s.futs.set f v } := by
    rintro ⟨g, u, hg, hk, hwait, hwoken⟩
    have hgf : g ≠ f := by
      rintro rfl
      obtain ⟨e, he⟩ := (h.consistent g u hg).waiting_iff.mp hwait
      rw [hr u hg] at he
      cases he
    exact ⟨g, u, (Futs.set_ne _ hgf _).trans hg, hk, hwait, hwoken⟩
  exact ⟨h.counts, hq, hs, fun hfree hne => (h.writers hfree hne).imp_left hwoken,
    fun hfree hne => (h.readers hfree hne).imp_left hwoken,
    h.borrowed.set_idle hf (fun _ _ => polls_of_reserves) v⟩

theorem poll (hwidth : 0 < width) (h : RwNested stack s)
    (ht : s.enter width (.poll f waker) = some (t, seg)) : RwNested (seg.frames ++ stack) t := by
  simp only [RwCalls.enter] at ht
  split at ht
  · cases ht
  · rename_i hf
    obtain ⟨u, hu, heq⟩ := Option.map_eq_some_iff.mp ht
    have hbegin := h.begin_poll hf hu waker
    have hset : s.futs.Borrowed (f :: s.polling) ((f, u.kind) :: stack.filterMap polls)
        ([] ++ stack.filterMap reserves) := hbegin.borrowed
    unfold RwCalls.pollEnter at heq
    split at heq
    · rename_i hacquire
      cases heq
      refine of_held ?_ h.queues h.consistent hbegin.borrowed.finish
        (LocalRwLock.not_free_of_error hwidth hacquire)
      exact h.counts
    · exact hbegin.take (LocalRwLock.acquires_of_some ‹_›) heq
    · rename_i hacquire
      have hblocks : s.lock.Blocks u.kind := LocalRwLock.blocks_of_none hacquire
      simp only [Futs.slot_of hu] at heq
      split at heq
      · cases heq
        refine ⟨?_, h.queues.of_same fun kind => by cases kind <;> rfl, h.consistent,
          fun hfree hne => ?_, fun _ _ => .inr ⟨_, List.mem_cons_self, trivial⟩,
          hbegin.borrowed.reserve fun e he => ?_⟩
        · simpa [guards, LockPoll.guards, Segment.frames] using h.counts.of_same
            { s.lock with nextId := Waiters.counterAfter s.lock.nextId u.registered } rfl rfl
        · exact (h.writers hfree hne).imp_right List.exists_mem_cons_of_exists
        · rw [← Futs.slot_of hu, show s.futs.slot f = some e from he]
          rfl
      · rename_i hstale
        obtain ⟨e, x, hslot, htask, -, -⟩ := Waiters.of_not_stale (by simpa using hstale)
        rw [Futs.update_of hu] at heq
        refine check hwidth ?_ heq
        refine ⟨hbegin.counts, h.queues.set_same_slot hu rfl rfl,
          h.consistent.set f (u.consistent_pending hslot htask), fun hfree hne => ?_,
          fun _ _ => .inr ⟨_, List.mem_cons_self, trivial⟩,
          hset.set_top (fun _ _ => polls_of_reserves) rfl⟩
        cases hkind : u.kind with
        | write => exact .inr ⟨_, List.mem_cons_self, rfl, trivial⟩
        | read =>
          refine (h.writers hfree hne).imp ?_ List.exists_mem_cons_of_exists
          intro hw
          refine hw.of_set rfl fun v hv => ?_
          cases hu.symm.trans hv
          exact hkind

theorem dropFuture (h : RwNested stack s) (ht : s.enter width (.dropFuture f) = some (t, seg)) :
    RwNested (seg.frames ++ stack) t := by
  simp only [RwCalls.enter] at ht
  split at ht
  · cases ht
  · rename_i hf
    obtain ⟨u, hu, heq⟩ := Option.map_eq_some_iff.mp ht
    split at heq
    · cases heq
      refine ⟨?_, h.queues.deregister hu none, h.consistent.erase f,
        fun _ _ => .inr ⟨_, List.mem_cons_self, trivial⟩,
        fun _ _ => .inr ⟨_, List.mem_cons_self, trivial⟩,
        h.borrowed.set_idle hf (fun _ _ => polls_of_reserves) none⟩
      simpa [guards, Segment.frames] using
        h.counts.of_same (s.lock.deregisterIn u.registered u.kind) (by simp) (by simp)
    · rename_i hr
      have hr : u.registered = none := by simpa using hr
      cases heq
      refine h.set_idle hf (fun v hv => ?_) (h.queues.set_unregistered hu hr none)
        (h.consistent.erase f)
      cases hu.symm.trans hv
      exact hr

theorem enter {op : RwOp W} (hwidth : 0 < width) (h : RwNested stack s)
    (ht : s.enter width op = some (t, seg)) : RwNested (seg.frames ++ stack) t := by
  cases op with
  | tryRead => exact h.tryRead ht
  | tryWrite => exact h.tryWrite ht
  | dropReadGuard => exact h.dropReadGuard ht
  | dropWriteGuard => exact h.dropWriteGuard ht
  | create f kind =>
    simp only [RwCalls.enter] at ht
    split at ht
    · cases ht
    · rename_i hf
      cases ht
      exact h.set_idle (h.borrowed.idle_of_none hf) (fun u hu => by simp [hf] at hu)
        (h.queues.set_fresh hf _) (h.consistent.set f (Fut.consistent_fresh _))
  | poll f waker => exact h.poll hwidth ht
  | dropFuture f => exact h.dropFuture ht

theorem resume {frame : RwFrame W} (hwidth : 0 < width) (h : RwNested (frame :: rest) s) :
    RwNested ((s.resume width frame).2.frames ++ rest) (s.resume width frame).1 := by
  cases frame with
  | poll f waker kind at_ =>
    cases at_ with
    | took =>
      refine of_held (h.counts.congr ?_ ?_) h.queues h.consistent h.borrowed.finish ?_
      · simp only [RwCalls.resume, RwCalls.pollResume, RwCalls.addGuard, RwCalls.ended, held_cons,
          Segment.frames, List.nil_append, guards, LockPoll.guards]
        omega
      · simp only [RwCalls.resume, RwCalls.pollResume, RwCalls.addGuard, RwCalls.ended, held_cons,
          Segment.frames, List.nil_append, guards, LockPoll.guards]
        omega
      · refine h.counts.not_free ?_
        cases kind <;> simp [guards, LockPoll.guards, Access.share]
    | cloning id =>
      simp only [RwCalls.resume, RwCalls.pollResume]
      split
      · exact h.requeue
      · exact h.requeue.check hwidth rfl
    | registered => exact h.check hwidth rfl
  | cancelling =>
    exact wakeNext (by simpa [guards] using h.counts) h.queues h.consistent h.borrowed rfl
  | wakingWriter =>
    have htail {P : RwFrame W → Prop} (hno : ¬ P .wakingWriter)
        (hP : ∃ frame ∈ (.wakingWriter : RwFrame W) :: rest, P frame) : ∃ frame ∈ rest, P frame := by
      obtain ⟨frame, hmem, hframe⟩ := hP
      rcases List.mem_cons.mp hmem with rfl | hmem
      · exact absurd hframe hno
      · exact ⟨frame, hmem, hframe⟩
    refine ⟨by simpa [guards, RwCalls.resume, Segment.frames] using h.counts, h.queues, h.consistent,
      fun hfree hne => (h.writers hfree hne).imp_right (htail id),
      fun hfree hne => (h.readers hfree hne).imp_right (htail id), h.borrowed⟩
  | wakingReader =>
    refine wakeReader (by simpa [guards] using h.counts) h.queues h.consistent ?_ h.borrowed rfl
    intro hfree hne
    refine (h.writers hfree hne).imp_right ?_
    rintro ⟨frame, hmem, hserves⟩
    rcases List.mem_cons.mp hmem with rfl | hmem
    · exact hserves.elim
    · exact ⟨frame, hmem, hserves⟩

end RwNested

/-- After `n` moves: the tokens are distinct, and a registered future is queued or has been
woken, unless its poll is about to queue it. -/
def RwServes {W : Type v} (n : Nat) (stack : List (RwFrame W)) (s : RwState W) : Prop :=
  (∃ m, m ≤ n ∧ s.futs.Reserves (stack.filterMap reserves) m s.lock.nextId) ∧
    ∀ kind, s.futs.Queued (· = kind) (stack.filterMap reserves) (s.lock.waiting kind)

namespace RwServes

variable {W : Type v} {n width : Nat} {stack rest : List (RwFrame W)} {s t : RwCalls W} {f : Nat}
  {waker : W} {kind : Access} {seg : Segment (RwFrame W) RwOutcome}

theorem init : RwServes 0 [] (RwState.init : RwState W) :=
  ⟨⟨0, le_refl _, Futs.reserves_init⟩, fun _ _ _ _ hf => by cases hf⟩

theorem mono {m : Nat} (h : RwServes n stack s.toRwState) (hm : n ≤ m) :
    RwServes m stack s.toRwState := by
  obtain ⟨⟨k, hk, hr⟩, hq⟩ := h
  exact ⟨⟨k, by omega, hr⟩, hq⟩

/-- A call that is not to queue anything goes on, or ends. -/
theorem without {frame : RwFrame W} (h : RwServes n (frame :: rest) s.toRwState)
    (hr : frame.reserves = none) : RwServes n rest s.toRwState := by
  rw [RwServes, List.filterMap_cons_none hr] at h
  exact h

/-- A future leaves its queue, for good or with a guard. -/
theorem deregister {l : LocalRwLock W} (h : RwServes n stack { s.toRwState with lock := l })
    {u : Fut Access Unit W} (hu : s.futs f = some u) {v : Option (Fut Access Unit W)}
    (hv : v.bind Fut.registered = none) : RwServes n stack { s.toRwState with
      lock := l.deregisterIn u.registered u.kind, futs := s.futs.set f v } := by
  obtain ⟨⟨m, hm, hr⟩, hq⟩ := h
  rw [LocalRwLock.deregisterIn_eq]
  refine ⟨⟨m, hm, ?_⟩, fun kind => ?_⟩
  · simp only [LocalRwLock.setWaiting_nextId]
    exact hr.of_slots (Futs.slot_of_emptied hv) fun _ hmem => hmem
  · simp only [LocalRwLock.waiting_setWaiting]
    split
    · rename_i hkind
      subst hkind
      exact (hq _).deregister hr.slots hu hv
    · refine Futs.Queued.set_other [] (hq kind) (fun _ hr => by cases hr) ?_
      rintro w e rfl - he
      cases hv.symm.trans he

theorem take {l : LocalRwLock W} (h : RwServes n rest s.toRwState) (ha : s.lock.Acquires kind l)
    (hb : ∃ u, s.futs f = some u ∧ u.kind = kind)
    (ht : RwCalls.take { s with lock := l } f waker kind = (t, seg)) :
    RwServes n (seg.frames ++ rest) t.toRwState := by
  obtain ⟨u, hu, rfl⟩ := hb
  have hl : RwServes n rest { s.toRwState with lock := l } := by
    obtain ⟨⟨m, hm, hr⟩, hq⟩ := h
    refine ⟨⟨m, hm, ?_⟩, fun kind => ?_⟩
    · simpa only [ha.nextId_eq] using hr
    · simpa only [ha.waiting_eq] using hq kind
  have hd := hl.deregister hu (v := some (u.afterPoll none true waker)) rfl
  rw [RwCalls.take] at ht
  simp only [Futs.update_of hu, Futs.slot_of hu] at ht
  split at ht <;> cases ht <;> exact hd

theorem check (h : RwServes n rest s.toRwState) (hb : ∃ u, s.futs f = some u ∧ u.kind = kind)
    (ht : s.check width f waker kind = (t, seg)) : RwServes n (seg.frames ++ rest) t.toRwState := by
  unfold RwCalls.check at ht
  split at ht
  · cases ht
    exact h
  · exact h.take (LocalRwLock.acquires_of_some ‹_›) hb ht
  · cases ht
    exact h

theorem requeue {id : UInt64} (hb : ∃ u, s.futs f = some u ∧ u.kind = kind)
    (h : RwServes n (.poll f waker kind (.cloning id) :: rest) s.toRwState) :
    RwServes n rest (s.requeue f id waker kind).toRwState := by
  obtain ⟨u, hu, rfl⟩ := hb
  obtain ⟨⟨m, hm, hr⟩, hq⟩ := h
  let e : Entry Unit W := ⟨id, (), waker⟩
  rw [RwCalls.requeue, Futs.update_of hu]
  refine ⟨⟨m, hm, ?_⟩, fun kind => ?_⟩
  · simp only [LocalRwLock.setWaiting_nextId]
    exact Futs.Reserves.fill (e := e) hr rfl
  · simp only [LocalRwLock.waiting_setWaiting]
    split
    · rename_i hkind
      subst hkind
      exact Futs.Queued.requeue (e := e) (hq _) hr rfl
    · rename_i hkind
      refine Futs.Queued.set_other [(f, id)] (hq kind) (by simp) ?_
      intro w x hw hk
      cases hw
      exact absurd hk (Ne.symm hkind)

variable [Waker W]

theorem wakeReader (h : RwServes n stack s.toRwState) (hc : s.futs.Consistent)
    (ht : s.wakeReader = (t, seg)) : RwServes n (seg.frames ++ stack) t.toRwState := by
  unfold RwCalls.wakeReader at ht
  split at ht
  · rename_i e waiters hwaiters
    cases ht
    obtain ⟨⟨m, hm, hr⟩, hq⟩ := h
    refine ⟨⟨m, hm, hr.of_slots (fun f e he => by rwa [Futs.slot_wake] at he) fun _ hmem => hmem⟩,
      fun kind => ?_⟩
    refine (hq kind).wake hc fun x hx => ?_
    cases kind with
    | read =>
      change x ∈ s.lock.readWaiters at hx
      rw [hwaiters, List.mem_cons] at hx
      rcases hx with rfl | hx
      · exact .inr (List.mem_singleton_self _)
      · exact .inl hx
    | write => exact .inl hx
  · cases ht
    exact h

theorem wakeNext (h : RwServes n stack s.toRwState) (hc : s.futs.Consistent)
    (ht : s.wakeNext = (t, seg)) : RwServes n (seg.frames ++ stack) t.toRwState := by
  unfold RwCalls.wakeNext at ht
  split at ht
  · cases ht
    exact h
  · split at ht
    · rename_i e waiters hwaiters
      cases ht
      obtain ⟨⟨m, hm, hr⟩, hq⟩ := h
      refine ⟨⟨m, hm, hr.of_slots (fun f e he => by rwa [Futs.slot_wake] at he) fun _ hmem => hmem⟩,
        fun kind => ?_⟩
      refine (hq kind).wake hc fun x hx => ?_
      cases kind with
      | read => exact .inl hx
      | write =>
        change x ∈ s.lock.writeWaiters at hx
        rw [hwaiters, List.mem_cons] at hx
        rcases hx with rfl | hx
        · exact .inr (List.mem_singleton_self _)
        · exact .inl hx
    · exact h.wakeReader hc ht

theorem poll (h : RwServes n stack s.toRwState) (hn : n < 2 ^ 64) (hs : RwNested stack s)
    (ht : s.enter width (.poll f waker) = some (t, seg)) :
    RwServes (n + 1) (seg.frames ++ stack) t.toRwState := by
  simp only [RwCalls.enter] at ht
  split at ht
  · cases ht
  · obtain ⟨u, hu, heq⟩ := Option.map_eq_some_iff.mp ht
    have hnext := h.mono (Nat.le_succ n)
    unfold RwCalls.pollEnter at heq
    split at heq
    · cases heq
      exact hnext
    · exact take (s := { s with polling := f :: s.polling }) hnext
        (LocalRwLock.acquires_of_some ‹_›) ⟨u, hu, rfl⟩ heq
    · obtain ⟨⟨m, hm, hr⟩, hq⟩ := h
      simp only [Futs.slot_of hu] at heq
      split at heq
      · cases heq
        refine ⟨?_, fun kind => ?_⟩
        · cases hslot : u.registered with
          | none => exact ⟨m + 1, by omega, hr.draw (by omega) f⟩
          | some e => exact ⟨m, by omega, hr.keep ((Futs.slot_of hu).trans hslot)⟩
        · cases kind <;> exact (hq _).reserve _
      · rename_i hstale
        obtain ⟨e, x, hslot, -, hx, hid⟩ := Waiters.of_not_stale (by simpa using hstale)
        rw [Futs.update_of hu] at heq
        refine check ?_ ?_ heq
        · refine ⟨⟨m, by omega, hr.set_same_slot hu rfl⟩, fun kind => ?_⟩
          by_cases hkind : u.kind = kind
          · subst hkind
            exact (hq _).keep hr.slots (hs.queues.owns _) hu hslot hx hid rfl
          · refine Futs.Queued.set_other [] (hq kind) (fun _ hr => by cases hr) ?_
            intro w y hw hk
            cases hw
            exact absurd hk hkind
        · exact ⟨_, Futs.set_same .., rfl⟩

theorem enter {op : RwOp W} (h : RwServes n stack s.toRwState) (hn : n < 2 ^ 64)
    (hs : RwNested stack s) (ht : s.enter width op = some (t, seg)) :
    RwServes (n + 1) (seg.frames ++ stack) t.toRwState := by
  have hnext := h.mono (Nat.le_succ n)
  have hset {g : Nat} {v : Option (Fut Access Unit W)} (hv : v.bind Fut.registered = none) :
      RwServes (n + 1) stack { s.toRwState with futs := s.futs.set g v } := by
    obtain ⟨⟨m, hm, hr⟩, hq⟩ := hnext
    refine ⟨⟨m, hm, hr.of_slots (Futs.slot_of_emptied hv) fun _ hmem => hmem⟩, fun kind => ?_⟩
    refine Futs.Queued.set_other [] (hq kind) (fun _ hr => by cases hr) ?_
    rintro w e rfl - he
    cases hv.symm.trans he
  have hlock {l : LocalRwLock W} (hid : l.nextId = s.lock.nextId)
      (hq : ∀ kind, l.waiting kind = s.lock.waiting kind) :
      RwServes (n + 1) stack { s.toRwState with lock := l } := by
    obtain ⟨⟨m, hm, hr⟩, hqueued⟩ := hnext
    refine ⟨⟨m, hm, ?_⟩, fun kind => ?_⟩
    · simpa only [hid] using hr
    · simpa only [hq] using hqueued kind
  cases op with
  | tryRead =>
    simp only [RwCalls.enter] at ht
    split at ht <;> rename_i hacquire <;> cases ht
    · exact hnext
    · exact hnext
    · cases hw : s.lock.writer with
      | true =>
        rw [s.lock.tryRead_of_writer width hw] at hacquire
        cases hacquire
      | false =>
        rw [s.lock.tryRead_of_no_writer width hw] at hacquire
        rcases s.lock.addReader_cases width with ⟨m, hm⟩ | hm <;> rw [hm] at hacquire <;>
          cases hacquire
        exact hlock rfl fun kind => by cases kind <;> rfl
  | tryWrite =>
    simp only [RwCalls.enter] at ht
    split at ht <;> rename_i hacquire <;> cases ht
    · exact hnext
    · unfold LocalRwLock.tryWrite at hacquire
      split at hacquire <;> cases hacquire
      exact hlock rfl fun kind => by cases kind <;> rfl
  | dropReadGuard =>
    simp only [RwCalls.enter] at ht
    split at ht
    · cases ht
    · exact wakeNext (s := { s with readGuards := s.readGuards - 1
                                    lock := { s.lock with readers := s.lock.readers - 1 } })
        (hlock rfl fun kind => by cases kind <;> rfl) hs.consistent (Option.some.inj ht)
  | dropWriteGuard =>
    simp only [RwCalls.enter] at ht
    split at ht
    · cases ht
    · exact wakeNext (s := { s with writeGuards := s.writeGuards - 1
                                    lock := { s.lock with writer := false } })
        (hlock rfl fun kind => by cases kind <;> rfl) hs.consistent (Option.some.inj ht)
  | create f kind =>
    simp only [RwCalls.enter] at ht
    split at ht <;> cases ht
    exact hset rfl
  | poll f waker => exact h.poll hn hs ht
  | dropFuture f =>
    simp only [RwCalls.enter] at ht
    split at ht
    · cases ht
    · obtain ⟨u, hu, heq⟩ := Option.map_eq_some_iff.mp ht
      split at heq <;> cases heq
      · exact deregister (l := s.lock) hnext hu rfl
      · exact hset rfl

theorem resume {frame : RwFrame W} (h : RwServes n (frame :: rest) s.toRwState)
    (hs : RwNested (frame :: rest) s) : RwServes (n + 1) ((s.resume width frame).2.frames ++ rest)
      (s.resume width frame).1.toRwState := by
  have hnext := h.mono (Nat.le_succ n)
  cases frame with
  | poll f waker kind at_ =>
    have hlive := hs.borrowed.live f kind List.mem_cons_self
    cases at_ with
    | took => exact hnext
    | cloning id =>
      have hqueued := requeue hlive hnext
      simp only [RwCalls.resume, RwCalls.pollResume]
      split
      · exact hqueued
      · refine hqueued.check ?_ rfl
        obtain ⟨u, hu, hk⟩ := hlive
        rw [RwCalls.requeue, Futs.update_of hu]
        exact ⟨_, Futs.set_same .., hk⟩
    | registered => exact (hnext.without rfl).check hlive rfl
  | cancelling => exact (hnext.without rfl).wakeNext hs.consistent rfl
  | wakingWriter => exact hnext
  | wakingReader => exact (hnext.without rfl).wakeReader hs.consistent rfl

end RwServes

variable {W : Type v} [Waker W] {width : Nat}

theorem rwCalls_nested (hwidth : 0 < width) {s : Nested (RwCalls W) (RwFrame W)}
    (h : (rwCalls W width).machine.Reachable s) : RwNested s.stack s.obj :=
  Reentrant.stack_invariant (I := fun stack s => RwNested stack s) .init
    (fun _ _ _ _ _ hI ht => hI.enter hwidth ht) (fun _ _ _ hI => hI.resume hwidth) h

theorem rwCalls_serves (hwidth : 0 < width) {moves : List (Nested.Move (RwOp W))}
    {s : Nested (RwCalls W) (RwFrame W)}
    (h : (rwCalls W width).machine.run (rwCalls W width).machine.init moves = some s)
    (hlen : moves.length ≤ 2 ^ 64) : RwServes moves.length s.stack s.obj.toRwState := by
  have hI := Machine.run_counts (n := 0) (I := fun n s => RwNested s.stack s.obj ∧
    RwServes n s.stack s.obj.toRwState) (M := (rwCalls W width).machine) ?_ ⟨.init, .init⟩
    (show 0 + moves.length ≤ 2 ^ 64 by omega) h
  · rw [Nat.zero_add] at hI
    exact hI.2
  intro n s a t hn hI hs
  exact Reentrant.step_stack
    (I := fun stack s => RwNested stack s ∧ RwServes n stack s.toRwState)
    (J := fun stack s => RwNested stack s ∧ RwServes (n + 1) stack s.toRwState)
    (fun _ _ _ _ _ h ht => ⟨h.1.enter hwidth ht, h.2.enter hn h.1 ht⟩)
    (fun _ _ _ h => ⟨h.1.resume hwidth, h.2.resume h.1⟩) hI hs

/-- Whatever the callbacks of its calls do, the lock counts its guards, those of suspended polls
included, and has never guards of both kinds. Between calls a free lock with a queue has been
offered to a live writer; inside one, some suspended call is still to try for the lock, to wake
or to go on waking. Before the counter comes round every registered future is queued, once, or
has been woken, unless its own poll is about to queue it. -/
theorem rwlock_survives_reentrancy (width : Nat) (hwidth : 0 < width)
    (moves : List (Nested.Move (RwOp W))) (s : Nested (RwCalls W) (RwFrame W))
    (h : (rwCalls W width).machine.run (rwCalls W width).machine.init moves = some s) :
    s.obj.lock.readers = s.obj.readGuards + held .read s.stack ∧
    (s.obj.lock.writer = true ↔ s.obj.writeGuards + held .write s.stack = 1) ∧
    s.obj.writeGuards + held .write s.stack ≤ 1 ∧
    ¬ (0 < s.obj.lock.readers ∧ s.obj.lock.writer = true) ∧
    (s.obj.lock.Free → s.obj.lock.writeWaiters ≠ [] →
      s.obj.WokenWriter ∨ ∃ frame ∈ s.stack, frame.ServesWriters) ∧
    (s.obj.lock.Free → s.obj.lock.readWaiters ≠ [] →
      s.obj.WokenWriter ∨ ∃ frame ∈ s.stack, frame.PassesOn) ∧
    (s.stack = [] → s.obj.lock.Free → s.obj.lock.readWaiters ≠ [] ∨ s.obj.lock.writeWaiters ≠ [] →
      s.obj.WokenWriter) ∧
    (moves.length ≤ 2 ^ 64 → ∀ f u e, s.obj.futs f = some u → u.registered = some e →
      (∀ waker id, .poll f waker u.kind (.cloning id) ∉ s.stack) →
        (e ∈ s.obj.lock.waiting u.kind ∧
          ((s.obj.lock.waiting u.kind).map Entry.id).count e.id = 1) ∨ u.woken = true) := by
  have hs := rwCalls_nested hwidth ⟨moves, h⟩
  have hw := hs.counts.writer
  refine ⟨hs.counts.readers, ?_, ?_, ?_, hs.writers, hs.readers, ?_, ?_⟩
  · cases hl : s.obj.lock.writer <;> simp [hw, hl]
  · split at hw <;> omega
  · rintro ⟨hr, hl⟩
    have := hs.counts.exclusive hl
    omega
  · intro hstack hfree hne
    have hnone {P : RwFrame W → Prop} : ¬ ∃ frame ∈ s.stack, P frame := by
      rw [hstack]
      rintro ⟨frame, hmem, -⟩
      cases hmem
    rcases hne with hne | hne
    · exact (hs.readers hfree hne).resolve_right hnone
    · exact (hs.writers hfree hne).resolve_right hnone
  · intro hlen f u e hf he hcloning
    obtain ⟨-, hqueued⟩ := rwCalls_serves hwidth h hlen
    rcases hqueued u.kind f u e hf rfl he with ⟨id, hid⟩ | hq | hwoken
    · obtain ⟨frame, hmem, hr⟩ := List.mem_filterMap.mp hid
      obtain ⟨waker, kind, rfl⟩ := eq_of_reserves hr
      have hpolled : (f, kind) ∈ s.stack.filterMap polls := List.mem_filterMap.mpr ⟨_, hmem, rfl⟩
      obtain ⟨v, hv, rfl⟩ := hs.borrowed.live f kind hpolled
      cases hf.symm.trans hv
      exact absurd hmem (hcloning waker id)
    · exact .inl ⟨hq, List.count_eq_one_of_mem (hs.queues.nodup _) (List.mem_map_of_mem hq)⟩
    · exact .inr hwoken

/-- A writer and a reader queue behind a read guard. The wake of its drop polls the writer, which
takes the lock and is suspended with the guard; the reader stays queued. -/
theorem rwlock_is_taken_in_a_wake : ∃ s,
    (rwCalls Waker.OfTask 64).machine.run (rwCalls Waker.OfTask 64).machine.init
        [.call .tryRead, .call (.create 0 .write), .call (.poll 0 ⟨0⟩), .resume,
          .call (.create 1 .read), .call (.poll 1 ⟨1⟩), .resume, .call .dropReadGuard,
          .call (.poll 0 ⟨0⟩)] = some s ∧
      s.obj.writeGuards = 0 ∧ s.stack.length = 2 ∧ s.obj.writeGuards + held .write s.stack = 1 ∧
      ∃ u e, s.obj.futs 1 = some u ∧ u.woken = false ∧ e ∈ s.obj.lock.readWaiters := by
  refine Machine.exists_end (M := (rwCalls Waker.OfTask 64).machine)
    (c := fun s => decide (s.obj.writeGuards = 0 ∧ s.stack.length = 2 ∧ s.obj.lock.writer = true ∧
      s.stack.filterMap reserves = [] ∧
      s.obj.futs 1 = some ⟨.read, some ⟨1, (), ⟨1⟩⟩, some ⟨1⟩, false, false⟩)) _ (by decide +kernel) ?_
  intro s hrun hs
  obtain ⟨hguards, hlength, hwriter, hnone, hf⟩ := of_decide_eq_true hs
  obtain ⟨-, hflag, -, -, -, -, -, hserved⟩ := rwlock_survives_reentrancy 64 (by decide) _ s hrun
  refine ⟨hguards, hlength, hflag.mp hwriter, _, ⟨1, (), ⟨1⟩⟩, hf, rfl, ?_⟩
  refine ((hserved (by decide) 1 _ _ hf rfl ?_).resolve_right (by simp)).1
  intro waker id hmem
  have : (1, id) ∈ s.stack.filterMap reserves := List.mem_filterMap.mpr ⟨_, hmem, rfl⟩
  rw [hnone] at this
  cases this

end Cynosure.SiteC
