import Cynosure.SiteC.MutexTurn
import Cynosure.SiteC.WaitCalls

/-! # `LocalMutex` with callbacks that call it again

`poll`, `unlock` and the destructor of a future clone, drop and wake wakers. Each call
stops there, and any calls may run before it goes on. A poll that took the lock holds its
guard while the old waker is dropped.
-/

universe v

namespace Cynosure.SiteC

/-- A call on the mutex in a callback. -/
inductive MutexFrame (W : Type v) where
  | poll (f : Nat) (waker : W) (at_ : LockPoll)
  /-- `LocalMutexLockFuture::drop` removed its entry, and drops its waker. -/
  | cancelling
  /-- The wake that ends `unlock` and `LocalMutexLockFuture::drop`. -/
  | waking

/-- The mutex and its callers; a poll borrows its future until it ends. -/
structure MutexCalls (W : Type v) extends MutexState W where
  polling : List Nat

namespace MutexCalls

variable {W : Type v}

def init : MutexCalls W := ⟨.init, []⟩

/-- The guard is taken, and `deregister` empties the slot. -/
def take (s : MutexCalls W) (f : Nat) (waker : W) :
    MutexCalls W × Segment (MutexFrame W) MutexOutcome :=
  let t := { s with mutex := s.mutex.deregister (s.futs.slot f)
                    futs := s.futs.update f fun u => u.afterPoll none true waker }
  if (s.futs.slot f).isSome then (t, .callback (.poll f waker .took))
  else ({ t with guards := s.guards + 1, polling := s.polling.erase f }, .done .acquired)

/-- The `try_lock` of `poll`, behind the registration. -/
def check (s : MutexCalls W) (f : Nat) (waker : W) :
    MutexCalls W × Segment (MutexFrame W) MutexOutcome :=
  match s.mutex.tryLock with
  | (m, true) => take { s with mutex := m } f waker
  | (m, false) => ({ s with mutex := m, polling := s.polling.erase f }, .done .pending)

/-- `LocalMutexLockFuture::poll` up to its first callback. -/
def pollEnter [Waker W] (s : MutexCalls W) (f : Nat) (waker : W) :
    MutexCalls W × Segment (MutexFrame W) MutexOutcome :=
  match s.mutex.tryLock with
  | (m, true) => take { s with mutex := m } f waker
  | (m, false) =>
    if m.waiters.stale (s.futs.slot f) waker then
      ({ s with mutex := { m with nextId := Waiters.counterAfter m.nextId (s.futs.slot f) } },
        .callback (.poll f waker (.cloning (Waiters.registerId m.nextId (s.futs.slot f)))))
    else
      check { s with mutex := m
                     futs := s.futs.update f fun u => u.afterPoll u.registered false waker } f waker

/-- The clone is there: the entry is queued and the slot filled. -/
def requeue (s : MutexCalls W) (f : Nat) (id : UInt64) (waker : W) : MutexCalls W :=
  { s with mutex := { s.mutex with waiters := s.mutex.waiters.requeue ⟨id, (), waker⟩ }
           futs := s.futs.update f fun u => u.afterPoll (some ⟨id, (), waker⟩) false waker }

def pollResume (s : MutexCalls W) (f : Nat) (waker : W) :
    LockPoll → MutexCalls W × Segment (MutexFrame W) MutexOutcome
  | .took => ({ s with guards := s.guards + 1, polling := s.polling.erase f }, .done .acquired)
  | .cloning id =>
    if (s.futs.slot f).isSome then (s.requeue f id waker, .callback (.poll f waker .registered))
    else (s.requeue f id waker).check f waker
  | .registered => s.check f waker

variable [Waker W]

/-- `wake_next` as the last thing that a call does. -/
def wakeLast (s : MutexCalls W) (r : LocalMutex W × List W) :
    MutexCalls W × Segment (MutexFrame W) MutexOutcome :=
  ({ s with toMutexState := s.settle r }, if r.2.isEmpty then .done .done else .callback .waking)

def enter (s : MutexCalls W) :
    MutexOp W → Option (MutexCalls W × Segment (MutexFrame W) MutexOutcome)
  | .tryLock =>
    match s.mutex.tryLock with
    | (m, true) => some ({ s with mutex := m, guards := s.guards + 1 }, .done .acquired)
    | (m, false) => some ({ s with mutex := m }, .done .refused)
  | .dropGuard =>
    if s.guards = 0 then none
    else some (wakeLast { s with guards := s.guards - 1 } s.mutex.unlock)
  | .create f =>
    match s.futs f with
    | some _ => none
    | none => some ({ s with futs := s.futs.set f (some (.fresh ())) }, .done .done)
  | .poll f waker =>
    if f ∈ s.polling then none
    else (s.futs f).map fun _ => pollEnter { s with polling := f :: s.polling } f waker
  | .dropFuture f =>
    if f ∈ s.polling then none
    else (s.futs f).map fun u =>
      let t := { s with mutex := s.mutex.deregister u.registered, futs := s.futs.set f none }
      if u.registered.isSome then (t, .callback .cancelling) else (t, .done .done)

def resume (s : MutexCalls W) : MutexFrame W → MutexCalls W × Segment (MutexFrame W) MutexOutcome
  | .poll f waker at_ => s.pollResume f waker at_
  | .cancelling => s.wakeLast s.mutex.wakeNext
  | .waking => (s, .done .done)

end MutexCalls

/-- Every nesting of calls on one mutex. -/
def mutexCalls (W : Type v) [Waker W] :
    Reentrant (MutexCalls W) (MutexOp W) (MutexFrame W) MutexOutcome where
  init := .init
  enter s op := s.enter op
  resume s frame := s.resume frame

section Alone

variable {W : Type v} [Waker W]

namespace MutexCalls

variable {s : MutexCalls W} {f : Nat} {u : Fut Unit Unit W} {waker : W}

theorem finish_take (waker : W) (fuel : Nat) (hu : s.futs f = some u) :
    (mutexCalls W).finish (fuel + 1) (s.take f waker) =
      some ({ s with mutex := s.mutex.deregister u.registered
                     futs := s.futs.set f (some (u.afterPoll none true waker))
                     guards := s.guards + 1, polling := s.polling.erase f }, .acquired) := by
  rw [take, Futs.slot_of hu, Futs.update_of hu]
  dsimp only
  split
  · exact Reentrant.finish_done (O := mutexCalls W) fuel _ _
  · exact Reentrant.finish_done _ _ _

omit [Waker W] in
theorem check_of_locked (f : Nat) (waker : W) (hl : s.mutex.locked = true) :
    s.check f waker = ({ s with polling := s.polling.erase f }, .done .pending) := by
  simp only [check, LocalMutex.tryLock, hl, Bool.not_true, LocalMutex.locked_self hl]

theorem finish_cloning (f : Nat) (waker : W) (hl : s.mutex.locked = true) (fuel : Nat) (id : UInt64) :
    (mutexCalls W).finish (fuel + 2) (s, .callback (.poll f waker (.cloning id))) =
      some ({ s.requeue f id waker with polling := s.polling.erase f }, .pending) := by
  have hcheck : (s.requeue f id waker).check f waker =
      ({ s.requeue f id waker with polling := s.polling.erase f }, .done .pending) :=
    check_of_locked f waker hl
  change (mutexCalls W).finish (fuel + 1) (s.pollResume f waker (.cloning id)) = _
  rw [pollResume]
  split
  · change (mutexCalls W).finish fuel ((s.requeue f id waker).check f waker) = _
    rw [hcheck, Reentrant.finish_done]
  · rw [hcheck, Reentrant.finish_done]

/-- A poll whose callbacks call nothing is the poll of the whole-call model. -/
theorem finish_poll (waker : W) (hs : s.polling = []) (hu : s.futs f = some u) :
    ∃ t out, (mutexCalls W).finish 2 (pollEnter { s with polling := f :: s.polling } f waker) =
        some (t, out) ∧ t.polling = [] ∧ (t.toMutexState, out) = s.toMutexState.pollFuture f u waker := by
  cases hl : s.mutex.locked with
  | false =>
    have htake := finish_take (s := { s with mutex := { s.mutex with locked := true }
                                             polling := f :: s.polling }) waker 1 hu
    simp only [pollEnter, LocalMutex.tryLock, hl, Bool.not_false]
    refine ⟨_, _, htake, by simp [hs], ?_⟩
    simp [MutexState.pollFuture, LocalMutex.poll_of_free u.registered waker hl]
  | true =>
    rw [MutexState.pollFuture, LocalMutex.poll_of_locked u.registered waker hl]
    simp only [pollEnter, LocalMutex.tryLock, hl, Bool.not_true, LocalMutex.locked_self hl,
      Futs.slot_of hu]
    cases hstale : s.mutex.waiters.stale u.registered waker with
    | false =>
      have hcheck := check_of_locked (s := { s with
        futs := s.futs.set f (some (u.afterPoll u.registered false waker))
        polling := f :: s.polling }) f waker hl
      simp only [Bool.false_eq_true, if_false, Futs.update_of hu]
      refine ⟨_, .pending, (congrArg _ hcheck).trans (Reentrant.finish_done 2 _ _), by simp [hs], ?_⟩
      simp [LocalMutex.register, Waiters.register_of_queued hstale]
    | true =>
      have hclone := finish_cloning (s := { s with
        mutex := ⟨true, s.mutex.waiters, Waiters.counterAfter s.mutex.nextId u.registered⟩
        polling := f :: s.polling }) f waker rfl 0
          (Waiters.registerId s.mutex.nextId u.registered)
      rw [requeue, Futs.update_of hu] at hclone
      simp only [if_true]
      refine ⟨_, _, hclone, by simp [hs], ?_⟩
      simp [LocalMutex.register, Waiters.register_of_stale hstale, hl]

theorem finish_wakeLast (fuel : Nat) (s : MutexCalls W) (r : LocalMutex W × List W) :
    (mutexCalls W).finish (fuel + 1) (s.wakeLast r) =
      some ({ s with toMutexState := s.settle r }, .done) := by
  unfold wakeLast
  split
  · rfl
  · exact Reentrant.finish_done (O := mutexCalls W) fuel _ _

theorem finish_exec {op : MutexOp W} {t : MutexState W} {out : MutexOutcome} (hs : s.polling = [])
    (h : s.toMutexState.exec op = some (t, out)) :
    ∃ r t', s.enter op = some r ∧ (mutexCalls W).finish 2 r = some (t', out) ∧
      t'.polling = [] ∧ t'.toMutexState = t := by
  have hidle (f : Nat) : f ∉ s.polling := by simp [hs]
  cases op with
  | tryLock =>
    cases hl : s.mutex.locked <;>
      simp only [MutexState.exec, enter, LocalMutex.tryLock, hl, Bool.not_true, Bool.not_false] at h ⊢ <;>
      cases h <;> exact ⟨_, _, rfl, rfl, hs, rfl⟩
  | dropGuard =>
    simp only [MutexState.exec] at h
    simp only [enter]
    split at h
    · cases h
    · rename_i hg
      cases h
      rw [if_neg hg]
      exact ⟨_, _, rfl, finish_wakeLast 1 _ _, hs, rfl⟩
  | create f =>
    simp only [MutexState.exec, enter] at h ⊢
    cases hf : s.futs f with
    | none =>
      rw [hf] at h
      cases h
      exact ⟨_, _, rfl, rfl, hs, rfl⟩
    | some u =>
      rw [hf] at h
      cases h
  | poll f waker =>
    obtain ⟨u, hu, heq⟩ := Option.map_eq_some_iff.mp h
    obtain ⟨t', out', hfinish, hpolling, ht'⟩ := finish_poll waker hs hu
    rw [heq] at ht'
    cases ht'
    refine ⟨_, t', ?_, hfinish, hpolling, rfl⟩
    simp only [enter, if_neg (hidle f), hu, Option.map_some]
  | dropFuture f =>
    obtain ⟨u, hu, heq⟩ := Option.map_eq_some_iff.mp h
    simp only [enter, if_neg (hidle f), hu, Option.map_some]
    cases heq
    unfold MutexState.dropFuture
    split
    · exact ⟨_, _, rfl, finish_wakeLast 0 _ _, hs, rfl⟩
    · rename_i hr
      have hr : u.registered = none := by simpa using hr
      exact ⟨_, _, rfl, rfl, hs, by rw [hr]; rfl⟩

theorem reachable_mutexMachine {t : MutexState W} (h : (mutexMachine W).Reachable t) :
    ∃ s, (mutexCalls W).machine.Reachable ⟨s, []⟩ ∧ s.polling = [] ∧ s.toMutexState = t := by
  refine h.invariant (I := fun t => ∃ s, (mutexCalls W).machine.Reachable ⟨s, []⟩ ∧
    s.polling = [] ∧ s.toMutexState = t) ⟨.init, ⟨[], rfl⟩, rfl, rfl⟩ ?_
  rintro t op t' ⟨s, hreach, hs, rfl⟩ hstep
  obtain ⟨⟨t'', out⟩, hexec, rfl⟩ := Option.map_eq_some_iff.mp hstep
  obtain ⟨r, s', henter, hfinish, hs', rfl⟩ := finish_exec hs hexec
  exact ⟨s', Reentrant.reachable_finish hreach henter hfinish, hs', rfl⟩

end MutexCalls

end Alone

namespace MutexFrame

variable {W : Type v}

/-- The guards that a suspended call holds. -/
def guards : MutexFrame W → Nat
  | .poll _ _ at_ => at_.guards
  | .cancelling => 0
  | .waking => 0

/-- The future that a suspended call borrows. -/
def polls : MutexFrame W → Option (Nat × Unit)
  | .poll f _ _ => some (f, ())
  | .cancelling => none
  | .waking => none

/-- The token of an entry that is still to be queued. -/
def reserves : MutexFrame W → Option (Nat × UInt64)
  | .poll f _ at_ => at_.reserves f
  | .cancelling => none
  | .waking => none

/-- The call is still to check the lock, or to run `wake_next`. -/
def PassesOn : MutexFrame W → Prop
  | .poll _ _ at_ => at_.Checks
  | .cancelling => True
  | .waking => False

theorem polls_of_reserves {stack : List (MutexFrame W)} {f : Nat} {id : UInt64}
    (h : (f, id) ∈ stack.filterMap reserves) : ∃ k, (f, k) ∈ stack.filterMap polls := by
  obtain ⟨frame, hmem, hr⟩ := List.mem_filterMap.mp h
  refine ⟨(), List.mem_filterMap.mpr ⟨frame, hmem, ?_⟩⟩
  cases frame with
  | poll g waker at_ => rw [polls, LockPoll.of_reserves hr]
  | cancelling => cases hr
  | waking => cases hr

theorem eq_of_reserves {frame : MutexFrame W} {f : Nat} {id : UInt64}
    (h : frame.reserves = some (f, id)) : ∃ waker, frame = .poll f waker (.cloning id) := by
  cases frame with
  | poll g waker at_ =>
    cases at_ with
    | took => cases h
    | cloning id =>
      cases h
      exact ⟨waker, rfl⟩
    | registered => cases h
  | cancelling => cases h
  | waking => cases h

/-- The guards held by suspended calls. -/
def held (stack : List (MutexFrame W)) : Nat := (stack.map guards).sum

@[simp] theorem held_nil : held ([] : List (MutexFrame W)) = 0 := rfl

@[simp] theorem held_cons (frame : MutexFrame W) (stack : List (MutexFrame W)) :
    held (frame :: stack) = frame.guards + held stack := rfl

end MutexFrame

open MutexFrame

/-- The mutex, its callers, and the calls suspended in callbacks. -/
structure MutexNested {W : Type v} [Waker W] (stack : List (MutexFrame W)) (s : MutexCalls W) :
    Prop where
  sound : MutexSound { s.toMutexState with guards := s.guards + held stack }
  turn : s.mutex.locked = false → s.mutex.waiters ≠ [] →
    s.WokenFuture ∨ ∃ frame ∈ stack, frame.PassesOn
  borrowed : s.futs.Borrowed s.polling (stack.filterMap polls) (stack.filterMap reserves)

namespace MutexNested

variable {W : Type v} [Waker W] {stack rest : List (MutexFrame W)} {s t : MutexCalls W} {f : Nat}
  {waker : W} {seg : Segment (MutexFrame W) MutexOutcome}

theorem init : MutexNested [] (MutexCalls.init : MutexCalls W) where
  sound := MutexSound.init
  turn _ hne := absurd rfl hne
  borrowed := Futs.borrowed_init

theorem guards_eq (h : MutexNested stack s) :
    s.guards + held stack = if s.mutex.locked then 1 else 0 := h.sound.guards

omit [Waker W] in
theorem turn_of_locked (hl : s.mutex.locked = true) : s.mutex.locked = false → s.mutex.waiters ≠ [] →
    s.WokenFuture ∨ ∃ frame ∈ stack, frame.PassesOn :=
  fun hfree => absurd (hl.symm.trans hfree) Bool.noConfusion

/-- A future that has not been woken, or was not waiting, is replaced. -/
theorem turn_of_set {v : Option (Fut Unit Unit W)} (h : MutexNested stack s)
    (hf : ∀ u, s.futs f = some u → u.registered = none) (hq : t.mutex = s.mutex)
    (ht : t.futs = s.futs.set f v) : t.mutex.locked = false → t.mutex.waiters ≠ [] →
      t.WokenFuture ∨ ∃ frame ∈ stack, frame.PassesOn := by
  rw [hq]
  intro hl hne
  refine (h.turn hl hne).imp_left ?_
  rintro ⟨g, u, hg, hwait, hwoken⟩
  have hgf : g ≠ f := by
    rintro rfl
    obtain ⟨e, he⟩ := (h.sound.consistent g u hg).waiting_iff.mp hwait
    rw [hf u hg] at he
    cases he
  exact ⟨g, u, by rw [ht, Futs.set_ne _ hgf, hg], hwait, hwoken⟩

/-- A poll begins; it is to check the lock. -/
theorem begin_poll (h : MutexNested stack s) (hf : f ∉ s.polling) {u : Fut Unit Unit W}
    (hu : s.futs f = some u) (waker : W) :
    MutexNested (.poll f waker .registered :: stack) { s with polling := f :: s.polling } where
  sound := by simpa [guards, LockPoll.guards] using h.sound
  turn _ _ := .inr ⟨_, List.mem_cons_self, trivial⟩
  borrowed := h.borrowed.start hf hu

theorem take (h : MutexNested (.poll f waker .registered :: rest) s) (hl : s.mutex.locked = false)
    (ht : MutexCalls.take { s with mutex := { s.mutex with locked := true } } f waker = (t, seg)) :
    MutexNested (seg.frames ++ rest) t := by
  have hb : s.futs.Borrowed s.polling ((f, ()) :: rest.filterMap polls)
      ([] ++ rest.filterMap reserves) := h.borrowed
  obtain ⟨u, hu, -⟩ := hb.live f () List.mem_cons_self
  have hd := h.sound.deregister hu (h.sound.consistent.set f (u.consistent_ready waker))
  have hset := hb.set_top (u := u.afterPoll none true waker) (fun _ _ => polls_of_reserves) rfl
  have hguards : s.guards + held rest = 0 := by
    have := h.guards_eq
    simpa [hl, guards, LockPoll.guards] using this
  rw [MutexCalls.take] at ht
  simp only [Futs.update_of hu, Futs.slot_of hu] at ht
  split at ht
  · cases ht
    refine ⟨⟨?_, hd.consistent, hd.owns, hd.nodup⟩, turn_of_locked rfl, hset⟩
    change s.guards + (1 + held rest) = 1
    omega
  · cases ht
    refine ⟨⟨?_, hd.consistent, hd.owns, hd.nodup⟩, turn_of_locked rfl, hset.finish⟩
    change s.guards + 1 + held rest = 1
    omega

/-- The check either takes the lock, or leaves it to its holder. -/
theorem check (h : MutexNested (.poll f waker .registered :: rest) s)
    (ht : s.check f waker = (t, seg)) : MutexNested (seg.frames ++ rest) t := by
  cases hl : s.mutex.locked with
  | false =>
    simp only [MutexCalls.check, LocalMutex.tryLock, hl, Bool.not_false] at ht
    exact h.take hl ht
  | true =>
    simp only [MutexCalls.check, LocalMutex.tryLock, hl, Bool.not_true,
      LocalMutex.locked_self hl] at ht
    cases ht
    refine ⟨?_, turn_of_locked hl, h.borrowed.finish⟩
    simpa [guards, LockPoll.guards, Segment.frames] using h.sound

/-- The polled future owns the entries under its token, and nothing else changes. -/
theorem requeue {id : UInt64} (h : MutexNested (.poll f waker (.cloning id) :: rest) s) :
    MutexNested (.poll f waker .registered :: rest) (s.requeue f id waker) := by
  have hb : s.futs.Borrowed s.polling ((f, ()) :: rest.filterMap polls)
      ([(f, id)] ++ rest.filterMap reserves) := h.borrowed
  obtain ⟨u, hu, -⟩ := hb.live f () List.mem_cons_self
  have hown : ∀ e, u.registered = some e → e.id = id := by
    intro e he
    exact hb.ids f id List.mem_cons_self e ((Futs.slot_of hu).trans he)
  rw [MutexCalls.requeue, Futs.update_of hu]
  refine ⟨⟨h.sound.guards, ?_, h.sound.owns.requeue hu hown trivial rfl,
    Waiters.nodup_append h.sound.nodup _⟩, fun _ _ => .inr ⟨_, List.mem_cons_self, trivial⟩,
    hb.set_top (fun _ _ => polls_of_reserves) rfl⟩
  exact h.sound.consistent.set f (u.consistent_pending rfl rfl)

/-- `wake_next` pops nothing, or wakes the owner of what it popped. -/
theorem wakeLast (hs : MutexSound { s.toMutexState with guards := s.guards + held stack })
    (hb : s.futs.Borrowed s.polling (stack.filterMap polls) (stack.filterMap reserves))
    (ht : s.wakeLast s.mutex.wakeNext = (t, seg)) : MutexNested (seg.frames ++ stack) t := by
  obtain ⟨hsound, hturn⟩ := MutexSound.settle (m := s.mutex)
    (s := { s.toMutexState with guards := s.guards + held stack }) hs
  unfold MutexCalls.wakeLast at ht
  split at ht
  · cases ht
    exact ⟨hsound, fun hl hne => .inl (hturn hl hne), hb.wake _⟩
  · cases ht
    refine ⟨?_, fun hl hne => .inl (hturn hl hne), hb.wake _⟩
    simpa [guards, Segment.frames, MutexState.settle] using hsound

theorem tryLock (h : MutexNested stack s) (ht : s.enter .tryLock = some (t, seg)) :
    MutexNested (seg.frames ++ stack) t := by
  cases hl : s.mutex.locked with
  | true =>
    simp only [MutexCalls.enter, LocalMutex.tryLock, hl, Bool.not_true,
      LocalMutex.locked_self hl] at ht
    cases ht
    exact h
  | false =>
    simp only [MutexCalls.enter, LocalMutex.tryLock, hl, Bool.not_false] at ht
    cases ht
    refine ⟨⟨?_, h.sound.consistent, h.sound.owns, h.sound.nodup⟩, turn_of_locked rfl, h.borrowed⟩
    have := h.guards_eq
    simp only [hl, Bool.false_eq_true, if_false] at this
    change s.guards + 1 + held stack = 1
    omega

theorem dropGuard (h : MutexNested stack s) (ht : s.enter .dropGuard = some (t, seg)) :
    MutexNested (seg.frames ++ stack) t := by
  simp only [MutexCalls.enter] at ht
  split at ht
  · cases ht
  · rename_i hg
    let u : MutexCalls W := { s with guards := s.guards - 1
                                     mutex := { s.mutex with locked := false } }
    refine wakeLast (s := u) ⟨?_, h.sound.consistent, h.sound.owns, h.sound.nodup⟩ h.borrowed
      (Option.some.inj ht)
    have := h.guards_eq
    change s.guards - 1 + held stack = 0
    split at this <;> omega

theorem poll (h : MutexNested stack s) (ht : s.enter (.poll f waker) = some (t, seg)) :
    MutexNested (seg.frames ++ stack) t := by
  simp only [MutexCalls.enter] at ht
  split at ht
  · cases ht
  · rename_i hf
    obtain ⟨u, hu, heq⟩ := Option.map_eq_some_iff.mp ht
    have hbegin := h.begin_poll hf hu waker
    have hset : s.futs.Borrowed (f :: s.polling) ((f, ()) :: stack.filterMap polls)
        ([] ++ stack.filterMap reserves) := hbegin.borrowed
    cases hl : s.mutex.locked with
    | false =>
      simp only [MutexCalls.pollEnter, LocalMutex.tryLock, hl, Bool.not_false] at heq
      exact hbegin.take hl heq
    | true =>
      simp only [MutexCalls.pollEnter, LocalMutex.tryLock, hl, Bool.not_true,
        LocalMutex.locked_self hl, Futs.slot_of hu] at heq
      split at heq
      · cases heq
        refine ⟨⟨?_, h.sound.consistent, h.sound.owns, h.sound.nodup⟩, turn_of_locked rfl,
          hbegin.borrowed.reserve fun e he => ?_⟩
        · simpa [hl, guards, LockPoll.guards, Segment.frames] using h.guards_eq
        · rw [← Futs.slot_of hu, show s.futs.slot f = some e from he]
          rfl
      · rename_i hstale
        obtain ⟨e, x, hslot, htask, -, -⟩ := Waiters.of_not_stale (by simpa using hstale)
        rw [Futs.update_of hu] at heq
        refine MutexNested.check ?_ heq
        refine ⟨⟨hbegin.sound.guards, ?_, h.sound.owns.set_same_slot hu trivial rfl, h.sound.nodup⟩,
          turn_of_locked hl, hset.set_top (fun _ _ => polls_of_reserves) rfl⟩
        exact h.sound.consistent.set f (u.consistent_pending hslot htask)

theorem dropFuture (h : MutexNested stack s) (ht : s.enter (.dropFuture f) = some (t, seg)) :
    MutexNested (seg.frames ++ stack) t := by
  simp only [MutexCalls.enter] at ht
  split at ht
  · cases ht
  · rename_i hf
    obtain ⟨u, hu, heq⟩ := Option.map_eq_some_iff.mp ht
    have hd := h.sound.deregister hu (h.sound.consistent.erase f)
    have hb := h.borrowed.set_idle hf (fun _ _ => polls_of_reserves) none
    split at heq
    · cases heq
      refine ⟨?_, fun _ _ => .inr ⟨_, List.mem_cons_self, trivial⟩, hb⟩
      simpa [guards, Segment.frames] using hd
    · rename_i hr
      have hr : u.registered = none := by simpa using hr
      cases heq
      refine ⟨hd, h.turn_of_set (f := f) ?_ (by rw [hr]; rfl) rfl, hb⟩
      intro v hv
      rw [hu] at hv
      cases hv
      exact hr

theorem enter {op : MutexOp W} (h : MutexNested stack s) (ht : s.enter op = some (t, seg)) :
    MutexNested (seg.frames ++ stack) t := by
  cases op with
  | tryLock => exact h.tryLock ht
  | dropGuard => exact h.dropGuard ht
  | create f =>
    simp only [MutexCalls.enter] at ht
    split at ht
    · cases ht
    · rename_i hf
      cases ht
      have hidle := h.borrowed.idle_of_none hf
      exact ⟨⟨h.sound.guards, h.sound.consistent.set f (Fut.consistent_fresh _),
        h.sound.owns.set_of fun u hu => by simp [hf] at hu, h.sound.nodup⟩,
        h.turn_of_set (f := f) (fun u hu => by simp [hf] at hu) rfl rfl,
        h.borrowed.set_idle hidle (fun _ _ => polls_of_reserves) _⟩
  | poll f waker => exact h.poll ht
  | dropFuture f => exact h.dropFuture ht

theorem resume {frame : MutexFrame W} (h : MutexNested (frame :: rest) s) :
    MutexNested ((s.resume frame).2.frames ++ rest) (s.resume frame).1 := by
  cases frame with
  | poll f waker at_ =>
    cases at_ with
    | took =>
      have hg := h.guards_eq
      change s.guards + (1 + held rest) = if s.mutex.locked then 1 else 0 at hg
      have hl : s.mutex.locked = true := by
        by_contra hl
        rw [if_neg hl] at hg
        omega
      refine ⟨⟨?_, h.sound.consistent, h.sound.owns, h.sound.nodup⟩, turn_of_locked hl,
        h.borrowed.finish⟩
      change s.guards + 1 + held rest = if s.mutex.locked then 1 else 0
      omega
    | cloning id =>
      simp only [MutexCalls.resume, MutexCalls.pollResume]
      split
      · exact h.requeue
      · exact h.requeue.check rfl
    | registered => exact h.check rfl
  | cancelling => exact wakeLast (by simpa [guards] using h.sound) h.borrowed rfl
  | waking =>
    refine ⟨by simpa [guards, MutexCalls.resume, Segment.frames] using h.sound, ?_, h.borrowed⟩
    intro hl hne
    refine (h.turn hl hne).imp_right ?_
    rintro ⟨frame, hmem, hpass⟩
    rcases List.mem_cons.mp hmem with rfl | hmem
    · exact hpass.elim
    · exact ⟨frame, hmem, hpass⟩

end MutexNested

/-- After `n` moves: the tokens are distinct, and a registered future is queued or has been
woken, unless its poll is about to queue it. -/
def MutexServes {W : Type v} (n : Nat) (stack : List (MutexFrame W)) (s : MutexState W) : Prop :=
  (∃ m, m ≤ n ∧ s.futs.Reserves (stack.filterMap reserves) m s.mutex.nextId) ∧
    s.futs.Queued (fun _ => True) (stack.filterMap reserves) s.mutex.waiters

namespace MutexServes

variable {W : Type v} {n : Nat} {stack rest : List (MutexFrame W)} {s t : MutexCalls W} {f : Nat}
  {waker : W} {seg : Segment (MutexFrame W) MutexOutcome}

theorem init : MutexServes 0 [] (MutexState.init : MutexState W) :=
  ⟨⟨0, le_refl _, Futs.reserves_init⟩, fun _ _ _ hf => by cases hf⟩

theorem mono {m : Nat} (h : MutexServes n stack s.toMutexState) (hm : n ≤ m) :
    MutexServes m stack s.toMutexState := by
  obtain ⟨⟨k, hk, hr⟩, hq⟩ := h
  exact ⟨⟨k, by omega, hr⟩, hq⟩

/-- A call that is not to queue anything goes on, or ends. -/
theorem without {frame : MutexFrame W} (h : MutexServes n (frame :: rest) s.toMutexState)
    (hr : frame.reserves = none) : MutexServes n rest s.toMutexState := by
  rw [MutexServes, List.filterMap_cons_none hr] at h
  exact h

/-- A future leaves the queue, for good or with the guard. -/
theorem deregister (h : MutexServes n stack s.toMutexState) {u : Fut Unit Unit W}
    (hu : s.futs f = some u) {v : Option (Fut Unit Unit W)} (hv : v.bind Fut.registered = none) :
    MutexServes n stack { s.toMutexState with
      mutex := s.mutex.deregister u.registered, futs := s.futs.set f v } := by
  obtain ⟨⟨m, hm, hr⟩, hq⟩ := h
  exact ⟨⟨m, hm, hr.of_slots (Futs.slot_of_emptied hv) fun _ hmem => hmem⟩,
    hq.deregister hr.slots hu hv⟩

theorem take (h : MutexServes n rest s.toMutexState) (hb : ∃ u, s.futs f = some u)
    (ht : s.take f waker = (t, seg)) : MutexServes n (seg.frames ++ rest) t.toMutexState := by
  obtain ⟨u, hu⟩ := hb
  have hd := h.deregister hu (v := some (u.afterPoll none true waker)) rfl
  rw [MutexCalls.take] at ht
  simp only [Futs.update_of hu, Futs.slot_of hu] at ht
  split at ht <;> cases ht <;> exact hd

theorem check (h : MutexServes n rest s.toMutexState) (hb : ∃ u, s.futs f = some u)
    (ht : s.check f waker = (t, seg)) : MutexServes n (seg.frames ++ rest) t.toMutexState := by
  cases hl : s.mutex.locked with
  | false =>
    simp only [MutexCalls.check, LocalMutex.tryLock, hl, Bool.not_false] at ht
    exact take (s := { s with mutex := { s.mutex with locked := true } }) h hb ht
  | true =>
    simp only [MutexCalls.check, LocalMutex.tryLock, hl, Bool.not_true] at ht
    cases ht
    exact h

theorem requeue {id : UInt64} (hb : ∃ u, s.futs f = some u)
    (h : MutexServes n (.poll f waker (.cloning id) :: rest) s.toMutexState) :
    MutexServes n rest (s.requeue f id waker).toMutexState := by
  obtain ⟨u, hu⟩ := hb
  obtain ⟨⟨m, hm, hr⟩, hq⟩ := h
  let e : Entry Unit W := ⟨id, (), waker⟩
  rw [MutexCalls.requeue, Futs.update_of hu]
  exact ⟨⟨m, hm, Futs.Reserves.fill (e := e) hr rfl⟩, Futs.Queued.requeue (e := e) hq hr rfl⟩

theorem wakeNext_pops (m : LocalMutex W) : m.wakeNext.1.nextId = m.nextId ∧
    ∀ e ∈ m.waiters, e ∈ m.wakeNext.1.waiters ∨ e.waker ∈ m.wakeNext.2 := by
  unfold LocalMutex.wakeNext
  split
  · exact ⟨rfl, fun e he => .inl he⟩
  · split
    · rename_i x rest hq
      refine ⟨rfl, fun e he => ?_⟩
      rw [hq, List.mem_cons] at he
      rcases he with rfl | he
      · exact .inr List.mem_cons_self
      · exact .inl he
    · exact ⟨rfl, fun e he => .inl he⟩

variable [Waker W]

theorem wakeLast (h : MutexServes n stack s.toMutexState) (hc : s.futs.Consistent)
    (ht : s.wakeLast s.mutex.wakeNext = (t, seg)) :
    MutexServes n (seg.frames ++ stack) t.toMutexState := by
  obtain ⟨⟨k, hk, hr⟩, hq⟩ := h
  obtain ⟨hnext, hpops⟩ := wakeNext_pops s.mutex
  have hserved : MutexServes n stack (s.settle s.mutex.wakeNext) := by
    refine ⟨⟨k, hk, ?_⟩, hq.wake hc hpops⟩
    change (s.futs.wake _).Reserves _ k s.mutex.wakeNext.1.nextId
    rw [hnext]
    exact hr.of_slots (fun f e he => by rwa [Futs.slot_wake] at he) fun _ hmem => hmem
  unfold MutexCalls.wakeLast at ht
  split at ht <;> cases ht <;> exact hserved

theorem poll (h : MutexServes n stack s.toMutexState) (hn : n < 2 ^ 64) (hs : MutexNested stack s)
    (ht : s.enter (.poll f waker) = some (t, seg)) :
    MutexServes (n + 1) (seg.frames ++ stack) t.toMutexState := by
  simp only [MutexCalls.enter] at ht
  split at ht
  · cases ht
  · obtain ⟨u, hu, heq⟩ := Option.map_eq_some_iff.mp ht
    have hnext := h.mono (Nat.le_succ n)
    cases hl : s.mutex.locked with
    | false =>
      simp only [MutexCalls.pollEnter, LocalMutex.tryLock, hl, Bool.not_false] at heq
      exact take (s := { s with mutex := { s.mutex with locked := true }
                                polling := f :: s.polling }) hnext ⟨u, hu⟩ heq
    | true =>
      obtain ⟨⟨m, hm, hr⟩, hq⟩ := h
      simp only [MutexCalls.pollEnter, LocalMutex.tryLock, hl, Bool.not_true,
        LocalMutex.locked_self hl, Futs.slot_of hu] at heq
      split at heq
      · cases heq
        refine ⟨?_, hq.reserve _⟩
        cases hslot : u.registered with
        | none => exact ⟨m + 1, by omega, hr.draw (by omega) f⟩
        | some e => exact ⟨m, by omega, hr.keep ((Futs.slot_of hu).trans hslot)⟩
      · rename_i hstale
        obtain ⟨e, x, hslot, -, hx, hid⟩ := Waiters.of_not_stale (by simpa using hstale)
        rw [Futs.update_of hu] at heq
        refine check ?_ ?_ heq
        · exact ⟨⟨m, by omega, hr.set_same_slot hu rfl⟩,
            hq.keep hr.slots hs.sound.owns hu hslot hx hid rfl⟩
        · exact ⟨_, Futs.set_same ..⟩

theorem enter {op : MutexOp W} (h : MutexServes n stack s.toMutexState) (hn : n < 2 ^ 64)
    (hs : MutexNested stack s) (ht : s.enter op = some (t, seg)) :
    MutexServes (n + 1) (seg.frames ++ stack) t.toMutexState := by
  have hnext := h.mono (Nat.le_succ n)
  cases op with
  | tryLock =>
    simp only [MutexCalls.enter, LocalMutex.tryLock] at ht
    split at ht <;> rename_i hm <;> obtain ⟨rfl, -⟩ := Prod.mk.inj hm <;> cases ht <;> exact hnext
  | dropGuard =>
    simp only [MutexCalls.enter] at ht
    split at ht
    · cases ht
    · exact wakeLast (s := { s with guards := s.guards - 1
                                    mutex := { s.mutex with locked := false } })
        hnext hs.sound.consistent (Option.some.inj ht)
  | create f =>
    simp only [MutexCalls.enter] at ht
    split at ht
    · cases ht
    · cases ht
      obtain ⟨⟨m, hm, hr⟩, hq⟩ := hnext
      refine ⟨⟨m, hm, hr.of_slots (Futs.slot_of_emptied rfl) fun _ hmem => hmem⟩,
        Futs.Queued.set_other [] hq (fun _ hr => by cases hr) ?_⟩
      intro u e hu _ he
      cases hu
      cases he
  | poll f waker => exact h.poll hn hs ht
  | dropFuture f =>
    simp only [MutexCalls.enter] at ht
    split at ht
    · cases ht
    · obtain ⟨u, hu, heq⟩ := Option.map_eq_some_iff.mp ht
      split at heq <;> cases heq <;> exact hnext.deregister hu rfl

theorem resume {frame : MutexFrame W} (h : MutexServes n (frame :: rest) s.toMutexState)
    (hs : MutexNested (frame :: rest) s) :
    MutexServes (n + 1) ((s.resume frame).2.frames ++ rest) (s.resume frame).1.toMutexState := by
  have hnext := h.mono (Nat.le_succ n)
  cases frame with
  | poll f waker at_ =>
    have hlive : ∃ u, s.futs f = some u := by
      obtain ⟨u, hu, -⟩ := hs.borrowed.live f () List.mem_cons_self
      exact ⟨u, hu⟩
    cases at_ with
    | took => exact hnext
    | cloning id =>
      have hqueued := requeue hlive hnext
      simp only [MutexCalls.resume, MutexCalls.pollResume]
      split
      · exact hqueued
      · refine hqueued.check ?_ rfl
        obtain ⟨u, hu⟩ := hlive
        rw [MutexCalls.requeue, Futs.update_of hu]
        exact ⟨_, Futs.set_same ..⟩
    | registered => exact (hnext.without rfl).check hlive rfl
  | cancelling => exact (hnext.without rfl).wakeLast hs.sound.consistent rfl
  | waking => exact hnext

end MutexServes

variable {W : Type v} [Waker W]

theorem mutexCalls_nested {s : Nested (MutexCalls W) (MutexFrame W)}
    (h : (mutexCalls W).machine.Reachable s) : MutexNested s.stack s.obj :=
  Reentrant.stack_invariant (I := fun stack s => MutexNested stack s) .init
    (fun _ _ _ _ _ hI ht => hI.enter ht) (fun _ _ _ hI => hI.resume) h

theorem mutexCalls_serves {moves : List (Nested.Move (MutexOp W))}
    {s : Nested (MutexCalls W) (MutexFrame W)}
    (h : (mutexCalls W).machine.run (mutexCalls W).machine.init moves = some s)
    (hlen : moves.length ≤ 2 ^ 64) : MutexServes moves.length s.stack s.obj.toMutexState := by
  have hI := Machine.run_counts (n := 0) (I := fun n s => MutexNested s.stack s.obj ∧
    MutexServes n s.stack s.obj.toMutexState) (M := (mutexCalls W).machine) ?_ ⟨.init, .init⟩
    (show 0 + moves.length ≤ 2 ^ 64 by omega) h
  · rw [Nat.zero_add] at hI
    exact hI.2
  intro n s a t hn hI hs
  exact Reentrant.step_stack
    (I := fun stack s => MutexNested stack s ∧ MutexServes n stack s.toMutexState)
    (J := fun stack s => MutexNested stack s ∧ MutexServes (n + 1) stack s.toMutexState)
    (fun _ _ _ _ _ h ht => ⟨h.1.enter ht, h.2.enter hn h.1 ht⟩)
    (fun _ _ _ h => ⟨h.1.resume, h.2.resume h.1⟩) hI hs

/-- Whatever the callbacks of its calls do, the flag of the mutex says whether its one guard is
live, the guard of a suspended poll included. A free mutex with a queue has been offered to a
live future, or a suspended call is still to check the lock or to wake; between calls the offer
stands. Before the counter comes round every registered future is queued, once, or has been
woken, unless its own poll is about to queue it. -/
theorem mutex_survives_reentrancy (moves : List (Nested.Move (MutexOp W)))
    (s : Nested (MutexCalls W) (MutexFrame W))
    (h : (mutexCalls W).machine.run (mutexCalls W).machine.init moves = some s) :
    (s.obj.mutex.locked = true ↔ s.obj.guards + held s.stack = 1) ∧
    s.obj.guards + held s.stack ≤ 1 ∧
    (s.obj.mutex.locked = false → s.obj.mutex.waiters ≠ [] →
      (∃ f u, s.obj.futs f = some u ∧ u.Waiting ∧ u.woken = true) ∨
        ∃ frame ∈ s.stack, frame.PassesOn) ∧
    (s.stack = [] → s.obj.mutex.locked = false → s.obj.mutex.waiters ≠ [] →
      ∃ f u, s.obj.futs f = some u ∧ u.Waiting ∧ u.woken = true) ∧
    (moves.length ≤ 2 ^ 64 → ∀ f u e, s.obj.futs f = some u → u.registered = some e →
      (∀ waker id, .poll f waker (.cloning id) ∉ s.stack) →
        (e ∈ s.obj.mutex.waiters ∧ (s.obj.mutex.waiters.map Entry.id).count e.id = 1) ∨
          u.woken = true) := by
  have hs := mutexCalls_nested ⟨moves, h⟩
  have hg := hs.guards_eq
  refine ⟨?_, ?_, hs.turn, ?_, ?_⟩
  · cases hl : s.obj.mutex.locked <;> simp [hg, hl]
  · split at hg <;> omega
  · intro hstack hl hne
    refine (hs.turn hl hne).resolve_right ?_
    rw [hstack]
    rintro ⟨frame, hmem, -⟩
    cases hmem
  · intro hlen f u e hf he hcloning
    obtain ⟨-, hqueued⟩ := mutexCalls_serves h hlen
    rcases hqueued f u e hf trivial he with ⟨id, hid⟩ | hq | hw
    · obtain ⟨frame, hmem, hr⟩ := List.mem_filterMap.mp hid
      obtain ⟨waker, rfl⟩ := eq_of_reserves hr
      exact absurd hmem (hcloning waker id)
    · exact .inl ⟨hq, List.count_eq_one_of_mem hs.sound.nodup (List.mem_map_of_mem hq)⟩
    · exact .inr hw

/-- Two futures queue behind a guard. The wake of its drop polls the first one, which takes the
lock and is suspended with the guard; the second one stays queued. -/
theorem mutex_is_taken_in_a_wake : ∃ s,
    (mutexCalls Waker.OfTask).machine.run (mutexCalls Waker.OfTask).machine.init
        [.call .tryLock, .call (.create 0), .call (.create 1), .call (.poll 0 ⟨0⟩), .resume,
          .call (.poll 1 ⟨1⟩), .resume, .call .dropGuard, .call (.poll 0 ⟨0⟩)] = some s ∧
      s.obj.guards = 0 ∧ s.stack.length = 2 ∧ s.obj.guards + held s.stack = 1 ∧
      ∃ u e, s.obj.futs 1 = some u ∧ u.woken = false ∧ e ∈ s.obj.mutex.waiters ∧
        (s.obj.mutex.waiters.map Entry.id).count e.id = 1 := by
  refine Machine.exists_end (M := (mutexCalls Waker.OfTask).machine)
    (c := fun s => decide (s.obj.guards = 0 ∧ s.stack.length = 2 ∧ s.obj.mutex.locked = true ∧
      s.stack.filterMap reserves = [] ∧
      s.obj.futs 1 = some ⟨(), some ⟨1, (), ⟨1⟩⟩, some ⟨1⟩, false, false⟩)) _ (by decide +kernel) ?_
  intro s hrun hs
  obtain ⟨hguards, hlength, hlocked, hnone, hf⟩ := of_decide_eq_true hs
  obtain ⟨hflag, -, -, -, hserved⟩ := mutex_survives_reentrancy _ s hrun
  refine ⟨hguards, hlength, hflag.mp hlocked, _, ⟨1, (), ⟨1⟩⟩, hf, rfl, ?_⟩
  refine (hserved (by decide) 1 _ _ hf rfl ?_).resolve_right (by simp)
  intro waker id hmem
  have : (1, id) ∈ s.stack.filterMap reserves := List.mem_filterMap.mpr ⟨_, hmem, rfl⟩
  rw [hnone] at this
  cases this

end Cynosure.SiteC
