import Cynosure.Lib.Inevitable
import Cynosure.SiteC.Executor
import Cynosure.SiteC.WaitCalls

/-! # Every future of `LocalRwLock` gets the lock

The executor polls futures that are awake and the holders drop their guards. A reader
that is polled while a writer is queued waits again; the turn of that writer is what
keeps the executor going.
-/

universe u v w

namespace Cynosure.SiteC

section Queued

variable {κ : Type w} {ρ : Type u} {W : Type v} [Waker W]

/-- A registration leaves the other futures queued, and the polled one too. -/
theorem Futs.Queued.register {futs : Futs κ ρ W} {P : κ → Prop} {q : Waiters ρ W}
    (h : futs.Queued P [] q) (hd : futs.Distinct) (ho : futs.Owns P q) {f : Nat} {u v : Fut κ ρ W}
    {nextId : UInt64} {req : ρ} {waker : W} (hf : futs f = some u)
    (hfresh : u.registered = none → ¬ futs.Holds nextId)
    (hv : v.registered = (q.register nextId u.registered req waker).2.2) :
    (futs.set f (some v)).Queued P [] (q.register nextId u.registered req waker).1 := by
  intro g w e hg hP he
  rcases Futs.set_eq_some hg with ⟨rfl, hw⟩ | ⟨hgf, hg⟩
  · cases hw
    have hall : futs.Owns (fun _ => True) q := by
      intro x hx
      obtain ⟨g', w', hg', -, hw'⟩ := ho x hx
      exact ⟨g', w', hg', trivial, hw'⟩
    exact .inr (.inl (hd.mem_register_self hall hf (hv ▸ he)))
  · exact (h g w e hg hP he).imp_right (Or.imp_left (hd.mem_register hf hfresh hgf hg he))

end Queued

variable {W : Type v} [Waker W]

/-- What an executor does: it polls futures that are awake, and drops guards. -/
def RwState.Executes (s : RwState W) : RwOp W → Prop
  | .poll f _ => f ∈ s.futs.awake
  | .dropReadGuard => True
  | .dropWriteGuard => True
  | _ => False

theorem RwSound.owns {s : RwState W} (h : RwSound s) (kind : Access) :
    s.futs.Owns (· = kind) (s.lock.waiting kind) := by
  cases kind with
  | read => exact h.ownsRead
  | write => exact h.ownsWrite

namespace LocalRwLock

omit [Waker W] in
theorem wakeNext_wakes (l : LocalRwLock W) (kind : Access) :
    ∀ e ∈ l.waiting kind, e ∈ l.wakeNext.1.waiting kind ∨ e.waker ∈ l.wakeNext.2 := by
  intro e he
  unfold wakeNext
  split
  · exact .inl he
  · split
    · rename_i x rest hq
      cases kind with
      | read => exact .inl he
      | write =>
        rw [waiting, hq, List.mem_cons] at he
        rcases he with rfl | he
        · exact .inr List.mem_cons_self
        · exact .inl he
    · cases kind with
      | read => exact .inr (List.mem_map_of_mem he)
      | write => exact .inl he

end LocalRwLock

/-- Every registered future is queued for its kind, or has been woken. -/
structure RwQueued (s : RwState W) : Prop where
  distinct : s.futs.Distinct
  queued : ∀ kind, s.futs.Queued (· = kind) [] (s.lock.waiting kind)

namespace RwQueued

variable {s t : RwState W}

omit [Waker W] in
theorem init : RwQueued (RwState.init : RwState W) :=
  ⟨⟨fun hf => by cases hf⟩, fun _ _ _ _ hf => by cases hf⟩

theorem settle {l : LocalRwLock W} (h : RwQueued { s with lock := l }) (hc : s.futs.Consistent) :
    RwQueued (s.settle l.wakeNext) :=
  ⟨h.distinct.wake _, fun kind => (h.queued kind).wake hc (l.wakeNext_wakes kind)⟩

omit [Waker W] in
/-- A future leaves its queue, for good or with a guard. -/
theorem deregister (h : RwQueued s) {l : LocalRwLock W}
    (hq : ∀ kind, l.waiting kind = s.lock.waiting kind) {f : Nat} {u : Fut Access Unit W}
    (hf : s.futs f = some u) {v : Option (Fut Access Unit W)} (hv : v.bind Fut.registered = none) :
    RwQueued { s with lock := l.deregisterIn u.registered u.kind, futs := s.futs.set f v } := by
  refine ⟨h.distinct.emptied hv, fun kind => ?_⟩
  rw [LocalRwLock.deregisterIn_eq, LocalRwLock.waiting_setWaiting]
  split
  · rename_i hkind
    subst hkind
    rw [hq]
    exact (h.queued _).deregister h.distinct hf hv
  · rw [hq kind]
    refine Futs.Queued.set_other [] (h.queued kind) (fun _ hr => by cases hr) ?_
    rintro w e rfl - he
    cases hv.symm.trans he

theorem step {op : RwOp W} (h : RwQueued s) (hS : RwSound s)
    (hfresh : ∀ f waker u, op = .poll f waker → s.futs f = some u → u.registered = none →
      ¬ s.futs.Holds s.lock.nextId) (hs : RwStep s op t) : RwQueued t := by
  have hset {f : Nat} {v : Option (Fut Access Unit W)} (hv : v.bind Fut.registered = none) :
      RwQueued { s with futs := s.futs.set f v } := by
    refine ⟨h.distinct.emptied hv, fun kind => ?_⟩
    refine Futs.Queued.set_other [] (h.queued kind) (fun _ hr => by cases hr) ?_
    rintro w e rfl - he
    cases hv.symm.trans he
  cases hs with
  | stay => exact h
  | tryRead hw => exact ⟨h.distinct, fun kind => by cases kind <;> exact h.queued _⟩
  | tryWrite hf => exact ⟨h.distinct, fun kind => by cases kind <;> exact h.queued _⟩
  | dropReadGuard hg =>
    exact settle (s := { s with readGuards := s.readGuards - 1 })
      ⟨h.distinct, fun kind => by cases kind <;> exact h.queued _⟩ hS.consistent
  | dropWriteGuard hg =>
    exact settle (s := { s with writeGuards := s.writeGuards - 1 })
      ⟨h.distinct, fun kind => by cases kind <;> exact h.queued _⟩ hS.consistent
  | create hf => exact hset rfl
  | @pollPending f u waker hf hb =>
    have hnew := hfresh f waker u rfl hf
    have hv : ((u.afterPoll (s.lock.registerIn u.registered waker u.kind).2 false waker)).registered =
        ((s.lock.waiting u.kind).register s.lock.nextId u.registered () waker).2.2 := by
      rw [s.lock.registerIn_eq]
      rfl
    refine ⟨h.distinct.register hf hnew hv, fun kind => ?_⟩
    rw [s.lock.registerIn_eq] at hv ⊢
    simp only [LocalRwLock.waiting_setWaiting]
    split
    · rename_i hkind
      subst hkind
      exact (h.queued u.kind).register h.distinct (hS.owns u.kind) hf hnew hv
    · rename_i hkind
      refine Futs.Queued.set_other [] (h.queued kind) (fun _ hr => by cases hr) ?_
      intro w e hw hk
      cases hw
      exact absurd hk (Ne.symm hkind)
  | @pollRead f u waker hf hk hw hq =>
    have hd := h.deregister (l := { s.lock with readers := s.lock.readers + 1 })
      (fun kind => by cases kind <;> rfl) hf (v := some (u.afterPoll none true waker)) rfl
    rw [hk] at hd
    exact ⟨hd.distinct, hd.queued⟩
  | @pollWrite f u waker hf hk hfree =>
    have hd := h.deregister (l := { s.lock with writer := true })
      (fun kind => by cases kind <;> rfl) hf (v := some (u.afterPoll none true waker)) rfl
    rw [hk] at hd
    exact ⟨hd.distinct, hd.queued⟩
  | @dropFuture f u hf =>
    unfold RwState.dropFuture
    split
    · exact settle (h.deregister (fun _ => rfl) hf rfl) (hS.consistent.erase f)
    · exact hset rfl

end RwQueued

/-- The live readers, and the read futures that are still to be served. -/
noncomputable def RwState.readersToCount (s : RwState W) : Nat :=
  s.readGuards + (s.futs.unserved ∩ s.futs.ofKind .read).ncard

/-- What the executor relies on; `futs` are the futures at the start. The readers that may come
fit in the count. -/
structure RwServable (width : Nat) (futs : Futs Access Unit W) (s : RwState W) : Prop where
  sound : RwSound s
  turn : s.Turn
  queued : RwQueued s
  issued : RwIssued (2 ^ 64) s
  fits : s.readersToCount < 2 ^ width
  keeps : futs.Keeps s.futs

theorem rwMachine_servable {width : Nat} {ops : List (RwOp W)} {s : RwState W}
    (h : (rwMachine W width).run .init ops = some s) (hlen : ops.length ≤ 2 ^ 64)
    (hfits : s.readersToCount < 2 ^ width) : RwServable width s.futs s := by
  obtain ⟨hsound, hturn⟩ := rwMachine_sound h
  have hI := Machine.run_counts (M := rwMachine W width) (n := 0)
    (I := fun n s => (RwSound s ∧ RwQueued s) ∧ RwIssued n s) ?_ ⟨⟨.init, .init⟩, .init⟩
    (show 0 + ops.length ≤ 2 ^ 64 by omega) h
  · obtain ⟨⟨-, hqueued⟩, hissued⟩ := hI
    exact ⟨hsound, hturn, hqueued, ⟨hissued.within.mono (by omega), hissued.nodup⟩, hfits,
      subset_refl _⟩
  · rintro n s op t hn ⟨⟨hS, hQ⟩, hissued⟩ hs
    have hstep := rwMachine_step hs
    obtain ⟨m, hm, htokens⟩ := hissued.within.exists_issued
    exact ⟨⟨hS.step hstep, hQ.step hS (fun _ _ _ _ _ _ => htokens.fresh (by omega)) hstep⟩,
      hstep.issued_succ hn hissued⟩

namespace RwServable

variable {width : Nat} {futs : Futs Access Unit W} {s t : RwState W}

/-- A poll of an awake future completes it, or is its first or uses up the wake. -/
theorem poll_todo (h : RwServable width futs s) {f : Nat} {waker : W} {u : Fut Access Unit W}
    (hf : s.futs f = some u) (hawake : f ∈ s.futs.awake)
    (ht : (s.pollFuture width f u waker).1 = t) :
    t.futs.todo (t.readGuards + t.writeGuards) < s.futs.todo (s.readGuards + s.writeGuards) ∧
      t.readersToCount < 2 ^ width ∧ futs.Keeps t.futs := by
  have hunserved := s.futs.awake_subset_unserved hawake
  have hlive := h.issued.within.finite
  have hreaders : (s.futs.unserved ∩ s.futs.ofKind .read).Finite :=
    (hlive.subset s.futs.unserved_subset_live).inter_of_left _
  have hfits := h.fits
  rw [RwState.readersToCount] at hfits
  have hpending (slot : Option (Entry Unit W)) :
      (s.futs.set f (some (u.afterPoll slot false waker))).unserved ∩
        (s.futs.set f (some (u.afterPoll slot false waker))).ofKind .read =
      s.futs.unserved ∩ s.futs.ofKind .read := by
    rw [Futs.unserved_pending hunserved, Futs.ofKind_afterPoll hf]
  have hready : (s.futs.set f (some (u.afterPoll none true waker))).unserved ∩
        (s.futs.set f (some (u.afterPoll none true waker))).ofKind .read =
      (s.futs.unserved ∩ s.futs.ofKind .read) \ {f} := by
    rw [Futs.unserved_ready, Futs.ofKind_afterPoll hf, Set.sdiff_inter_right_comm]
  subst ht
  cases hk : u.kind with
  | read =>
    by_cases hb : s.lock.writer = true ∨ s.lock.writeWaiters ≠ []
    · simp only [RwState.pollFuture, hk, LocalRwLock.pollRead_of_blocked width u.registered waker hb]
      refine ⟨Futs.todo_pending hlive hawake _ _ _ _, ?_, h.keeps.set f⟩
      rwa [RwState.readersToCount, hpending]
    · have hmem : f ∈ s.futs.unserved ∩ s.futs.ofKind .read := ⟨hunserved, u, hf, hk⟩
      have hcard := Set.ncard_sdiff_singleton_add_one hmem hreaders
      obtain ⟨hw, hq⟩ : s.lock.writer = false ∧ s.lock.writeWaiters = [] := by simpa using hb
      have hadd : s.lock.addReader width = .ok { s.lock with readers := s.lock.readers + 1 } := by
        rw [LocalRwLock.addReader, if_pos]
        rw [h.sound.readers]
        omega
      simp only [RwState.pollFuture, hk, LocalRwLock.pollRead_of_open width u.registered waker hw hq,
        hadd, Except.map, if_true]
      refine ⟨?_, ?_, h.keeps.set f⟩
      · rw [Nat.add_right_comm]
        exact Futs.todo_ready hlive hunserved (Futs.unserved_ready ..) _
      · change s.readGuards + 1 + Set.ncard (_ ∩ _) < 2 ^ width
        rw [hready]
        omega
  | write =>
    by_cases hfree : s.lock.Free
    · simp only [RwState.pollFuture, hk, LocalRwLock.pollWrite_of_free u.registered waker hfree, if_true]
      refine ⟨Futs.todo_ready hlive hunserved (Futs.unserved_ready ..) _, ?_, h.keeps.set f⟩
      have hle := Set.ncard_sdiff_singleton_le (s.futs.unserved ∩ s.futs.ofKind .read) f
      change s.readGuards + Set.ncard (_ ∩ _) < 2 ^ width
      rw [hready]
      omega
    · simp only [RwState.pollFuture, hk, LocalRwLock.pollWrite_of_held u.registered waker hfree]
      refine ⟨Futs.todo_pending hlive hawake _ _ _ _, ?_, h.keeps.set f⟩
      rwa [RwState.readersToCount, hpending]

/-- One step of the executor gets something done. -/
theorem step {op : RwOp W} (h : RwServable width futs s) (hop : s.Executes op)
    (hs : (rwMachine W width).step s op = some t) : RwServable width futs t ∧
      t.futs.todo (t.readGuards + t.writeGuards) < s.futs.todo (s.readGuards + s.writeGuards) := by
  have hstep := rwMachine_step hs
  have hfresh : ∀ f waker u, op = .poll f waker → s.futs f = some u → u.registered = none →
      ¬ s.futs.Holds s.lock.nextId := by
    rintro f waker u rfl hf hnone
    exact h.issued.within.fresh hf (h.sound.consistent.unpolled_of_awake hop hf hnone)
  have hissued : RwIssued (2 ^ 64) t := by
    refine hstep.issued h.issued (le_refl _) (le_refl _) ?_ ?_
    · rintro f kind rfl
      exact hop.elim
    · rintro f waker u rfl hf hnone hpolled
      exact absurd (h.sound.consistent.unpolled_of_awake hop hf hnone) hpolled
  have hnext (hfits : t.readersToCount < 2 ^ width) (hkeeps : futs.Keeps t.futs) :
      RwServable width futs t :=
    ⟨h.sound.step hstep, h.sound.turn_step h.turn hstep, h.queued.step h.sound hfresh hstep,
      hissued, hfits, hkeeps⟩
  have hfits := h.fits
  rw [RwState.readersToCount] at hfits
  have hwake (ws : List W) : (s.futs.wake ws).unserved ∩ (s.futs.wake ws).ofKind .read =
      s.futs.unserved ∩ s.futs.ofKind .read := by
    rw [Futs.unserved_wake, Futs.ofKind_wake]
  obtain ⟨⟨t', o⟩, hexec, rfl⟩ := Option.map_eq_some_iff.mp hs
  cases op with
  | poll f waker =>
    obtain ⟨u, hf, hu⟩ := Option.map_eq_some_iff.mp hexec
    obtain ⟨hlt, hfits, hkeeps⟩ := h.poll_todo hf hop (congrArg Prod.fst hu)
    exact ⟨hnext hfits hkeeps, hlt⟩
  | dropReadGuard =>
    simp only [RwState.exec] at hexec
    split at hexec
    · cases hexec
    · cases hexec
      refine ⟨hnext ?_ (h.keeps.wake _), s.futs.todo_drop _ ?_⟩
      · change s.readGuards - 1 + ((s.futs.wake _).unserved ∩ (s.futs.wake _).ofKind .read).ncard < _
        rw [hwake]
        omega
      · change s.readGuards - 1 + s.writeGuards < s.readGuards + s.writeGuards
        omega
  | dropWriteGuard =>
    simp only [RwState.exec] at hexec
    split at hexec
    · cases hexec
    · cases hexec
      refine ⟨hnext ?_ (h.keeps.wake _), s.futs.todo_drop _ ?_⟩
      · change s.readGuards + ((s.futs.wake _).unserved ∩ (s.futs.wake _).ofKind .read).ncard < _
        rwa [hwake]
      · change s.readGuards + (s.writeGuards - 1) < s.readGuards + s.writeGuards
        omega
  | _ => exact hop.elim

/-- Somebody who waits for a lock that nobody holds is woken, or a writer is. -/
theorem exists_awake (h : RwServable width futs s) (hr : s.readGuards = 0) (hw : s.writeGuards = 0)
    (hne : s.futs.unserved.Nonempty) : s.futs.awake.Nonempty := by
  obtain ⟨f, u, hf, hfirst | hwait⟩ := hne
  · exact ⟨f, u, hf, .inl hfirst⟩
  have hfree : s.lock.Free := by
    refine ⟨h.sound.readers.trans hr, ?_⟩
    have hwriter := h.sound.writer
    rw [hw] at hwriter
    cases hl : s.lock.writer with
    | false => rfl
    | true => simp [hl] at hwriter
  obtain ⟨e, he⟩ := (h.sound.consistent f u hf).waiting_iff.mp hwait
  rcases h.queued.queued u.kind f u e hf rfl he with ⟨id, hid⟩ | hq | hwoken
  · cases hid
  · have hqueue : s.lock.readWaiters ≠ [] ∨ s.lock.writeWaiters ≠ [] := by
      cases hk : u.kind with
      | read => exact .inl (List.ne_nil_of_mem (hk ▸ hq))
      | write => exact .inr (List.ne_nil_of_mem (hk ▸ hq))
    obtain ⟨g, v, hg, -, hwait, hwoken⟩ := h.turn hfree hqueue
    exact ⟨g, v, hg, .inr ⟨hwait, hwoken⟩⟩
  · exact ⟨f, u, hf, .inr ⟨hwait, hwoken⟩⟩

/-- As long as somebody has not completed or holds the lock, the executor has something to do. -/
theorem can_go [Nonempty W] (h : RwServable width futs s)
    (hP : ¬ (s.readGuards = 0 ∧ s.writeGuards = 0 ∧ futs.Served s.futs)) :
    ∃ t, (rwMachine W width).Chooses RwState.Executes s t := by
  by_cases hr : s.readGuards = 0
  · by_cases hw : s.writeGuards = 0
    · have hne := h.keeps.unserved_nonempty fun hserved => hP ⟨hr, hw, hserved⟩
      obtain ⟨f, u, hf, hawake⟩ := h.exists_awake hr hw hne
      obtain ⟨waker⟩ := ‹Nonempty W›
      refine Machine.exists_chooses (a := .poll f waker) ⟨u, hf, hawake⟩ ?_
      simp [rwMachine, RwState.exec, hf]
    · refine Machine.exists_chooses (a := .dropWriteGuard) trivial ?_
      simp [rwMachine, RwState.exec, hw]
  · refine Machine.exists_chooses (a := .dropReadGuard) trivial ?_
    simp [rwMachine, RwState.exec, hr]

end RwServable

/-- Whatever an executor that polls awake futures and drops guards chooses to do, every read and
every write future that is there gets the lock, and the lock is free in the end. -/
theorem rwlock_executor_serves_all [Nonempty W] (width : Nat) (ops : List (RwOp W)) (s : RwState W)
    (h : (rwMachine W width).run .init ops = some s) (hlen : ops.length ≤ 2 ^ 64)
    (hfits : s.readersToCount < 2 ^ width) :
    Inevitable ((rwMachine W width).Chooses RwState.Executes)
      (fun t => t.readGuards = 0 ∧ t.writeGuards = 0 ∧ s.futs.Served t.futs) s := by
  refine Inevitable.of_measure wellFounded_lt
    (fun t => t.futs.todo (t.readGuards + t.writeGuards)) (I := RwServable width s.futs) ?_
    (fun t ht => ht.can_go) (rwMachine_servable h hlen hfits)
  rintro t t' ht ⟨op, hop, hstep⟩
  exact ht.step hop hstep

/-- A writer and a reader wait behind a read guard, and another reader was never polled. -/
theorem rwlock_executor_serves_behind_writer : ∃ s : RwState Waker.OfTask,
    (rwMachine Waker.OfTask 64).run .init [.tryRead, .create 0 .write, .create 1 .read,
      .create 2 .read, .poll 0 ⟨0⟩, .poll 1 ⟨1⟩] = some s ∧
    (s.readGuards = 1 ∧ (∃ u, s.futs 0 = some u ∧ u.Waiting) ∧
      (∃ u, s.futs 1 = some u ∧ u.Waiting) ∧ s.futs 2 = some (.fresh .read)) ∧
    Inevitable ((rwMachine Waker.OfTask 64).Chooses RwState.Executes)
      (fun t => t.readGuards = 0 ∧ t.writeGuards = 0 ∧ s.futs.Served t.futs) s := by
  refine ⟨_, rfl, ⟨rfl, ⟨_, rfl, rfl⟩, ⟨_, rfl, rfl⟩, rfl⟩, rwlock_executor_serves_all 64
    [.tryRead, .create 0 .write, .create 1 .read, .create 2 .read, .poll 0 ⟨0⟩, .poll 1 ⟨1⟩] _ rfl
    (by decide) ?_⟩
  refine lt_of_le_of_lt (Nat.add_le_add_left (Set.ncard_le_ncard (t := {1, 2}) ?_ (Set.toFinite _)) _) ?_
  · rintro f ⟨-, u, hf, hk⟩
    rcases f with _ | _ | _ | f
    · cases hf
      cases hk
    · simp
    · simp
    · cases hf
  · rw [Set.ncard_pair (by decide)]
    decide

end Cynosure.SiteC
