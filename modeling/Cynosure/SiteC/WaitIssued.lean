import Mathlib.Data.Set.Card
import Cynosure.SiteC.MutexTurn
import Cynosure.SiteC.RwLockTurn
import Cynosure.SiteC.SemaphoreFront
import Cynosure.SiteC.WaitFrame

/-! # Tokens in runs of fewer than 2^64 calls

A call hands out one token at most, and the first poll of a future may count on the call that
created it. As long as the counter has not come round, the tokens of the live futures are
distinct, and every registration finds its queue as it may assume.
-/

universe u v w

namespace Cynosure.SiteC

namespace Futs

variable {κ : Type w} {ρ : Type u} {W : Type v} {futs futs' : Futs κ ρ W} {issued : Nat}
  {nextId : UInt64}

/-- The counter stands behind `issued` tokens, and each live future has one of its own. -/
structure Issued (futs : Futs κ ρ W) (issued : Nat) (nextId : UInt64) : Prop where
  counter : nextId = UInt64.ofNat issued
  tokens : ∀ f e, futs.slot f = some e → ∃ k, k < issued ∧ e.id = UInt64.ofNat k
  distinct : futs.Distinct

theorem issued_init : Issued (fun _ => none : Futs κ ρ W) 0 0 :=
  ⟨rfl, fun _ _ h => (by cases h), ⟨fun h => by cases h⟩⟩

theorem Issued.of_slots (h : futs.Issued issued nextId)
    (hs : ∀ f e, futs'.slot f = some e → futs.slot f = some e) : futs'.Issued issued nextId :=
  ⟨h.counter, fun f e he => h.tokens f e (hs f e he), h.distinct.of_slots hs⟩

theorem Issued.fresh (h : futs.Issued issued nextId) (hn : issued < 2 ^ 64) :
    ¬ futs.Holds nextId := by
  rintro ⟨f, u, e, hf, he, hid⟩
  obtain ⟨k, hk, hek⟩ := h.tokens f e ((slot_of hf).trans he)
  exact Waiters.ofNat_ne hk hn (by rw [← hek, hid, h.counter])

variable [Waker W] {f : Nat} {u : Fut κ ρ W}

theorem Issued.register (h : futs.Issued issued nextId)
    (hn : u.registered = none → issued < 2 ^ 64) (hf : futs f = some u) (q : Waiters ρ W) (req : ρ)
    (waker : W) {v : Fut κ ρ W}
    (hv : v.registered = (q.register nextId u.registered req waker).2.2) :
    ∃ m, (m = issued ∨ u.registered = none ∧ m = issued + 1) ∧
      (futs.set f (some v)).Issued m (q.register nextId u.registered req waker).2.1 := by
  have hdistinct := h.distinct.register hf (fun hnone => h.fresh (hn hnone)) hv
  have hother : ∀ g e, g ≠ f → (futs.set f (some v)).slot g = some e →
      ∃ k, k < issued ∧ e.id = UInt64.ofNat k := by
    intro g e hgf he
    exact h.tokens g e (by rwa [slot_set_ne futs hgf] at he)
  rw [Waiters.register_counter]
  cases hu : u.registered with
  | some x =>
    refine ⟨issued, .inl rfl, h.counter, fun g e he => ?_, hdistinct⟩
    by_cases hgf : g = f
    · subst hgf
      rw [slot_set_same, Option.bind_some, hv] at he
      obtain ⟨y, hy, hid⟩ | ⟨hnone, -⟩ := register_id q nextId u.registered req waker he
      · obtain ⟨k, hk, hyk⟩ := h.tokens g y ((slot_of hf).trans hy)
        exact ⟨k, hk, hid.trans hyk⟩
      · rw [hu] at hnone
        cases hnone
    · exact hother g e hgf he
  | none =>
    refine ⟨issued + 1, .inr ⟨rfl, rfl⟩, ?_, fun g e he => ?_, hdistinct⟩
    · rw [Waiters.counterAfter, h.counter, UInt64.ofNat_add]
      rfl
    · by_cases hgf : g = f
      · subst hgf
        rw [slot_set_same, Option.bind_some, hv] at he
        obtain ⟨y, hy, -⟩ | ⟨-, hid⟩ := register_id q nextId u.registered req waker he
        · rw [hu] at hy
          cases hy
        · exact ⟨issued, by omega, hid.trans h.counter⟩
      · obtain ⟨k, hk, hid⟩ := hother g e hgf he
        exact ⟨k, by omega, hid⟩

omit [Waker W] in
/-- What a registration of a live future may assume of a queue of the live futures. -/
theorem Issued.admits (h : futs.Issued issued nextId) (hn : issued < 2 ^ 64) {P : κ → Prop}
    {q : Waiters ρ W} (howns : futs.Owns P q) (hq : q.ids.Nodup) (hf : futs f = some u) :
    q.Admits issued nextId u.registered := by
  refine ⟨hq, hn, h.counter, fun e he => ?_, fun e he x hx hid => ?_⟩
  · obtain ⟨g, v, hg, -, hv⟩ := howns e he
    exact h.tokens g e ((slot_of hg).trans hv)
  · obtain ⟨g, v, hg, -, hv⟩ := howns e he
    have hgf : g = f := h.distinct.eq hg hf hv hx hid
    subst hgf
    rw [hf] at hg
    cases hg
    rw [hv] at hx
    cases hx
    rfl

def live (futs : Futs κ ρ W) : Set Nat := {f | futs f ≠ none}

def unpolled (futs : Futs κ ρ W) : Set Nat := {f | ∃ u, futs f = some u ∧ u.Unpolled}

section Live

omit [Waker W]

theorem unpolled_subset_live (futs : Futs κ ρ W) : futs.unpolled ⊆ futs.live := by
  rintro f ⟨u, hu, -⟩ hnone
  cases hu.symm.trans hnone

theorem live_set_subset (futs : Futs κ ρ W) (f : Nat) (v : Option (Fut κ ρ W)) :
    (futs.set f v).live ⊆ insert f futs.live := by
  intro g hg
  by_cases hgf : g = f
  · exact .inl hgf
  · exact .inr (by rwa [live, Set.mem_ofPred_eq, set_ne _ hgf] at hg)

theorem unpolled_set (futs : Futs κ ρ W) (f : Nat) {v : Option (Fut κ ρ W)}
    (hv : ∀ w, v = some w → ¬ w.Unpolled) : (futs.set f v).unpolled = futs.unpolled \ {f} := by
  ext g
  by_cases hgf : g = f
  · subst hgf
    simpa [unpolled] using hv
  · simp [unpolled, set_ne _ hgf, hgf]

theorem unpolled_create (futs : Futs κ ρ W) (f : Nat) (kind : κ) :
    (futs.set f (some (.fresh kind))).unpolled = insert f futs.unpolled := by
  ext g
  by_cases hgf : g = f
  · subst hgf
    simp [unpolled, Fut.Unpolled, Fut.fresh]
  · simp [unpolled, set_ne _ hgf, hgf]

end Live

theorem live_wake (futs : Futs κ ρ W) (ws : List W) : (futs.wake ws).live = futs.live := by
  ext g
  simp [live, wake]

theorem unpolled_wake (futs : Futs κ ρ W) (ws : List W) :
    (futs.wake ws).unpolled = futs.unpolled := by
  ext g
  constructor
  · rintro ⟨v, hv, hfirst⟩
    obtain ⟨u, hu, rfl⟩ := wake_eq_some.mp hv
    exact ⟨u, hu, hfirst⟩
  · rintro ⟨u, hu, hfirst⟩
    exact ⟨_, wake_eq_some.mpr ⟨u, hu, rfl⟩, hfirst⟩

/-- `n` tokens are enough for those that were drawn and for the first poll of every future that
was not polled yet. -/
structure Within (futs : Futs κ ρ W) (n : Nat) (nextId : UInt64) : Prop where
  finite : futs.live.Finite
  issued : ∃ m, m + futs.unpolled.ncard ≤ n ∧ futs.Issued m nextId

namespace Within

variable {n k : Nat} {v : Option (Fut κ ρ W)}

section Frame

omit [Waker W]

theorem init : Within (fun _ => none : Futs κ ρ W) 0 0 :=
  ⟨by simp [live], 0, by simp [unpolled], issued_init⟩

theorem unpolled_finite (h : futs.Within n nextId) : futs.unpolled.Finite :=
  h.finite.subset futs.unpolled_subset_live

theorem mono (h : futs.Within n nextId) (hk : n ≤ k) : futs.Within k nextId := by
  obtain ⟨m, hm, hissued⟩ := h.issued
  exact ⟨h.finite, m, hm.trans hk, hissued⟩

theorem exists_issued (h : futs.Within n nextId) : ∃ m, m ≤ n ∧ futs.Issued m nextId := by
  obtain ⟨m, hm, hissued⟩ := h.issued
  exact ⟨m, by omega, hissued⟩

/-- There is a token for a future that was not polled yet. -/
theorem exists_lt (h : futs.Within n nextId) (hf : futs f = some u) (hu : u.Unpolled) :
    ∃ m, m < n ∧ futs.Issued m nextId := by
  obtain ⟨m, hm, hissued⟩ := h.issued
  have hpos := (Set.ncard_pos h.unpolled_finite).mpr ⟨f, u, hf, hu⟩
  exact ⟨m, by omega, hissued⟩

theorem fresh (h : futs.Within (2 ^ 64) nextId) (hf : futs f = some u) (hu : u.Unpolled) :
    ¬ futs.Holds nextId := by
  obtain ⟨m, hm, hissued⟩ := h.exists_lt hf hu
  exact hissued.fresh hm

/-- A future completes, or is dropped. -/
theorem emptied (h : futs.Within n nextId) (f : Nat) (hv : v.bind Fut.registered = none)
    (hfirst : ∀ w, v = some w → ¬ w.Unpolled) : (futs.set f v).Within n nextId := by
  obtain ⟨m, hm, hissued⟩ := h.issued
  refine ⟨(h.finite.insert f).subset (futs.live_set_subset f v), m, ?_,
    hissued.of_slots (slot_of_emptied hv)⟩
  have hle := Set.ncard_sdiff_singleton_le futs.unpolled f
  rw [unpolled_set _ _ hfirst]
  omega

theorem completed (h : futs.Within n nextId) (f : Nat) (u : Fut κ ρ W) (waker : W) :
    (futs.set f (some (u.afterPoll none true waker))).Within n nextId := by
  refine h.emptied f rfl ?_
  rintro w hw ⟨-, hready⟩
  cases hw
  cases hready

theorem dropped (h : futs.Within n nextId) (f : Nat) : (futs.set f none).Within n nextId :=
  h.emptied f rfl fun _ hw => by cases hw

theorem create (h : futs.Within n nextId) (f : Nat) (kind : κ) :
    (futs.set f (some (.fresh kind))).Within (n + 1) nextId := by
  obtain ⟨m, hm, hissued⟩ := h.issued
  refine ⟨(h.finite.insert f).subset (futs.live_set_subset f _), m, ?_,
    hissued.of_slots (slot_of_emptied rfl)⟩
  have hle := Set.ncard_insert_le f futs.unpolled
  rw [unpolled_create]
  omega

end Frame

theorem wake (h : futs.Within n nextId) (ws : List W) : (futs.wake ws).Within n nextId := by
  obtain ⟨m, hm, hissued⟩ := h.issued
  exact ⟨by rw [live_wake]; exact h.finite, m, by rwa [unpolled_wake],
    hissued.of_slots fun f e he => by rwa [slot_wake] at he⟩

/-- A poll registers the future. Only for one that had completed is there no token set aside. -/
theorem register (h : futs.Within n nextId) (hf : futs f = some u) (hk : k ≤ 2 ^ 64) (hnk : n ≤ k)
    (hspare : u.registered = none → ¬ u.Unpolled → n < k) (q : Waiters ρ W) (req : ρ) (waker : W) :
    (futs.set f (some (u.afterPoll (q.register nextId u.registered req waker).2.2 false waker))).Within
      k (q.register nextId u.registered req waker).2.1 := by
  obtain ⟨m, hm, hissued⟩ := h.issued
  have hle := Set.ncard_sdiff_singleton_le futs.unpolled f
  have hlt : u.registered = none → m + (futs.unpolled \ {f}).ncard < k := by
    intro hnone
    by_cases hu : u.Unpolled
    · have hmem : f ∈ futs.unpolled := ⟨u, hf, hu⟩
      have := Set.ncard_sdiff_singleton_add_one hmem h.unpolled_finite
      omega
    · have := hspare hnone hu
      omega
  obtain ⟨m', hm', h'⟩ := hissued.register (fun hnone => by have := hlt hnone; omega) hf q req waker
    (v := u.afterPoll (q.register nextId u.registered req waker).2.2 false waker) rfl
  refine ⟨(h.finite.insert f).subset (futs.live_set_subset f _), m', ?_, h'⟩
  rw [unpolled_set]
  · rcases hm' with rfl | ⟨hnone, rfl⟩
    · omega
    · have := hlt hnone
      omega
  · rintro w hw ⟨hpolled, -⟩
    cases hw
    cases hpolled

end Within

end Futs

section Mutex

variable {W : Type v}

theorem LocalMutex.wakeNext_nextId (m : LocalMutex W) : m.wakeNext.1.nextId = m.nextId := by
  unfold LocalMutex.wakeNext
  split
  · rfl
  · split <;> rfl

variable [Waker W]

theorem Futs.Within.settle {n : Nat} {s : MutexState W} {m : LocalMutex W}
    (h : s.futs.Within n m.nextId) :
    (s.settle m.wakeNext).futs.Within n (s.settle m.wakeNext).mutex.nextId := by
  change (s.futs.wake m.wakeNext.2).Within n m.wakeNext.1.nextId
  rw [m.wakeNext_nextId]
  exact h.wake _

theorem MutexStep.within {n k : Nat} {s t : MutexState W} {op : MutexOp W} (hs : MutexStep s op t)
    (h : s.futs.Within n s.mutex.nextId) (hk : k ≤ 2 ^ 64) (hnk : n ≤ k)
    (hcreate : ∀ f, op = .create f → n < k)
    (hspare : ∀ f waker u, op = .poll f waker → s.futs f = some u → u.registered = none →
      ¬ u.Unpolled → n < k) : t.futs.Within k t.mutex.nextId := by
  have hnext := h.mono hnk
  cases hs with
  | refused hl => exact hnext
  | tryLock hl => exact hnext
  | dropGuard hg => exact Futs.Within.settle (m := { s.mutex with locked := false }) hnext
  | @create f hf => exact (h.create f ()).mono (hcreate f rfl)
  | @pollReady f u waker hf hl => exact hnext.completed f u waker
  | @pollPending f u waker hf hl =>
    exact h.register hf hk hnk (hspare f waker u rfl hf) s.mutex.waiters () waker
  | @dropFuture f u hf =>
    unfold MutexState.dropFuture
    split
    · exact Futs.Within.settle (m := s.mutex.deregister u.registered) (hnext.dropped f)
    · exact hnext.dropped f

theorem MutexStep.within_succ {n : Nat} {s t : MutexState W} {op : MutexOp W} (hn : n < 2 ^ 64)
    (h : s.futs.Within n s.mutex.nextId) (hs : MutexStep s op t) :
    t.futs.Within (n + 1) t.mutex.nextId :=
  hs.within h hn (Nat.le_succ n) (fun _ _ => Nat.lt_succ_self n) fun _ _ _ _ _ _ _ => Nat.lt_succ_self n

theorem mutexMachine_within {ops : List (MutexOp W)} {s : MutexState W}
    (h : (mutexMachine W).run .init ops = some s) (hlen : ops.length ≤ 2 ^ 64) :
    s.futs.Within ops.length s.mutex.nextId := by
  have := Machine.run_counts (I := fun n s => s.futs.Within n s.mutex.nextId) (n := 0)
    (fun n _ _ _ hn hI hs => (mutexMachine_step hs).within_succ hn hI) .init (by omega) h
  rwa [Nat.zero_add] at this

omit [Waker W] in
theorem Futs.Within.not_reusesToken {n : Nat} {s : MutexState W}
    (h : s.futs.Within n s.mutex.nextId) (hn : n < 2 ^ 64) (op : MutexOp W) : ¬ s.ReusesToken op := by
  obtain ⟨m, hm, hissued⟩ := h.exists_issued
  cases op with
  | poll f waker => exact fun hreuse => hissued.fresh (by omega) hreuse.2.2
  | _ => exact id

/-- In a run of fewer than 2^64 calls nobody is stranded. -/
theorem mutexMachine_queued_of_length {ops : List (MutexOp W)} {s : MutexState W}
    (h : (mutexMachine W).run .init ops = some s) (hlen : ops.length ≤ 2 ^ 64) :
    MutexQueued s := by
  have hI := Machine.run_counts (M := mutexMachine W) (n := 0)
    (I := fun n s => (MutexSound s ∧ s.Turn) ∧ MutexQueued s ∧ s.futs.Within n s.mutex.nextId)
    (fun n _ op _ hn hI hs => ⟨hI.1.1.step hI.1.2 (mutexMachine_step hs),
      hI.2.1.step hI.1.1 (hI.2.2.not_reusesToken hn op) (mutexMachine_step hs),
      (mutexMachine_step hs).within_succ hn hI.2.2⟩)
    ⟨⟨.init, fun _ hne => absurd rfl hne⟩, .init, .init⟩ (by omega) h
  exact hI.2.1

/-- In a run of fewer than 2^64 calls every poll may register. -/
theorem mutexMachine_admits {ops : List (MutexOp W)} {s : MutexState W}
    (h : (mutexMachine W).run .init ops = some s) (hlen : ops.length < 2 ^ 64) {f : Nat}
    {u : Fut Unit Unit W} (hf : s.futs f = some u) :
    ∃ issued, s.mutex.waiters.Admits issued s.mutex.nextId u.registered := by
  obtain ⟨m, hm, hissued⟩ := (mutexMachine_within h (by omega)).exists_issued
  have hsound := (mutexMachine_sound h).1
  exact ⟨m, hissued.admits (by omega) hsound.owns hsound.nodup hf⟩

end Mutex

section RwLock

variable {W : Type v}

/-- After `n` calls. -/
structure RwIssued (n : Nat) (s : RwState W) : Prop where
  within : s.futs.Within n s.lock.nextId
  nodup : ∀ kind, (s.lock.waiting kind).ids.Nodup

/-- The queues only lose entries. -/
theorem RwIssued.shrinks {n k : Nat} {s t : RwState W} (h : RwIssued n s)
    (hwithin : t.futs.Within k s.lock.nextId) (hid : t.lock.nextId = s.lock.nextId)
    (hq : ∀ kind, (t.lock.waiting kind).Sublist (s.lock.waiting kind)) : RwIssued k t :=
  ⟨hid ▸ hwithin, fun kind => (h.nodup kind).sublist ((hq kind).map Entry.id)⟩

namespace LocalRwLock

/-- `wake_next` only pops, and only of a free lock. -/
theorem wakeNext_pops (l : LocalRwLock W) : l.wakeNext.1.nextId = l.nextId ∧
    ∀ kind, (l.wakeNext.1.waiting kind).Sublist (l.waiting kind) := by
  unfold LocalRwLock.wakeNext
  split
  · exact ⟨rfl, fun kind => List.Sublist.refl _⟩
  · split
    · rename_i e rest hq
      refine ⟨rfl, fun kind => ?_⟩
      cases kind with
      | read => exact List.Sublist.refl _
      | write => rw [waiting, waiting, hq]; exact List.sublist_cons_self e rest
    · rename_i hq
      refine ⟨rfl, fun kind => ?_⟩
      cases kind with
      | read => exact List.nil_sublist _
      | write => exact List.Sublist.refl _

theorem deregisterIn_takes (l : LocalRwLock W) (slot : Option (Entry Unit W)) (kind : Access) :
    (l.deregisterIn slot kind).nextId = l.nextId ∧
      ∀ kind', ((l.deregisterIn slot kind).waiting kind').Sublist (l.waiting kind') := by
  rw [deregisterIn_eq]
  refine ⟨setWaiting_nextId .., fun kind' => ?_⟩
  rw [waiting_setWaiting]
  split
  · rename_i hk
    exact hk ▸ Waiters.deregister_sublist _ _
  · exact List.Sublist.refl _

variable [Waker W]

theorem registerIn_nextId (l : LocalRwLock W) (slot : Option (Entry Unit W)) (waker : W)
    (kind : Access) :
    (l.registerIn slot waker kind).1.nextId = Waiters.counterAfter l.nextId slot := by
  rw [registerIn_eq, setWaiting_nextId]

theorem registerIn_nodup {l : LocalRwLock W} (h : ∀ kind, (l.waiting kind).ids.Nodup)
    (slot : Option (Entry Unit W)) (waker : W) (kind kind' : Access) :
    ((l.registerIn slot waker kind).1.waiting kind').ids.Nodup := by
  rw [registerIn_eq, waiting_setWaiting]
  split
  · exact Waiters.nodup_register (h kind) l.nextId slot () waker
  · exact h kind'

end LocalRwLock

variable [Waker W]

theorem RwIssued.settle {n k : Nat} {s t : RwState W} {l : LocalRwLock W} (h : RwIssued n s)
    (hwithin : t.futs.Within k s.lock.nextId) (hid : l.nextId = s.lock.nextId)
    (hq : ∀ kind, (l.waiting kind).Sublist (s.lock.waiting kind)) :
    RwIssued k (t.settle l.wakeNext) :=
  h.shrinks (hwithin.wake l.wakeNext.2) (l.wakeNext_pops.1.trans hid)
    fun kind => (l.wakeNext_pops.2 kind).trans (hq kind)

theorem Futs.Within.registerIn {n k : Nat} {futs : Futs Access Unit W} {l : LocalRwLock W} {f : Nat}
    {u : Fut Access Unit W} (h : futs.Within n l.nextId) (hf : futs f = some u) (hk : k ≤ 2 ^ 64)
    (hnk : n ≤ k) (hspare : u.registered = none → ¬ u.Unpolled → n < k) (waker : W) :
    (futs.set f (some (u.afterPoll (l.registerIn u.registered waker u.kind).2 false waker))).Within k
      (l.registerIn u.registered waker u.kind).1.nextId := by
  have hregister := h.register hf hk hnk hspare (l.waiting u.kind) () waker
  rw [Waiters.register_counter, ← l.registerIn_nextId u.registered waker u.kind] at hregister
  rwa [l.registerIn_eq] at hregister ⊢

theorem RwStep.issued {n k : Nat} {s t : RwState W} {op : RwOp W} (hs : RwStep s op t)
    (h : RwIssued n s) (hk : k ≤ 2 ^ 64) (hnk : n ≤ k)
    (hcreate : ∀ f kind, op = .create f kind → n < k)
    (hspare : ∀ f waker u, op = .poll f waker → s.futs f = some u → u.registered = none →
      ¬ u.Unpolled → n < k) : RwIssued k t := by
  have hnext := h.within.mono hnk
  have hsame : ∀ kind, (s.lock.waiting kind).Sublist (s.lock.waiting kind) :=
    fun kind => List.Sublist.refl _
  cases hs with
  | stay => exact h.shrinks hnext rfl hsame
  | tryRead hw => exact h.shrinks hnext rfl hsame
  | tryWrite hf => exact h.shrinks hnext rfl hsame
  | dropReadGuard hg => exact h.settle hnext rfl hsame
  | dropWriteGuard hg => exact h.settle hnext rfl hsame
  | @create f kind hf =>
    exact h.shrinks ((h.within.create f kind).mono (hcreate f kind rfl)) rfl hsame
  | @pollPending f u waker hf hb =>
    exact ⟨h.within.registerIn hf hk hnk (hspare f waker u rfl hf) waker,
      s.lock.registerIn_nodup h.nodup u.registered waker u.kind⟩
  | @pollRead f u waker hf hk hw hq =>
    have htakes := s.lock.deregisterIn_takes u.registered .read
    exact h.shrinks (hnext.completed f u waker) htakes.1 htakes.2
  | @pollWrite f u waker hf hk hfree =>
    have htakes := s.lock.deregisterIn_takes u.registered .write
    exact h.shrinks (hnext.completed f u waker) htakes.1 htakes.2
  | @dropFuture f u hf =>
    have htakes := s.lock.deregisterIn_takes u.registered u.kind
    unfold RwState.dropFuture
    split
    · exact h.settle (hnext.dropped f) htakes.1 htakes.2
    · exact h.shrinks (hnext.dropped f) rfl hsame

theorem RwStep.issued_succ {n : Nat} {s t : RwState W} {op : RwOp W} (hn : n < 2 ^ 64)
    (h : RwIssued n s) (hs : RwStep s op t) : RwIssued (n + 1) t :=
  hs.issued h hn (Nat.le_succ n) (fun _ _ _ => Nat.lt_succ_self n)
    fun _ _ _ _ _ _ _ => Nat.lt_succ_self n

omit [Waker W] in
theorem RwIssued.init : RwIssued 0 (RwState.init : RwState W) :=
  ⟨.init, fun kind => by cases kind <;> exact List.nodup_nil⟩

/-- In a run of fewer than 2^64 calls every poll may register. -/
theorem rwMachine_admits {width : Nat} {ops : List (RwOp W)} {s : RwState W}
    (h : (rwMachine W width).run .init ops = some s) (hlen : ops.length < 2 ^ 64) {f : Nat}
    {u : Fut Access Unit W} (hf : s.futs f = some u) :
    ∃ issued, (s.lock.waiting u.kind).Admits issued s.lock.nextId u.registered := by
  have hI := Machine.run_counts (I := fun n s => RwIssued n s) (n := 0)
    (fun n _ _ _ hn hI hs => (rwMachine_step hs).issued_succ hn hI) .init (le_of_lt (by omega)) h
  obtain ⟨m, hm, htokens⟩ := hI.within.exists_issued
  obtain ⟨hsound, -⟩ := rwMachine_sound h
  have hnodup := hI.nodup u.kind
  refine ⟨m, ?_⟩
  cases hk : u.kind with
  | read =>
    rw [hk] at hnodup
    exact htokens.admits (by omega) hsound.ownsRead hnodup hf
  | write =>
    rw [hk] at hnodup
    exact htokens.admits (by omega) hsound.ownsWrite hnodup hf

end RwLock

section Semaphore

variable {W : Type v}

/-- After `n` calls. -/
structure SemIssued (n : Nat) (s : SemState W) : Prop where
  within : s.futs.Within n s.sem.nextId
  nodup : s.sem.waiters.ids.Nodup

variable [Waker W]

theorem SemStep.issued {n k : Nat} {s t : SemState W} {op : SemOp W} (hs : SemStep s op t)
    (h : SemIssued n s) (hk : k ≤ 2 ^ 64) (hnk : n ≤ k)
    (hcreate : ∀ f m, op = .create f m → n < k)
    (hspare : ∀ f waker u, op = .poll f waker → s.futs f = some u → u.registered = none →
      ¬ u.Unpolled → n < k) : SemIssued k t := by
  have hnext := h.within.mono hnk
  cases hs with
  | keep hsem hfuts =>
    rw [← hsem, ← hfuts] at hnext
    exact ⟨hnext, hsem ▸ h.nodup⟩
  | tryAcquire hsem hfuts =>
    rw [← hfuts] at hnext
    exact ⟨by rwa [hsem], by rw [hsem]; exact h.nodup⟩
  | bump hsem hfuts =>
    have hwake := hnext.wake t.sem.wakeNext
    rw [← hfuts] at hwake
    exact ⟨by rwa [hsem], by rw [hsem]; exact h.nodup⟩
  | @create f m hf => exact ⟨(h.within.create f m).mono (hcreate f m rfl), h.nodup⟩
  | @pollAcquired f u waker t hf hsem hfuts =>
    rcases hsem with hsem | hsem
    · have hdone := (hnext.completed f u waker).wake t.sem.wakeNext
      rw [← hfuts] at hdone
      exact ⟨by rwa [hsem], by rw [hsem]; exact Waiters.nodup_deregister h.nodup _⟩
    · -- The token that the poll was given is not kept.
      have hregister := h.within.register hf hk hnk (hspare f waker u rfl hf) s.sem.waiters u.kind waker
      have hdone := (hregister.completed f u waker).wake t.sem.wakeNext
      simp only [Futs.set, Function.update_idem] at hdone
      rw [← Futs.set, ← hfuts] at hdone
      refine ⟨by rwa [hsem], ?_⟩
      rw [hsem]
      exact Waiters.nodup_deregister (Waiters.nodup_register h.nodup _ _ _ _) _
  | @pollPending f u waker t hf h1 h2 hsem hfuts =>
    have hregister := h.within.register hf hk hnk (hspare f waker u rfl hf) s.sem.waiters u.kind waker
    refine ⟨by rwa [hsem, hfuts], ?_⟩
    rw [hsem]
    exact Waiters.nodup_register h.nodup _ _ _ _
  | @dropFuture f u hf =>
    unfold SemState.dropFuture
    split
    · exact ⟨(hnext.dropped f).wake _, Waiters.nodup_deregister h.nodup _⟩
    · exact ⟨hnext.dropped f, h.nodup⟩

theorem SemStep.issued_succ {n : Nat} {s t : SemState W} {op : SemOp W} (hn : n < 2 ^ 64)
    (h : SemIssued n s) (hs : SemStep s op t) : SemIssued (n + 1) t :=
  hs.issued h hn (Nat.le_succ n) (fun _ _ _ => Nat.lt_succ_self n)
    fun _ _ _ _ _ _ _ => Nat.lt_succ_self n

omit [Waker W] in
theorem SemIssued.init (permits : Nat) : SemIssued 0 (SemState.init permits : SemState W) :=
  ⟨.init, List.nodup_nil⟩

/-- In a run of fewer than 2^64 calls every poll may register. -/
theorem semMachine_admits {width permits : Nat} {ops : List (SemOp W)} {s : SemState W}
    (h : (semMachine W width permits).run (.init permits) ops = some s)
    (hlen : ops.length < 2 ^ 64) {f : Nat} {u : Fut Nat Nat W} (hf : s.futs f = some u) :
    ∃ issued, s.sem.waiters.Admits issued s.sem.nextId u.registered := by
  have hI := Machine.run_counts (I := fun n s => SemSound s ∧ SemIssued n s) (n := 0)
    (fun n _ _ _ hn hI hs =>
      ⟨hI.1.next (semMachine_step hs), (semMachine_step hs).issued_succ hn hI.2⟩)
    ⟨.init permits, .init permits⟩ (le_of_lt (by omega)) h
  obtain ⟨m, hm, htokens⟩ := hI.2.within.exists_issued
  exact ⟨m, htokens.admits (by omega) hI.1.owns hI.2.nodup hf⟩

end Semaphore

end Cynosure.SiteC
