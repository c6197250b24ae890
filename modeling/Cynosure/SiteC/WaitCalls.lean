import Mathlib.Tactic
import Cynosure.Lib.Reentrant
import Cynosure.SiteC.WaitIssued

/-! # Polls of the locks with callbacks

A poll of a lock future clones and drops wakers, which is user code that may call the lock
again. While the clone runs the future has its token, but the entry that it is to queue is
not there yet.
-/

universe u v w

namespace Cynosure.SiteC

/-- The poll of a lock future in a callback. -/
inductive LockPoll where
  /-- The guard is taken and the entry has left the queue; the slot's waker is dropped. -/
  | took
  /-- `register` clones the waker, for an entry under the token `id`. -/
  | cloning (id : UInt64)
  /-- `register` drops the waker that the slot held before. -/
  | registered
  deriving DecidableEq, Repr

namespace LockPoll

/-- The guards that a suspended poll holds. -/
def guards : LockPoll → Nat
  | .took => 1
  | .cloning _ => 0
  | .registered => 0

/-- The token of an entry that is still to be queued. -/
def reserves (f : Nat) : LockPoll → Option (Nat × UInt64)
  | .took => none
  | .cloning id => some (f, id)
  | .registered => none

/-- The poll is still to check the lock. -/
def Checks : LockPoll → Prop
  | .took => False
  | .cloning _ => True
  | .registered => True

theorem of_reserves {at_ : LockPoll} {f g : Nat} {id : UInt64} (h : at_.reserves f = some (g, id)) :
    f = g := by
  cases at_ with
  | took => cases h
  | cloning id =>
    cases h
    rfl
  | registered => cases h

end LockPoll

namespace Waiters

variable {ρ : Type u} {W : Type v}

/-- `take_where` and `push_back`, behind the clone of the waker. -/
def requeue (q : Waiters ρ W) (e : Entry ρ W) : Waiters ρ W := q.without e.id ++ [e]

theorem mem_requeue {q : Waiters ρ W} {e x : Entry ρ W} :
    x ∈ q.requeue e ↔ x ∈ q ∧ x.id ≠ e.id ∨ x = e := by
  rw [requeue, List.mem_append, mem_without, List.mem_singleton]

theorem register_of_stale [Waker W] {q : Waiters ρ W} {slot : Option (Entry ρ W)} {waker : W}
    (h : q.stale slot waker = true) (nextId : UInt64) (req : ρ) :
    q.register nextId slot req waker =
      (q.requeue ⟨registerId nextId slot, req, waker⟩, counterAfter nextId slot,
        some ⟨registerId nextId slot, req, waker⟩) := by
  rw [register, if_pos h]
  cases slot <;> rfl

theorem register_of_queued [Waker W] {q : Waiters ρ W} {slot : Option (Entry ρ W)} {waker : W}
    (h : q.stale slot waker = false) (nextId : UInt64) (req : ρ) :
    q.register nextId slot req waker = (q, nextId, slot) := by
  rw [register, if_neg (by simp [h])]

/-- A slot that is left alone is filled, and something is queued under its token. -/
theorem of_not_stale [Waker W] {q : Waiters ρ W} {slot : Option (Entry ρ W)} {waker : W}
    (h : q.stale slot waker = false) :
    ∃ e x, slot = some e ∧ Waker.task e.waker = Waker.task waker ∧ x ∈ q ∧ x.id = e.id := by
  cases slot with
  | none => cases h
  | some e =>
    simp only [stale] at h
    split at h
    · rename_i hw
      have hany : q.any (fun x => x.id == e.id) = true := by simpa using h
      obtain ⟨x, hx, hid⟩ := List.any_eq_true.mp hany
      exact ⟨e, x, rfl, Waker.task_eq_of_willWake hw, hx, beq_iff_eq.mp hid⟩
    · cases h

end Waiters

namespace Futs

variable {κ : Type w} {ρ : Type u} {W : Type v} {futs futs' : Futs κ ρ W}
  {reserved reserved' : List (Nat × UInt64)} {f g : Nat} {id : UInt64}

/-- The future of a poll, changed as the poll changes it. -/
def update (futs : Futs κ ρ W) (f : Nat) (change : Fut κ ρ W → Fut κ ρ W) : Futs κ ρ W :=
  futs.set f ((futs f).map change)

theorem update_of {u : Fut κ ρ W} (hf : futs f = some u) (change : Fut κ ρ W → Fut κ ρ W) :
    futs.update f change = futs.set f (some (change u)) := by
  rw [update, hf, Option.map_some]

/-- The slot of the polled future stays as it is. -/
theorem Owns.set_same_slot {P : κ → Prop} {q : Waiters ρ W} (h : futs.Owns P q) {u v : Fut κ ρ W}
    (hf : futs f = some u) (hP : P v.kind) (hv : v.registered = u.registered) :
    (futs.set f (some v)).Owns P q := by
  intro x hx
  obtain ⟨g, w, hg, hw, hr⟩ := h x hx
  by_cases hgf : g = f
  · subst hgf
    cases hf.symm.trans hg
    exact ⟨g, v, set_same .., hP, hv.trans hr⟩
  · exact ⟨g, w, (set_ne _ hgf _).trans hg, hw, hr⟩

/-- The entries under the polled future's token make room for its new one. -/
theorem Owns.requeue {P : κ → Prop} {q : Waiters ρ W} (h : futs.Owns P q) {u v : Fut κ ρ W}
    {e : Entry ρ W} (hf : futs f = some u) (hid : ∀ x, u.registered = some x → x.id = e.id)
    (hP : P v.kind) (hv : v.registered = some e) : (futs.set f (some v)).Owns P (q.requeue e) := by
  intro x hx
  rcases Waiters.mem_requeue.mp hx with ⟨hx, hne⟩ | rfl
  · obtain ⟨g, w, hg, hw, hr⟩ := h x hx
    have hgf : g ≠ f := by
      rintro rfl
      cases hf.symm.trans hg
      exact hne (hid x hr)
    exact ⟨g, w, (set_ne _ hgf _).trans hg, hw, hr⟩
  · exact ⟨f, v, set_same .., hP, hv⟩

/-- `f` is registered under `id`, or its poll is about to queue an entry under it. -/
def Names (futs : Futs κ ρ W) (reserved : List (Nat × UInt64)) (f : Nat) (id : UInt64) : Prop :=
  (∃ e, futs.slot f = some e ∧ e.id = id) ∨ (f, id) ∈ reserved

/-- Behind `issued` tokens, each of which names one future at most. -/
structure Reserves (futs : Futs κ ρ W) (reserved : List (Nat × UInt64)) (issued : Nat)
    (nextId : UInt64) : Prop where
  counter : nextId = UInt64.ofNat issued
  token : ∀ f id, futs.Names reserved f id → ∃ k, k < issued ∧ id = UInt64.ofNat k
  distinct : ∀ f g id, futs.Names reserved f id → futs.Names reserved g id → f = g

variable {issued : Nat} {nextId : UInt64}

theorem reserves_init : Reserves (fun _ => none : Futs κ ρ W) [] 0 0 where
  counter := rfl
  token := by
    rintro f id (⟨e, he, -⟩ | hr)
    · cases he
    · cases hr
  distinct := by
    rintro f g id (⟨e, he, -⟩ | hr)
    · cases he
    · cases hr

theorem Reserves.of_names (h : futs.Reserves reserved issued nextId)
    (hn : ∀ f id, futs'.Names reserved' f id → futs.Names reserved f id) :
    futs'.Reserves reserved' issued nextId where
  counter := h.counter
  token f id hf := h.token f id (hn f id hf)
  distinct f g id hf hg := h.distinct f g id (hn f id hf) (hn g id hg)

/-- No new slot and no new reservation. -/
theorem Reserves.of_slots (h : futs.Reserves reserved issued nextId)
    (hs : ∀ f e, futs'.slot f = some e → futs.slot f = some e)
    (hr : ∀ r ∈ reserved', r ∈ reserved) : futs'.Reserves reserved' issued nextId := by
  refine h.of_names ?_
  rintro f id (⟨e, he, hid⟩ | hmem)
  · exact .inl ⟨e, hs f e he, hid⟩
  · exact .inr (hr _ hmem)

/-- A poll without a slot draws the next token. -/
theorem Reserves.draw (h : futs.Reserves reserved issued nextId) (hn : issued < 2 ^ 64) (f : Nat) :
    futs.Reserves ((f, nextId) :: reserved) (issued + 1) (nextId + 1) := by
  have hold : ∀ g id, futs.Names ((f, nextId) :: reserved) g id →
      g = f ∧ id = nextId ∨ futs.Names reserved g id := by
    rintro g id (hs | hr)
    · exact .inr (.inl hs)
    · rcases List.mem_cons.mp hr with heq | hr
      · cases heq
        exact .inl ⟨rfl, rfl⟩
      · exact .inr (.inr hr)
  have hfresh : ∀ g, ¬ futs.Names reserved g nextId := by
    intro g hg
    obtain ⟨k, hk, heq⟩ := h.token g nextId hg
    exact Waiters.ofNat_ne hk hn (heq.symm.trans h.counter)
  refine ⟨?_, fun g id hg => ?_, fun g g' id hg hg' => ?_⟩
  · rw [h.counter, UInt64.ofNat_add]
    rfl
  · rcases hold g id hg with ⟨-, rfl⟩ | hgo
    · exact ⟨issued, Nat.lt_succ_self _, h.counter⟩
    · obtain ⟨k, hk, heq⟩ := h.token g id hgo
      exact ⟨k, Nat.lt_succ_of_lt hk, heq⟩
  · rcases hold g id hg with ⟨hgf, hid⟩ | hgo <;> rcases hold g' id hg' with ⟨hgf', hid'⟩ | hgo'
    · rw [hgf, hgf']
    · exact absurd (hid ▸ hgo') (hfresh g')
    · exact absurd (hid' ▸ hgo) (hfresh g)
    · exact h.distinct g g' id hgo hgo'

/-- A poll with a slot keeps its token. -/
theorem Reserves.keep (h : futs.Reserves reserved issued nextId) {e : Entry ρ W}
    (he : futs.slot f = some e) : futs.Reserves ((f, e.id) :: reserved) issued nextId := by
  refine h.of_names ?_
  rintro g id (hs | hr)
  · exact .inl hs
  · rcases List.mem_cons.mp hr with heq | hr
    · cases heq
      exact .inl ⟨e, he, rfl⟩
    · exact .inr hr

/-- The entry that was announced is queued, and the slot is filled with it. -/
theorem Reserves.fill {e : Entry ρ W} {v : Fut κ ρ W}
    (h : futs.Reserves ((f, e.id) :: reserved) issued nextId) (hv : v.registered = some e) :
    (futs.set f (some v)).Reserves reserved issued nextId := by
  refine h.of_names ?_
  rintro g id (⟨x, hx, hid⟩ | hr)
  · by_cases hgf : g = f
    · subst hgf
      rw [slot_set_same, Option.bind_some, hv] at hx
      cases hx
      cases hid
      exact .inr List.mem_cons_self
    · rw [slot_set_ne futs hgf] at hx
      exact .inl ⟨x, hx, hid⟩
  · exact .inr (List.mem_cons_of_mem _ hr)

theorem Reserves.ne (h : futs.Reserves reserved issued nextId) (hf : futs.Names reserved f id)
    {e : Entry ρ W} (hgf : g ≠ f) (hg : futs.slot g = some e) : e.id ≠ id := by
  rintro rfl
  exact hgf (h.distinct g f e.id (.inl ⟨e, hg, rfl⟩) hf)

/-- The slot of a future is rewritten as it was. -/
theorem Reserves.set_same_slot (h : futs.Reserves reserved issued nextId) {u v : Fut κ ρ W}
    (hf : futs f = some u) (hv : v.registered = u.registered) :
    (futs.set f (some v)).Reserves reserved issued nextId := by
  refine h.of_slots (fun g e he => ?_) fun _ hr => hr
  by_cases hgf : g = f
  · subst hgf
    rw [slot_set_same, Option.bind_some, hv] at he
    exact (slot_of hf).trans he
  · rwa [slot_set_ne _ hgf] at he

theorem Reserves.slots (h : futs.Reserves reserved issued nextId) : futs.Distinct := by
  refine ⟨fun {f g u v x y} hf hg hx hy hid => ?_⟩
  exact h.distinct f g x.id (.inl ⟨x, (slot_of hf).trans hx, rfl⟩)
    (.inl ⟨y, (slot_of hg).trans hy, hid.symm⟩)

/-- The polls in progress borrow live futures of their kinds, each its own, and an entry that is
still to be queued takes the token of the slot. -/
structure Borrowed (futs : Futs κ ρ W) (polling : List Nat) (polled : List (Nat × κ))
    (reserved : List (Nat × UInt64)) : Prop where
  eq : polling = polled.map Prod.fst
  nodup : polling.Nodup
  live : ∀ f k, (f, k) ∈ polled → ∃ u, futs f = some u ∧ u.kind = k
  ids : ∀ f id, (f, id) ∈ reserved → ∀ e, futs.slot f = some e → e.id = id

section Borrowed

variable {polling : List Nat} {polled : List (Nat × κ)} {k : κ}

theorem borrowed_init : Borrowed (fun _ => none : Futs κ ρ W) [] [] [] :=
  ⟨rfl, List.nodup_nil, fun _ _ h => (by cases h), fun _ _ h => by cases h⟩

theorem Borrowed.mem (h : futs.Borrowed polling polled reserved) (hf : (f, k) ∈ polled) :
    f ∈ polling := by
  rw [h.eq]
  exact List.mem_map.mpr ⟨_, hf, rfl⟩

theorem Borrowed.idle_of_none (h : futs.Borrowed polling polled reserved) (hf : futs f = none) :
    f ∉ polling := by
  intro hmem
  rw [h.eq] at hmem
  obtain ⟨⟨g, k⟩, hg, rfl⟩ := List.mem_map.mp hmem
  obtain ⟨u, hu, -⟩ := h.live g k hg
  cases hf.symm.trans hu

theorem Borrowed.start (h : futs.Borrowed polling polled reserved) (hf : f ∉ polling)
    {u : Fut κ ρ W} (hu : futs f = some u) :
    futs.Borrowed (f :: polling) ((f, u.kind) :: polled) reserved where
  eq := congrArg (f :: ·) h.eq
  nodup := List.nodup_cons.mpr ⟨hf, h.nodup⟩
  live g k hg := by
    rcases List.mem_cons.mp hg with heq | hg
    · cases heq
      exact ⟨u, hu, rfl⟩
    · exact h.live g k hg
  ids := h.ids

/-- No other poll borrows the future of the innermost one. -/
theorem Borrowed.top_ne (h : futs.Borrowed polling ((f, k) :: polled) reserved) {k' : κ}
    (hg : (g, k') ∈ polled) : g ≠ f := by
  rintro rfl
  have hnodup := h.nodup
  rw [h.eq, List.map_cons, List.nodup_cons] at hnodup
  exact hnodup.1 (List.mem_map.mpr ⟨_, hg, rfl⟩)

/-- A future that no poll borrows. -/
theorem Borrowed.set_idle (h : futs.Borrowed polling polled reserved) (hf : f ∉ polling)
    (hr : ∀ g id, (g, id) ∈ reserved → ∃ k, (g, k) ∈ polled) (v : Option (Fut κ ρ W)) :
    (futs.set f v).Borrowed polling polled reserved := by
  have hne : ∀ g k, (g, k) ∈ polled → g ≠ f := fun g k hg hgf => hf (hgf ▸ h.mem hg)
  refine ⟨h.eq, h.nodup, fun g k hg => ?_, fun g id hg e he => ?_⟩
  · rw [set_ne _ (hne g k hg)]
    exact h.live g k hg
  · obtain ⟨k, hk⟩ := hr g id hg
    rw [slot_set_ne _ (hne g k hk)] at he
    exact h.ids g id hg e he

/-- The future of the innermost poll. -/
theorem Borrowed.set_top {more : List (Nat × UInt64)}
    (h : futs.Borrowed polling ((f, k) :: polled) (more ++ reserved))
    (hr : ∀ g id, (g, id) ∈ reserved → ∃ k, (g, k) ∈ polled) {u : Fut κ ρ W} (hk : u.kind = k) :
    (futs.set f (some u)).Borrowed polling ((f, k) :: polled) reserved := by
  refine ⟨h.eq, h.nodup, fun g k' hg => ?_, fun g id hg e he => ?_⟩
  · rcases List.mem_cons.mp hg with heq | hg
    · cases heq
      exact ⟨u, set_same .., hk⟩
    · rw [set_ne _ (h.top_ne hg)]
      exact h.live g k' (List.mem_cons_of_mem _ hg)
  · obtain ⟨k', hk'⟩ := hr g id hg
    rw [slot_set_ne _ (h.top_ne hk')] at he
    exact h.ids g id (List.mem_append_right _ hg) e he

theorem Borrowed.reserve (h : futs.Borrowed polling polled reserved)
    (hid : ∀ e, futs.slot f = some e → e.id = id) :
    futs.Borrowed polling polled ((f, id) :: reserved) where
  eq := h.eq
  nodup := h.nodup
  live := h.live
  ids g id' hg e he := by
    rcases List.mem_cons.mp hg with heq | hg
    · cases heq
      exact hid e he
    · exact h.ids g id' hg e he

/-- The innermost poll ends. -/
theorem Borrowed.finish (h : futs.Borrowed polling ((f, k) :: polled) reserved) :
    futs.Borrowed (polling.erase f) polled reserved where
  eq := by rw [h.eq, List.map_cons, List.erase_cons_head]
  nodup := h.nodup.erase f
  live g k' hg := h.live g k' (List.mem_cons_of_mem _ hg)
  ids := h.ids

theorem Borrowed.wake [Waker W] (h : futs.Borrowed polling polled reserved) (ws : List W) :
    (futs.wake ws).Borrowed polling polled reserved where
  eq := h.eq
  nodup := h.nodup
  live f k hf := by
    obtain ⟨u, hu, hk⟩ := h.live f k hf
    exact ⟨_, wake_eq_some.mpr ⟨u, hu, rfl⟩, hk⟩
  ids f id hr e he := h.ids f id hr e ((slot_wake futs ws f).symm.trans he)

end Borrowed

/-- Every registered future of an admitted kind is queued or has been woken, but for those of
`reserved`. -/
def Queued (futs : Futs κ ρ W) (P : κ → Prop) (reserved : List (Nat × UInt64)) (q : Waiters ρ W) :
    Prop :=
  ∀ f u e, futs f = some u → P u.kind → u.registered = some e →
    (∃ id, (f, id) ∈ reserved) ∨ e ∈ q ∨ u.woken = true

section Queued

variable {P : κ → Prop} {q : Waiters ρ W} {u v : Fut κ ρ W}

theorem Queued.reserve (h : futs.Queued P reserved q) (r : Nat × UInt64) :
    futs.Queued P (r :: reserved) q := by
  intro f u e hf hP he
  exact (h f u e hf hP he).imp_left fun ⟨id, hid⟩ => ⟨id, List.mem_cons_of_mem _ hid⟩

/-- A future is replaced by one that needs no entry in this queue. -/
theorem Queued.set_other (more : List (Nat × UInt64)) (h : futs.Queued P (more ++ reserved) q)
    {v : Option (Fut κ ρ W)} (hm : ∀ r ∈ more, r.1 = f)
    (hv : ∀ u e, v = some u → P u.kind → u.registered ≠ some e) :
    (futs.set f v).Queued P reserved q := by
  intro g w e hg hP he
  rcases set_eq_some hg with ⟨-, hw⟩ | ⟨hgf, hg⟩
  · exact absurd he (hv w e hw hP)
  · refine (h g w e hg hP he).imp_left ?_
    rintro ⟨id, hid⟩
    rcases List.mem_append.mp hid with hid | hid
    · exact absurd (hm _ hid) hgf
    · exact ⟨id, hid⟩

theorem Queued.deregister (h : futs.Queued P reserved q) (hd : futs.Distinct) (hf : futs f = some u)
    {v : Option (Fut κ ρ W)} (hv : v.bind Fut.registered = none) :
    (futs.set f v).Queued P reserved (q.deregister u.registered) := by
  intro g w e hg hP he
  rcases set_eq_some hg with ⟨-, rfl⟩ | ⟨hgf, hg⟩
  · cases hv.symm.trans he
  · exact (h g w e hg hP he).imp_right (Or.imp_left (hd.mem_deregister hf hg hgf he))

/-- The entry of the polled future is queued, and no other one is removed. -/
theorem Queued.requeue {e : Entry ρ W} (h : futs.Queued P ((f, e.id) :: reserved) q)
    (hr : futs.Reserves ((f, e.id) :: reserved) issued nextId) (hv : v.registered = some e) :
    (futs.set f (some v)).Queued P reserved (q.requeue e) := by
  intro g w x hg hP hx
  rcases set_eq_some hg with ⟨-, hg⟩ | ⟨hgf, hg⟩
  · cases hg
    cases hv.symm.trans hx
    exact .inr (.inl (Waiters.mem_requeue.mpr (.inr rfl)))
  · rcases h g w x hg hP hx with ⟨id, hid⟩ | hq | hw
    · rcases List.mem_cons.mp hid with heq | hid
      · cases heq
        exact absurd rfl hgf
      · exact .inl ⟨id, hid⟩
    · have hne := hr.ne (f := f) (.inr List.mem_cons_self) hgf ((slot_of hg).trans hx)
      exact .inr (.inl (Waiters.mem_requeue.mpr (.inl ⟨hq, hne⟩)))
    · exact .inr (.inr hw)

/-- The slot of the polled future is left alone because its entry is queued. -/
theorem Queued.keep (h : futs.Queued P reserved q) (hd : futs.Distinct) (ho : futs.Owns P q)
    (hf : futs f = some u) {e x : Entry ρ W} (he : u.registered = some e) (hx : x ∈ q)
    (hid : x.id = e.id) (hv : v.registered = u.registered) :
    (futs.set f (some v)).Queued P reserved q := by
  intro g w y hg hP hy
  rcases set_eq_some hg with ⟨-, hg⟩ | ⟨-, hg⟩
  · cases hg
    rw [hv, he] at hy
    cases hy
    obtain ⟨g', w', hg', -, hw'⟩ := ho x hx
    obtain rfl : g' = f := hd.eq hg' hf hw' he hid
    cases hf.symm.trans hg'
    cases he.symm.trans hw'
    exact .inr (.inl hx)
  · exact h g w y hg hP hy

/-- The entries that are popped belong to futures that are woken. -/
theorem Queued.wake [Waker W] (h : futs.Queued P reserved q) (hc : futs.Consistent) {ws : List W}
    {q' : Waiters ρ W} (hq : ∀ e ∈ q, e ∈ q' ∨ e.waker ∈ ws) :
    (futs.wake ws).Queued P reserved q' := by
  intro f w e hf hP he
  obtain ⟨u, hu, rfl⟩ := wake_eq_some.mp hf
  rcases h f u e hu hP he with hr | hmem | hw
  · exact .inl hr
  · exact .inr ((hq e hmem).imp_right fun hws => (hc f u hu).woken_of_mem he hws)
  · exact .inr (.inr (Fut.wake_woken_of hw))

end Queued

end Futs

end Cynosure.SiteC
