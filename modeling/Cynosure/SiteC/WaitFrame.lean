import Cynosure.SiteC.WaitCells
import Cynosure.SiteC.WaitTokens

/-! # A registration touches only the caller's own entry

An entry is told from those of the other futures by its token. The tokens of a queue are
distinct as long as the counter has not come round, and then `register` and `deregister`
leave the other entries alone: each stays once, unchanged and in its place.
-/

universe u v

namespace Cynosure.SiteC

namespace Waiters

variable {ρ : Type u} {W : Type v}

/-- The entries that are queued under the slot's token. -/
def own (q : Waiters ρ W) (slot : Option (Entry ρ W)) : Waiters ρ W :=
  q.filter fun e => slot.map Entry.id == some e.id

/-- The entries of the other futures, in their order. -/
def others (q : Waiters ρ W) (slot : Option (Entry ρ W)) : Waiters ρ W :=
  q.filter fun e => slot.map Entry.id != some e.id

@[simp] theorem others_none (q : Waiters ρ W) : q.others none = q := by
  simp [others]

theorem own_some (q : Waiters ρ W) (x : Entry ρ W) :
    q.own (some x) = q.filter fun e => e.id == x.id := by
  refine List.filter_congr fun e _ => ?_
  rw [Option.map_some, Option.some_beq_some]
  exact Bool.beq_comm

theorem others_some (q : Waiters ρ W) (x : Entry ρ W) : q.others (some x) = q.without x.id := by
  refine List.filter_congr fun e _ => ?_
  rw [Option.map_some, bne, bne, Option.some_beq_some, Bool.beq_comm]

theorem deregister_eq_others (q : Waiters ρ W) (slot : Option (Entry ρ W)) :
    q.deregister slot = q.others slot := by
  cases slot with
  | none => simp
  | some x => exact (others_some q x).symm

theorem own_of_mem {q : Waiters ρ W} (h : q.ids.Nodup) {e x : Entry ρ W} (he : e ∈ q)
    (hid : e.id = x.id) : q.own (some x) = [e] := by
  rw [own_some, ← hid]
  induction q with
  | nil => cases he
  | cons a q ih =>
    rw [ids, List.map_cons, List.nodup_cons] at h
    rcases List.mem_cons.mp he with rfl | he
    · have hnone : q.filter (fun y => y.id == e.id) = [] := by
        rw [List.filter_eq_nil_iff]
        intro y hy hye
        exact h.1 (beq_iff_eq.mp hye ▸ List.mem_map_of_mem hy)
      simp [hnone]
    · have hae : a.id ≠ e.id := by
        intro hae
        exact h.1 (hae ▸ List.mem_map_of_mem he)
      simpa [hae] using ih h.2 he

theorem without_append_self (q : Waiters ρ W) (e : Entry ρ W) :
    Waiters.without (q.without e.id ++ [e]) e.id = q.without e.id := by
  simp [without, List.filter_append, List.filter_filter]

/-- What a registration may assume: `issued` tokens were handed out, so that the counter has
not come round, and an entry under the slot's token carries the slot's waker. -/
structure Admits (issued : Nat) (nextId : UInt64) (slot : Option (Entry ρ W)) (q : Waiters ρ W) :
    Prop where
  distinct : q.ids.Nodup
  issued_lt : issued < 2 ^ 64
  counter : nextId = UInt64.ofNat issued
  issued : ∀ e ∈ q, ∃ k, k < issued ∧ e.id = UInt64.ofNat k
  carried : ∀ e ∈ q, ∀ x, slot = some x → e.id = x.id → e.waker = x.waker

/-- The counter returns to no token before it has come round. -/
theorem ofNat_ne {k n : Nat} (hk : k < n) (hn : n < 2 ^ 64) : UInt64.ofNat k ≠ UInt64.ofNat n := by
  intro heq
  have := congrArg UInt64.toNat heq
  rw [UInt64.toNat_ofNat', UInt64.toNat_ofNat', Nat.mod_eq_of_lt (by omega),
    Nat.mod_eq_of_lt hn] at this
  omega

theorem Admits.fresh {issued : Nat} {nextId : UInt64} {slot : Option (Entry ρ W)}
    {q : Waiters ρ W} (h : q.Admits issued nextId slot) {e : Entry ρ W} (he : e ∈ q) :
    e.id ≠ nextId := by
  obtain ⟨k, hk, hid⟩ := h.issued e he
  rw [hid, h.counter]
  exact ofNat_ne hk h.issued_lt

/-- `deregister` emptied the slot and took its entry out of `q`. -/
structure Deregisters (slot : Option (Entry ρ W)) (q q' : Waiters ρ W) : Prop where
  others : q' = q.others slot
  distinct : q'.ids.Nodup

theorem Admits.deregister {issued : Nat} {nextId : UInt64} {slot : Option (Entry ρ W)}
    {q : Waiters ρ W} (h : q.Admits issued nextId slot) :
    Deregisters slot q (q.deregister slot) :=
  ⟨deregister_eq_others q slot, nodup_deregister h.distinct slot⟩

variable [Waker W]

/-- `register` left the token `id` in the slot, one entry for it in the queue, and the
entries of the others as they were. -/
structure Registers (id : UInt64) (waker : W) (q : Waiters ρ W) (slot : Option (Entry ρ W))
    (q' : Waiters ρ W) (slot' : Option (Entry ρ W)) : Prop where
  records : ∃ x, slot' = some x ∧ x.id = id
  own : ∃ e, q'.own slot' = [e] ∧ e.id = id ∧
    (e.waker = waker ∨ Waker.willWake e.waker waker = true)
  others : q'.others slot' = q.others slot
  distinct : q'.ids.Nodup
  carried : ∀ e ∈ q', ∀ x, slot' = some x → e.id = x.id → e.waker = x.waker

/-- The entry is added again, or for the first time, behind all others. -/
theorem Admits.requeue {issued : Nat} {nextId : UInt64} {slot : Option (Entry ρ W)}
    {q : Waiters ρ W} (h : q.Admits issued nextId slot) {e : Entry ρ W}
    (hid : e.id = registerId nextId slot) :
    Registers e.id e.waker q slot (q.without e.id ++ [e]) (some e) := by
  have hnodup := nodup_append h.distinct e
  have hwithout : q.without e.id = q.others slot := by
    cases slot with
    | some x => rw [others_some, hid, registerId]
    | none =>
      -- Nothing is taken out for a fresh token.
      rw [others_none, without, List.filter_eq_self]
      intro y hy
      rw [hid, registerId]
      exact bne_iff_ne.mpr (h.fresh hy)
  refine ⟨⟨e, rfl, rfl⟩, ⟨e, own_of_mem hnodup (by simp) rfl, rfl, .inl rfl⟩, ?_, hnodup, ?_⟩
  · rw [others_some, without_append_self, hwithout]
  · intro y hy x hx hyx
    cases hx
    rcases List.mem_append.mp hy with hy | hy
    · exact absurd hyx (mem_without.mp hy).2
    · rw [List.mem_singleton.mp hy]

/-- A queued entry under an equivalent waker is left where it is. -/
theorem Admits.keep {issued : Nat} {nextId : UInt64} {x : Entry ρ W} {waker : W}
    {q : Waiters ρ W} (h : q.Admits issued nextId (some x)) {e : Entry ρ W} (he : e ∈ q)
    (hid : e.id = x.id) (hw : Waker.willWake x.waker waker = true) :
    Registers x.id waker q (some x) q (some x) := by
  have hcarried := h.carried e he x rfl hid
  exact ⟨⟨x, rfl, rfl⟩, ⟨e, own_of_mem h.distinct he hid, hid, .inr (by rwa [hcarried])⟩, rfl,
    h.distinct, h.carried⟩

theorem Admits.register {issued : Nat} {nextId : UInt64} {slot : Option (Entry ρ W)}
    {q : Waiters ρ W} (h : q.Admits issued nextId slot) (req : ρ) (waker : W) :
    Registers (registerId nextId slot) waker q slot (q.register nextId slot req waker).1
      (q.register nextId slot req waker).2.2 := by
  rw [Waiters.register]
  cases hs : stale q slot waker with
  | true => exact h.requeue (e := ⟨registerId nextId slot, req, waker⟩) rfl
  | false =>
    cases slot with
    | none => cases hs
    | some x =>
      rw [stale] at hs
      split at hs
      · rename_i hw
        have hany : q.any (fun y => y.id == x.id) = true := by simpa using hs
        obtain ⟨e, he, hid⟩ := List.any_eq_true.mp hany
        exact h.keep he (beq_iff_eq.mp hid) hw
      · cases hs

/-- The counter moves only when the slot is filled for the first time. -/
def counterAfter (nextId : UInt64) (slot : Option (Entry ρ W)) : UInt64 :=
  if slot.isSome then nextId else nextId + 1

theorem register_counter (q : Waiters ρ W) (nextId : UInt64) (slot : Option (Entry ρ W)) (req : ρ)
    (waker : W) : (q.register nextId slot req waker).2.1 = counterAfter nextId slot := by
  rw [Waiters.register]
  split
  · rfl
  · cases slot with
    | none => rename_i hs; exact absurd rfl hs
    | some x => rfl

end Waiters

namespace LocalRwLock

variable {W : Type v}

/-- The queue of the futures of one kind. -/
def waiting (l : LocalRwLock W) : Access → Waiters Unit W
  | .read => l.readWaiters
  | .write => l.writeWaiters

def setWaiting (l : LocalRwLock W) (q : Waiters Unit W) : Access → LocalRwLock W
  | .read => { l with readWaiters := q }
  | .write => { l with writeWaiters := q }

@[simp] theorem setWaiting_nextId (l : LocalRwLock W) (q : Waiters Unit W) (kind : Access) :
    (l.setWaiting q kind).nextId = l.nextId := by
  cases kind <;> rfl

theorem waiting_setWaiting (l : LocalRwLock W) (q : Waiters Unit W) (kind kind' : Access) :
    (l.setWaiting q kind).waiting kind' = if kind' = kind then q else l.waiting kind' := by
  cases kind <;> cases kind' <;> rfl

theorem deregisterIn_eq (l : LocalRwLock W) (slot : Option (Entry Unit W)) (kind : Access) :
    l.deregisterIn slot kind = l.setWaiting ((l.waiting kind).deregister slot) kind := by
  cases kind <;> rfl

theorem registerIn_eq [Waker W] (l : LocalRwLock W) (slot : Option (Entry Unit W)) (waker : W)
    (kind : Access) : l.registerIn slot waker kind =
      ({ l with nextId := Waiters.counterAfter l.nextId slot }.setWaiting
        ((l.waiting kind).register l.nextId slot () waker).1 kind,
        ((l.waiting kind).register l.nextId slot () waker).2.2) := by
  rw [← (l.waiting kind).register_counter l.nextId slot () waker]
  cases kind <;> rfl

end LocalRwLock

open Waiters

/-- For each of the three primitives, however its queues are stored: a registration does not
fault, it leaves every other field alone, and of the queue it touches only its own entry. -/
theorem registration_touches_its_own_entry {W : Type} [Waker W] (issued : Nat) (waker : W) :
    (∀ (c : MutexCells W) (m : LocalMutex W) (slot : Option (Entry Unit W)), c.Stores m →
      m.waiters.Admits issued m.nextId slot →
      (∃ c' q' slot', c.register slot waker = .ok (c', slot') ∧
        c'.Stores { m with waiters := q', nextId := counterAfter m.nextId slot } ∧
        Registers (registerId m.nextId slot) waker m.waiters slot q' slot') ∧
      ∃ c' q', c.deregister slot = .ok (c', none) ∧ c'.Stores { m with waiters := q' } ∧
        Deregisters slot m.waiters q') ∧
    (∀ (c : RwCells W) (m : LocalRwLock W) (slot : Option (Entry Unit W)) (kind : Access),
      c.Stores m → (m.waiting kind).Admits issued m.nextId slot →
      (∃ c' q' slot', c.registerIn slot waker kind = .ok (c', slot') ∧
        c'.Stores ({ m with nextId := counterAfter m.nextId slot }.setWaiting q' kind) ∧
        Registers (registerId m.nextId slot) waker (m.waiting kind) slot q' slot') ∧
      ∃ c' q', c.deregisterIn slot kind = .ok (c', none) ∧ c'.Stores (m.setWaiting q' kind) ∧
        Deregisters slot (m.waiting kind) q') ∧
    (∀ (c : SemCells W) (m : LocalSemaphore W) (slot : Option (Entry Nat W)) (n : Nat),
      c.Stores m → m.waiters.Admits issued m.nextId slot →
      (∃ c' q' slot', c.register slot n waker = .ok (c', slot') ∧
        c'.Stores { m with waiters := q', nextId := counterAfter m.nextId slot } ∧
        Registers (registerId m.nextId slot) waker m.waiters slot q' slot') ∧
      ∃ c' q', c.deregister slot = .ok (c', none) ∧ c'.Stores { m with waiters := q' } ∧
        Deregisters slot m.waiters q') := by
  refine ⟨fun c m slot hc h => ?_, fun c m slot kind hc h => ?_, fun c m slot n hc h => ?_⟩
  · obtain ⟨c₁, hreg, h₁⟩ := hc.register slot waker
    obtain ⟨c₂, hdereg, h₂⟩ := hc.deregister slot
    rw [LocalMutex.register, register_counter] at h₁
    exact ⟨⟨c₁, _, _, hreg, h₁, h.register () waker⟩, c₂, _, hdereg, h₂, h.deregister⟩
  · obtain ⟨c₁, hreg, h₁⟩ := hc.registerIn slot waker kind
    obtain ⟨c₂, hdereg, h₂⟩ := hc.deregisterIn slot kind
    rw [m.registerIn_eq] at hreg h₁
    rw [m.deregisterIn_eq] at h₂
    exact ⟨⟨c₁, _, _, hreg, h₁, h.register () waker⟩, c₂, _, hdereg, h₂, h.deregister⟩
  · obtain ⟨c₁, hreg, h₁⟩ := hc.register slot n waker
    obtain ⟨c₂, hdereg, h₂⟩ := hc.deregister slot
    rw [LocalSemaphore.register, register_counter] at h₁
    exact ⟨⟨c₁, _, _, hreg, h₁, h.register n waker⟩, c₂, _, hdereg, h₂, h.deregister⟩

/-- Eight waiters, as many as there are inline slots. -/
def eightWaiters : Waiters Unit Waker.OfTask :=
  (List.range 8).map fun i => ⟨.ofNat i, (), ⟨i⟩⟩

/-- The ring is full and wraps behind its third entry; the ninth waiter spills it. -/
theorem registration_of_a_ninth_waiter : ∃ c' q' slot',
    MutexCells.register ⟨true, .inline (Ring.layout 8 5 eightWaiters) 5 5 8, 8⟩ none
      (⟨8⟩ : Waker.OfTask) = .ok (c', slot') ∧ c'.Stores ⟨true, q', 9⟩ ∧
      Registers 8 (⟨8⟩ : Waker.OfTask) eightWaiters none q' slot' := by
  have hstores : MutexCells.Stores ⟨true, .inline (Ring.layout 8 5 eightWaiters) 5 5 8, 8⟩
      ⟨true, eightWaiters, 8⟩ := ⟨rfl, ⟨rfl, by decide, by decide, rfl, rfl⟩, rfl⟩
  have hadmits : eightWaiters.Admits 8 8 none := by
    refine ⟨by decide, by decide, rfl, fun e he => ?_, fun _ _ _ hx => by cases hx⟩
    obtain ⟨k, hk, rfl⟩ := List.mem_map.mp he
    exact ⟨k, List.mem_range.mp hk, rfl⟩
  exact ((registration_touches_its_own_entry 8 ⟨8⟩).1 _ _ none hstores hadmits).1

end Cynosure.SiteC
