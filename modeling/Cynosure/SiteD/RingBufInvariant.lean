import Cynosure.SiteD.RingBuf

/-! # What the two sides of the ring buffer keep

Counted without wrapping, the producer has published `accepted.length` items and the
consumer has taken `taken.length` of them. The two shared indices are these counts
modulo `2 ^ w`, each cached copy of the other side's index is such a count from the
past, and the slot of item `i` is `i % capacity`. A side may use as many slots as its
stale copy allows, and the other side can only make more room.
-/

namespace Cynosure.SiteD

variable {w : Nat} {T W : Type} (r : RingBuf w)

structure RingInv (s : RingState w T W) : Prop where
  write : s.writeIndex = BitVec.ofNat w s.accepted.length
  read : s.readIndex = BitVec.ofNat w s.taken.length
  le : s.taken.length ≤ s.accepted.length
  bound : s.accepted.length ≤ s.taken.length + r.capacity.toNat
  fifo : s.taken = (s.accepted.take s.taken.length).map some
  slots : ∀ i, s.taken.length ≤ i → i < s.accepted.length →
    s.buffer (i % r.capacity.toNat) = s.accepted[i]?
  sound : s.clobbered = false ∧ s.misread = false
  freed : ∀ items, s.dropped = some items →
    s.producerAlive = false ∧ s.consumerAlive = false ∧
      items = (s.accepted.drop s.taken.length).map some
  frees : s.producerAlive = false → s.consumerAlive = false → s.dropped ≠ none

/-- What the producer relies on. -/
structure ProducerRely (s t : RingState w T W) : Prop where
  buffer : t.buffer = s.buffer
  handle : t.producer = s.producer
  accepted : t.accepted = s.accepted
  taken : s.taken.length ≤ t.taken.length
  alive : t.producerAlive = s.producerAlive

structure ConsumerRely (s t : RingState w T W) : Prop where
  handle : t.consumer = s.consumer
  taken : t.taken = s.taken
  accepted : s.accepted <+: t.accepted
  alive : t.consumerAlive = s.consumerAlive

/-- The producer has room for `room` items beyond the published ones, has written `items` of
them, and its own index is `ahead` of the shared one. -/
structure Filling (ahead room : Nat) (items : List T) (s : RingState w T W) : Prop where
  alive : s.producerAlive = true
  cached : ∃ c, s.producer.cachedRead = BitVec.ofNat w c ∧ c ≤ s.taken.length ∧
    s.accepted.length + room ≤ c + r.capacity.toNat
  write : s.producer.cachedWrite = BitVec.ofNat w (s.accepted.length + ahead)
  fits : items.length ≤ room
  slots : ∀ i x, items[i]? = some x →
    s.buffer ((s.accepted.length + i) % r.capacity.toNat) = some x

/-- The consumer knows of `room` published items and has read the first of them into `items`. -/
structure Taking (ahead room : Nat) (items : List (Option T)) (s : RingState w T W) : Prop where
  alive : s.consumerAlive = true
  cached : ∃ d, s.consumer.cachedWrite = BitVec.ofNat w d ∧ d ≤ s.accepted.length ∧
    s.taken.length + room ≤ d
  read : s.consumer.cachedRead = BitVec.ofNat w (s.taken.length + ahead)
  fits : items.length ≤ room
  items : items = ((s.accepted.drop s.taken.length).take items.length).map some

def ringOutline : Outline (RingState w T W) RingSide PUnit.{1} where
  inv := RingInv r
  rely
    | .producer => ProducerRely
    | .consumer => ConsumerRely
  refl
    | .producer, _ => ⟨rfl, rfl, rfl, le_rfl, rfl⟩
    | .consumer, _ => ⟨rfl, rfl, List.prefix_rfl, rfl⟩
  trans := by
    intro i a b c hab hbc
    cases i with
    | producer =>
      exact ⟨hbc.buffer.trans hab.buffer, hbc.handle.trans hab.handle,
        hbc.accepted.trans hab.accepted, hab.taken.trans hbc.taken, hbc.alive.trans hab.alive⟩
    | consumer =>
      exact ⟨hbc.handle.trans hab.handle, hbc.taken.trans hab.taken,
        hab.accepted.trans hbc.accepted, hbc.alive.trans hab.alive⟩
  rest
    | .producer, s => s.producerAlive = true → Filling r 0 0 [] s
    | .consumer, s => s.consumerAlive = true → Taking 0 0 [] s
  post
    | .producer, _, s => s.producerAlive = true → Filling r 0 0 [] s
    | .consumer, _, s => s.consumerAlive = true → Taking 0 0 [] s

variable {r}

abbrev producerContract (r : RingBuf w) : Contract (RingState w T W) :=
  (ringOutline r).contract .producer

abbrev consumerContract (r : RingBuf w) : Contract (RingState w T W) :=
  (ringOutline r).contract .consumer

theorem producerGuar {s t : RingState w T W} (h : ConsumerRely s t) :
    (producerContract r).guar s t := by
  intro j hj
  cases j with
  | producer => exact absurd rfl hj
  | consumer => exact h

theorem consumerGuar {s t : RingState w T W} (h : ProducerRely s t) :
    (consumerContract r).guar s t := by
  intro j hj
  cases j with
  | producer => exact h
  | consumer => exact absurd rfl hj

namespace RingInv

variable {s : RingState w T W}

theorem capacity_lt (r : RingBuf w) : r.capacity.toNat < 2 ^ w := r.capacity.isLt

theorem live_eq (h : RingInv r s) : s.live r =
    (List.range (s.accepted.length - s.taken.length)).map
      fun i => (s.taken.length + i) % r.capacity.toNat := by
  have hlt := capacity_lt r
  have hle := h.le
  have hbound := h.bound
  rw [RingState.live, h.write, h.read, Word.toNat_sub hle (by omega)]
  apply List.map_congr_left
  intro i _
  rw [← BitVec.ofNat_add, RingBuf.mask, Word.toNat_mask r.isPowerOfTwo]

theorem mem_live (h : RingInv r s) {j : Nat} : j ∈ s.live r ↔
    ∃ i, s.taken.length ≤ i ∧ i < s.accepted.length ∧ j = i % r.capacity.toNat := by
  have hle := h.le
  rw [h.live_eq]
  simp only [List.mem_map, List.mem_range]
  constructor
  · rintro ⟨i, hi, rfl⟩
    exact ⟨s.taken.length + i, by omega, by omega, rfl⟩
  · rintro ⟨i, hlo, hhi, rfl⟩
    refine ⟨i - s.taken.length, by omega, ?_⟩
    congr 1
    omega

theorem stored_eq (h : RingInv r s) : s.stored r = (s.accepted.drop s.taken.length).map some := by
  have hle := h.le
  rw [RingState.stored, h.live_eq]
  apply List.ext_getElem?
  intro i
  by_cases hi : i < s.accepted.length - s.taken.length
  · have hslot := h.slots (s.taken.length + i) (by omega) (by omega)
    simp [hi, hslot]
  · simp [hi]

/-- An action on fields that the argument does not read. -/
theorem frame {s t : RingState w T W} (h : RingInv r s) (hb : t.buffer = s.buffer)
    (hw : t.writeIndex = s.writeIndex) (hr : t.readIndex = s.readIndex)
    (ha : t.accepted = s.accepted) (ht : t.taken = s.taken) (hc : t.clobbered = s.clobbered)
    (hm : t.misread = s.misread) (hd : t.dropped = s.dropped)
    (hp : t.producerAlive = s.producerAlive) (hq : t.consumerAlive = s.consumerAlive) :
    RingInv r t where
  write := by rw [hw, ha, h.write]
  read := by rw [hr, ht, h.read]
  le := by rw [ha, ht]; exact h.le
  bound := by rw [ha, ht]; exact h.bound
  fifo := by rw [ha, ht]; exact h.fifo
  slots := by rw [ha, ht, hb]; exact h.slots
  sound := by rw [hc, hm]; exact h.sound
  freed := by rw [hd, hp, hq, ha, ht]; exact h.freed
  frees := by rw [hd, hp, hq]; exact h.frees

theorem not_dropped_of_producer (h : RingInv r s) (hp : s.producerAlive = true) :
    s.dropped = none := by
  cases hd : s.dropped with
  | none => rfl
  | some items =>
    have := (h.freed items hd).1
    simp [hp] at this

theorem not_dropped_of_consumer (h : RingInv r s) (hp : s.consumerAlive = true) :
    s.dropped = none := by
  cases hd : s.dropped with
  | none => rfl
  | some items =>
    have := (h.freed items hd).2.1
    simp [hp] at this

end RingInv

/-- The actions on futures, results, counters and wait slots leave the ring as it is. -/
structure SameRing (s t : RingState w T W) : Prop where
  buffer : t.buffer = s.buffer
  writeIndex : t.writeIndex = s.writeIndex
  readIndex : t.readIndex = s.readIndex
  producer : t.producer = s.producer
  consumer : t.consumer = s.consumer
  accepted : t.accepted = s.accepted
  taken : t.taken = s.taken
  clobbered : t.clobbered = s.clobbered
  misread : t.misread = s.misread
  dropped : t.dropped = s.dropped
  producerAlive : t.producerAlive = s.producerAlive
  consumerAlive : t.consumerAlive = s.consumerAlive

namespace SameRing

variable {s t : RingState w T W}

theorem inv (h : SameRing s t) (hI : RingInv r s) : RingInv r t :=
  hI.frame h.buffer h.writeIndex h.readIndex h.accepted h.taken h.clobbered h.misread h.dropped
    h.producerAlive h.consumerAlive

theorem producerRely (h : SameRing s t) : ProducerRely s t :=
  ⟨h.buffer, h.producer, h.accepted, h.taken ▸ le_rfl, h.producerAlive⟩

theorem consumerRely (h : SameRing s t) : ConsumerRely s t :=
  ⟨h.consumer, h.taken, h.accepted ▸ List.prefix_rfl, h.consumerAlive⟩

end SameRing

end Cynosure.SiteD
