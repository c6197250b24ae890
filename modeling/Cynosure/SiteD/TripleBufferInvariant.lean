import Mathlib.Algebra.BigOperators.Fin
import Cynosure.Lib.Word
import Cynosure.SiteD.TripleBuffer

/-! # What the two sides of the triple buffer keep

Counted without wrapping, `published.length` buffers were published and `taken.length`
of them taken, and the two counts differ by at most one. The writer rotates only while
they agree and the reader only while they differ, so at most one rotation is under
way, with one exception: a publish hands the turn over before it has fetched its next
buffer. That buffer lies in the slot the writer has just made its own, which a take
never touches.
-/

namespace Cynosure.SiteD

variable {w : Nat} {T W : Type}

namespace TripleState

def slotCount (buffers : Fin 3 → Option Nat) (p : Nat) : Nat :=
  ∑ i, if buffers i = some p then 1 else 0

/-- How many of the three slots and the two sides own the buffer at `p`. -/
def owners (s : TripleState w T W) (p : Nat) : Nat :=
  slotCount s.buffers p + s.writerOwns.count p + s.readerOwns.count p

end TripleState

open TripleState

theorem slotCount_update (buffers : Fin 3 → Option Nat) (i : Fin 3) (x : Option Nat) (p : Nat) :
    slotCount (Function.update buffers i x) p + (if buffers i = some p then 1 else 0) =
      slotCount buffers p + if x = some p then 1 else 0 := by
  simp only [slotCount, Fin.sum_univ_three]
  fin_cases i <;> simp [Function.update] <;> omega

theorem slotCount_pos {buffers : Fin 3 → Option Nat} {i : Fin 3} {p : Nat}
    (h : buffers i = some p) : 0 < slotCount buffers p := by
  have := slotCount_update buffers i none p
  simp only [h, if_true, reduceCtorEq, if_false] at this
  omega

/-- The slots when no rotation is under way; the middle one holds what is unread. -/
structure MiddleReady (s : TripleState w T W) : Prop where
  writer : s.writerIdx ≠ s.middleIdx
  reader : s.readerIdx ≠ s.middleIdx
  holds : ∃ p, s.buffers s.middleIdx = some p ∧
    (s.published.length = s.taken.length + 1 →
      s.published[s.taken.length]? = some (s.heap p, s.lens s.middleIdx))

structure TripleInv (s : TripleState w T W) : Prop where
  generation : s.generation = BitVec.ofNat w s.published.length
  lastRead : s.lastReadGen = BitVec.ofNat w s.taken.length
  le : s.taken.length ≤ s.published.length
  bound : s.published.length ≤ s.taken.length + 1
  fifo : s.taken = s.published.take s.taken.length
  confirmed : s.confirmed <+: s.published
  returned : s.delivered <+: s.taken
  publishing : s.publishing = true → s.published.length = s.taken.length
  taking : s.taking = true → s.published.length = s.taken.length + 1
  apart : s.writerIdx ≠ s.readerIdx
  middle : s.publishing = false → s.taking = false → MiddleReady s
  owned : ∀ p, s.owners p = if p < 3 then 1 else 0
  fresh : ∀ next, s.writerOut = some (.published next) → next.len = 0
  sound : s.nullMiddle = false ∧ s.displaced = false

/-- What the writer relies on. While everything is read, the reader rotates nothing. -/
structure WriterRely (s t : TripleState w T W) : Prop where
  handle : t.writer = s.writer
  idx : t.writerIdx = s.writerIdx
  slot : t.buffers s.writerIdx = s.buffers s.writerIdx
  busy : t.publishing = s.publishing
  owns : t.writerOwns = s.writerOwns
  heap : ∀ p ∈ s.writerOwns, t.heap p = s.heap p
  offer : t.offer = s.offer
  published : t.published = s.published
  confirmed : t.confirmed = s.confirmed
  out : t.writerOut = s.writerOut
  quiet : s.published.length = s.taken.length →
    t.buffers = s.buffers ∧ t.lens = s.lens ∧ t.middleIdx = s.middleIdx ∧
      t.readerIdx = s.readerIdx ∧ t.taken = s.taken ∧
      ∀ i p, s.buffers i = some p → t.heap p = s.heap p

/-- What the reader relies on. While a buffer is unread, the writer only fetches its next one. -/
structure ReaderRely (s t : TripleState w T W) : Prop where
  handle : t.reader = s.reader
  idx : t.readerIdx = s.readerIdx
  slot : t.buffers s.readerIdx = s.buffers s.readerIdx
  busy : t.taking = s.taking
  owns : t.readerOwns = s.readerOwns
  heap : ∀ p ∈ s.readerOwns, t.heap p = s.heap p
  taken : t.taken = s.taken
  delivered : t.delivered = s.delivered
  out : t.readerOut = s.readerOut
  quiet : s.published.length = s.taken.length + 1 →
    t.published = s.published ∧ t.lens = s.lens ∧ t.middleIdx = s.middleIdx ∧
      t.writerIdx = s.writerIdx ∧
      ∀ i, i ≠ s.writerIdx → t.buffers i = s.buffers i ∧
        ∀ p, s.buffers i = some p → t.heap p = s.heap p

theorem WriterRely.trans {a b c : TripleState w T W} (hab : WriterRely a b)
    (hbc : WriterRely b c) : WriterRely a c where
  handle := hbc.handle.trans hab.handle
  idx := hbc.idx.trans hab.idx
  slot := by rw [← hab.slot, ← hab.idx, hbc.slot]
  busy := hbc.busy.trans hab.busy
  owns := hbc.owns.trans hab.owns
  heap := fun p hp => (hbc.heap p (hab.owns ▸ hp)).trans (hab.heap p hp)
  offer := hbc.offer.trans hab.offer
  published := hbc.published.trans hab.published
  confirmed := hbc.confirmed.trans hab.confirmed
  out := hbc.out.trans hab.out
  quiet := fun h => by
    obtain ⟨hb, hl, hm, hr, ht, hh⟩ := hab.quiet h
    obtain ⟨hb', hl', hm', hr', ht', hh'⟩ := hbc.quiet (by rw [hab.published, ht, h])
    exact ⟨hb'.trans hb, hl'.trans hl, hm'.trans hm, hr'.trans hr, ht'.trans ht,
      fun i p hp => (hh' i p (by rw [hb, hp])).trans (hh i p hp)⟩

theorem ReaderRely.trans {a b c : TripleState w T W} (hab : ReaderRely a b)
    (hbc : ReaderRely b c) : ReaderRely a c where
  handle := hbc.handle.trans hab.handle
  idx := hbc.idx.trans hab.idx
  slot := by rw [← hab.slot, ← hab.idx, hbc.slot]
  busy := hbc.busy.trans hab.busy
  owns := hbc.owns.trans hab.owns
  heap := fun p hp => (hbc.heap p (hab.owns ▸ hp)).trans (hab.heap p hp)
  taken := hbc.taken.trans hab.taken
  delivered := hbc.delivered.trans hab.delivered
  out := hbc.out.trans hab.out
  quiet := fun h => by
    obtain ⟨hp, hl, hm, hw, hs⟩ := hab.quiet h
    obtain ⟨hp', hl', hm', hw', hs'⟩ := hbc.quiet (by rw [hab.taken, hp, h])
    refine ⟨hp'.trans hp, hl'.trans hl, hm'.trans hm, hw'.trans hw, fun i hi => ?_⟩
    obtain ⟨hb, hh⟩ := hs i hi
    obtain ⟨hb', hh'⟩ := hs' i (by rwa [hw])
    exact ⟨hb'.trans hb, fun p hp => (hh' p (by rw [hb, hp])).trans (hh p hp)⟩

/-- The writer's slot is empty and `buf` is the one buffer it has. -/
structure WriterHas (buf : AlignedBuffer) (s : TripleState w T W) : Prop where
  busy : s.publishing = false
  slot : s.buffers s.writerIdx = none
  owns : s.writerOwns = [buf.ptr]

/-- A reader that has taken nothing yet has a buffer in its slot instead. -/
structure ReaderHas (previous : Option AlignedBuffer) (s : TripleState w T W) : Prop where
  busy : s.taking = false
  slot : (s.buffers s.readerIdx).isNone = previous.isSome
  owns : s.readerOwns = previous.toList.map AlignedBuffer.ptr

def WriterRest (s : TripleState w T W) : Prop :=
  ∃ buf, WriterHas buf s ∧ s.confirmed = s.published ∧
    (s.writer.hand = some buf ∧ s.writer.held = none ∨
      s.writer.hand = none ∧ s.writer.held = some buf ∧ s.offer = (s.heap buf.ptr, buf.len))

def ReaderRest (s : TripleState w T W) : Prop :=
  ∃ previous, ReaderHas previous s ∧ s.delivered = s.taken ∧
    (s.reader.hand = previous ∧ s.reader.held = none ∧ (s.reader.future = true → previous = none) ∨
      s.reader.hand = none ∧ s.reader.held = previous)

def tripleOutline : Outline (TripleState w T W) TripleSide PUnit.{1} where
  inv := TripleInv
  rely
    | .writer => WriterRely
    | .reader => ReaderRely
  refl
    | .writer, _ => ⟨rfl, rfl, rfl, rfl, rfl, fun _ _ => rfl, rfl, rfl, rfl, rfl,
        fun _ => ⟨rfl, rfl, rfl, rfl, rfl, fun _ _ _ => rfl⟩⟩
    | .reader, _ => ⟨rfl, rfl, rfl, rfl, rfl, fun _ _ => rfl, rfl, rfl, rfl,
        fun _ => ⟨rfl, rfl, rfl, rfl, fun _ _ => ⟨rfl, fun _ _ => rfl⟩⟩⟩
  trans := by
    intro i a b c hab hbc
    cases i with
    | writer => exact WriterRely.trans hab hbc
    | reader => exact ReaderRely.trans hab hbc
  rest
    | .writer => WriterRest
    | .reader => ReaderRest
  post
    | .writer, _ => WriterRest
    | .reader, _ => ReaderRest

abbrev writerContract : Contract (TripleState w T W) := tripleOutline.contract .writer

abbrev readerContract : Contract (TripleState w T W) := tripleOutline.contract .reader

theorem writerGuar {s t : TripleState w T W} (h : ReaderRely s t) : writerContract.guar s t := by
  intro j hj
  cases j with
  | writer => exact absurd rfl hj
  | reader => exact h

theorem readerGuar {s t : TripleState w T W} (h : WriterRely s t) : readerContract.guar s t := by
  intro j hj
  cases j with
  | writer => exact h
  | reader => exact absurd rfl hj

namespace TripleInv

variable {s : TripleState w T W}

/-- Nothing is unread when the generations agree, wrapped or not. -/
theorem eq_of_generation (h : TripleInv s) (hw : 0 < w)
    (heq : BitVec.ofNat w s.published.length = s.lastReadGen) :
    s.published.length = s.taken.length := by
  rw [h.lastRead] at heq
  exact Word.eq_of_ofNat_eq hw h.le h.bound heq

theorem not_writerOwns_of_slot (h : TripleInv s) {i : Fin 3} {p : Nat}
    (hp : s.buffers i = some p) : p ∉ s.writerOwns := by
  intro hmem
  have howned := h.owned p
  have hslot := slotCount_pos hp
  have hcount := List.count_pos_iff.mpr hmem
  rw [owners] at howned
  split at howned <;> omega

theorem not_readerOwns_of_slot (h : TripleInv s) {i : Fin 3} {p : Nat}
    (hp : s.buffers i = some p) : p ∉ s.readerOwns := by
  intro hmem
  have howned := h.owned p
  have hslot := slotCount_pos hp
  have hcount := List.count_pos_iff.mpr hmem
  rw [owners] at howned
  split at howned <;> omega

theorem not_readerOwns (h : TripleInv s) {p : Nat} (hp : p ∈ s.writerOwns) :
    p ∉ s.readerOwns := by
  intro hmem
  have howned := h.owned p
  have hcount := List.count_pos_iff.mpr hmem
  have hcount' := List.count_pos_iff.mpr hp
  rw [owners] at howned
  split at howned <;> omega

end TripleInv

/-- The actions on results and wait slots leave the rotation as it is. -/
structure SameTriple (s t : TripleState w T W) : Prop where
  buffers : t.buffers = s.buffers
  lens : t.lens = s.lens
  writerIdx : t.writerIdx = s.writerIdx
  readerIdx : t.readerIdx = s.readerIdx
  middleIdx : t.middleIdx = s.middleIdx
  generation : t.generation = s.generation
  lastReadGen : t.lastReadGen = s.lastReadGen
  heap : t.heap = s.heap
  publishing : t.publishing = s.publishing
  taking : t.taking = s.taking
  writerOwns : t.writerOwns = s.writerOwns
  readerOwns : t.readerOwns = s.readerOwns
  published : t.published = s.published
  taken : t.taken = s.taken
  confirmed : s.confirmed <+: s.published → t.confirmed <+: t.published
  returned : s.delivered <+: s.taken → t.delivered <+: t.taken
  fresh : ∀ next, t.writerOut = some (.published next) →
    s.writerOut = some (.published next) ∨ next.len = 0
  nullMiddle : t.nullMiddle = s.nullMiddle
  displaced : t.displaced = s.displaced

namespace SameTriple

variable {s t : TripleState w T W}

theorem inv (h : SameTriple s t) (hI : TripleInv s) : TripleInv t where
  generation := by rw [h.generation, h.published, hI.generation]
  lastRead := by rw [h.lastReadGen, h.taken, hI.lastRead]
  le := by rw [h.published, h.taken]; exact hI.le
  bound := by rw [h.published, h.taken]; exact hI.bound
  fifo := by rw [h.published, h.taken]; exact hI.fifo
  confirmed := h.confirmed hI.confirmed
  returned := h.returned hI.returned
  publishing := by rw [h.published, h.taken, h.publishing]; exact hI.publishing
  taking := by rw [h.published, h.taken, h.taking]; exact hI.taking
  apart := by rw [h.writerIdx, h.readerIdx]; exact hI.apart
  middle := by
    rw [h.publishing, h.taking]
    intro hp ht
    obtain ⟨hw, hr, hm⟩ := hI.middle hp ht
    refine ⟨by rwa [h.writerIdx, h.middleIdx], by rwa [h.readerIdx, h.middleIdx], ?_⟩
    rw [h.buffers, h.middleIdx, h.published, h.taken, h.heap, h.lens]
    exact hm
  owned := by
    intro p
    rw [owners, h.buffers, h.writerOwns, h.readerOwns]
    exact hI.owned p
  fresh := fun next hnext => by
    rcases h.fresh next hnext with hold | hnew
    · exact hI.fresh next hold
    · exact hnew
  sound := by rw [h.nullMiddle, h.displaced]; exact hI.sound

theorem writerRely (h : SameTriple s t) (hw : t.writer = s.writer) (ho : t.offer = s.offer)
    (hc : t.confirmed = s.confirmed) (hout : t.writerOut = s.writerOut) : WriterRely s t :=
  ⟨hw, h.writerIdx, by rw [h.buffers], h.publishing, h.writerOwns, fun _ _ => by rw [h.heap], ho,
    h.published, hc, hout, fun _ => ⟨h.buffers, h.lens, h.middleIdx, h.readerIdx, h.taken,
      fun _ _ _ => by rw [h.heap]⟩⟩

theorem readerRely (h : SameTriple s t) (hr : t.reader = s.reader)
    (hd : t.delivered = s.delivered) (hout : t.readerOut = s.readerOut) : ReaderRely s t :=
  ⟨hr, h.readerIdx, by rw [h.buffers], h.taking, h.readerOwns, fun _ _ => by rw [h.heap], h.taken,
    hd, hout, fun _ => ⟨h.published, h.lens, h.middleIdx, h.writerIdx,
      fun _ _ => ⟨by rw [h.buffers], fun _ _ => by rw [h.heap]⟩⟩⟩

end SameTriple

/-- The actions on the wait slots alone. -/
structure SlotsOnly (s t : TripleState w T W) : Prop extends SameTriple s t where
  writer : t.writer = s.writer
  reader : t.reader = s.reader
  offer : t.offer = s.offer
  confirmed_eq : t.confirmed = s.confirmed
  writerOut : t.writerOut = s.writerOut
  delivered : t.delivered = s.delivered
  readerOut : t.readerOut = s.readerOut

namespace SlotsOnly

variable {s t : TripleState w T W} {P : TripleState w T W → Prop}

theorem keeps_writer (h : SlotsOnly s t) (hP : writerContract.Stable P) (hI : TripleInv s)
    (hs : P s) : TripleInv t ∧ writerContract.guar s t ∧ P t :=
  ⟨h.inv hI, writerGuar (h.readerRely h.reader h.delivered h.readerOut),
    hP s t (h.inv hI) (h.writerRely h.writer h.offer h.confirmed_eq h.writerOut) hs⟩

theorem keeps_reader (h : SlotsOnly s t) (hP : readerContract.Stable P) (hI : TripleInv s)
    (hs : P s) : TripleInv t ∧ readerContract.guar s t ∧ P t :=
  ⟨h.inv hI, readerGuar (h.writerRely h.writer h.offer h.confirmed_eq h.writerOut),
    hP s t (h.inv hI) (h.readerRely h.reader h.delivered h.readerOut) hs⟩

end SlotsOnly

theorem slotsOnly_slots (s : TripleState w T W) (x y : SlotUse W Unit) :
    SlotsOnly s { s with readerSlot := x, writerSlot := y } := by
  constructor <;> try rfl
  constructor <;> first | rfl | exact id | exact fun _ => Or.inl

end Cynosure.SiteD
