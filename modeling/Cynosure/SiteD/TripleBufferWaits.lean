import Cynosure.Lib.Word
import Cynosure.SiteD.TripleBuffer

/-! # Whose turn it is at the triple buffer

The back-pressure rests on the two counters and the two wait slots alone, whatever the
callers do with the buffers. A publish that finds no next buffer in the middle panics
between the store of the generation and the call of `signal`; that call then stays
where it was, before its first access.
-/

namespace Cynosure.SiteD

open Prog TripleState

variable {w : Nat} {T W : Type}

structure TurnInv [Waker W] (s : TripleState w T W) : Prop where
  generation : s.generation = BitVec.ofNat w s.published.length
  lastRead : s.lastReadGen = BitVec.ofNat w s.taken.length
  le : s.taken.length ≤ s.published.length
  bound : s.published.length ≤ s.taken.length + 1
  reader : SlotInv s.readerSlot
  writer : SlotInv s.writerSlot

/-- What the writer relies on. A take comes with a signal, and only while a buffer is unread. -/
structure WriterTurn (s t : TripleState w T W) : Prop where
  handle : t.writer = s.writer
  out : t.writerOut = s.writerOut
  slot : s.writerSlot.WaiterSees t.writerSlot
  signals : t.readerSlot.signals = s.readerSlot.signals
  null : s.nullMiddle = true → t.nullMiddle = true
  published : t.published = s.published
  quiet : s.published.length = s.taken.length → t.taken.length = s.taken.length
  signalled : t.writerSlot.published = false → t.taken.length = s.taken.length

structure ReaderTurn (s t : TripleState w T W) : Prop where
  handle : t.reader = s.reader
  out : t.readerOut = s.readerOut
  slot : s.readerSlot.WaiterSees t.readerSlot
  signals : t.writerSlot.signals = s.writerSlot.signals
  null : s.nullMiddle = true → t.nullMiddle = true
  taken : t.taken = s.taken
  quiet : s.published.length = s.taken.length + 1 → t.published.length = s.published.length
  signalled : t.readerSlot.published = false → t.published.length = s.published.length

theorem WriterTurn.refl (s : TripleState w T W) : WriterTurn s s :=
  ⟨rfl, rfl, .refl _, rfl, id, rfl, fun _ => rfl, fun _ => rfl⟩

theorem ReaderTurn.refl (s : TripleState w T W) : ReaderTurn s s :=
  ⟨rfl, rfl, .refl _, rfl, id, rfl, fun _ => rfl, fun _ => rfl⟩

theorem WriterTurn.trans {a b c : TripleState w T W} (hab : WriterTurn a b)
    (hbc : WriterTurn b c) : WriterTurn a c where
  handle := hbc.handle.trans hab.handle
  out := hbc.out.trans hab.out
  slot := hab.slot.trans hbc.slot
  signals := hbc.signals.trans hab.signals
  null := fun h => hbc.null (hab.null h)
  published := hbc.published.trans hab.published
  quiet := fun h => by
    have htaken := hab.quiet h
    exact (hbc.quiet (by rw [hab.published, h, htaken])).trans htaken
  signalled := fun h => (hbc.signalled h).trans (hab.signalled (hbc.slot.published h))

theorem ReaderTurn.trans {a b c : TripleState w T W} (hab : ReaderTurn a b)
    (hbc : ReaderTurn b c) : ReaderTurn a c where
  handle := hbc.handle.trans hab.handle
  out := hbc.out.trans hab.out
  slot := hab.slot.trans hbc.slot
  signals := hbc.signals.trans hab.signals
  null := fun h => hbc.null (hab.null h)
  taken := hbc.taken.trans hab.taken
  quiet := fun h => by
    have hpublished := hab.quiet h
    exact (hbc.quiet (by rw [hab.taken, hpublished, h])).trans hpublished
  signalled := fun h => (hbc.signalled h).trans (hab.signalled (hbc.slot.published h))

/-- No call of `signal` to the reader is under way, or a panic cut one off. -/
def CutOff (s : TripleState w T W) : Prop :=
  s.readerSlot.signals () = none ∨ s.nullMiddle = true ∧ s.readerSlot.signals () = some .load

/-- Where the writer is between its calls; a future that is parked looked after it was armed. -/
structure WriterWaits (s : TripleState w T W) : Prop where
  signal : CutOff s
  slot : s.writerSlot.phase = .out ∨ s.writerSlot.phase = .armed ∧ s.writer.future = true ∧
    (s.writerSlot.published = false → s.published.length = s.taken.length + 1)

structure ReaderWaits (s : TripleState w T W) : Prop where
  signal : s.writerSlot.signals () = none
  slot : s.readerSlot.phase = .out ∨ s.readerSlot.phase = .armed ∧ s.reader.future = true ∧
    (s.readerSlot.published = false → s.nullMiddle = false → s.published.length = s.taken.length)

def tripleTurns [Waker W] : Outline (TripleState w T W) TripleSide PUnit.{1} where
  inv := TurnInv
  rely
    | .writer => WriterTurn
    | .reader => ReaderTurn
  refl
    | .writer, s => .refl s
    | .reader, s => .refl s
  trans := by
    intro i a b c hab hbc
    cases i with
    | writer => exact WriterTurn.trans hab hbc
    | reader => exact ReaderTurn.trans hab hbc
  rest
    | .writer => WriterWaits
    | .reader => ReaderWaits
  post
    | .writer, _ => WriterWaits
    | .reader, _ => ReaderWaits

section Contracts

variable [Waker W] {s t : TripleState w T W}

abbrev writerTurns : Contract (TripleState w T W) := tripleTurns.contract .writer

abbrev readerTurns : Contract (TripleState w T W) := tripleTurns.contract .reader

theorem writerTurnGuar (h : ReaderTurn s t) : writerTurns.guar s t := by
  intro j hj
  cases j with
  | writer => exact absurd rfl hj
  | reader => exact h

theorem readerTurnGuar (h : WriterTurn s t) : readerTurns.guar s t := by
  intro j hj
  cases j with
  | writer => exact h
  | reader => exact absurd rfl hj

end Contracts

theorem CutOff.of_rely {s t : TripleState w T W} (hst : WriterTurn s t) (h : CutOff s) : CutOff t := by
  rw [CutOff, hst.signals]
  exact h.imp id fun hcut => ⟨hst.null hcut.1, hcut.2⟩

/-- An armed writer that has heard nothing still has its buffer unread. -/
theorem stillUnread_of_rely {s t : TripleState w T W} (hst : WriterTurn s t)
    (h : s.writerSlot.published = false → s.published.length = s.taken.length + 1)
    (ht : t.writerSlot.published = false) : t.published.length = t.taken.length + 1 := by
  rw [hst.published, hst.signalled ht]
  exact h (hst.slot.published ht)

theorem WriterWaits.stable [Waker W] :
    writerTurns.Stable (WriterWaits : TripleState w T W → Prop) := by
  intro s t _ (hst : WriterTurn s t) h
  refine ⟨h.signal.of_rely hst, ?_⟩
  rw [hst.slot.phase, hst.handle]
  exact h.slot.imp id fun harmed => ⟨harmed.1, harmed.2.1, stillUnread_of_rely hst harmed.2.2⟩

theorem ReaderWaits.stable [Waker W] :
    readerTurns.Stable (ReaderWaits : TripleState w T W → Prop) := by
  intro s t _ (hst : ReaderTurn s t) h
  refine ⟨by rw [hst.signals, h.signal], ?_⟩
  rw [hst.slot.phase, hst.handle]
  refine h.slot.imp id fun harmed => ⟨harmed.1, harmed.2.1, fun hquiet hnull => ?_⟩
  have hnull' : s.nullMiddle = false := by
    rw [← Bool.not_eq_true]
    intro hs
    rw [hst.null hs] at hnull
    cases hnull
  rw [hst.signalled hquiet, hst.taken]
  exact harmed.2.2 (hst.slot.published hquiet) hnull'

theorem WriterWaits.between {s : TripleState w T W} (h : WriterWaits s) (pc : ArmPc W) :
    s.writerSlot.phase ≠ .arming pc := by
  intro hpc
  rcases h.slot with hout | ⟨harmed, -⟩
  · rw [hout] at hpc
    cases hpc
  · rw [harmed] at hpc
    cases hpc

theorem WriterWaits.out {s : TripleState w T W} (h : WriterWaits s) (hf : s.writer.future = false) :
    s.writerSlot.phase = .out := by
  rcases h.slot with hout | ⟨-, hfuture, -⟩
  · exact hout
  · rw [hf] at hfuture
    cases hfuture

theorem ReaderWaits.between {s : TripleState w T W} (h : ReaderWaits s) (pc : ArmPc W) :
    s.readerSlot.phase ≠ .arming pc := by
  intro hpc
  rcases h.slot with hout | ⟨harmed, -⟩
  · rw [hout] at hpc
    cases hpc
  · rw [harmed] at hpc
    cases hpc

theorem ReaderWaits.out {s : TripleState w T W} (h : ReaderWaits s) (hf : s.reader.future = false) :
    s.readerSlot.phase = .out := by
  rcases h.slot with hout | ⟨-, hfuture, -⟩
  · exact hout
  · rw [hf] at hfuture
    cases hfuture

/-- The actions on indices, slots and buffers. -/
structure SameTurn (s t : TripleState w T W) : Prop where
  generation : t.generation = s.generation
  lastReadGen : t.lastReadGen = s.lastReadGen
  published : t.published = s.published
  taken : t.taken = s.taken
  readerSlot : t.readerSlot = s.readerSlot
  writerSlot : t.writerSlot = s.writerSlot
  null : s.nullMiddle = true → t.nullMiddle = true

namespace SameTurn

variable {s t : TripleState w T W}

theorem inv [Waker W] (h : SameTurn s t) (hI : TurnInv s) : TurnInv t where
  generation := by rw [h.generation, h.published, hI.generation]
  lastRead := by rw [h.lastReadGen, h.taken, hI.lastRead]
  le := by rw [h.published, h.taken]; exact hI.le
  bound := by rw [h.published, h.taken]; exact hI.bound
  reader := by rw [h.readerSlot]; exact hI.reader
  writer := by rw [h.writerSlot]; exact hI.writer

theorem writerTurn (h : SameTurn s t) (hw : t.writer = s.writer) (ho : t.writerOut = s.writerOut) :
    WriterTurn s t :=
  ⟨hw, ho, by rw [h.writerSlot]; exact .refl _, by rw [h.readerSlot], h.null, h.published,
    fun _ => by rw [h.taken], fun _ => by rw [h.taken]⟩

theorem readerTurn (h : SameTurn s t) (hr : t.reader = s.reader) (ho : t.readerOut = s.readerOut) :
    ReaderTurn s t :=
  ⟨hr, ho, by rw [h.readerSlot]; exact .refl _, by rw [h.writerSlot], h.null, h.taken,
    fun _ => by rw [h.published], fun _ => by rw [h.published]⟩

end SameTurn

/-- A publish after a panic signals from the access where the last one was cut off. -/
theorem SlotInv.signalAgain {ι : Type} [DecidableEq ι] [Waker W] {s : SlotUse W ι} (h : SlotInv s)
    {i : ι} (hi : s.signals i = some .load) : SlotInv (s.beginSignal i) := by
  have hsame : s.beginSignal i = { s with published := true } := by
    rw [SlotUse.beginSignal, Function.update_eq_self_iff.mpr hi.symm]
  rw [hsame]
  exact { h with heard := fun _ _ => .inr ⟨i, .load, hi, trivial⟩ }

theorem TurnInv.eq_of_generation [Waker W] {s : TripleState w T W} (h : TurnInv s) (hw : 0 < w)
    (heq : BitVec.ofNat w s.published.length = BitVec.ofNat w s.taken.length) :
    s.published.length = s.taken.length :=
  Word.eq_of_ofNat_eq hw h.le h.bound heq

theorem TurnInv.unread_of_generation [Waker W] {s : TripleState w T W} (h : TurnInv s)
    (hne : BitVec.ofNat w s.published.length ≠ BitVec.ofNat w s.taken.length) :
    s.published.length = s.taken.length + 1 := by
  have hle := h.le
  have hbound := h.bound
  have hlen : s.published.length ≠ s.taken.length := fun heq => hne (by rw [heq])
  omega

end Cynosure.SiteD
