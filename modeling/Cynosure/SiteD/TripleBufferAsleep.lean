import Cynosure.SiteD.TripleBufferHandoff
import Cynosure.SiteD.TripleBufferPublishes
import Cynosure.SiteD.TripleBufferTakes

/-! # Back-pressure of the triple buffer loses no wakeup

Whatever the callers pass, a writer that is parked and has not been woken waits behind an
unread buffer, and a reader that is parked and has not been woken waits for one. The
second needs every publish to have come to its signal, which a panic prevents.
-/

namespace Cynosure.SiteD

open Prog TripleState

variable {w : Nat} {T W : Type} [Waker W]

section Start

variable {s t : TripleState w T W} {p : Prog (TripleState w T W) PUnit} {cap : Nat} {op : TripleOp T W}

/-- A call of the writer opens with a change of its handle, its wait slot and its buffer. -/
structure WriterOpens (s t : TripleState w T W) : Prop where
  generation : t.generation = s.generation
  lastReadGen : t.lastReadGen = s.lastReadGen
  published : t.published = s.published
  taken : t.taken = s.taken
  readerSlot : t.readerSlot = s.readerSlot
  reader : t.reader = s.reader ∧ t.readerOut = s.readerOut
  null : t.nullMiddle = s.nullMiddle
  slot : SlotInv t.writerSlot ∧ t.writerSlot.signals = s.writerSlot.signals

theorem WriterOpens.inv (h : WriterOpens s t) (hI : TurnInv s) :
    TurnInv t ∧ writerTurns.guar s t := by
  refine ⟨⟨?_, ?_, ?_, ?_, ?_, h.slot.1⟩, writerTurnGuar ⟨h.reader.1, h.reader.2, ?_, h.slot.2, ?_,
    h.taken, fun _ => ?_, fun _ => ?_⟩⟩
  · rw [h.generation, h.published, hI.generation]
  · rw [h.lastReadGen, h.taken, hI.lastRead]
  · rw [h.published, h.taken]
    exact hI.le
  · rw [h.published, h.taken]
    exact hI.bound
  · rw [h.readerSlot]
    exact hI.reader
  · rw [h.readerSlot]
    exact .refl _
  · rw [h.null]
    exact id
  · rw [h.published]
  · rw [h.published]

structure ReaderOpens (s t : TripleState w T W) : Prop where
  generation : t.generation = s.generation
  lastReadGen : t.lastReadGen = s.lastReadGen
  published : t.published = s.published
  taken : t.taken = s.taken
  writerSlot : t.writerSlot = s.writerSlot
  writer : t.writer = s.writer ∧ t.writerOut = s.writerOut
  null : t.nullMiddle = s.nullMiddle
  slot : SlotInv t.readerSlot ∧ t.readerSlot.signals = s.readerSlot.signals

theorem ReaderOpens.inv (h : ReaderOpens s t) (hI : TurnInv s) :
    TurnInv t ∧ readerTurns.guar s t := by
  refine ⟨⟨?_, ?_, ?_, ?_, h.slot.1, ?_⟩, readerTurnGuar ⟨h.writer.1, h.writer.2, ?_, h.slot.2, ?_,
    h.published, fun _ => ?_, fun _ => ?_⟩⟩
  · rw [h.generation, h.published, hI.generation]
  · rw [h.lastReadGen, h.taken, hI.lastRead]
  · rw [h.published, h.taken]
    exact hI.le
  · rw [h.published, h.taken]
    exact hI.bound
  · rw [h.writerSlot]
    exact hI.writer
  · rw [h.writerSlot]
    exact .refl _
  · rw [h.null]
    exact id
  · rw [h.taken]
  · rw [h.taken]

theorem WriterOpens.runs {Q : PUnit → TripleState w T W → Prop} (h : WriterOpens s t)
    (hI : TurnInv s) (hp : TurnInv t → writerTurns.Ok Q p t) :
    TurnInv t ∧ writerTurns.guar s t ∧ writerTurns.Ok Q p t := by
  obtain ⟨hinv, hguar⟩ := h.inv hI
  exact ⟨hinv, hguar, hp hinv⟩

theorem ReaderOpens.runs {Q : PUnit → TripleState w T W → Prop} (h : ReaderOpens s t)
    (hI : TurnInv s) (hp : TurnInv t → readerTurns.Ok Q p t) :
    TurnInv t ∧ readerTurns.guar s t ∧ readerTurns.Ok Q p t := by
  obtain ⟨hinv, hguar⟩ := h.inv hI
  exact ⟨hinv, hguar, hp hinv⟩

/-- A call that does nothing more leaves the slot to whoever still signals it. -/
theorem WriterOpens.done (h : WriterOpens s t) (hI : TurnInv s) (hrest : WriterWaits s)
    (hout : t.writerSlot.phase = .out) :
    TurnInv t ∧ writerTurns.guar s t ∧ writerTurns.Ok (fun _ => WriterWaits) (pure PUnit.unit) t := by
  refine h.runs hI fun _ r hr hst => WriterWaits.stable t r hr hst ⟨?_, .inl hout⟩
  rw [CutOff, h.readerSlot, h.null]
  exact hrest.signal

theorem ReaderOpens.done (h : ReaderOpens s t) (hI : TurnInv s) (hrest : ReaderWaits s)
    (hout : t.readerSlot.phase = .out) :
    TurnInv t ∧ readerTurns.guar s t ∧ readerTurns.Ok (fun _ => ReaderWaits) (pure PUnit.unit) t := by
  refine h.runs hI fun _ r hr hst => ReaderWaits.stable t r hr hst ⟨?_, .inl hout⟩
  rw [h.writerSlot]
  exact hrest.signal

theorem pollPublish_start (hw : 0 < w) (hI : TurnInv s) (h : WriterWaits s) {waker : W}
    (hcall : writerCall cap (.pollPublish waker) s = some (t, p)) :
    TurnInv t ∧ writerTurns.guar s t ∧ writerTurns.Ok (fun _ => PublishReturned) p t := by
  cases hf : s.writer.future with
  | false => simp [writerCall, hf] at hcall
  | true =>
    cases hheld : s.writer.held with
    | none => simp [writerCall, hf, hheld] at hcall
    | some buf =>
      obtain ⟨rfl, rfl⟩ := by simpa [writerCall, hf, hheld] using hcall
      refine WriterOpens.runs ?_ hI fun hinv =>
        pollPublish_turn hw waker buf _ hinv ⟨⟨rfl, rfl, rfl⟩, h.signal⟩
      exact ⟨rfl, rfl, rfl, rfl, rfl, ⟨rfl, rfl⟩, rfl, hI.writer.quit h.between rfl rfl rfl, rfl⟩

theorem writer_turn_start (hw : 0 < w) (hI : TurnInv s) (h : WriterWaits s)
    (hcall : writerCall cap op s = some (t, p)) :
    TurnInv t ∧ writerTurns.guar s t ∧ writerTurns.Ok (fun _ => WriterWaits) p t := by
  cases op with
  | pollPublish waker =>
    obtain ⟨hinv, hguar, hok⟩ := pollPublish_start hw hI h hcall
    exact ⟨hinv, hguar, hok.mono fun _ _ _ hpost => hpost.1⟩
  | cancel =>
    cases hf : s.writer.future with
    | false => simp [writerCall, hf] at hcall
    | true =>
      obtain ⟨rfl, rfl⟩ := by simpa [writerCall, hf] using hcall
      refine WriterOpens.done ?_ hI h rfl
      exact ⟨rfl, rfl, rfl, rfl, rfl, ⟨rfl, rfl⟩, rfl, hI.writer.quit h.between rfl rfl rfl, rfl⟩
  | fill contents len =>
    cases hf : s.writer.future with
    | true => simp [writerCall, hf] at hcall
    | false =>
      simp only [writerCall, hf] at hcall
      obtain ⟨r, hfill, hcall⟩ := Option.map_eq_some_iff.mp hcall
      obtain ⟨buf, -, rfl⟩ := fillHand_eq hfill
      obtain ⟨rfl, rfl⟩ := by simpa using hcall
      refine WriterOpens.done ?_ hI h (h.out hf)
      exact ⟨rfl, rfl, rfl, rfl, rfl, ⟨rfl, rfl⟩, rfl, hI.writer, rfl⟩
  | tryPublish =>
    cases hf : s.writer.future with
    | true => simp [writerCall, hf] at hcall
    | false =>
      simp only [writerCall, hf] at hcall
      obtain ⟨buf, -, hcall⟩ := Option.map_eq_some_iff.mp hcall
      obtain ⟨rfl, rfl⟩ := by simpa using hcall
      refine WriterOpens.runs ?_ hI fun hinv => ?_
      · exact ⟨rfl, rfl, rfl, rfl, rfl, ⟨rfl, rfl⟩, rfl, hI.writer, rfl⟩
      · have hok := tryPublish_turn hw buf _ hinv ⟨⟨rfl, rfl, h.out hf⟩, h.signal⟩
        exact hok.mono fun _ _ _ hpost => hpost.1
  | publish =>
    cases hf : s.writer.future with
    | true => simp [writerCall, hf] at hcall
    | false =>
      simp only [writerCall, hf] at hcall
      split at hcall
      · obtain ⟨rfl, rfl⟩ := by simpa using hcall
        refine WriterOpens.done ?_ hI h (h.out hf)
        exact ⟨rfl, rfl, rfl, rfl, rfl, ⟨rfl, rfl⟩, rfl, hI.writer, rfl⟩
      · cases hcall
  | takeHeldBuffer =>
    cases hf : s.writer.future with
    | true => simp [writerCall, hf] at hcall
    | false =>
      simp only [writerCall, hf] at hcall
      split at hcall
      · obtain ⟨rfl, rfl⟩ := by simpa using hcall
        refine WriterOpens.done ?_ hI h (h.out hf)
        exact ⟨rfl, rfl, rfl, rfl, rfl, ⟨rfl, rfl⟩, rfl, hI.writer, rfl⟩
      · cases hcall
  | tryNext | next | pollNext => cases hf : s.writer.future <;> simp [writerCall, hf] at hcall

theorem pollNext_start (hw : 0 < w) (hI : TurnInv s) (h : ReaderWaits s) {waker : W}
    (hcall : readerCall cap (.pollNext waker) s = some (t, p)) :
    TurnInv t ∧ readerTurns.guar s t ∧ readerTurns.Ok (fun _ => NextReturned) p t := by
  cases hf : s.reader.future with
  | false => simp [readerCall, hf] at hcall
  | true =>
    obtain ⟨rfl, rfl⟩ := by simpa [readerCall, hf] using hcall
    refine ReaderOpens.runs ?_ hI fun hinv =>
      pollNext_turn hw waker s.reader.held _ hinv ⟨rfl, rfl, h.signal, rfl⟩
    exact ⟨rfl, rfl, rfl, rfl, rfl, ⟨rfl, rfl⟩, rfl, hI.reader.quit h.between rfl rfl rfl, rfl⟩

theorem reader_turn_start (hw : 0 < w) (hI : TurnInv s) (h : ReaderWaits s)
    (hcall : readerCall cap op s = some (t, p)) :
    TurnInv t ∧ readerTurns.guar s t ∧ readerTurns.Ok (fun _ => ReaderWaits) p t := by
  cases op with
  | pollNext waker =>
    obtain ⟨hinv, hguar, hok⟩ := pollNext_start hw hI h hcall
    exact ⟨hinv, hguar, hok.mono fun _ _ _ hpost => hpost.1⟩
  | cancel =>
    cases hf : s.reader.future with
    | false => simp [readerCall, hf] at hcall
    | true =>
      obtain ⟨rfl, rfl⟩ := by simpa [readerCall, hf] using hcall
      refine ReaderOpens.done ?_ hI h rfl
      exact ⟨rfl, rfl, rfl, rfl, rfl, ⟨rfl, rfl⟩, rfl, hI.reader.quit h.between rfl rfl rfl, rfl⟩
  | fill contents len =>
    cases hf : s.reader.future with
    | true => simp [readerCall, hf] at hcall
    | false =>
      simp only [readerCall, hf] at hcall
      obtain ⟨r, hfill, hcall⟩ := Option.map_eq_some_iff.mp hcall
      obtain ⟨buf, -, rfl⟩ := fillHand_eq hfill
      obtain ⟨rfl, rfl⟩ := by simpa using hcall
      refine ReaderOpens.done ?_ hI h (h.out hf)
      exact ⟨rfl, rfl, rfl, rfl, rfl, ⟨rfl, rfl⟩, rfl, hI.reader, rfl⟩
  | tryNext give =>
    cases hf : s.reader.future with
    | true => simp [readerCall, hf] at hcall
    | false =>
      simp only [readerCall, hf, Option.some.injEq, Prod.mk.injEq] at hcall
      obtain ⟨rfl, rfl⟩ := hcall
      refine ReaderOpens.runs ?_ hI fun hinv => ?_
      · exact ⟨rfl, rfl, rfl, rfl, rfl, ⟨rfl, rfl⟩, rfl, hI.reader, rfl⟩
      · have hok := tryNext_turn hw (passed give s.reader.hand).1 _ hinv
          ⟨rfl, rfl, h.signal, h.out hf⟩
        exact hok.mono fun _ _ _ hpost => hpost.1
  | next give =>
    cases hf : s.reader.future with
    | true => simp [readerCall, hf] at hcall
    | false =>
      simp only [readerCall, hf] at hcall
      split at hcall
      · obtain ⟨rfl, rfl⟩ := by simpa using hcall
        refine ReaderOpens.done ?_ hI h (h.out hf)
        exact ⟨rfl, rfl, rfl, rfl, rfl, ⟨rfl, rfl⟩, rfl, hI.reader, rfl⟩
      · obtain ⟨rfl, rfl⟩ := by simpa using hcall
        refine ReaderOpens.done ?_ hI h (h.out hf)
        exact ⟨rfl, rfl, rfl, rfl, rfl, ⟨rfl, rfl⟩, rfl, hI.reader, rfl⟩
      · cases hcall
  | takeHeldBuffer =>
    cases hf : s.reader.future with
    | true => simp [readerCall, hf] at hcall
    | false =>
      simp only [readerCall, hf] at hcall
      split at hcall
      · obtain ⟨rfl, rfl⟩ := by simpa using hcall
        refine ReaderOpens.done ?_ hI h (h.out hf)
        exact ⟨rfl, rfl, rfl, rfl, rfl, ⟨rfl, rfl⟩, rfl, hI.reader, rfl⟩
      · cases hcall
  | tryPublish | publish | pollPublish =>
    cases hf : s.reader.future <;> simp [readerCall, hf] at hcall

end Start

section Runs

variable [Inhabited T] {cap : Nat} {contract : TripleState w T W → TripleSide → TripleOp T W → Bool}

theorem tripleTurns_sound (hw : 0 < w)
    (contract : TripleState w T W → TripleSide → TripleOp T W → Bool) :
    tripleTurns.Sound (tripleThreads cap contract) where
  init := ⟨rfl, rfl, le_rfl, Nat.zero_le _, .new, .new⟩
  initRest
    | .writer => ⟨.inl rfl, .inl rfl⟩
    | .reader => ⟨rfl, .inl rfl⟩
  stable
    | .writer => WriterWaits.stable
    | .reader => ReaderWaits.stable
  start := by
    intro side op s t p hI hrest hstart
    change (if contract s side op = true then _ else none) = _ at hstart
    split at hstart
    · cases side with
      | writer => exact writer_turn_start hw hI hrest hstart
      | reader => exact reader_turn_start hw hI hrest hstart
    · cases hstart
  finish := by
    intro side _ s _ hpost _
    cases side <;> exact hpost
  again := by
    intro side _ s _ _ _ hagain
    cases hagain

/-- The writer's last call was a poll of its `publish` future, and it returned `Pending`. -/
def PublishParked (cap : Nat) (contract : TripleState w T W → TripleSide → TripleOp T W → Bool)
    (s : ThreadState (TripleState w T W) TripleSide PUnit) : Prop :=
  ∃ r waker, (tripleThreads cap contract).machine.Reachable r ∧
    (tripleThreads cap contract).CallEnds .writer (.pollPublish waker) r s ∧
    s.mem.writerOut = some .pending

def NextParked (cap : Nat) (contract : TripleState w T W → TripleSide → TripleOp T W → Bool)
    (s : ThreadState (TripleState w T W) TripleSide PUnit) : Prop :=
  ∃ r waker, (tripleThreads cap contract).machine.Reachable r ∧
    (tripleThreads cap contract).CallEnds .reader (.pollNext waker) r s ∧
    s.mem.readerOut = some .pending

variable {s : ThreadState (TripleState w T W) TripleSide PUnit}

theorem PublishParked.waits (hw : 0 < w) (h : PublishParked cap contract s) :
    s.mem.writerSlot.phase = .armed ∧
      (s.mem.writerSlot.published = false → s.mem.published.length = s.mem.taken.length + 1) := by
  obtain ⟨r, waker, hr, hcall, hout⟩ := h
  have hO : tripleTurns.Sound (tripleThreads cap contract) := tripleTurns_sound hw contract
  have hok : ∀ m p, (tripleThreads cap contract).start .writer (.pollPublish waker) r.mem = some (m, p) →
      tripleTurns.rest .writer r.mem → writerTurns.Ok (fun _ => PublishReturned) p m := by
    intro m p hstart hrest
    change (if contract r.mem .writer _ = true then _ else none) = _ at hstart
    split at hstart
    · exact (pollPublish_start hw (hO.reachable hr).1 hrest hstart).2.2
    · cases hstart
  obtain ⟨-, hpost⟩ := hO.callEnds (fun _ _ _ => rfl) (fun _ => PublishReturned.stable) (hO.reachable hr) hok hcall
  have harmed := hpost.2 hout
  rcases hpost.1.slot with hslot | hslot
  · rw [harmed] at hslot
    cases hslot
  · exact ⟨harmed, hslot.2.2⟩

theorem NextParked.waits (hw : 0 < w) (h : NextParked cap contract s) :
    s.mem.readerSlot.phase = .armed ∧ (s.mem.readerSlot.published = false →
      s.mem.nullMiddle = false → s.mem.published.length = s.mem.taken.length) := by
  obtain ⟨r, waker, hr, hcall, hout⟩ := h
  have hO : tripleTurns.Sound (tripleThreads cap contract) := tripleTurns_sound hw contract
  have hok : ∀ m p, (tripleThreads cap contract).start .reader (.pollNext waker) r.mem = some (m, p) →
      tripleTurns.rest .reader r.mem → readerTurns.Ok (fun _ => NextReturned) p m := by
    intro m p hstart hrest
    change (if contract r.mem .reader _ = true then _ else none) = _ at hstart
    split at hstart
    · exact (pollNext_start hw (hO.reachable hr).1 hrest hstart).2.2
    · cases hstart
  obtain ⟨-, hpost⟩ := hO.callEnds (fun _ _ _ => rfl) (fun _ => NextReturned.stable) (hO.reachable hr) hok hcall
  have harmed := hpost.2 hout
  rcases hpost.1.slot with hslot | hslot
  · rw [harmed] at hslot
    cases hslot
  · exact ⟨harmed, hslot.2.2⟩

theorem PublishParked.unread (hw : 0 < w) (hparked : PublishParked cap contract s)
    (h : (tripleThreads cap contract).machine.Reachable s)
    (hwoken : s.mem.writerSlot.woken = false) (hidle : s.running .reader = none) :
    s.mem.published.length = s.mem.taken.length + 1 := by
  obtain ⟨hI, hsides⟩ := (tripleTurns_sound hw contract).reachable h
  obtain ⟨harmed, hunread⟩ := hparked.waits hw
  have hreader := hsides .reader
  rw [hidle] at hreader
  exact hunread (hI.writer.not_published harmed hwoken fun _ => hreader.signal)

theorem NextParked.nothing (hw : 0 < w) (hparked : NextParked cap contract s)
    (h : (tripleThreads cap contract).machine.Reachable s) (hnull : s.mem.nullMiddle = false)
    (hwoken : s.mem.readerSlot.woken = false) (hidle : s.running .writer = none) :
    s.mem.published.length = s.mem.taken.length := by
  obtain ⟨hI, hsides⟩ := (tripleTurns_sound hw contract).reachable h
  obtain ⟨harmed, hnothing⟩ := hparked.waits hw
  have hwriter := hsides .writer
  rw [hidle] at hwriter
  have hquiet : ∀ i, s.mem.readerSlot.signals i = none := by
    intro i
    rcases hwriter.signal with hnone | ⟨hpanic, -⟩
    · exact hnone
    · rw [hnull] at hpanic
      cases hpanic
  exact hnothing (hI.reader.not_published harmed hwoken hquiet) hnull

end Runs

/-- A caller can pass only the buffer it last received, or `None`. Whichever it passes, a parked writer
that was not woken waits behind an unread buffer; a parked reader that was not woken waits for one,
and the two never wait at once, as long as no call has panicked on a null middle pointer. Callers
that give their buffers back never meet the panic. -/
theorem triplebuffer_parks_behind_unread (w : Nat) (hw : 0 < w) (cap : Nat) (T W : Type) [Waker W]
    [Inhabited T] (contract : TripleState w T W → TripleSide → TripleOp T W → Bool)
    (s : ThreadState (TripleState w T W) TripleSide PUnit)
    (h : (tripleThreads cap contract).machine.Reachable s) :
    (PublishParked cap contract s → s.mem.writerSlot.woken = false → s.running .reader = none →
      s.mem.generation ≠ s.mem.lastReadGen ∧
        s.mem.published.length = s.mem.taken.length + 1) ∧
    (s.mem.nullMiddle = false →
      (NextParked cap contract s → s.mem.readerSlot.woken = false → s.running .writer = none →
        s.mem.generation = s.mem.lastReadGen ∧ s.mem.published.length = s.mem.taken.length) ∧
      ¬ (PublishParked cap contract s ∧ s.mem.writerSlot.woken = false ∧
        NextParked cap contract s ∧ s.mem.readerSlot.woken = false)) ∧
    ((∀ s op, contract s .reader op = true → sparesHeld s .reader op = true) →
      s.mem.nullMiddle = false) := by
  have hI := ((tripleTurns_sound hw contract).reachable h).1
  refine ⟨fun hparked hwoken hidle => ?_, fun hnull => ⟨fun hparked hwoken hidle => ?_, ?_⟩,
    fun hspares => ((tripleOutline_sound hw hspares).reachable h).1.sound.1⟩
  · have hunread := hparked.unread hw h hwoken hidle
    refine ⟨fun heq => ?_, hunread⟩
    rw [hI.generation, hI.lastRead] at heq
    have := hI.eq_of_generation hw heq
    omega
  · have hnothing := hparked.nothing hw h hnull hwoken hidle
    exact ⟨by rw [hI.generation, hI.lastRead, hnothing], hnothing⟩
  · rintro ⟨hpublish, hpublishWoken, hnext, hnextWoken⟩
    have hwriter : s.running .writer = none := by
      obtain ⟨_, _, _, ⟨_, _, _, _, _, hidle⟩, _⟩ := hpublish
      exact hidle
    have hreader : s.running .reader = none := by
      obtain ⟨_, _, _, ⟨_, _, _, _, _, hidle⟩, _⟩ := hnext
      exact hidle
    have hunread := hpublish.unread hw h hpublishWoken hreader
    have hnothing := hnext.nothing hw h hnull hnextWoken hwriter
    omega

/-- A second publish parks behind the first. -/
theorem triplebuffer_publish_parks :
    ∃ s : ThreadState (TripleState 8 Nat Waker.OfTask) TripleSide PUnit,
      (tripleThreads 1 fun _ _ _ => true).machine.Reachable s ∧
      PublishParked 1 (fun _ _ _ => true) s ∧ s.mem.writerSlot.woken = false ∧
      s.running .reader = none ∧ s.mem.generation ≠ s.mem.lastReadGen := by
  obtain ⟨s, hrun, hidle, hout, hwoken⟩ := Machine.exists_end
    (M := (tripleThreads (w := 8) (T := Nat) (W := Waker.OfTask) 1 fun _ _ _ => true).machine)
    (P := fun s => s.running .writer = none ∧ s.mem.writerOut = some .pending ∧
      s.mem.writerSlot.woken = false)
    (c := fun s => decide ((s.running .writer).isNone ∧ s.mem.writerOut = some .pending ∧
      s.mem.writerSlot.woken = false))
    ((.call .writer .tryPublish :: List.replicate 14 (.step .writer) ++
      [.call .writer .publish, .step .writer]) ++
      .call .writer (.pollPublish ⟨0⟩) :: List.replicate 12 (.step .writer))
    (by decide +kernel) fun s _ hs => by simpa using of_decide_eq_true hs
  have hparked : PublishParked 1 (fun _ _ _ => true) s := by
    obtain ⟨r, hr, hcall⟩ := Threads.CallEnds.of_run hrun (by simp) hidle
    exact ⟨r, ⟨0⟩, ⟨_, hr⟩, hcall, hout⟩
  have hreader : s.running .reader = none := Threads.run_running hrun (by simp [ThreadOp.party])
  have hturns := triplebuffer_parks_behind_unread 8 (by decide) 1 Nat Waker.OfTask _ s ⟨_, hrun⟩
  exact ⟨s, ⟨_, hrun⟩, hparked, hwoken, hreader, (hturns.1 hparked hwoken hreader).1⟩

/-- A reader that keeps its buffers drains the pool. The publish that finds the middle empty then
panics after its store of the generation, and the parked reader is not told. -/
theorem triplebuffer_panicked_publish_wakes_nobody :
    ∃ s : ThreadState (TripleState 8 Nat Waker.OfTask) TripleSide PUnit,
      (tripleThreads 1 fun _ _ _ => true).machine.Reachable s ∧
      NextParked 1 (fun _ _ _ => true) s ∧ s.mem.readerSlot.woken = false ∧
      s.running .writer = none ∧ s.mem.generation ≠ s.mem.lastReadGen ∧
      s.mem.writerOut = some .panicked := by
  obtain ⟨s, hrun, hreader, hwriter, hout, hwoken, hunread, hpanic⟩ := Machine.exists_end
    (M := (tripleThreads (w := 8) (T := Nat) (W := Waker.OfTask) 1 fun _ _ _ => true).machine)
    (P := fun s => s.running .reader = none ∧ s.running .writer = none ∧
      s.mem.readerOut = some .pending ∧ s.mem.readerSlot.woken = false ∧
      s.mem.generation ≠ s.mem.lastReadGen ∧ s.mem.writerOut = some .panicked)
    (c := fun s => decide ((s.running .reader).isNone ∧ (s.running .writer).isNone ∧
      s.mem.readerOut = some .pending ∧ s.mem.readerSlot.woken = false ∧
      s.mem.generation ≠ s.mem.lastReadGen ∧ s.mem.writerOut = some .panicked))
    (List.flatten
      [.call .writer .tryPublish :: List.replicate 14 (.step .writer),
      .call .reader (.tryNext false) :: List.replicate 13 (.step .reader),
      .call .writer .tryPublish :: List.replicate 14 (.step .writer),
      .call .reader (.tryNext false) :: List.replicate 13 (.step .reader),
      [.call .reader (.next false), .step .reader]] ++
      .call .reader (.pollNext ⟨0⟩) :: (List.replicate 12 (.step .reader) ++
        .call .writer .tryPublish :: List.replicate 13 (.step .writer)))
    (by decide +kernel) fun s _ hs => by simpa using of_decide_eq_true hs
  have hparked : NextParked 1 (fun _ _ _ => true) s := by
    obtain ⟨r, hr, hcall⟩ := Threads.CallEnds.of_run hrun (by simp) hreader
    exact ⟨r, ⟨0⟩, ⟨_, hr⟩, hcall, hout⟩
  exact ⟨s, ⟨_, hrun⟩, hparked, hwoken, hwriter, hunread, hpanic⟩

end Cynosure.SiteD
