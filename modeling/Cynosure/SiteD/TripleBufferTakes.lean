import Cynosure.SiteD.TripleBufferWaits

/-! # The reader's turn at the triple buffer

A take that found a buffer unread keeps its turn until it stores `last_read_gen`, since
the writer does not publish before that. A reader that parks found nothing unread after
it was armed.
-/

namespace Cynosure.SiteD

open Prog TripleState

variable {w : Nat} {T W : Type} {future : Bool} {current : Option W}
  {phase : Phase W} {s t : TripleState w T W}

/-- The reader is inside a call and in the given phase of its own slot. -/
structure Reads (future : Bool) (current : Option W) (phase : Phase W) (s : TripleState w T W) : Prop where
  handle : s.reader.future = future
  current : s.readerSlot.current = current
  signal : s.writerSlot.signals () = none
  phase : s.readerSlot.phase = phase

theorem Reads.of_rely (hst : ReaderTurn s t) (h : Reads future current phase s) : Reads future current phase t :=
  ⟨by rw [hst.handle, h.handle], by rw [hst.slot.current, h.current],
    by rw [hst.signals, h.signal], by rw [hst.slot.phase, h.phase]⟩

/-- The same while a signal to the writer is under way. -/
def Signals (future : Bool) (current : Option W) (phase : Phase W) (s : TripleState w T W) : Prop :=
  s.reader.future = future ∧ s.readerSlot.current = current ∧ s.readerSlot.phase = phase

theorem Signals.of_rely (hst : ReaderTurn s t) (h : Signals future current phase s) :
    Signals future current phase t :=
  ⟨by rw [hst.handle, h.1], by rw [hst.slot.current, h.2.1], by rw [hst.slot.phase, h.2.2]⟩

/-- It has seen that a buffer is unread; `g` is the generation it read. -/
structure Takes (future : Bool) (current : Option W) (phase : Phase W) (s : TripleState w T W) : Prop
    extends Reads future current phase s where
  unread : s.published.length = s.taken.length + 1

theorem Takes.of_rely (hst : ReaderTurn s t) (h : Takes future current phase s) : Takes future current phase t :=
  ⟨h.toReads.of_rely hst, by rw [hst.quiet h.unread, hst.taken, h.unread]⟩

def TakesAt (future : Bool) (current : Option W) (phase : Phase W) (g : BitVec w) (s : TripleState w T W) : Prop :=
  Takes future current phase s ∧ g = BitVec.ofNat w s.published.length

/-- What a look at the counters has told the reader. -/
def Looked (future : Bool) (current : Option W) (phase : Phase W) (unread : Bool) (s : TripleState w T W) : Prop :=
  Reads future current phase s ∧ if unread then s.published.length = s.taken.length + 1
    else s.readerSlot.published = false → s.published.length = s.taken.length

theorem nothing_of_rely (hst : ReaderTurn s t)
    (h : s.readerSlot.published = false → s.published.length = s.taken.length)
    (ht : t.readerSlot.published = false) : t.published.length = t.taken.length := by
  rw [hst.signalled ht, hst.taken]
  exact h (hst.slot.published ht)

/-- How a take ended: with a buffer, or with the panic. -/
def Taken (future : Bool) (current : Option W) (phase : Phase W) (buf : Option AlignedBuffer) (s : TripleState w T W) :
    Prop :=
  Reads future current phase s ∧ (buf = none → s.nullMiddle = true)

section Contracts

variable [Waker W]

theorem Reads.stable : readerTurns.Stable (Reads future current phase : TripleState w T W → Prop) :=
  fun _ _ _ hst h => h.of_rely hst

theorem TakesAt.stable (g : BitVec w) :
    readerTurns.Stable (TakesAt future current phase g : TripleState w T W → Prop) := by
  intro s t _ (hst : ReaderTurn s t) h
  exact ⟨h.1.of_rely hst, by rw [hst.quiet h.1.unread, h.2]⟩

theorem Looked.stable (unread : Bool) :
    readerTurns.Stable (Looked future current phase unread : TripleState w T W → Prop) := by
  intro s t _ (hst : ReaderTurn s t) h
  refine ⟨h.1.of_rely hst, ?_⟩
  have hlooked := h.2
  cases unread with
  | true => exact ((Takes.mk h.1 hlooked).of_rely hst).unread
  | false => exact nothing_of_rely hst hlooked

theorem Taken.stable (buf : Option AlignedBuffer) :
    readerTurns.Stable (Taken future current phase buf : TripleState w T W → Prop) :=
  fun _ _ _ hst h => ⟨h.1.of_rely hst, fun hbuf => hst.null (h.2 hbuf)⟩

theorem readerTurns_idle (s : TripleState w T W) : readerTurns.guar s s :=
  readerTurnGuar (.refl s)

theorem readerSame_triple {P Q : TripleState w T W → Prop}
    {f : TripleState w T W → TripleState w T W} (hP : readerTurns.Stable P)
    (hQ : readerTurns.Stable Q) (hf : ∀ s, SameTurn s (f s))
    (hw : ∀ s, (f s).writer = s.writer ∧ (f s).writerOut = s.writerOut)
    (h : ∀ s, P s → Q (f s)) : readerTurns.Triple P (store f) fun _ => Q :=
  .store hP (fun _ => hQ) fun s hI hs =>
    ⟨(hf s).inv hI, readerTurnGuar ((hf s).writerTurn (hw s).1 (hw s).2), h s hs⟩

/-- The generation is read first, so a buffer published in between is only seen next time. -/
theorem hasUnread_turn (hw : 0 < w) : readerTurns.Triple
    (Reads (w := w) (T := T) (W := W) future current phase) hasUnread (Looked future current phase) := by
  have hfirst : ∀ g : BitVec w, readerTurns.Stable fun s : TripleState w T W =>
      Reads future current phase s ∧
        (g ≠ BitVec.ofNat w s.taken.length → s.published.length = s.taken.length + 1) ∧
        (s.readerSlot.published = false → g = BitVec.ofNat w s.published.length) := by
    intro g s t _ (hst : ReaderTurn s t) ⟨hreads, hne, heq⟩
    refine ⟨hreads.of_rely hst, fun hg => ?_, fun ht => ?_⟩
    · rw [hst.taken] at hg
      exact ((Takes.mk hreads (hne hg)).of_rely hst).unread
    · rw [hst.signalled ht]
      exact heq (hst.slot.published ht)
  have hload : readerTurns.Triple (Reads (w := w) (T := T) (W := W) future current phase) loadGenerations
      fun g => Looked future current phase (decide (g.1 ≠ g.2)) := by
    apply Contract.Triple.bind
    · refine .load Reads.stable hfirst (fun s _ _ => readerTurns_idle s) fun s hI h => ⟨h, ?_, ?_⟩
      · rw [hI.generation]
        exact hI.unread_of_generation
      · exact fun _ => hI.generation
    intro g
    apply Contract.Triple.bind
    · refine .load (hfirst g) (fun l => Looked.stable (decide (g ≠ l)))
        (fun s _ _ => readerTurns_idle s) fun s hI ⟨hreads, hne, heq⟩ => ⟨hreads, ?_⟩
      rw [hI.lastRead]
      by_cases hg : g = BitVec.ofNat w s.taken.length
      · simp only [ne_eq, hg, not_true, decide_false, Bool.false_eq_true, if_false]
        intro hquiet
        exact hI.eq_of_generation hw ((heq hquiet).symm.trans hg)
      · simp only [ne_eq, hg, not_false_eq_true, decide_true, if_true]
        exact hne hg
    exact fun l => .ret (Looked.stable (decide (g ≠ l))) fun _ _ h => h
  apply hload.bind
  exact fun g => .ret (Looked.stable (decide (g.1 ≠ g.2))) fun _ _ h => h

/-- The signals of the reader go to the writer's slot. -/
theorem wakeWriter_turn : readerTurns.Triple
    (fun s : TripleState w T W => Signals future current phase s ∧ s.writerSlot.signals () = some .load)
    wakeWriter fun _ => Reads future current phase := by
  have hsignal : readerTurns.Triple
      (fun s : TripleState w T W => Signals future current phase s ∧ s.writerSlot.signals () = some .load)
      wakeWriter fun _ s => Signals future current phase s ∧ s.writerSlot.signals () = none := by
    refine signal_triple (fun _ _ => rfl) ?_ ?_
    · intro pc s t _ (hst : ReaderTurn s t) h
      exact ⟨h.1.of_rely hst, by rw [hst.signals, h.2]⟩
    · intro s pc hI hs hpc
      refine ⟨{ hI with writer := hI.writer.signalStep hpc }, ?_, hs⟩
      exact readerTurnGuar ⟨rfl, rfl, SlotUse.sees_signalStep _ _ _, rfl, id, rfl, fun _ => rfl,
        fun _ => rfl⟩
  exact hsignal.conseq (fun _ _ h => h) fun _ s _ h => ⟨h.1.1, h.1.2.1, h.2, h.1.2.2⟩

/-- The store of `last_read_gen` is a take and begins a signal. -/
theorem commitRead_turn {g : BitVec w} {buf : AlignedBuffer} : readerTurns.Triple
    (TakesAt (T := T) (W := W) future current phase g) (store (TripleState.commitRead g buf))
    fun _ s => Signals future current phase s ∧ s.writerSlot.signals () = some .load := by
  refine .store (TakesAt.stable g) (fun _ => ?_) fun s hI ⟨h, hg⟩ => ?_
  · intro s t _ (hst : ReaderTurn s t) h
    exact ⟨h.1.of_rely hst, by rw [hst.signals, h.2]⟩
  · have hunread := h.unread
    have hlen : (s.commitRead g buf).taken.length = s.taken.length + 1 := by
      simp [TripleState.commitRead]
    refine ⟨?_, ?_, ⟨h.handle, h.current, h.phase⟩, SlotUse.beginSignal_signals_self _ _⟩
    · exact {
        generation := hI.generation
        lastRead := by
          rw [hlen, ← hunread, ← hg]
          rfl
        le := by rw [hlen]; exact hunread.ge
        bound := by
          rw [hlen]
          change s.published.length ≤ _
          omega
        reader := hI.reader
        writer := hI.writer.beginSignal h.signal }
    · refine readerTurnGuar ⟨rfl, rfl, SlotUse.sees_beginSignal _ _, rfl, id, rfl, fun hread => ?_,
        fun hquiet => by cases hquiet⟩
      omega

theorem readerTakesMiddle_turn {g : BitVec w} {m : Fin 3} : readerTurns.Triple
    (TakesAt (T := T) (W := W) future current phase g) (readerTakesMiddle g m) (Taken future current phase) := by
  apply Contract.Triple.bind (R := fun ptr s => TakesAt future current phase g s ∧
    (ptr = none → s.nullMiddle = true))
  · refine .exchange (TakesAt.stable g) (fun ptr => ?_) fun s hI h => ?_
    · exact fun s t hI hst h => ⟨TakesAt.stable g s t hI hst h.1, fun hp => hst.null (h.2 hp)⟩
    · have hsame : SameTurn s (s.takeReader m) :=
        ⟨rfl, rfl, rfl, rfl, rfl, rfl, fun hnull => by simp [TripleState.takeReader, hnull]⟩
      refine ⟨hsame.inv hI, readerTurnGuar (hsame.writerTurn rfl rfl), ⟨{ h.1 with }, h.2⟩,
        fun hp => ?_⟩
      simp [TripleState.takeReader, hp]
  rintro (_ | p)
  · refine .ret (fun s t hI hst h => ?_) fun s _ h => ⟨h.1.1.toReads, fun _ => h.2 rfl⟩
    exact ⟨TakesAt.stable g s t hI hst h.1, fun hp => hst.null (h.2 hp)⟩
  apply Contract.Triple.bind (R := fun _ => TakesAt future current phase g)
  · refine .load (fun s t hI hst h => ?_) (fun _ => TakesAt.stable g)
      (fun s _ _ => readerTurns_idle s) fun _ _ h => h.1
    exact ⟨TakesAt.stable g s t hI hst h.1, fun hp => hst.null (h.2 hp)⟩
  intro len
  apply commitRead_turn.bind
  intro _
  apply wakeWriter_turn.bind
  exact fun _ => .ret Reads.stable fun _ _ h => ⟨h, fun hbuf => by cases hbuf⟩

theorem returnPrevious_turn {g : BitVec w} {r : Fin 3} (previous : Option AlignedBuffer) :
    readerTurns.Triple (TakesAt (T := T) (W := W) future current phase g) (returnPrevious r previous)
      fun _ => TakesAt future current phase g := by
  cases previous with
  | none => exact .ret (TakesAt.stable g) fun _ _ h => h
  | some buf =>
    apply Contract.Triple.bind (R := fun _ => TakesAt future current phase g)
    · exact readerSame_triple (TakesAt.stable g) (TakesAt.stable g)
        (fun _ => ⟨rfl, rfl, rfl, rfl, rfl, rfl, id⟩) (fun _ => ⟨rfl, rfl⟩)
        fun _ h => ⟨{ h.1 with }, h.2⟩
    · intro _
      exact readerSame_triple (TakesAt.stable g) (TakesAt.stable g)
        (fun _ => ⟨rfl, rfl, rfl, rfl, rfl, rfl, id⟩) (fun _ => ⟨rfl, rfl⟩)
        fun _ h => ⟨{ h.1 with }, h.2⟩

theorem readerTakeNow_turn (previous : Option AlignedBuffer) : readerTurns.Triple
    (Takes (w := w) (T := T) (W := W) future current phase) (readerTakeNow previous) (Taken future current phase) := by
  have hstart : readerTurns.Stable (Takes (w := w) (T := T) (W := W) future current phase) :=
    fun _ _ _ hst h => h.of_rely hst
  apply Contract.Triple.bind (R := TakesAt future current phase)
  · exact .load hstart TakesAt.stable (fun s _ _ => readerTurns_idle s)
      fun s hI h => ⟨h, hI.generation⟩
  intro g
  apply Contract.Triple.bind (R := fun _ => TakesAt future current phase g)
  · exact .load (TakesAt.stable g) (fun _ => TakesAt.stable g) (fun s _ _ => readerTurns_idle s)
      fun _ _ h => h
  intro r
  apply Contract.Triple.bind (R := fun _ => TakesAt future current phase g)
  · exact .load (TakesAt.stable g) (fun _ => TakesAt.stable g) (fun s _ _ => readerTurns_idle s)
      fun _ _ h => h
  intro m
  apply (returnPrevious_turn previous).bind
  intro _
  apply Contract.Triple.bind (R := fun _ => TakesAt future current phase g)
  · exact readerSame_triple (TakesAt.stable g) (TakesAt.stable g)
      (fun _ => ⟨rfl, rfl, rfl, rfl, rfl, rfl, id⟩) (fun _ => ⟨rfl, rfl⟩)
      fun _ h => ⟨{ h.1 with }, h.2⟩
  intro _
  apply Contract.Triple.bind (R := fun _ => TakesAt future current phase g)
  · exact readerSame_triple (TakesAt.stable g) (TakesAt.stable g)
      (fun _ => ⟨rfl, rfl, rfl, rfl, rfl, rfl, id⟩) (fun _ => ⟨rfl, rfl⟩)
      fun _ h => ⟨{ h.1 with }, h.2⟩
  exact fun _ => readerTakesMiddle_turn

/-- A try that takes nothing saw nothing to take. -/
def TriedTake (future : Bool) (current : Option W) (phase : Phase W) :
    Option (Option AlignedBuffer) → TripleState w T W → Prop
  | none => Looked future current phase false
  | some buf => Taken future current phase buf

theorem tryTakeNow_turn (hw : 0 < w) (previous : Option AlignedBuffer) : readerTurns.Triple
    (Reads (w := w) (T := T) (W := W) future current phase) (tryTakeNow previous) (TriedTake future current phase) := by
  apply (hasUnread_turn hw).bind
  rintro (_ | _)
  · exact .ret (Looked.stable false) fun _ _ h => h
  · have hrun : readerTurns.Triple (Takes (w := w) (T := T) (W := W) future current phase)
        (readerTakeNow previous >>= fun buf => pure (some buf)) (TriedTake future current phase) := by
      apply (readerTakeNow_turn previous).bind
      exact fun buf => .ret (Taken.stable buf) fun _ _ h => h
    exact hrun.conseq (fun _ _ h => ⟨h.1, h.2⟩) fun _ _ _ h => h

def NextReturned (s : TripleState w T W) : Prop :=
  ReaderWaits s ∧ (s.readerOut = some .pending → s.readerSlot.phase = .armed)

theorem NextReturned.stable : readerTurns.Stable (NextReturned : TripleState w T W → Prop) := by
  intro s t hI (hst : ReaderTurn s t) h
  refine ⟨ReaderWaits.stable s t hI hst h.1, ?_⟩
  rw [hst.out, hst.slot.phase]
  exact h.2

/-- A take that returns leaves the slot; one that panics may leave it armed. -/
theorem takeReturns_turn (buf : Option AlignedBuffer) (hphase : phase = .out ∨ phase = .armed ∧
    future = true ∧ buf = none) : readerTurns.Triple
    (Taken (w := w) (T := T) (W := W) future current phase buf) (takeReturns buf) fun _ => NextReturned := by
  have hslot : ∀ s : TripleState w T W, Taken future current phase buf s → s.readerSlot.phase = .out ∨
      s.readerSlot.phase = .armed ∧ s.reader.future = true ∧ s.nullMiddle = true ∧ buf = none := by
    intro s h
    rw [h.1.phase, h.1.handle]
    exact hphase.imp id fun harmed => ⟨harmed.1, harmed.2.1, h.2 harmed.2.2, harmed.2.2⟩
  cases buf with
  | none =>
    refine readerSame_triple (Taken.stable none) NextReturned.stable
      (fun _ => ⟨rfl, rfl, rfl, rfl, rfl, rfl, id⟩) (fun _ => ⟨rfl, rfl⟩) fun s h => ?_
    refine ⟨⟨h.1.signal, (hslot s h).imp id fun harmed => ?_⟩, fun hout => by cases hout⟩
    refine ⟨harmed.1, harmed.2.1, fun _ hnull => ?_⟩
    have hpanic : s.nullMiddle = false := hnull
    rw [harmed.2.2.1] at hpanic
    cases hpanic
  | some buf =>
    refine readerSame_triple (Taken.stable (some buf)) NextReturned.stable
      (fun _ => ⟨rfl, rfl, rfl, rfl, rfl, rfl, id⟩) (fun _ => ⟨rfl, rfl⟩) fun s h => ?_
    obtain hout | ⟨-, -, -, hbuf⟩ := hslot s h
    · exact ⟨⟨h.1.signal, .inl hout⟩, fun hout => by cases hout⟩
    · cases hbuf

theorem tryNext_turn (hw : 0 < w) (previous : Option AlignedBuffer) : readerTurns.Triple
    (Reads (w := w) (T := T) (W := W) future current .out) (tryNext previous) fun _ => NextReturned := by
  apply (tryTakeNow_turn hw previous).bind
  rintro (_ | buf)
  · exact readerSame_triple (Looked.stable false) NextReturned.stable
      (fun _ => ⟨rfl, rfl, rfl, rfl, rfl, rfl, id⟩) (fun _ => ⟨rfl, rfl⟩)
      fun s h => ⟨⟨h.1.signal, .inl h.1.phase⟩, fun hout => by cases hout⟩
  · exact takeReturns_turn buf (.inl rfl)

theorem armReader_turn (waker : W) : readerTurns.Triple
    (Reads (w := w) (T := T) (W := W) future (some waker) .out) (armReader waker)
    fun _ => Reads future (some waker) .armed := by
  let Held (s : TripleState w T W) : Prop := (s.reader.future = future ∧ s.writerSlot.signals () = none) ∧
    s.readerSlot.current = some waker
  have harm : readerTurns.Triple (fun s => Held s ∧ s.readerSlot.phase = .out) (armReader waker)
      fun _ s => Held s ∧ s.readerSlot.phase = .armed := by
    refine arm_triple (fun _ _ => rfl) (fun s (hI : TurnInv s) => hI.reader) ?_ ?_ ?_
    · intro phase s t _ (hst : ReaderTurn s t) ⟨⟨⟨hf, hs⟩, hc⟩, hp⟩
      exact ⟨⟨⟨by rw [hst.handle, hf], by rw [hst.signals, hs]⟩, by rw [hst.slot.current, hc]⟩,
        by rw [hst.slot.phase, hp]⟩
    · intro s pc hI hs hpc
      refine ⟨{ hI with reader := hI.reader.armStep hpc }, ?_, hs⟩
      exact readerTurnGuar ⟨rfl, rfl, .refl _, rfl, id, rfl, fun _ => rfl, fun _ => rfl⟩
    · intro s hI hs hout
      refine ⟨{ hI with reader := hI.reader.beginArm hout hs.2 }, ?_, hs⟩
      exact readerTurnGuar ⟨rfl, rfl, .refl _, rfl, id, rfl, fun _ => rfl, fun _ => rfl⟩
  exact harm.conseq (fun _ _ h => ⟨⟨⟨h.handle, h.signal⟩, h.current⟩, h.phase⟩)
    fun _ s _ h => ⟨h.1.1.1, h.1.2, h.1.1.2, h.2⟩

theorem disarmReader_turn (buf : AlignedBuffer) : readerTurns.Triple
    (Taken (w := w) (T := T) (W := W) future current .armed (some buf))
    (store fun s => { s with readerSlot := s.readerSlot.disarm })
    fun _ => Taken future current .out (some buf) := by
  refine .store (Taken.stable _) (fun _ => Taken.stable _) fun s hI h => ?_
  refine ⟨{ hI with reader := ?_ }, ?_, ⟨h.1.handle, h.1.current, h.1.signal, rfl⟩, h.2⟩
  · exact hI.reader.quit (fun pc hpc => by rw [h.1.phase] at hpc; cases hpc) rfl rfl rfl
  · exact readerTurnGuar ⟨rfl, rfl, .refl _, rfl, id, rfl, fun _ => rfl, fun _ => rfl⟩

theorem pollNext_turn (hw : 0 < w) (waker : W) (previous : Option AlignedBuffer) :
    readerTurns.Triple (Reads (w := w) (T := T) (W := W) true (some waker) .out)
      (pollNext waker previous) fun _ => NextReturned := by
  apply (tryTakeNow_turn hw previous).bind
  rintro (_ | buf)
  · apply Contract.Triple.bind (R := fun _ => Reads true (some waker) .armed)
    · exact (armReader_turn waker).conseq (fun _ _ h => h.1) fun _ _ _ h => h
    intro _
    apply (tryTakeNow_turn hw previous).bind
    rintro (_ | _ | buf)
    · exact readerSame_triple (Looked.stable false) NextReturned.stable
        (fun _ => ⟨rfl, rfl, rfl, rfl, rfl, rfl, id⟩) (fun _ => ⟨rfl, rfl⟩)
        fun s h => ⟨⟨h.1.signal, .inr ⟨h.1.phase, h.1.handle, fun hquiet _ => h.2 hquiet⟩⟩,
          fun _ => h.1.phase⟩
    · exact takeReturns_turn none (.inr ⟨rfl, rfl, rfl⟩)
    · exact (disarmReader_turn buf).bind fun _ => takeReturns_turn (some buf) (.inl rfl)
  · exact takeReturns_turn buf (.inl rfl)

end Contracts

end Cynosure.SiteD
