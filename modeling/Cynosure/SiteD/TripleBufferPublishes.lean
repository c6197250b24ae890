import Cynosure.SiteD.TripleBufferWaits

/-! # The writer's turn at the triple buffer

A publish that found everything read keeps its turn until it stores the generation. The
buffer it publishes is then unread, so a writer that panics, or that parks, has one
unread buffer in the middle until the reader signals.
-/

namespace Cynosure.SiteD

open Prog TripleState

variable {w : Nat} {T W : Type} {future : Bool} {current : Option W} {phase : Phase W}
  {s t : TripleState w T W}

/-- The writer's own handle and slot. -/
def Holds (future : Bool) (current : Option W) (phase : Phase W) (s : TripleState w T W) : Prop :=
  s.writer.future = future ∧ s.writerSlot.current = current ∧ s.writerSlot.phase = phase

theorem Holds.of_rely (hst : WriterTurn s t) (h : Holds future current phase s) :
    Holds future current phase t :=
  ⟨by rw [hst.handle, h.1], by rw [hst.slot.current, h.2.1], by rw [hst.slot.phase, h.2.2]⟩

/-- The writer is inside a call. -/
structure Writes (future : Bool) (current : Option W) (phase : Phase W) (s : TripleState w T W) :
    Prop where
  holds : Holds future current phase s
  signal : CutOff s

theorem Writes.of_rely (hst : WriterTurn s t) (h : Writes future current phase s) :
    Writes future current phase t :=
  ⟨h.holds.of_rely hst, h.signal.of_rely hst⟩

/-- It has seen that everything is read. -/
structure Publishes (future : Bool) (current : Option W) (phase : Phase W) (s : TripleState w T W) :
    Prop extends Writes future current phase s where
  free : s.published.length = s.taken.length

theorem Publishes.of_rely (hst : WriterTurn s t) (h : Publishes future current phase s) :
    Publishes future current phase t :=
  ⟨h.toWrites.of_rely hst, by rw [hst.quiet h.free, hst.published, h.free]⟩

def PublishesAt (future : Bool) (current : Option W) (phase : Phase W) (g : BitVec w)
    (s : TripleState w T W) : Prop :=
  Publishes future current phase s ∧ g = BitVec.ofNat w s.published.length

/-- What a look at the counters has told the writer. -/
def SawFree (future : Bool) (current : Option W) (phase : Phase W) (free : Bool)
    (s : TripleState w T W) : Prop :=
  Writes future current phase s ∧ if free then s.published.length = s.taken.length
    else s.writerSlot.published = false → s.published.length = s.taken.length + 1

/-- The generation is stored; unless the reader has signalled since, the buffer is unread. -/
def HasPublished (future : Bool) (current : Option W) (phase : Phase W) (s : TripleState w T W) :
    Prop :=
  Holds future current phase s ∧
    (s.writerSlot.published = false → s.published.length = s.taken.length + 1)

theorem HasPublished.of_rely (hst : WriterTurn s t) (h : HasPublished future current phase s) :
    HasPublished future current phase t :=
  ⟨h.1.of_rely hst, stillUnread_of_rely hst h.2⟩

/-- How a publish ended: with the next buffer, or with the panic. -/
def Published (future : Bool) (current : Option W) (phase : Phase W) (_next : Option AlignedBuffer)
    (s : TripleState w T W) : Prop :=
  HasPublished future current phase s ∧ CutOff s

section Contracts

variable [Waker W]

theorem Writes.stable : writerTurns.Stable (Writes future current phase : TripleState w T W → Prop) :=
  fun _ _ _ hst h => h.of_rely hst

theorem Publishes.stable :
    writerTurns.Stable (Publishes future current phase : TripleState w T W → Prop) :=
  fun _ _ _ hst h => h.of_rely hst

theorem PublishesAt.stable (g : BitVec w) :
    writerTurns.Stable (PublishesAt future current phase g : TripleState w T W → Prop) := by
  intro s t _ (hst : WriterTurn s t) h
  exact ⟨h.1.of_rely hst, by rw [hst.published, h.2]⟩

theorem SawFree.stable (free : Bool) :
    writerTurns.Stable (SawFree future current phase free : TripleState w T W → Prop) := by
  intro s t _ (hst : WriterTurn s t) h
  refine ⟨h.1.of_rely hst, ?_⟩
  have hsaw := h.2
  cases free with
  | true => exact ((Publishes.mk h.1 hsaw).of_rely hst).free
  | false => exact stillUnread_of_rely hst hsaw

theorem Published.stable (next : Option AlignedBuffer) :
    writerTurns.Stable (Published future current phase next : TripleState w T W → Prop) :=
  fun _ _ _ hst h => ⟨h.1.of_rely hst, h.2.of_rely hst⟩

theorem HasPublished.stable (pc : Option (SignalPc W)) :
    writerTurns.Stable fun s : TripleState w T W =>
      HasPublished future current phase s ∧ s.readerSlot.signals () = pc := by
  intro s t _ (hst : WriterTurn s t) h
  exact ⟨h.1.of_rely hst, by rw [hst.signals, h.2]⟩

theorem writerTurns_idle (s : TripleState w T W) : writerTurns.guar s s :=
  writerTurnGuar (.refl s)

theorem writerSame_triple {P Q : TripleState w T W → Prop}
    {f : TripleState w T W → TripleState w T W} (hP : writerTurns.Stable P)
    (hQ : writerTurns.Stable Q) (hf : ∀ s, SameTurn s (f s))
    (hr : ∀ s, (f s).reader = s.reader ∧ (f s).readerOut = s.readerOut)
    (h : ∀ s, P s → Q (f s)) : writerTurns.Triple P (store f) fun _ => Q :=
  .store hP (fun _ => hQ) fun s hI hs =>
    ⟨(hf s).inv hI, writerTurnGuar ((hf s).readerTurn (hr s).1 (hr s).2), h s hs⟩

/-- A take between the two loads is seen, or comes with a signal. -/
theorem middleFree_turn (hw : 0 < w) : writerTurns.Triple
    (Writes (w := w) (T := T) (W := W) future current phase) middleFree
    (SawFree future current phase) := by
  have hfirst : ∀ g : BitVec w, writerTurns.Stable fun s : TripleState w T W =>
      Writes future current phase s ∧ g = BitVec.ofNat w s.published.length := by
    intro g s t _ (hst : WriterTurn s t) h
    exact ⟨h.1.of_rely hst, by rw [hst.published, h.2]⟩
  have hload : writerTurns.Triple (Writes (w := w) (T := T) (W := W) future current phase)
      loadGenerations fun g => SawFree future current phase (decide (g.1 = g.2)) := by
    apply Contract.Triple.bind
    · exact .load Writes.stable hfirst (fun s _ _ => writerTurns_idle s)
        fun s hI h => ⟨h, hI.generation⟩
    intro g
    apply Contract.Triple.bind
    · refine .load (hfirst g) (fun l => SawFree.stable (decide (g = l)))
        (fun s _ _ => writerTurns_idle s) fun s hI h => ⟨h.1, ?_⟩
      rw [hI.lastRead, h.2]
      by_cases hg : BitVec.ofNat w s.published.length = BitVec.ofNat w s.taken.length
      · simp only [hg, decide_true, if_true]
        exact hI.eq_of_generation hw hg
      · simp only [hg, decide_false, Bool.false_eq_true, if_false]
        exact fun _ => hI.unread_of_generation hg
    exact fun l => .ret (SawFree.stable (decide (g = l))) fun _ _ h => h
  apply hload.bind
  exact fun g => .ret (SawFree.stable (decide (g.1 = g.2))) fun _ _ h => h

/-- The store of the generation publishes and begins a signal. -/
theorem publish_turn {g : BitVec w} : writerTurns.Triple
    (PublishesAt (T := T) (W := W) future current phase g) (store (TripleState.publish (g + 1)))
    fun _ s => HasPublished future current phase s ∧ s.readerSlot.signals () = some .load := by
  refine .store (PublishesAt.stable g) (fun _ => HasPublished.stable _) fun s hI ⟨h, hg⟩ => ?_
  have hfree := h.free
  have hlen : (s.publish (g + 1)).published.length = s.published.length + 1 := by
    simp [TripleState.publish]
  refine ⟨?_, ?_, ⟨h.holds, fun _ => ?_⟩, SlotUse.beginSignal_signals_self _ _⟩
  · exact {
      generation := by
        rw [hlen, hg, BitVec.ofNat_add]
        rfl
      lastRead := hI.lastRead
      le := by
        rw [hlen]
        change s.taken.length ≤ _
        omega
      bound := by
        rw [hlen]
        change _ ≤ s.taken.length + 1
        omega
      reader := by
        rcases h.signal with hnone | ⟨-, hload⟩
        · exact hI.reader.beginSignal hnone
        · exact hI.reader.signalAgain hload
      writer := hI.writer }
  · refine writerTurnGuar ⟨rfl, rfl, SlotUse.sees_beginSignal _ _, rfl, id, rfl, fun hunread => ?_,
      fun hquiet => by cases hquiet⟩
    omega
  · rw [hlen]
    change _ = s.taken.length + 1
    omega

/-- The signals of the writer go to the reader's slot. -/
theorem wakeReader_turn : writerTurns.Triple
    (fun s : TripleState w T W => HasPublished future current phase s ∧
      s.readerSlot.signals () = some .load)
    wakeReader fun _ s => HasPublished future current phase s ∧ s.readerSlot.signals () = none := by
  refine signal_triple (fun _ _ => rfl) (fun pc => HasPublished.stable pc) fun s pc hI hs hpc => ?_
  refine ⟨{ hI with reader := hI.reader.signalStep hpc }, ?_, hs⟩
  exact writerTurnGuar ⟨rfl, rfl, SlotUse.sees_signalStep _ _ _, rfl, id, rfl, fun _ => rfl,
    fun _ => rfl⟩

/-- The panic comes between the store of the generation and the signal. -/
theorem writerTakesNext_turn {m : Fin 3} : writerTurns.Triple
    (fun s : TripleState w T W => HasPublished future current phase s ∧
      s.readerSlot.signals () = some .load)
    (writerTakesNext m) (Published future current phase) := by
  have hafter : ∀ ptr : Option Nat, writerTurns.Stable fun s : TripleState w T W =>
      (HasPublished future current phase s ∧ s.readerSlot.signals () = some .load) ∧
        (ptr = none → s.nullMiddle = true) :=
    fun ptr s t hI hst h =>
      ⟨HasPublished.stable _ s t hI hst h.1, fun hp => hst.null (h.2 hp)⟩
  apply Contract.Triple.bind
  · refine .exchange (HasPublished.stable _) hafter fun s hI h => ?_
    have hsame : SameTurn s (s.takeWriter m) :=
      ⟨rfl, rfl, rfl, rfl, rfl, rfl, fun hnull => by simp [TripleState.takeWriter, hnull]⟩
    refine ⟨hsame.inv hI, writerTurnGuar (hsame.readerTurn rfl rfl), h, fun hp => ?_⟩
    simp [TripleState.takeWriter, hp]
  rintro (_ | p)
  · exact .ret (hafter none) fun s _ h => ⟨h.1.1, .inr ⟨h.2 rfl, h.1.2⟩⟩
  · apply Contract.Triple.bind
    · exact wakeReader_turn.conseq (fun _ _ h => h.1) fun _ _ _ h => h
    · exact fun _ => .ret (HasPublished.stable none) fun s _ h => ⟨h.1, .inl h.2⟩

theorem writerPublishNow_turn (completed : AlignedBuffer) : writerTurns.Triple
    (Publishes (w := w) (T := T) (W := W) future current phase) (writerPublishNow completed)
    (Published future current phase) := by
  have hsame : ∀ f : TripleState w T W → TripleState w T W, (∀ s, SameTurn s (f s)) →
      (∀ s, (f s).reader = s.reader ∧ (f s).readerOut = s.readerOut ∧ (f s).writer = s.writer) →
      writerTurns.Triple (Publishes future current phase) (store f)
        fun _ => Publishes future current phase := by
    intro f hf hr
    refine writerSame_triple Publishes.stable Publishes.stable hf
      (fun s => ⟨(hr s).1, (hr s).2.1⟩) fun s h => ?_
    refine ⟨⟨?_, ?_⟩, ?_⟩
    · rw [Holds, (hr s).2.2, (hf s).writerSlot]
      exact h.holds
    · rw [CutOff, (hf s).readerSlot]
      exact h.signal.imp id fun hcut => ⟨(hf s).null hcut.1, hcut.2⟩
    · rw [(hf s).published, (hf s).taken]
      exact h.free
  apply Contract.Triple.bind (R := fun _ => Publishes future current phase)
  · exact .load Publishes.stable (fun _ => Publishes.stable) (fun s _ _ => writerTurns_idle s)
      fun _ _ h => h
  intro writerIdx
  apply Contract.Triple.bind (R := fun _ => Publishes future current phase)
  · exact .load Publishes.stable (fun _ => Publishes.stable) (fun s _ _ => writerTurns_idle s)
      fun _ _ h => h
  intro middleIdx
  apply Contract.Triple.bind (R := fun _ => Publishes future current phase)
  · exact hsame _ (fun _ => ⟨rfl, rfl, rfl, rfl, rfl, rfl, id⟩) fun _ => ⟨rfl, rfl, rfl⟩
  intro _
  apply Contract.Triple.bind (R := fun _ => Publishes future current phase)
  · exact hsame _ (fun _ => ⟨rfl, rfl, rfl, rfl, rfl, rfl, id⟩) fun _ => ⟨rfl, rfl, rfl⟩
  intro _
  apply Contract.Triple.bind (R := fun _ => Publishes future current phase)
  · exact hsame _ (fun _ => ⟨rfl, rfl, rfl, rfl, rfl, rfl, id⟩) fun _ => ⟨rfl, rfl, rfl⟩
  intro _
  apply Contract.Triple.bind (R := fun _ => Publishes future current phase)
  · exact hsame _ (fun _ => ⟨rfl, rfl, rfl, rfl, rfl, rfl, id⟩) fun _ => ⟨rfl, rfl, rfl⟩
  intro _
  apply Contract.Triple.bind (R := PublishesAt future current phase)
  · exact .load Publishes.stable PublishesAt.stable (fun s _ _ => writerTurns_idle s)
      fun s hI h => ⟨h, hI.generation⟩
  intro g
  exact publish_turn.bind fun _ => writerTakesNext_turn

/-- A try that publishes nothing saw a buffer unread. -/
def TriedPublish (future : Bool) (current : Option W) (phase : Phase W) :
    Option (Option AlignedBuffer) → TripleState w T W → Prop
  | none => SawFree future current phase false
  | some next => Published future current phase next

theorem tryPublishNow_turn (hw : 0 < w) (completed : AlignedBuffer) : writerTurns.Triple
    (Writes (w := w) (T := T) (W := W) future current phase) (tryPublishNow completed)
    (TriedPublish future current phase) := by
  apply (middleFree_turn hw).bind
  rintro (_ | _)
  · exact .ret (SawFree.stable false) fun _ _ h => h
  · have hrun : writerTurns.Triple (Publishes (w := w) (T := T) (W := W) future current phase)
        (writerPublishNow completed >>= fun next => pure (some next))
        (TriedPublish future current phase) := by
      apply (writerPublishNow_turn completed).bind
      exact fun next => .ret (Published.stable next) fun _ _ h => h
    exact hrun.conseq (fun _ _ h => ⟨h.1, h.2⟩) fun _ _ _ h => h

def PublishReturned (s : TripleState w T W) : Prop :=
  WriterWaits s ∧ (s.writerOut = some .pending → s.writerSlot.phase = .armed)

theorem PublishReturned.stable :
    writerTurns.Stable (PublishReturned : TripleState w T W → Prop) := by
  intro s t hI (hst : WriterTurn s t) h
  refine ⟨WriterWaits.stable s t hI hst h.1, ?_⟩
  rw [hst.out, hst.slot.phase]
  exact h.2

/-- A publish that returns leaves the slot; one that panics may leave it armed. -/
theorem publishReturns_turn (next : Option AlignedBuffer) (hphase : phase = .out ∨
    phase = .armed ∧ future = true ∧ next = none) : writerTurns.Triple
    (Published (w := w) (T := T) (W := W) future current phase next) (publishReturns next)
    fun _ => PublishReturned := by
  cases next with
  | none =>
    refine writerSame_triple (Published.stable none) PublishReturned.stable
      (fun _ => ⟨rfl, rfl, rfl, rfl, rfl, rfl, id⟩) (fun _ => ⟨rfl, rfl⟩) fun s h => ?_
    refine ⟨⟨h.2, ?_⟩, fun hout => by cases hout⟩
    rcases hphase with rfl | ⟨rfl, rfl, -⟩
    · exact .inl h.1.1.2.2
    · exact .inr ⟨h.1.1.2.2, h.1.1.1, h.1.2⟩
  | some next =>
    refine writerSame_triple (Published.stable (some next)) PublishReturned.stable
      (fun _ => ⟨rfl, rfl, rfl, rfl, rfl, rfl, id⟩) (fun _ => ⟨rfl, rfl⟩) fun s h => ?_
    rcases hphase with rfl | ⟨-, -, hnext⟩
    · exact ⟨⟨h.2, .inl h.1.1.2.2⟩, fun hout => by cases hout⟩
    · cases hnext

theorem tryPublish_turn (hw : 0 < w) (buf : AlignedBuffer) : writerTurns.Triple
    (Writes (w := w) (T := T) (W := W) future current .out) (tryPublish buf)
    fun _ => PublishReturned := by
  apply (tryPublishNow_turn hw buf).bind
  rintro (_ | next)
  · exact writerSame_triple (SawFree.stable false) PublishReturned.stable
      (fun _ => ⟨rfl, rfl, rfl, rfl, rfl, rfl, id⟩) (fun _ => ⟨rfl, rfl⟩)
      fun s h => ⟨⟨h.1.signal, .inl h.1.holds.2.2⟩, fun hout => by cases hout⟩
  · exact publishReturns_turn next (.inl rfl)

theorem armWriter_turn (waker : W) : writerTurns.Triple
    (Writes (w := w) (T := T) (W := W) future (some waker) .out) (armWriter waker)
    fun _ => Writes future (some waker) .armed := by
  let Held (s : TripleState w T W) : Prop := (s.writer.future = future ∧ CutOff s) ∧
    s.writerSlot.current = some waker
  have harm : writerTurns.Triple (fun s => Held s ∧ s.writerSlot.phase = .out) (armWriter waker)
      fun _ s => Held s ∧ s.writerSlot.phase = .armed := by
    refine arm_triple (fun _ _ => rfl) (fun s (hI : TurnInv s) => hI.writer) ?_ ?_ ?_
    · intro phase s t _ (hst : WriterTurn s t) ⟨⟨⟨hf, hs⟩, hc⟩, hp⟩
      exact ⟨⟨⟨by rw [hst.handle, hf], hs.of_rely hst⟩, by rw [hst.slot.current, hc]⟩,
        by rw [hst.slot.phase, hp]⟩
    · intro s pc hI hs hpc
      refine ⟨{ hI with writer := hI.writer.armStep hpc }, ?_, hs⟩
      exact writerTurnGuar ⟨rfl, rfl, .refl _, rfl, id, rfl, fun _ => rfl, fun _ => rfl⟩
    · intro s hI hs hout
      refine ⟨{ hI with writer := hI.writer.beginArm hout hs.2 }, ?_, hs⟩
      exact writerTurnGuar ⟨rfl, rfl, .refl _, rfl, id, rfl, fun _ => rfl, fun _ => rfl⟩
  exact harm.conseq (fun _ _ h => ⟨⟨⟨h.holds.1, h.signal⟩, h.holds.2.1⟩, h.holds.2.2⟩)
    fun _ s _ h => ⟨⟨h.1.1.1, h.1.2, h.2⟩, h.1.1.2⟩

theorem disarmWriter_turn (next : AlignedBuffer) : writerTurns.Triple
    (Published (w := w) (T := T) (W := W) future current .armed (some next))
    (store fun s => { s with writerSlot := s.writerSlot.disarm })
    fun _ => Published future current .out (some next) := by
  refine .store (Published.stable _) (fun _ => Published.stable _) fun s hI h => ?_
  refine ⟨{ hI with writer := ?_ }, ?_, ⟨⟨h.1.1.1, h.1.1.2.1, rfl⟩, h.1.2⟩, h.2⟩
  · exact hI.writer.quit (fun pc hpc => by rw [h.1.1.2.2] at hpc; cases hpc) rfl rfl rfl
  · exact writerTurnGuar ⟨rfl, rfl, .refl _, rfl, id, rfl, fun _ => rfl, fun _ => rfl⟩

theorem pollPublish_turn (hw : 0 < w) (waker : W) (buf : AlignedBuffer) : writerTurns.Triple
    (Writes (w := w) (T := T) (W := W) true (some waker) .out) (pollPublish waker buf)
    fun _ => PublishReturned := by
  apply (tryPublishNow_turn hw buf).bind
  rintro (_ | next)
  · apply Contract.Triple.bind (R := fun _ => Writes true (some waker) .armed)
    · exact (armWriter_turn waker).conseq (fun _ _ h => h.1) fun _ _ _ h => h
    intro _
    apply (tryPublishNow_turn hw buf).bind
    rintro (_ | _ | next)
    · exact writerSame_triple (SawFree.stable false) PublishReturned.stable
        (fun _ => ⟨rfl, rfl, rfl, rfl, rfl, rfl, id⟩) (fun _ => ⟨rfl, rfl⟩)
        fun s h => ⟨⟨h.1.signal, .inr ⟨h.1.holds.2.2, h.1.holds.1, h.2⟩⟩, fun _ => h.1.holds.2.2⟩
    · exact publishReturns_turn none (.inr ⟨rfl, rfl, rfl⟩)
    · exact (disarmWriter_turn next).bind fun _ => publishReturns_turn (some next) (.inl rfl)
  · exact publishReturns_turn next (.inl rfl)

end Contracts

end Cynosure.SiteD
