import Cynosure.SiteD.OneshotInvariant

/-! # The sender of the oneshot channel

Nobody but the sender writes its two bits, and until the value is set nobody else touches
the cell. A bit of the receiver that rises between the load and the store of `send` is
lost with it; the last reference then finds the value set and not taken.
-/

namespace Cynosure.SiteD.Oneshot

open Prog

variable {T W : Type} [Waker W]

/-- The sender is inside its last call, with `frame` in hand. -/
structure Sending (frame : Option T) (set closed : Bool) (s : OneshotState T W) : Prop where
  handle : s.sender = false
  holds : s.senderHolds = true
  frame : s.inSender = frame
  set : s.isSet = set
  closed : s.isClosed = closed
  empty : s.isSet = false → s.value = none

/-- The value is in the cell and not yet set. -/
structure Written (v : T) (s : OneshotState T W) : Prop where
  handle : s.sender = false
  holds : s.senderHolds = true
  frame : s.inSender = none
  set : s.isSet = false
  closed : s.isClosed = false
  value : s.value = some v

section Stable

variable {frame : Option T} {set closed : Bool} {v : T}

omit [Waker W] in
theorem Sending.of_rely {s t : OneshotState T W} (hst : SenderRely s t)
    (h : Sending frame set closed s) : Sending frame set closed t where
  handle := hst.handle.trans h.handle
  holds := hst.holds.trans h.holds
  frame := hst.frame.trans h.frame
  set := hst.set.trans h.set
  closed := hst.closed.trans h.closed
  empty := fun hset => by
    have hset' : s.isSet = false := hst.set ▸ hset
    rw [hst.value hset', h.empty hset']

theorem Sending.stable (pc : Option (SignalPc W)) : (oneshotContract .sender).Stable
    fun s : OneshotState T W => Sending frame set closed s ∧ s.recv.signals () = pc :=
  fun _ _ _ (hst : SenderRely _ _) h => ⟨h.1.of_rely hst, by rw [hst.signals, h.2]⟩

theorem Written.stable (pc : Option (SignalPc W)) : (oneshotContract .sender).Stable
    fun s : OneshotState T W => Written v s ∧ s.recv.signals () = pc := by
  intro s t _ (hst : SenderRely s t) ⟨h, hpc⟩
  refine ⟨⟨hst.handle.trans h.handle, hst.holds.trans h.holds, hst.frame.trans h.frame,
    hst.set.trans h.set, hst.closed.trans h.closed, ?_⟩, by rw [hst.signals, hpc]⟩
  rw [hst.value h.set, h.value]

theorem SenderGone.stable :
    (oneshotContract .sender).Stable (SenderGone frame : OneshotState T W → Prop) := by
  intro s t _ (hst : SenderRely s t) h
  refine ⟨hst.handle.trans h.handle, hst.holds.trans h.holds, ?_, hst.frame.trans h.frame,
    by rw [hst.signals, h.signals], fun hlast => ?_⟩
  · rw [hst.set, hst.closed]
    exact h.ended
  · have hlast' := hst.last.mp hlast
    rw [(hst.free hlast').2.1, h.freed hlast']

theorem SenderAtRest.stable :
    (oneshotContract .sender).Stable (SenderAtRest : OneshotState T W → Prop) := by
  rintro s t hI (hst : SenderRely s t) (⟨h, hpc⟩ | h)
  · exact .inl ⟨⟨hst.handle.trans h.handle, hst.holds.trans h.holds, hst.set.trans h.set,
      hst.closed.trans h.closed, hst.offered.trans h.offered⟩, by rw [hst.signals, hpc]⟩
  · exact .inr (SenderGone.stable s t hI hst h)

end Stable

/-- While the sender has its reference nothing is freed. -/
theorem senderMoves {s t : OneshotState T W} (hI : OneshotInv s) (hholds : s.senderHolds = true)
    (hhandle : t.receiver = s.receiver ∧ t.pending = s.pending) (hframe : t.inReceiver = s.inReceiver)
    (hholds' : t.receiverHolds = s.receiverHolds) (hslot : s.recv.WaiterSees t.recv)
    (hfixed : s.isSet = true → t.state = s.state) (htaken : s.isTaken = false → t.isTaken = false)
    (hquiet : t.recv.published = false → t.state = s.state)
    (hvalue : s.isSet = true → t.value = s.value) (hlast : t.last = some .sender ∨ t.last = s.last) :
    (oneshotContract .sender).guar s t := by
  have hnone := hI.last_eq_none (.inl hholds)
  refine senderGuar ⟨hhandle.1, hhandle.2, hframe, hholds', hslot, hfixed, htaken, fun hp => ?_,
    fun hset _ => hvalue hset, ?_, fun hl => by simp [hnone] at hl⟩
  · exact ⟨by rw [OneshotState.isSet, hquiet hp]; rfl, by rw [OneshotState.isClosed, hquiet hp]; rfl⟩
  · rcases hlast with hlast | hlast <;> simp [hnone, hlast]

section Release

variable {frame : Option T} {set closed : Bool}

/-- What the sender knows when it has given up the last reference. -/
structure SenderLast (frame : Option T) (s : OneshotState T W) : Prop where
  handle : s.sender = false
  ended : s.isSet = true ∨ s.isClosed = true
  frame : s.inSender = frame
  signals : s.recv.signals () = none
  last : s.last = some .sender
  dropped : s.dropped = []

theorem SenderLast.stable (st : BitVec 8) : (oneshotContract .sender).Stable
    fun s : OneshotState T W => SenderLast frame s ∧ s.state = st := by
  intro s t _ (hst : SenderRely s t) ⟨h, hstate⟩
  obtain ⟨hstate', -, hdropped⟩ := hst.free h.last
  refine ⟨⟨hst.handle.trans h.handle, ?_, hst.frame.trans h.frame, by rw [hst.signals, h.signals],
    hst.last.mpr h.last, hdropped.trans h.dropped⟩, hstate'.trans hstate⟩
  rw [hst.set, hst.closed]
  exact h.ended

theorem dropInner_sender_triple : (oneshotContract .sender).Triple
    (SenderLast (W := W) frame) dropInner fun _ => SenderGone frame := by
  refine dropInner_triple (fun s h => ⟨h.last, h.dropped⟩) SenderLast.stable SenderGone.stable
    (fun s hI h => ?_) fun s hI h hempty => ?_
  · obtain ⟨hs, hr⟩ := OneshotInv.not_holds_of_last hI h.last
    refine ⟨senderGuar ⟨rfl, rfl, rfl, rfl, .refl _, fun _ => rfl, id, fun _ => ⟨rfl, rfl⟩,
      fun _ hholds => ?_, Iff.rfl, fun hlast => ?_⟩,
      ⟨h.handle, hs, h.ended, h.frame, h.signals, fun _ => rfl⟩⟩
    · simp [hr] at hholds
    · simp [h.last] at hlast
  · exact ⟨h.handle, (hI.not_holds_of_last h.last).1, h.ended, h.frame, h.signals, fun _ => hempty⟩

theorem releaseInner_sender_triple (hended : set = true ∨ closed = true) :
    (oneshotContract .sender).Triple
      (fun s : OneshotState T W => Sending frame set closed s ∧ s.recv.signals () = none)
      (releaseInner .sender) fun _ => SenderGone frame := by
  refine releaseInner_triple (Sending.stable none)
    (fun s t hI hst h => (SenderLast.stable s.state s t hI hst ⟨h, rfl⟩).1) SenderGone.stable
    ?_ dropInner_sender_triple
  rintro s hI ⟨h, hsignals⟩
  have hnone := hI.last_eq_none (.inl h.holds)
  have hcell : s.isSet = true ∨ s.value = none := by
    cases hset : s.isSet with
    | true => exact .inl rfl
    | false => exact .inr (h.empty hset)
  have hended' : s.isSet = true ∨ s.isClosed = true := by
    rw [h.set, h.closed]
    exact hended
  refine ⟨hI.releaseSender h.holds hcell, ?_, fun hone => ?_, fun hne => ?_⟩
  · refine senderMoves hI h.holds ⟨rfl, rfl⟩ rfl (by simp [OneshotState.release]) (.refl _)
      (fun _ => rfl) id (fun _ => rfl) (fun _ => rfl) ?_
    simp only [OneshotState.release]
    split
    · exact .inl rfl
    · exact .inr rfl
  · exact ⟨h.handle, hended', h.frame, hsignals, by simp [OneshotState.release, hone],
      hI.kept hnone⟩
  · refine ⟨h.handle, by simp [OneshotState.release], hended', h.frame, hsignals, fun hlast => ?_⟩
    simp [OneshotState.release, hne, hnone] at hlast

end Release

section Send

variable {frame : Option T} {set closed : Bool} {v : T}

/-- A signal leaves a parked receiver what it knows. -/
theorem OneshotInv.signalStep {s : OneshotState T W} (hI : OneshotInv s) {pc : SignalPc W}
    (hpc : s.recv.signals () = some pc) : OneshotInv { s with recv := s.recv.signalStep () pc } :=
  hI.setRecv (hI.slot.signalStep hpc) fun _ => ⟨rfl, id⟩

theorem signalRecv_triple : (oneshotContract .sender).Triple
    (fun s : OneshotState T W => Sending frame set closed s ∧ s.recv.signals () = some .load)
    signalRecv fun _ s => Sending frame set closed s ∧ s.recv.signals () = none := by
  refine signal_triple (fun _ _ => rfl) Sending.stable fun s pc hI h hpc => ?_
  refine ⟨OneshotInv.signalStep hI hpc, ?_, ⟨h.handle, h.holds, h.frame, h.set, h.closed, h.empty⟩⟩
  exact senderMoves hI h.holds ⟨rfl, rfl⟩ rfl rfl (SlotUse.sees_signalStep _ _ _) (fun _ => rfl) id
    (fun _ => rfl) (fun _ => rfl) (.inr rfl)

/-- The bits of the sender rise together with a signal. -/
theorem OneshotInv.beginSignal {s : OneshotState T W} (hI : OneshotInv s) {st : BitVec 8}
    (htaken : Word.has st TAKEN = true → Word.has st VALUE_SET = true)
    (hfull : Word.has st VALUE_SET = true → s.isSet = false → s.value.isSome = true)
    (hmono : s.isSet = true → Word.has st VALUE_SET = true)
    (htaken' : Word.has st TAKEN = s.isTaken) (hslot : SlotInv (s.recv.beginSignal ())) :
    OneshotInv { s with state := st, recv := s.recv.beginSignal () } :=
  { hI with
    slot := hslot
    taken := htaken
    full := fun hset hopen => by
      cases hs : s.isSet with
      | true => exact hI.full hs (htaken' ▸ hopen)
      | false => exact .inl (hfull hset hs)
    written := fun hsome => (hI.written hsome).imp hmono id
    unread := fun hsome => (hI.unread hsome).imp (fun h => htaken'.trans h) id
    parked := fun hp => ⟨(hI.parked hp).1, fun hpub => by cases hpub⟩ }

theorem closeSender_triple : (oneshotContract .sender).Triple
    (fun s : OneshotState T W => Sending frame false closed s ∧ s.recv.signals () = none)
    (store OneshotState.closeSender)
    fun _ s => Sending frame false true s ∧ s.recv.signals () = some .load := by
  refine .store (Sending.stable none) (fun _ => Sending.stable (some .load)) ?_
  rintro s hI ⟨h, hpc⟩
  have hset : Word.has (s.state ||| SENDER_DROPPED) VALUE_SET = s.isSet :=
    Word.has_or_apart (by decide)
  have htaken : Word.has (s.state ||| SENDER_DROPPED) TAKEN = s.isTaken :=
    Word.has_or_apart (by decide)
  have hinv : OneshotInv s.closeSender := by
    refine OneshotInv.beginSignal hI ?_ ?_ hset.trans htaken (hI.slot.beginSignal hpc)
    · rw [htaken, hset]
      exact hI.taken
    · rw [hset, h.set]
      exact fun hset => Bool.noConfusion hset
  refine ⟨hinv, ?_, ⟨h.handle, h.holds, h.frame, hset.trans h.set, Word.has_or_set (by decide),
    fun _ => h.empty h.set⟩, SlotUse.beginSignal_signals_self _ _⟩
  refine senderMoves hI h.holds ⟨rfl, rfl⟩ rfl rfl (SlotUse.sees_beginSignal _ _) (fun hs => ?_)
    htaken.trans (fun hpub => by cases hpub) (fun _ => rfl) (.inr rfl)
  simp [h.set] at hs

/-- The bits that the sender loads before anything is set. -/
def Unset (st : BitVec 8) : Prop :=
  Word.has st VALUE_SET = false ∧ Word.has st SENDER_DROPPED = false ∧ Word.has st TAKEN = false

theorem publishValue_triple {st : BitVec 8} (hst : Unset st) : (oneshotContract .sender).Triple
    (fun s : OneshotState T W => Written v s ∧ s.recv.signals () = none)
    (store (OneshotState.publishValue st))
    fun _ s => Sending none true false s ∧ s.recv.signals () = some .load := by
  refine .store (Written.stable none) (fun _ => Sending.stable (some .load)) ?_
  rintro s hI ⟨h, hpc⟩
  have hset : Word.has (st ||| VALUE_SET) VALUE_SET = true := Word.has_or_set (by decide)
  have htaken : Word.has (st ||| VALUE_SET) TAKEN = false :=
    (Word.has_or_apart (by decide)).trans hst.2.2
  have hopen : s.isTaken = false := hI.not_taken h.set
  have hinv : OneshotInv (s.publishValue st) := by
    refine OneshotInv.beginSignal hI (fun _ => hset) (fun _ _ => ?_) (fun _ => hset)
      (htaken.trans hopen.symm) (hI.slot.beginSignal hpc)
    simp [h.value]
  refine ⟨hinv, ?_, ⟨h.handle, h.holds, h.frame, hset, ?_, fun hunset => ?_⟩,
    SlotUse.beginSignal_signals_self _ _⟩
  · refine senderMoves hI h.holds ⟨rfl, rfl⟩ rfl rfl (SlotUse.sees_beginSignal _ _) (fun hs => ?_)
      (fun _ => htaken) (fun hpub => by cases hpub) (fun _ => rfl) (.inr rfl)
    simp [h.set] at hs
  · exact (Word.has_or_apart (by decide)).trans hst.2.1
  · exact absurd (hset.symm.trans hunset) Bool.noConfusion

theorem writeCell_triple : (oneshotContract .sender).Triple
    (fun s : OneshotState T W => Sending (some v) false false s ∧ s.recv.signals () = none)
    (store (OneshotState.writeCell v)) fun _ s => Written v s ∧ s.recv.signals () = none := by
  refine .store (Sending.stable none) (fun _ => Written.stable none) ?_
  rintro s hI ⟨h, hpc⟩
  obtain ⟨ho, hv, hr, hb, hrec, hdropped⟩ := hI.of_inSender h.frame
  refine ⟨{ hI with
      places := by simp [OneshotState.places, OneshotState.writeCell, ho, hr, hb, hrec, hdropped]
      full := fun hset _ => ?_
      written := fun _ => .inr h.holds
      unread := fun _ => .inl (hI.not_taken h.set)
      sound := by simp [OneshotState.writeCell, hv, hI.sound] }, ?_,
    ⟨h.handle, h.holds, rfl, h.set, h.closed, rfl⟩, hpc⟩
  · exact absurd (h.set.symm.trans hset) Bool.noConfusion
  · refine senderMoves hI h.holds ⟨rfl, rfl⟩ rfl rfl (.refl _) (fun _ => rfl) id (fun _ => rfl)
      (fun hs => ?_) (.inr rfl)
    simp [h.set] at hs

theorem dropSender_triple : (oneshotContract .sender).Triple
    (fun s : OneshotState T W => Sending frame set closed s ∧ s.recv.signals () = none)
    dropSender fun _ => SenderGone frame := by
  apply Contract.Triple.bind (R := fun st s =>
    (Sending frame set closed s ∧ s.recv.signals () = none) ∧ Word.has st VALUE_SET = set)
  · exact .load (Sending.stable none)
      (fun st s t hI hst h => ⟨Sending.stable none s t hI hst h.1, h.2⟩)
      (fun s _ _ => oneshotIdle_guar _ s) fun s _ h => ⟨h, h.1.set⟩
  intro st
  cases set with
  | true =>
    by_cases hst : Word.has st VALUE_SET = true
    · rw [if_pos hst]
      exact (releaseInner_sender_triple (.inl rfl)).conseq (fun _ _ h => h.1) fun _ _ _ h => h
    · exact fun _ _ h => absurd h.2 hst
  | false =>
    by_cases hst : Word.has st VALUE_SET = true
    · exact fun _ _ h => absurd (hst.symm.trans h.2) Bool.noConfusion
    · rw [if_neg hst]
      apply (closeSender_triple.conseq (fun _ _ h => h.1) fun _ _ _ h => h).bind
      intro _
      apply signalRecv_triple.bind
      exact fun _ => releaseInner_sender_triple (.inr rfl)

/-- The last store of `send`: what the caller gets back. -/
theorem sendReturns_triple {f : OneshotState T W → OneshotState T W}
    (hsame : ∀ s, (f s).value = s.value ∧ (f s).state = s.state ∧ (f s).recv = s.recv ∧
      (f s).senderHolds = s.senderHolds ∧ (f s).last = s.last ∧ (f s).sender = s.sender)
    (hinv : ∀ s, OneshotInv s → s.inSender = frame → OneshotInv (f s) ∧ (f s).inSender = none)
    (hrely : ∀ s, ReceiverRely s (f s)) : (oneshotContract .sender).Triple
      (SenderGone frame) (store f) fun _ => SenderAtRest := by
  refine .store SenderGone.stable (fun _ => SenderAtRest.stable) fun s hI h => ?_
  obtain ⟨hvalue, hstate, hrecv, hholds, hlast, hhandle⟩ := hsame s
  obtain ⟨hI', hframe⟩ := hinv s hI h.frame
  refine ⟨hI', senderGuar (hrely s), .inr ⟨hhandle.trans h.handle, hholds.trans h.holds, ?_, hframe,
    by rw [hrecv, h.signals], fun hl => ?_⟩⟩
  · rw [OneshotState.isSet, OneshotState.isClosed, hstate]
    exact h.ended
  · rw [hvalue, h.freed (hlast ▸ hl)]

theorem send_triple : (oneshotContract .sender).Triple
    (fun s : OneshotState T W => Sending (some v) false false s ∧ s.recv.signals () = none)
    (send v) fun _ => SenderAtRest := by
  apply Contract.Triple.bind (R := fun st s =>
    (Sending (some v) false false s ∧ s.recv.signals () = none) ∧ Unset st)
  · exact .load (Sending.stable none)
      (fun st s t hI hst h => ⟨Sending.stable none s t hI hst h.1, h.2⟩)
      (fun s _ _ => oneshotIdle_guar _ s) fun s hI h => ⟨h, h.1.set, h.1.closed, hI.not_taken h.1.set⟩
  intro st
  split
  · apply (dropSender_triple.conseq (fun _ _ h => h.1) fun _ _ _ h => h).bind
    intro _
    refine sendReturns_triple (fun s => ⟨rfl, rfl, rfl, rfl, rfl, rfl⟩) (fun s hI hframe => ?_)
      fun s => ⟨rfl, rfl, rfl, rfl, .refl _, fun _ => rfl, id, fun _ => ⟨rfl, rfl⟩, fun _ _ => rfl,
        Iff.rfl, fun _ => ⟨rfl, rfl, rfl⟩⟩
    obtain ⟨ho, hv, hr, hb, hrec, hdropped⟩ := hI.of_inSender hframe
    exact ⟨{ hI with places := by simp [OneshotState.places, ho, hv, hr, hb, hrec, hdropped] }, rfl⟩
  · intro s hI h
    refine Contract.Triple.bind writeCell_triple (fun _ => ?_) s hI h.1
    apply (publishValue_triple h.2).bind
    intro _
    apply signalRecv_triple.bind
    intro _
    apply dropSender_triple.bind
    intro _
    exact sendReturns_triple (fun s => ⟨rfl, rfl, rfl, rfl, rfl, rfl⟩)
      (fun s hI hframe => ⟨{ hI with }, hframe⟩)
      fun s => ⟨rfl, rfl, rfl, rfl, .refl _, fun _ => rfl, id, fun _ => ⟨rfl, rfl⟩, fun _ _ => rfl,
        Iff.rfl, fun _ => ⟨rfl, rfl, rfl⟩⟩

end Send

end Cynosure.SiteD.Oneshot
