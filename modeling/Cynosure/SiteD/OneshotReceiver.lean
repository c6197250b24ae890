import Cynosure.SiteD.OneshotInvariant

/-! # The receiver of the oneshot channel

From the load that finds the value set, the state and the cell are the receiver's: the
sender writes neither again. A poll that finds neither bit after arming knows that one
can rise only together with a signal.
-/

namespace Cynosure.SiteD.Oneshot

open Prog

variable {T W : Type} [Waker W]

/-- The value is marked taken and still in the cell. -/
structure Taking (s : OneshotState T W) : Prop where
  handle : s.receiver = true
  holds : s.receiverHolds = true
  frame : s.inReceiver = none
  set : s.isSet = true
  taken : s.isTaken = true
  value : s.value.isSome = true

/-- What the receiver knows of its slot and of its last poll. -/
def Slot (A : Phase W → Option W → Bool → Prop) (s : OneshotState T W) : Prop :=
  A s.recv.phase s.recv.current s.pending

section Stable

variable {live : Bool} {frame : Option T} {A : Phase W → Option W → Bool → Prop}

omit [Waker W] in
theorem Slot.of_rely {s t : OneshotState T W} (hst : ReceiverRely s t) (h : Slot A s) : Slot A t := by
  rw [Slot, hst.slot.phase, hst.slot.current, hst.pending]
  exact h

omit [Waker W] in
theorem ReceiverRely.isSet {s t : OneshotState T W} (hst : ReceiverRely s t) (h : s.isSet = true) :
    t.isSet = true := by
  rw [OneshotState.isSet, hst.fixed h]
  exact h

theorem Receiving.stable : (oneshotContract .receiver).Stable
    fun s : OneshotState T W => Receiving live frame s ∧ Slot A s := by
  intro s t _ (hst : ReceiverRely s t) ⟨h, hA⟩
  refine ⟨⟨hst.handle.trans h.handle, hst.holds.trans h.holds, hst.frame.trans h.frame, ?_⟩,
    hA.of_rely hst⟩
  intro htaken
  have htaken' : s.isTaken = true := by
    rw [← Bool.not_eq_false]
    intro hopen
    simp [hst.untaken hopen] at htaken
  obtain ⟨hset, hvalue⟩ := h.moved htaken'
  exact ⟨hst.isSet hset, (hst.value hset h.holds).trans hvalue⟩

theorem Receiving.stable_state (st : BitVec 8) : (oneshotContract .receiver).Stable
    fun s : OneshotState T W => (Receiving live frame s ∧ Slot A s) ∧ s.isSet = true ∧ s.state = st := by
  intro s t hI (hst : ReceiverRely s t) ⟨h, hset, hstate⟩
  exact ⟨Receiving.stable s t hI hst h, hst.isSet hset, (hst.fixed hset).trans hstate⟩

theorem Taking.stable : (oneshotContract .receiver).Stable
    fun s : OneshotState T W => Taking s ∧ Slot A s := by
  intro s t _ (hst : ReceiverRely s t) ⟨h, hA⟩
  refine ⟨⟨hst.handle.trans h.handle, hst.holds.trans h.holds, hst.frame.trans h.frame,
    hst.isSet h.set, ?_, ?_⟩, hA.of_rely hst⟩
  · rw [OneshotState.isTaken, hst.fixed h.set]
    exact h.taken
  · rw [hst.value h.set h.holds]
    exact h.value

theorem ReceiverGone.stable :
    (oneshotContract .receiver).Stable (ReceiverGone : OneshotState T W → Prop) := by
  intro s t _ (hst : ReceiverRely s t) h
  refine ⟨hst.handle.trans h.handle, hst.holds.trans h.holds, hst.frame.trans h.frame, fun hlast => ?_⟩
  have hlast' := hst.last.mp hlast
  rw [(hst.free hlast').2.1, h.freed hlast']

theorem ReceiverAtRest.stable :
    (oneshotContract .receiver).Stable (ReceiverAtRest : OneshotState T W → Prop) := by
  rintro s t hI hst (h | h)
  · exact .inl (Receiving.stable (A := fun phase _ _ => ∀ pc, phase ≠ .arming pc) s t hI hst h)
  · exact .inr (ReceiverGone.stable s t hI hst h)

end Stable

/-- While the receiver has its reference nothing is freed. -/
theorem receiverMoves {s t : OneshotState T W} (hI : OneshotInv s) (hholds : s.receiverHolds = true)
    (hhandle : t.sender = s.sender) (hframe : t.inSender = s.inSender ∧ t.offered = s.offered)
    (hholds' : t.senderHolds = s.senderHolds) (hsignals : t.recv.signals = s.recv.signals)
    (hset : t.isSet = s.isSet) (hclosed : t.isClosed = s.isClosed)
    (hvalue : s.isSet = false → t.value = s.value)
    (hlast : t.last = some .receiver ∨ t.last = s.last) : (oneshotContract .receiver).guar s t := by
  have hnone := hI.last_eq_none (.inr hholds)
  refine receiverGuar ⟨hhandle, hframe.1, hframe.2, hholds', hsignals, hset, hclosed, hvalue, ?_,
    fun hl => by simp [hnone] at hl⟩
  rcases hlast with hlast | hlast <;> simp [hnone, hlast]

section Take

variable {A : Phase W → Option W → Bool → Prop}

theorem markTaken_triple {st : BitVec 8} (hst : Word.has st TAKEN = false) :
    (oneshotContract .receiver).Triple
      (fun s : OneshotState T W => (Receiving true none s ∧ Slot A s) ∧ s.isSet = true ∧ s.state = st)
      (store fun s => { s with state := st ||| TAKEN }) fun _ s => Taking s ∧ Slot A s := by
  refine .store (Receiving.stable_state st) (fun _ => Taking.stable) ?_
  rintro s hI ⟨⟨h, hA⟩, hset, rfl⟩
  have hset' : Word.has (s.state ||| TAKEN) VALUE_SET = s.isSet := Word.has_or_apart (by decide)
  have hclosed : Word.has (s.state ||| TAKEN) SENDER_DROPPED = s.isClosed :=
    Word.has_or_apart (by decide)
  have htaken : Word.has (s.state ||| TAKEN) TAKEN = true := Word.has_or_set (by decide)
  have hdropped := hI.kept (hI.last_eq_none (.inr h.holds))
  have hsome : s.value.isSome = true := (hI.full hset hst).resolve_right fun hne => hne hdropped
  refine ⟨{ hI with
      taken := fun _ => hset'.trans hset
      full := fun _ hopen => absurd (htaken.symm.trans hopen) Bool.noConfusion
      written := fun hsome => (hI.written hsome).imp hset'.trans id
      unread := fun _ => .inr h.holds
      parked := fun hp => ⟨(hI.parked hp).1, fun hpub => ?_⟩ },
    receiverMoves hI h.holds rfl ⟨rfl, rfl⟩ rfl rfl hset' hclosed (fun _ => rfl) (.inr rfl),
    ⟨h.handle, h.holds, h.frame, hset'.trans hset, htaken, hsome⟩, hA⟩
  obtain ⟨hunset, hopen⟩ := (hI.parked hp).2 hpub
  exact ⟨hset'.trans hunset, hclosed.trans hopen⟩

theorem readCell_triple : (oneshotContract .receiver).Triple
    (fun s : OneshotState T W => Taking s ∧ Slot A s)
    (exchange (·.value) OneshotState.readCell)
    fun v s => Receiving true v s ∧ Slot A s := by
  refine .exchange Taking.stable (fun _ => Receiving.stable) ?_
  rintro s hI ⟨h, hA⟩
  obtain ⟨v, hv⟩ := Option.isSome_iff_exists.mp h.value
  obtain ⟨ho, hs, hr, hb, hrec, hdropped⟩ := hI.of_value hv
  refine ⟨{ hI with
      places := by simp [OneshotState.places, OneshotState.readCell, hv, ho, hs, hb, hrec, hdropped]
      full := fun _ hopen => absurd (h.taken.symm.trans hopen) Bool.noConfusion
      written := fun hnone => by cases hnone
      unread := fun hnone => by cases hnone
      sound := by simp [OneshotState.readCell, hv, hI.sound] },
    receiverMoves hI h.holds rfl ⟨rfl, rfl⟩ rfl rfl rfl rfl (fun hunset => ?_) (.inr rfl),
    ⟨h.handle, h.holds, rfl, fun _ => ⟨h.set, rfl⟩⟩, hA⟩
  exact absurd (h.set.symm.trans hunset) Bool.noConfusion

theorem takeValue_triple (st : BitVec 8) : (oneshotContract .receiver).Triple
    (fun s : OneshotState T W => (Receiving true none s ∧ Slot A s) ∧ s.isSet = true ∧ s.state = st)
    (takeValue st) fun v s => Receiving true v s ∧ Slot A s := by
  unfold takeValue
  split
  · exact .ret (Receiving.stable_state st) fun _ _ h => h.1
  · rename_i hst
    apply (markTaken_triple (by simpa using hst)).bind
    exact fun _ => readCell_triple

/-- What a call may return when the state was loaded without either bit. -/
def SeenOpen (s : OneshotState T W) : Prop :=
  s.recv.published = false → s.isSet = false ∧ s.isClosed = false

theorem SeenOpen.stable {live : Bool} {frame : Option T} : (oneshotContract .receiver).Stable
    fun s : OneshotState T W => (Receiving live frame s ∧ Slot A s) ∧ SeenOpen s := by
  intro s t hI (hst : ReceiverRely s t) ⟨h, hopen⟩
  refine ⟨Receiving.stable s t hI hst h, fun hpub => ?_⟩
  rw [(hst.quiet hpub).1, (hst.quiet hpub).2]
  exact hopen (hst.slot.published hpub)

/-- The load that both receiving calls start with. -/
theorem loadState_triple : (oneshotContract .receiver).Triple
    (fun s : OneshotState T W => Receiving true none s ∧ Slot A s) (load (·.state))
    fun st s => (Receiving true none s ∧ Slot A s) ∧
      (Word.has st VALUE_SET = true → s.isSet = true ∧ s.state = st) ∧
      (Word.has st VALUE_SET = false → Word.has st SENDER_DROPPED = false → SeenOpen s) := by
  refine .load Receiving.stable ?_ (fun s _ _ => oneshotIdle_guar _ s) ?_
  · intro st s t hI hst h
    refine ⟨Receiving.stable s t hI hst h.1, fun hset => ?_, fun hunset hopen => ?_⟩
    · exact (Receiving.stable_state st s t hI hst ⟨h.1, h.2.1 hset⟩).2
    · exact (SeenOpen.stable s t hI hst ⟨h.1, h.2.2 hunset hopen⟩).2
  · exact fun s _ h => ⟨h, fun hset => ⟨hset, rfl⟩, fun hunset hopen _ => ⟨hunset, hopen⟩⟩

theorem resolve_triple : (oneshotContract .receiver).Triple
    (fun s : OneshotState T W => Receiving true none s ∧ Slot A s) resolve
    fun out s => (Receiving true out.join s ∧ Slot A s) ∧ (out = none → SeenOpen s) := by
  apply loadState_triple.bind
  intro st
  split
  · rename_i hset
    have htake : (oneshotContract .receiver).Triple
        (fun s : OneshotState T W => (Receiving true none s ∧ Slot A s) ∧ s.isSet = true ∧ s.state = st)
        (takeValue st >>= fun v => pure (some v))
        fun out s => (Receiving true out.join s ∧ Slot A s) ∧ (out = none → SeenOpen s) := by
      apply (takeValue_triple st).bind
      exact fun v => .ret Receiving.stable fun s _ h => ⟨h, fun hnone => by cases hnone⟩
    exact htake.conseq (fun _ _ h => ⟨h.1, h.2.1 hset⟩) fun _ _ _ h => h
  · rename_i hunset
    rw [Bool.not_eq_true] at hunset
    intro s hI h
    split
    · exact Contract.Triple.ret Receiving.stable
        (fun s _ h => ⟨h, fun hnone => by cases hnone⟩) s hI h.1
    · rename_i hopen
      rw [Bool.not_eq_true] at hopen
      exact Contract.Triple.ret SeenOpen.stable (fun s _ h => ⟨h.1, fun _ => h.2⟩) s hI
        ⟨h.1, h.2.2 hunset hopen⟩

end Take

section Calls

variable {A : Phase W → Option W → Bool → Prop} {v : Option T}

/-- The phases in which the receiver is between its calls. -/
def settled (phase : Phase W) (_ : Option W) (_ : Bool) : Prop := ∀ pc, phase ≠ .arming pc

theorem recvReturns_triple (out : Option T → RecvOut T) : (oneshotContract .receiver).Triple
    (fun s : OneshotState T W => Receiving true v s ∧ Slot settled s) (recvReturns out v)
    fun _ => ReceiverAtRest := by
  refine .store Receiving.stable (fun _ => ReceiverAtRest.stable) ?_
  rintro s hI ⟨h, hA⟩
  have hplaces : s.inSender.toList ++ (s.value.toList ++ (s.handedBack ++
      (s.received ++ v.toList ++ s.dropped))) = s.offered.toList := by
    have hframe := h.frame
    cases v with
    | none => simpa [OneshotState.places, hframe] using hI.places
    | some v =>
      obtain ⟨ho, hs, hc, hb, hrec, hdropped⟩ := hI.of_inReceiver hframe
      simp [ho, hs, hc, hb, hrec, hdropped]
  exact ⟨{ hI with places := by simpa [OneshotState.places] using hplaces },
    receiverMoves hI h.holds rfl ⟨rfl, rfl⟩ rfl rfl rfl rfl (fun _ => rfl) (.inr rfl),
    .inl ⟨⟨h.handle, h.holds, rfl, h.moved⟩, hA⟩⟩

theorem recvNothing_triple (out : RecvOut T) : (oneshotContract .receiver).Triple
    (fun s : OneshotState T W => Receiving true none s ∧ Slot settled s)
    (store fun s => { s with receiverOut := some out }) fun _ => ReceiverAtRest := by
  refine .store Receiving.stable (fun _ => ReceiverAtRest.stable) ?_
  rintro s hI ⟨h, hA⟩
  exact ⟨{ hI with },
    receiverMoves hI h.holds rfl ⟨rfl, rfl⟩ rfl rfl rfl rfl (fun _ => rfl) (.inr rfl),
    .inl ⟨⟨h.handle, h.holds, h.frame, h.moved⟩, hA⟩⟩

theorem tryRecv_triple : (oneshotContract .receiver).Triple
    (fun s : OneshotState T W => Receiving true none s ∧ Slot settled s) tryRecv
    fun _ => ReceiverAtRest := by
  apply loadState_triple.bind
  intro st
  split
  · rename_i hset
    have htake : (oneshotContract .receiver).Triple
        (fun s : OneshotState T W => (Receiving true none s ∧ Slot settled s) ∧
          s.isSet = true ∧ s.state = st)
        (takeValue st >>= recvReturns fun v => v.elim .empty .value) fun _ => ReceiverAtRest := by
      apply (takeValue_triple st).bind
      exact fun v => recvReturns_triple _
    exact htake.conseq (fun _ _ h => ⟨h.1, h.2.1 hset⟩) fun _ _ _ h => h
  · split
    · exact (recvNothing_triple .closed).conseq (fun _ _ h => h.1) fun _ _ _ h => h
    · exact (recvNothing_triple .empty).conseq (fun _ _ h => h.1) fun _ _ _ h => h

/-- The receiver is inside a poll with this waker. -/
def polling (waker : W) (here phase : Phase W) (current : Option W) (pending : Bool) : Prop :=
  phase = here ∧ current = some waker ∧ pending = false

/-- The steps of a poll on its own slot. -/
theorem Receiving.setRecv {s : OneshotState T W} {frame : Option T}
    (h : Receiving true frame s) (hI : OneshotInv s) (hp : s.pending = false) {x : SlotUse W Unit}
    (hslot : SlotInv x) (hsignals : x.signals = s.recv.signals) :
    OneshotInv { s with recv := x } ∧ (oneshotContract .receiver).guar s { s with recv := x } ∧
      Receiving true frame { s with recv := x } := by
  refine ⟨hI.setRecv hslot fun hpending => ?_,
    receiverMoves hI h.holds rfl ⟨rfl, rfl⟩ rfl hsignals rfl rfl (fun _ => rfl) (.inr rfl),
    ⟨h.handle, h.holds, h.frame, h.moved⟩⟩
  simp [hp] at hpending

theorem armRecv_triple (waker : W) : (oneshotContract .receiver).Triple
    (fun s : OneshotState T W => Receiving true none s ∧ Slot (polling waker .out) s) (armRecv waker)
    fun _ s => Receiving true none s ∧ Slot (polling waker .armed) s := by
  have harm : (oneshotContract .receiver).Triple
      (fun s : OneshotState T W => (Receiving true none s ∧ s.recv.current = some waker ∧
        s.pending = false) ∧ s.recv.phase = .out) (armRecv waker)
      fun _ s => (Receiving true none s ∧ s.recv.current = some waker ∧ s.pending = false) ∧
        s.recv.phase = .armed := by
    refine arm_triple (fun _ _ => rfl) (fun s (hI : OneshotInv s) => hI.slot) ?_ ?_ ?_
    · intro phase s t hI hst h
      obtain ⟨h', hphase, hcurrent, hp⟩ :=
        Receiving.stable (A := polling waker phase) s t hI hst ⟨h.1.1, h.2, h.1.2⟩
      exact ⟨⟨h', hcurrent, hp⟩, hphase⟩
    · intro s pc hI h hpc
      obtain ⟨hinv, hguar, h'⟩ := h.1.setRecv hI h.2.2 (hI.slot.armStep hpc) rfl
      exact ⟨hinv, hguar, h', h.2⟩
    · intro s hI h hout
      obtain ⟨hinv, hguar, h'⟩ := h.1.setRecv hI h.2.2 (hI.slot.beginArm hout h.2.1) rfl
      exact ⟨hinv, hguar, h', h.2⟩
  exact harm.conseq (fun _ _ h => ⟨⟨h.1, h.2.2⟩, h.2.1⟩) fun _ _ _ h => ⟨h.1.1, h.2, h.1.2⟩

omit [Waker W] in
theorem polling.settled {waker : W} {here phase : Phase W} {current : Option W} {pending : Bool}
    (hhere : ∀ pc, here ≠ .arming pc) (h : polling waker here phase current pending) :
    Oneshot.settled phase current pending := by
  obtain ⟨rfl, -⟩ := h
  exact hhere

theorem disarm_triple (waker : W) : (oneshotContract .receiver).Triple
    (fun s : OneshotState T W => Receiving true v s ∧ Slot (polling waker .armed) s)
    (store fun s => { s with recv := s.recv.disarm })
    fun _ s => Receiving true v s ∧ Slot settled s := by
  refine .store Receiving.stable (fun _ => Receiving.stable) ?_
  rintro s hI ⟨h, hphase, -, hp⟩
  have hslot : SlotInv s.recv.disarm := hI.slot.quit (by simp [hphase]) rfl rfl rfl
  obtain ⟨hinv, hguar, h'⟩ := h.setRecv hI hp hslot rfl
  exact ⟨hinv, hguar, h', fun pc hpc => by cases hpc⟩

theorem parked_triple (waker : W) : (oneshotContract .receiver).Triple
    (fun s : OneshotState T W =>
      (Receiving true none s ∧ Slot (polling waker .armed) s) ∧ SeenOpen s)
    (store fun s => { s with receiverOut := some .pending, pending := true })
    fun _ => ReceiverAtRest := by
  refine .store SeenOpen.stable (fun _ => ReceiverAtRest.stable) ?_
  rintro s hI ⟨⟨h, hphase, -⟩, hopen⟩
  exact ⟨{ hI with parked := fun _ => ⟨hphase, hopen⟩ },
    receiverMoves hI h.holds rfl ⟨rfl, rfl⟩ rfl rfl rfl rfl (fun _ => rfl) (.inr rfl),
    .inl ⟨⟨h.handle, h.holds, h.frame, h.moved⟩, by simp [hphase]⟩⟩

theorem pollRecv_triple (waker : W) : (oneshotContract .receiver).Triple
    (fun s : OneshotState T W => Receiving true none s ∧ Slot (polling waker .out) s)
    (pollRecv waker) fun _ => ReceiverAtRest := by
  apply resolve_triple.bind
  rintro (_ | v)
  · refine Contract.Triple.bind ((armRecv_triple waker).conseq (fun _ _ h => h.1) fun _ _ _ h => h)
      fun _ => ?_
    apply resolve_triple.bind
    rintro (_ | v)
    · exact (parked_triple waker).conseq (fun _ _ h => ⟨h.1, h.2 rfl⟩) fun _ _ _ h => h
    · refine Contract.Triple.bind ((disarm_triple waker).conseq (fun _ _ h => h.1) fun _ _ _ h => h)
        fun _ => ?_
      exact recvReturns_triple _
  · refine (recvReturns_triple _).conseq (fun s _ h => ⟨h.1.1, ?_⟩) fun _ _ _ h => h
    exact h.1.2.settled (by simp)

end Calls

section Drop

/-- What the receiver knows when it has given up the last reference. -/
structure ReceiverLast (s : OneshotState T W) : Prop where
  handle : s.receiver = false
  frame : s.inReceiver = none
  last : s.last = some .receiver
  dropped : s.dropped = []

theorem ReceiverLast.stable (st : BitVec 8) : (oneshotContract .receiver).Stable
    fun s : OneshotState T W => ReceiverLast s ∧ s.state = st := by
  intro s t _ (hst : ReceiverRely s t) ⟨h, hstate⟩
  obtain ⟨hstate', -, hdropped⟩ := hst.free h.last
  exact ⟨⟨hst.handle.trans h.handle, hst.frame.trans h.frame, hst.last.mpr h.last,
    hdropped.trans h.dropped⟩, hstate'.trans hstate⟩

theorem dropInner_receiver_triple : (oneshotContract .receiver).Triple
    (ReceiverLast (T := T) (W := W)) dropInner fun _ => ReceiverGone := by
  refine dropInner_triple (fun s h => ⟨h.last, h.dropped⟩) ReceiverLast.stable ReceiverGone.stable
    (fun s hI h => ?_) fun s hI h hempty => ?_
  · obtain ⟨hs, hr⟩ := OneshotInv.not_holds_of_last hI h.last
    refine ⟨receiverGuar ⟨rfl, rfl, rfl, rfl, rfl, rfl, rfl, fun hunset => ?_, Iff.rfl,
      fun hlast => ?_⟩, ⟨h.handle, hr, h.frame, fun _ => rfl⟩⟩
    · change none = s.value
      rw [eq_comm, ← Option.not_isSome_iff_eq_none]
      intro hsome
      have := OneshotInv.written hI hsome
      simp [hunset, hs] at this
    · simp [h.last] at hlast
  · exact ⟨h.handle, (hI.not_holds_of_last h.last).2, h.frame, fun _ => hempty⟩

theorem releaseInner_receiver_triple : (oneshotContract .receiver).Triple
    (fun s : OneshotState T W => Receiving false none s ∧ Slot settled s)
    (releaseInner .receiver) fun _ => ReceiverGone := by
  refine releaseInner_triple Receiving.stable
    (fun s t hI hst h => (ReceiverLast.stable s.state s t hI hst ⟨h, rfl⟩).1) ReceiverGone.stable
    ?_ dropInner_receiver_triple
  rintro s hI ⟨h, -⟩
  have hnone := hI.last_eq_none (.inr h.holds)
  refine ⟨hI.releaseReceiver h.holds fun htaken => (h.moved htaken).2, ?_, fun hone => ?_,
    fun hne => ?_⟩
  · refine receiverMoves hI h.holds rfl ⟨rfl, rfl⟩ (by simp [OneshotState.release]) rfl rfl rfl
      (fun _ => rfl) ?_
    simp only [OneshotState.release]
    split
    · exact .inl rfl
    · exact .inr rfl
  · exact ⟨h.handle, h.frame, by simp [OneshotState.release, hone], hI.kept hnone⟩
  · refine ⟨h.handle, by simp [OneshotState.release], h.frame, fun hlast => ?_⟩
    simp [OneshotState.release, hne, hnone] at hlast

theorem dropReceiver_triple : (oneshotContract .receiver).Triple
    (fun s : OneshotState T W => Receiving false none s ∧ Slot settled s) dropReceiver
    fun _ => ReceiverGone := by
  apply Contract.Triple.bind (R := fun _ s => Receiving false none s ∧ Slot settled s)
  · refine .store Receiving.stable (fun _ => Receiving.stable) ?_
    rintro s hI ⟨h, hA⟩
    have hset : Word.has (s.state ||| RECEIVER_DROPPED) VALUE_SET = s.isSet :=
      Word.has_or_apart (by decide)
    have hclosed : Word.has (s.state ||| RECEIVER_DROPPED) SENDER_DROPPED = s.isClosed :=
      Word.has_or_apart (by decide)
    have htaken : Word.has (s.state ||| RECEIVER_DROPPED) TAKEN = s.isTaken :=
      Word.has_or_apart (by decide)
    refine ⟨{ hI with
        taken := fun ht => hset.trans (hI.taken (htaken ▸ ht))
        full := fun hs ht => hI.full (hset ▸ hs) (htaken ▸ ht)
        written := fun hsome => (hI.written hsome).imp hset.trans id
        unread := fun hsome => (hI.unread hsome).imp htaken.trans id
        parked := fun hp => ⟨(hI.parked hp).1, fun hpub => ?_⟩ },
      receiverMoves hI h.holds rfl ⟨rfl, rfl⟩ rfl rfl hset hclosed (fun _ => rfl) (.inr rfl),
      ⟨h.handle, h.holds, h.frame, fun ht => ?_⟩, hA⟩
    · obtain ⟨hunset, hopen⟩ := (hI.parked hp).2 hpub
      exact ⟨hset.trans hunset, hclosed.trans hopen⟩
    · obtain ⟨hs, hvalue⟩ := h.moved (htaken ▸ ht)
      exact ⟨hset.trans hs, hvalue⟩
  · exact fun _ => releaseInner_receiver_triple

end Drop

end Cynosure.SiteD.Oneshot
