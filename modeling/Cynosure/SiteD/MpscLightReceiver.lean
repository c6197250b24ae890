import Cynosure.SiteD.MpscLightInvariant

/-! # The receiver of the light MPSC channel

The receiver serves from its staging queue and takes the whole shared queue when that runs
dry. A look that finds nothing after `arm` stays true until somebody signals.
-/

namespace Cynosure.SiteD.MpscLight

open Prog

variable {T W : Type} {s t : MpscState T W}

/-- What a step of the receiver may change, as the senders see it. -/
structure ReceiverStep (s t : MpscState T W) : Prop where
  futures : t.futures = s.futures
  seqs : t.seqs = s.seqs
  accepted : t.accepted = s.accepted
  withdrawn : t.withdrawn = s.withdrawn
  signals : t.recv.signals = s.recv.signals
  credit : t.credit = s.credit
  borrowers : t.borrowers = s.borrowers
  closed : s.closed = true → t.closed = true
  nextId : t.waiters.nextId = s.waiters.nextId
  parkedBy : t.parkedBy = s.parkedBy
  gone : ∀ id, t.waiters.Waiting id → s.waiters.Waiting id
  stays : t.closed = false → ∀ id, s.waiters.Waiting id → t.waiters.Waiting id

theorem ReceiverStep.refl (s : MpscState T W) : ReceiverStep s s :=
  ⟨rfl, rfl, rfl, rfl, rfl, rfl, rfl, id, rfl, rfl, fun _ h => h, fun _ _ h => h⟩

theorem ReceiverStep.guar [Waker W] {cap : Nat} (h : ReceiverStep s t) :
    (receiverContract cap).guar s t :=
  receiverGuar fun n => {
    future := by rw [h.futures]
    seq := by rw [h.seqs]
    accepted := by rw [h.accepted]
    own := fun x _ hx => h.accepted ▸ hx
    withdrawn := fun x _ hx => h.withdrawn ▸ hx
    signal := by rw [h.signals]
    credit := by rw [h.credit]
    closed := h.closed
    borrow := by rw [h.borrowers]
    nextId := h.nextId.ge
    parkedBy := fun _ _ => by rw [h.parkedBy]
    parks := fun id hle hlt => by
      rw [h.nextId] at hlt
      omega
    gone := fun id _ _ => h.gone id
    stays := fun id _ _ hopen => h.stays hopen id }

/-- The receiver is in a call that has taken `got` so far. -/
structure InRecv (got : List (Item T)) (s : MpscState T W) : Prop where
  alive : s.receiver.alive = true
  opened : s.closed = false
  returned : s.returned ++ got = s.received

/-- `u` is where the receiver is in its slot, and the waker of its last poll. -/
def Receiving (u : Phase W × Option W) (got : List (Item T)) (s : MpscState T W) : Prop :=
  InRecv got s ∧ (s.recv.phase, s.recv.current) = u

/-- The last look found the channel empty, and whatever came since was signalled. -/
def Looked (s : MpscState T W) : Prop :=
  s.staging = [] ∧ (s.recv.published = false → s.queue = [])

section Stable

variable [Waker W] {cap : Nat} {got : List (Item T)} {u : Phase W × Option W}

omit [Waker W] in
theorem InRecv.of_rely (hst : ReceiverRely s t) (h : InRecv got s) : InRecv got t where
  alive := by rw [hst.receiver, h.alive]
  opened := hst.closed.trans h.opened
  returned := by rw [hst.returned, hst.received, h.returned]

omit [Waker W] in
theorem Looked.of_rely (hst : ReceiverRely s t) (h : Looked s) : Looked t := by
  refine ⟨hst.staging.trans h.1, fun hp => ?_⟩
  obtain ⟨hp', hq, -⟩ := hst.quiet hp
  exact hq (h.2 hp')

theorem Receiving.stable :
    (receiverContract cap).Stable (Receiving u got : MpscState T W → Prop) :=
  fun _ _ _ hst h => ⟨h.1.of_rely hst, by rw [hst.phase, hst.current, h.2]⟩

theorem Receiving.stable_looked : (receiverContract cap).Stable
    fun s : MpscState T W => Receiving u got s ∧ Looked s :=
  fun s t ht hst h => ⟨Receiving.stable s t ht hst h.1, h.2.of_rely hst⟩

end Stable

section Staging

variable [Waker W] {cap : Nat} {got : List (Item T)} {u : Phase W × Option W} {P : MpscState T W → Prop}

theorem receiverIdle_guar (s : MpscState T W) : (receiverContract cap).guar s s :=
  (ReceiverStep.refl s).guar

/-- An action that only the senders could see, on an assertion that they cannot break. -/
theorem receiverSilent_step (hP : (receiverContract cap).Stable P) (hI : MpscInv cap t)
    (hst : ReceiverRely s t) (hstep : ReceiverStep s t) (h : P s) :
    MpscInv cap t ∧ (receiverContract cap).guar s t ∧ P t :=
  ⟨hI, hstep.guar, hP s t hI hst h⟩

theorem wakeByRef_receiver_triple (hP : (receiverContract cap).Stable P) (waker : Option W) :
    (receiverContract cap).Triple P (wakeByRef waker) fun _ => P := by
  cases waker with
  | none => exact .ret hP fun _ _ h => h
  | some waker =>
    refine .store hP (fun _ => hP) fun s hI h => ?_
    exact receiverSilent_step hP { hI with } { ReceiverRely.refl s with }
      { ReceiverStep.refl s with } h

/-- The first waiter becomes a selected one. -/
theorem MpscInv.wakeOne (hI : MpscInv cap s) : MpscInv cap s.wakeOneWaiter :=
  { hI with
    mirror := rfl
    waiters := hI.waiters.selectFirst
    owed := fun _ hq => .inr (.inl (Waiters.selectFirst_selected (Waiters.q_of_selectFirst hq))) }

omit [Waker W] in
theorem receiverStep_wakeOne (s : MpscState T W) : ReceiverStep s s.wakeOneWaiter :=
  { ReceiverStep.refl s with
    nextId := Waiters.selectFirst_nextId
    gone := fun id => (Waiters.waiting_selectFirst id).mp
    stays := fun _ id => (Waiters.waiting_selectFirst id).mpr }

theorem wakeOneWaiter_triple (hP : (receiverContract cap).Stable P) :
    (receiverContract cap).Triple P wakeOneWaiter fun _ => P := by
  apply Contract.Triple.bind (R := fun _ => P)
  · refine .exchange hP (fun _ => hP) fun s hI h => ?_
    refine receiverSilent_step hP hI.wakeOne ?_ (receiverStep_wakeOne s) h
    exact { ReceiverRely.refl s with shut := fun _ id => (Waiters.waiting_selectFirst id).mp }
  · exact fun waker => wakeByRef_receiver_triple hP waker

theorem wakeIfWaiting_triple (hP : (receiverContract cap).Stable P) :
    (receiverContract cap).Triple P wakeIfWaiting fun _ => P := by
  apply Contract.Triple.bind (R := fun _ => P)
  · exact .load hP (fun _ => hP) (fun s _ _ => receiverIdle_guar s) fun _ _ h => h
  · intro len
    split
    · exact wakeOneWaiter_triple hP
    · exact .ret hP fun _ _ h => h

theorem MpscInv.pop (hI : MpscInv cap s) (halive : s.receiver.alive = true) :
    MpscInv cap s.popStaged :=
  { hI with
    stream := by
      have hstream := hI.stream
      rw [hI.kept halive] at hstream
      change s.received ++ s.staging.head?.toList ++ s.discarded ++ s.staging.tail ++ s.queue =
        s.accepted
      rw [hI.kept halive, ← hstream]
      cases s.staging <;> simp
    stagingLe := by
      have := hI.stagingLe
      change s.staging.tail.length ≤ cap
      rw [List.length_tail]
      omega
    returned := hI.returned.trans (List.prefix_append _ _) }

def PopPost (u : Phase W × Option W) (got : List (Item T)) : Option (Item T) → MpscState T W → Prop
  | none, s => Receiving u got s ∧ s.staging = []
  | some x, s => Receiving u (got ++ [x]) s

theorem PopPost.stable (x : Option (Item T)) :
    (receiverContract cap).Stable (PopPost u got x : MpscState T W → Prop) := by
  cases x with
  | none => exact fun s t ht hst h => ⟨Receiving.stable s t ht hst h.1, hst.staging.trans h.2⟩
  | some x => exact Receiving.stable

omit [Waker W] in
theorem Receiving.pop (h : Receiving u got s) : PopPost u got s.staging.head? s.popStaged := by
  cases hs : s.staging with
  | nil =>
    refine ⟨⟨{ h.1 with returned := ?_ }, h.2⟩, ?_⟩
    · simpa [MpscState.popStaged, hs] using h.1.returned
    · simp [MpscState.popStaged, hs]
  | cons x rest =>
    refine ⟨{ h.1 with returned := ?_ }, h.2⟩
    simp [MpscState.popStaged, hs, ← h.1.returned]

theorem popStaged_triple : (receiverContract cap).Triple
    (Receiving (T := T) u got) popStaged (PopPost u got) := by
  refine .exchange Receiving.stable PopPost.stable fun s hI h => ?_
  exact ⟨hI.pop h.1.alive, ReceiverStep.guar { ReceiverStep.refl s with }, h.pop⟩

/-- A steal empties the queue, and lets one sender refill it. -/
theorem MpscInv.steal (hI : MpscInv cap s) (hempty : s.staging = []) : MpscInv cap s.stealInto := by
  unfold MpscState.stealInto
  split
  · exact hI
  · exact { hI.wakeOne with
      stream := by
        have hstream := hI.stream
        change s.received ++ s.discarded ++ s.queue ++ s.staging = s.accepted
        rw [hempty] at hstream ⊢
        simpa using hstream
      queueLe := hI.stagingLe
      stagingLe := hI.queueLe
      hint := by
        change 0 = if s.staging = [] then 0 else 1
        rw [if_pos hempty]
      owed := fun _ hq =>
        .inr (.inl (Waiters.selectFirst_selected (Waiters.q_of_selectFirst hq))) }

omit [Waker W] in
theorem receiverStep_steal (s : MpscState T W) : ReceiverStep s s.stealInto := by
  unfold MpscState.stealInto
  split
  · exact .refl s
  · exact { receiverStep_wakeOne s with }

def StealPost (u : Phase W × Option W) (got : List (Item T)) (n : Nat) (s : MpscState T W) : Prop :=
  Receiving u got s ∧ if n = 0 then Looked s else s.staging ≠ []

theorem StealPost.stable (n : Nat) :
    (receiverContract cap).Stable (StealPost u got n : MpscState T W → Prop) := by
  intro s t ht (hst : ReceiverRely s t) h
  refine ⟨Receiving.stable s t ht hst h.1, ?_⟩
  have hfound := h.2
  by_cases hn : n = 0
  · rw [if_pos hn] at hfound ⊢
    exact hfound.of_rely hst
  · rw [if_neg hn] at hfound ⊢
    rwa [hst.staging]

theorem stealInto_triple : (receiverContract cap).Triple
    (fun s : MpscState T W => Receiving u got s ∧ s.staging = []) stealInto
    (StealPost u got) := by
  apply Contract.Triple.bind (R := fun r => StealPost u got r.1)
  · refine .exchange (PopPost.stable none) (fun r => StealPost.stable r.1) fun s hI h => ?_
    refine ⟨hI.steal h.2, (receiverStep_steal s).guar, ?_⟩
    by_cases hq : s.queue = []
    · simp only [MpscState.stealInto, StealPost, hq, if_true, List.length_nil]
      exact ⟨h.1, h.2, fun _ => hq⟩
    · simp only [MpscState.stealInto, StealPost, hq, if_false, List.length_eq_zero_iff]
      exact ⟨⟨{ h.1.1 with }, h.1.2⟩, hq⟩
  · intro r
    split
    · rename_i hr
      rw [hr]
      exact .ret (StealPost.stable 0) fun _ _ h => h
    · apply (wakeByRef_receiver_triple (StealPost.stable r.1) r.2).bind
      exact fun _ => .ret (StealPost.stable r.1) fun _ _ h => h

/-- The outcome of `next_staged`; `none` only when there was nothing to take. -/
def NextPost (u : Phase W × Option W) (got : List (Item T)) : Option (Item T) → MpscState T W → Prop
  | none, s => Receiving u got s ∧ Looked s
  | some x, s => Receiving u (got ++ [x]) s

theorem NextPost.stable (x : Option (Item T)) :
    (receiverContract cap).Stable (NextPost u got x : MpscState T W → Prop) := by
  cases x with
  | none => exact Receiving.stable_looked
  | some x => exact Receiving.stable

theorem nextStaged_triple : (receiverContract cap).Triple
    (Receiving (T := T) u got) nextStaged (NextPost u got) := by
  apply popStaged_triple.bind
  rintro (_ | x)
  · apply stealInto_triple.bind
    intro n
    split
    · rename_i hn
      -- what was stolen is there to pop
      refine .exchange (StealPost.stable n) NextPost.stable fun s hI h => ?_
      have hsome : s.staging ≠ [] := by simpa [hn.ne'] using h.2
      refine ⟨hI.pop h.1.1.alive, ReceiverStep.guar { ReceiverStep.refl s with }, ?_⟩
      have hpop := h.1.pop
      cases hs : s.staging with
      | nil => exact absurd hs hsome
      | cons x rest =>
        rw [hs] at hpop
        exact hpop
    · rename_i hn
      have hzero : n = 0 := by omega
      subst hzero
      exact .ret (StealPost.stable 0) fun _ _ h => h
  · apply (wakeIfWaiting_triple Receiving.stable).bind
    exact fun _ => .ret Receiving.stable fun _ _ h => h

omit [Waker W] in
theorem NextPost.receiving {x : Option (Item T)} (h : NextPost u got x s) :
    Receiving u (got ++ x.toList) s := by
  cases x with
  | none => simpa using h.1
  | some x => exact h

end Staging

section Calls

variable [Waker W] {cap : Nat} {got : List (Item T)} {u : Phase W × Option W} {P : MpscState T W → Prop}

/-- The receiver's call returns what it took; `pending` needs more. -/
theorem recvReturns_triple {out : RecvOut T} (hphase : ∀ pc, u.1 ≠ .arming pc)
    (hout : out = .pending → ∀ s, P s → Parked s) (hP : (receiverContract cap).Stable P)
    (hrecv : ∀ s, P s → Receiving u got s) :
    (receiverContract cap).Triple P (recvReturns out got) fun _ => ReceiverRest := by
  refine .store hP (fun _ => ReceiverRest.stable) fun s hI h => ?_
  obtain ⟨hin, hp⟩ := hrecv s h
  refine ⟨{ hI with returned := ?_ }, ReceiverStep.guar { ReceiverStep.refl s with }, ?_⟩
  · change s.returned ++ got <+: s.received
    rw [hin.returned]
  · exact {
      returned := hin.returned
      between := by
        change ∀ pc, (s.recv.phase, s.recv.current).1 ≠ .arming pc
        rwa [hp]
      opened := fun _ => hin.opened
      pending := fun hpending _ => by
        change out.isPending = true at hpending
        cases out <;> first | exact { hout rfl s h with } | cases hpending
      shut := fun hdead => absurd (hin.alive.symm.trans hdead) Bool.noConfusion }

theorem recvReady_triple {x : Option (Item T)} (hphase : ∀ pc, u.1 ≠ .arming pc) :
    (receiverContract cap).Triple (Receiving u x.toList) (recvReady x) fun _ => ReceiverRest :=
  recvReturns_triple hphase (fun h => by cases h) Receiving.stable fun _ h => h

/-- A count of senders that was not zero after the last look. -/
def Counted (u : Phase W × Option W) (senders : Nat) (s : MpscState T W) : Prop :=
  (Receiving u [] s ∧ Looked s) ∧
    (senders ≠ 0 → s.recv.published = false → 0 < s.senders)

theorem Counted.stable (senders : Nat) :
    (receiverContract cap).Stable (Counted u senders : MpscState T W → Prop) := by
  intro s t ht (hst : ReceiverRely s t) h
  refine ⟨Receiving.stable_looked s t ht hst h.1, fun hn hp => ?_⟩
  obtain ⟨hp', -, hsenders⟩ := hst.quiet hp
  exact hsenders (h.2 hn hp')

theorem loadSenders_triple : (receiverContract cap).Triple
    (fun s : MpscState T W => Receiving u [] s ∧ Looked s) (load MpscState.senders)
    (Counted u) :=
  .load Receiving.stable_looked Counted.stable (fun s _ _ => receiverIdle_guar s)
    fun _ _ h => ⟨h, fun hn _ => Nat.pos_of_ne_zero hn⟩

/-- The last look, once the senders are gone. -/
theorem lastLook_triple {senders : Nat} : (receiverContract cap).Triple
    (Counted (T := T) u senders) nextStaged fun x => Receiving u x.toList := by
  refine nextStaged_triple.conseq (fun _ _ h => h.1.1) fun x _ _ h => ?_
  simpa using h.receiving

theorem tryRecv_triple (hphase : ∀ pc, u.1 ≠ .arming pc) : (receiverContract cap).Triple
    (Receiving (T := T) (W := W) u []) tryRecv fun _ => ReceiverRest := by
  have hitem : ∀ x : Item T, (receiverContract cap).Triple (Receiving (W := W) u [x])
      (recvReturns (.item x) [x]) fun _ => ReceiverRest :=
    fun x => recvReturns_triple hphase (fun h => by cases h) Receiving.stable fun _ h => h
  have hnone : ∀ out : RecvOut T, out ≠ .pending → (receiverContract cap).Triple
      (Receiving (W := W) u []) (recvReturns out []) fun _ => ReceiverRest :=
    fun out hout => recvReturns_triple hphase (fun h => absurd h hout) Receiving.stable fun _ h => h
  apply nextStaged_triple.bind
  rintro (_ | x)
  · apply loadSenders_triple.bind
    intro senders
    split
    · apply lastLook_triple.bind
      rintro (_ | x)
      · exact hnone .closed (by simp)
      · exact hitem x
    · exact (hnone .empty (by simp)).conseq (fun _ _ h => h.1.1) fun _ _ _ h => h
  · exact hitem x

theorem recvUpTo_triple (n : Nat) (got : List (Item T)) : (receiverContract cap).Triple
    (Receiving (W := W) u got) (recvUpTo n) fun out => Receiving u (got ++ out) := by
  induction n generalizing got with
  | zero => exact .ret Receiving.stable fun _ _ h => by simpa using h
  | succ n ih =>
    apply nextStaged_triple.bind
    rintro (_ | x)
    · exact .ret Receiving.stable_looked fun _ _ h => by simpa using h.1
    · apply (ih (got ++ [x])).bind
      intro rest
      exact .ret Receiving.stable fun _ _ h => by simpa using h

theorem recvMany_triple (hphase : ∀ pc, u.1 ≠ .arming pc) (max : Nat) :
    (receiverContract cap).Triple (Receiving (T := T) (W := W) u []) (recvMany max)
      fun _ => ReceiverRest := by
  apply (recvUpTo_triple max []).bind
  intro out
  exact recvReturns_triple hphase (fun h => by cases h) Receiving.stable fun _ h => by simpa using h

theorem spinLook_triple : (receiverContract cap).Triple (Receiving (T := T) (W := W) u [])
    spinLook fun x => Receiving u x.toList := by
  apply Contract.Triple.bind (R := fun _ => Receiving u [])
  · exact .load Receiving.stable (fun _ => Receiving.stable) (fun s _ _ => receiverIdle_guar s)
      fun _ _ h => h
  · intro nonempty
    split
    · refine nextStaged_triple.conseq (fun _ _ h => h) fun x _ _ h => ?_
      simpa using h.receiving
    · exact .ret Receiving.stable fun _ _ h => h

def SpinPost (u : Phase W × Option W) : Option (Option (Item T)) → MpscState T W → Prop
  | none => Receiving u []
  | some x => Receiving u x.toList

theorem spinRecv_triple (n : Nat) : (receiverContract cap).Triple
    (Receiving (T := T) (W := W) u []) (spinRecv n) (SpinPost u) := by
  induction n with
  | zero => exact .ret Receiving.stable fun _ _ h => h
  | succ n ih =>
    apply spinLook_triple.bind
    rintro (_ | x)
    · apply Contract.Triple.bind (R := fun _ => Receiving u [])
      · exact .load Receiving.stable (fun _ => Receiving.stable)
          (fun s _ _ => receiverIdle_guar s) fun _ _ h => h
      · intro senders
        split
        · apply (nextStaged_triple).bind
          intro x
          refine .ret (NextPost.stable x) fun _ _ h => ?_
          simpa [SpinPost] using h.receiving
        · exact ih
    · exact .ret Receiving.stable fun _ _ h => h

theorem disarmRecv_triple {waker : Option W} (hP : (receiverContract cap).Stable P)
    (hrecv : ∀ s, P s → Receiving (.armed, waker) got s) :
    (receiverContract cap).Triple P disarmRecv fun _ => Receiving (.out, waker) got := by
  refine .store hP (fun _ => Receiving.stable) fun s hI h => ?_
  obtain ⟨hin, hp⟩ := hrecv s h
  rw [Prod.mk.injEq] at hp
  refine ⟨{ hI with slot := hI.slot.quit ?_ rfl rfl rfl }, ReceiverStep.guar { ReceiverStep.refl s with }, { hin with }, ?_⟩
  · simp [hp.1]
  · rw [← hp.2]
    rfl

theorem armRecv_triple (waker : W) : (receiverContract cap).Triple
    (Receiving (T := T) (.out, some waker) []) (armRecv waker)
    fun _ => Receiving (.armed, some waker) [] := by
  have hstable : ∀ phase, (receiverContract cap).Stable fun s : MpscState T W =>
      (InRecv [] s ∧ s.recv.current = some waker) ∧ s.recv.phase = phase :=
    fun phase _ _ _ hst h =>
      ⟨⟨h.1.1.of_rely hst, hst.current.trans h.1.2⟩, hst.phase.trans h.2⟩
  have hstep : ∀ (s : MpscState T W) pc, MpscInv cap s → InRecv [] s ∧ s.recv.current = some waker →
      s.recv.phase = .arming pc → MpscInv cap { s with recv := s.recv.armStep pc } ∧
        (receiverContract cap).guar s { s with recv := s.recv.armStep pc } ∧
        InRecv [] { s with recv := s.recv.armStep pc } ∧
          (s.recv.armStep pc).current = some waker :=
    fun s pc hI h hp => ⟨{ hI with slot := hI.slot.armStep hp }, ReceiverStep.guar { ReceiverStep.refl s with },
      { h.1 with }, h.2⟩
  have hbegin : ∀ s : MpscState T W, MpscInv cap s → InRecv [] s ∧ s.recv.current = some waker →
      s.recv.phase = .out → MpscInv cap { s with recv := s.recv.beginArm waker } ∧
        (receiverContract cap).guar s { s with recv := s.recv.beginArm waker } ∧
        InRecv [] { s with recv := s.recv.beginArm waker } ∧
          (s.recv.beginArm waker).current = some waker :=
    fun s hI h hp => ⟨{ hI with slot := hI.slot.beginArm hp h.2 }, ReceiverStep.guar { ReceiverStep.refl s with },
      { h.1 with }, h.2⟩
  have harm : (receiverContract cap).Triple
      (fun s : MpscState T W => (InRecv [] s ∧ s.recv.current = some waker) ∧ s.recv.phase = .out)
      (armRecv waker)
      fun _ s => (InRecv [] s ∧ s.recv.current = some waker) ∧ s.recv.phase = .armed := by
    apply arm_triple
    · exact fun _ _ => rfl
    · exact fun _ hI => MpscInv.slot hI
    · exact hstable
    · exact hstep
    · exact hbegin
  refine harm.conseq (fun s _ h => ?_) fun _ s _ h => ?_
  · have hp := h.2
    rw [Prod.mk.injEq] at hp
    exact ⟨⟨h.1, hp.2⟩, hp.1⟩
  · exact ⟨h.1.1, by rw [h.2, h.1.2]⟩

theorem parkRecv_triple (waker : W) : (receiverContract cap).Triple
    (Receiving (T := T) (.out, some waker) []) (parkRecv waker) fun _ => ReceiverRest := by
  have hready : ∀ x : Option (Item T), (receiverContract cap).Triple
      (Receiving (.out, some waker) x.toList) (recvReady x) fun _ => ReceiverRest :=
    fun x => recvReady_triple (by simp)
  apply (armRecv_triple waker).bind
  intro _
  apply nextStaged_triple.bind
  rintro (_ | x)
  · apply loadSenders_triple.bind
    intro senders
    split
    · apply (disarmRecv_triple (Counted.stable senders) fun _ h => h.1.1).bind
      intro _
      apply nextStaged_triple.bind
      exact fun x => (hready x).conseq (fun _ _ h => by simpa using h.receiving) fun _ _ _ h => h
    · rename_i hsome
      apply (wakeIfWaiting_triple (Counted.stable senders)).bind
      intro _
      refine recvReturns_triple (u := (.armed, some waker)) (by simp) (fun _ s h => ?_)
        (Counted.stable senders) fun _ h => h.1.1
      obtain ⟨⟨hin, hlooked⟩, hcount⟩ := h
      have hp := hin.2
      rw [Prod.mk.injEq] at hp
      exact ⟨hp.1, hlooked.1, fun hp => ⟨hlooked.2 hp, hcount hsome hp⟩⟩
  · apply (disarmRecv_triple Receiving.stable fun _ h => h).bind
    exact fun _ => hready (some x)

theorem pollRecv_triple (spin : Bool) (waker : W) : (receiverContract cap).Triple
    (Receiving (T := T) (.out, some waker) []) (pollRecv spin waker) fun _ => ReceiverRest := by
  have hready : ∀ x : Option (Item T), (receiverContract cap).Triple
      (Receiving (.out, some waker) x.toList) (recvReady x) fun _ => ReceiverRest :=
    fun x => recvReady_triple (by simp)
  apply nextStaged_triple.bind
  rintro (_ | x)
  · apply loadSenders_triple.bind
    intro senders
    split
    · exact lastLook_triple.bind hready
    · refine Contract.Triple.conseq (P := Receiving (.out, some waker) []) ?_ (fun _ _ h => h.1.1)
        fun _ _ _ h => h
      apply (spinRecv_triple _).bind
      rintro (_ | x)
      · exact parkRecv_triple waker
      · exact hready x
  · exact hready (some x)

/-- The receiver handle is gone, and its fields are on the way. -/
structure Leaving (s : MpscState T W) : Prop where
  dead : s.receiver.alive = false
  future : s.receiver.future = none
  returned : s.returned = s.received
  between : ∀ pc, s.recv.phase ≠ .arming pc
  kept : s.discarded = []

omit [Waker W] in
theorem Leaving.of_rely (hst : ReceiverRely s t) (h : Leaving s) : Leaving t where
  dead := by rw [hst.receiver, h.dead]
  future := by rw [hst.receiver, h.future]
  returned := by rw [hst.returned, hst.received, h.returned]
  between := by
    rw [hst.phase]
    exact h.between
  kept := hst.discarded.trans h.kept

theorem Leaving.stable : (receiverContract cap).Stable (Leaving : MpscState T W → Prop) :=
  fun _ _ _ hst h => h.of_rely hst

theorem Leaving.stable_closed : (receiverContract cap).Stable fun s : MpscState T W =>
    Leaving s ∧ s.closed = true :=
  fun _ _ _ hst h => ⟨h.1.of_rely hst, hst.closed.trans h.2⟩

theorem Leaving.stable_shut : (receiverContract cap).Stable fun s : MpscState T W =>
    Leaving s ∧ s.closed = true ∧ ∀ id, ¬ s.waiters.Waiting id :=
  fun _ _ _ hst h => ⟨h.1.of_rely hst, hst.closed.trans h.2.1,
    fun id hid => h.2.2 id (hst.shut h.2.1 id hid)⟩

theorem wakeAll_triple (hP : (receiverContract cap).Stable P) (wakers : List W) :
    (receiverContract cap).Triple P (wakeAll wakers) fun _ => P := by
  induction wakers with
  | nil => exact .ret hP fun _ _ h => h
  | cons waker rest ih => exact (wakeByRef_receiver_triple hP (some waker)).bind fun _ => ih

theorem dropReceiver_triple : (receiverContract cap).Triple (Leaving (T := T) (W := W)) dropReceiver
    fun _ => ReceiverRest := by
  apply Contract.Triple.bind (R := fun _ s => Leaving s ∧ s.closed = true)
  · refine .store Leaving.stable (fun _ => Leaving.stable_closed) fun s hI h => ?_
    refine ⟨{ hI with owed := fun hopen => Bool.noConfusion hopen }, ReceiverStep.guar ?_,
      { h with }, rfl⟩
    exact { ReceiverStep.refl s with
      closed := fun _ => rfl
      stays := fun hopen => Bool.noConfusion hopen }
  intro _
  apply Contract.Triple.bind
    (R := fun _ s => Leaving s ∧ s.closed = true ∧ ∀ id, ¬ s.waiters.Waiting id)
  · refine .exchange Leaving.stable_closed (fun _ => Leaving.stable_shut) fun s hI h => ?_
    refine ⟨?_, ReceiverStep.guar ?_, { h.1 with }, h.2, Waiters.not_waiting_clear⟩
    · exact { hI with
        mirror := rfl
        waiters := Waiters.WellFormed.clear s.waiters
        owed := fun _ hq => absurd rfl hq }
    · exact { ReceiverStep.refl s with
        gone := fun id hid => absurd hid (Waiters.not_waiting_clear id)
        stays := fun hopen => absurd (h.2.symm.trans hopen) Bool.noConfusion }
  intro wakers
  apply (wakeAll_triple Leaving.stable_shut wakers).bind
  intro _
  refine .store Leaving.stable_shut (fun _ => ReceiverRest.stable) fun s hI h => ?_
  refine ⟨{ hI with stream := ?_, stagingLe := Nat.zero_le _, kept := ?_ }, ReceiverStep.guar { ReceiverStep.refl s with }, ?_⟩
  · have hstream := hI.stream
    rw [h.1.kept] at hstream
    simpa using hstream
  · intro halive
    exact absurd (h.1.dead.symm.trans halive) Bool.noConfusion
  · exact {
      returned := h.1.returned
      between := h.1.between
      opened := fun halive => absurd (h.1.dead.symm.trans halive) Bool.noConfusion
      pending := fun _ hfuture => by
        change s.receiver.future.isSome = true at hfuture
        simp [h.1.future] at hfuture
      shut := fun _ => h.2 }

omit [Waker W] in
theorem ReceiverRest.receiving (h : ReceiverRest s) (halive : s.receiver.alive = true) :
    Receiving (s.recv.phase, s.recv.current) [] s :=
  ⟨⟨halive, h.opened halive, by rw [List.append_nil, h.returned]⟩, rfl⟩

theorem receiver_start {p : Prog (MpscState T W) PUnit} {op : MpscOp T W} (hI : MpscInv cap s)
    (h : ReceiverRest s) (hcall : receiverCall op s = some (t, p)) :
    MpscInv cap t ∧ (receiverContract cap).guar s t ∧
      (receiverContract cap).Ok (fun _ => ReceiverRest) p t := by
  have hrest_ok : ∀ r : MpscState T W, ReceiverRest r →
      (receiverContract cap).Ok (fun _ => ReceiverRest) (pure PUnit.unit) r :=
    fun r hr t ht hst => ReceiverRest.stable r t ht hst hr
  unfold receiverCall at hcall
  split at hcall
  · rename_i halive
    have hrecv := h.receiving halive
    split at hcall
    · obtain ⟨rfl, rfl⟩ := by simpa using hcall
      exact ⟨hI, receiverIdle_guar s, tryRecv_triple h.between s hI hrecv⟩
    · obtain ⟨rfl, rfl⟩ := by simpa using hcall
      exact ⟨hI, receiverIdle_guar s, recvMany_triple h.between _ s hI hrecv⟩
    · obtain ⟨rfl, rfl⟩ := by simpa using hcall
      refine ⟨{ hI with kept := fun _ => hI.kept halive }, ReceiverStep.guar { ReceiverStep.refl s with }, hrest_ok _ ?_⟩
      exact ⟨h.returned, h.between, fun _ => h.opened halive, fun hp => Bool.noConfusion hp,
        fun hdead => Bool.noConfusion hdead⟩
    · rename_i spin waker _
      obtain ⟨rfl, rfl⟩ := by simpa using hcall
      have hI' : MpscInv cap { s with
          receiver := ⟨true, some spin, false⟩, recv := s.recv.beginPoll waker } := { hI with
        kept := fun _ => hI.kept halive
        slot := hI.slot.quit h.between rfl rfl rfl }
      refine ⟨hI', ReceiverStep.guar { ReceiverStep.refl s with }, pollRecv_triple spin waker _ hI' ?_⟩
      exact ⟨⟨rfl, h.opened halive, by simp [h.returned]⟩, rfl⟩
    · obtain ⟨rfl, rfl⟩ := by simpa using hcall
      refine ⟨{ hI with kept := fun _ => hI.kept halive, slot := ?_ }, ReceiverStep.guar { ReceiverStep.refl s with },
        hrest_ok _ ?_⟩
      · exact hI.slot.quit h.between rfl rfl rfl
      · exact {
          returned := h.returned
          between := fun pc hp => by cases hp
          opened := fun _ => h.opened halive
          pending := fun hp => Bool.noConfusion hp
          shut := fun hdead => Bool.noConfusion hdead }
    · obtain ⟨rfl, rfl⟩ := by simpa using hcall
      have hI' : MpscInv cap { s with receiver := ⟨false, none, false⟩ } :=
        { hI with kept := fun hdead => Bool.noConfusion hdead }
      refine ⟨hI', ReceiverStep.guar { ReceiverStep.refl s with }, dropReceiver_triple _ hI' ?_⟩
      exact ⟨rfl, rfl, h.returned, h.between, hI.kept halive⟩
    · simp at hcall
  · simp at hcall

end Calls

end Cynosure.SiteD.MpscLight
