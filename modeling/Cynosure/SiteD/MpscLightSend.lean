import Cynosure.SiteD.MpscLightSender

/-! # The calls of the senders, from start to end

`try_send`, `try_send_many`, the polls and the drop of a `send`: each leaves its party at
rest, with the outcome it reports.
-/

namespace Cynosure.SiteD.MpscLight

open Prog

variable {T W : Type} {n : Nat} {s t : MpscState T W}

section Calls

variable [Waker W] {cap : Nat} {sent left : List (Item T)} {parkedId : Option Nat} {x : Item T}
  {P : MpscState T W → Prop}

theorem senderIdle_guar (s : MpscState T W) : (senderContract cap n).guar s s :=
  (SenderStep.refl n s).guar

theorem loadClosed_triple (hP : (senderContract cap n).Stable P) :
    (senderContract cap n).Triple P (load MpscState.closed)
      fun closed s => P s ∧ (closed = true → s.closed = true) := by
  refine .load hP (fun closed s t ht hst h => ?_) (fun s _ _ => senderIdle_guar s)
    fun _ _ h => ⟨h, fun hc => hc⟩
  exact ⟨hP s t ht hst h.1, fun hc => hst.closed (h.2 hc)⟩

theorem wakeByRef_triple (hP : (senderContract cap n).Stable P) (waker : Option W) :
    (senderContract cap n).Triple P (wakeByRef waker) fun _ => P := by
  cases waker with
  | none => exact .ret hP fun _ _ h => h
  | some waker =>
    refine .store hP (fun _ => hP) fun s hI h => ?_
    have hI' : MpscInv cap { s with wakes := s.wakes ++ [waker] } := { hI with }
    have hrely : SenderRely n s { s with wakes := s.wakes ++ [waker] } :=
      { SenderRely.refl n s with }
    refine ⟨hI', SenderStep.guar ?_, hP s _ hI' hrely h⟩
    exact { SenderStep.refl n s with receiver := { ReceiverRely.refl s with } }

theorem signalRecv_triple : (senderContract cap n).Triple
    (Closing (T := T) (W := W) n sent left parkedId (some .load)) (signalRecv n)
    fun _ => Closing n sent left parkedId none := by
  refine signal_triple (P := fun s => InCall n sent left parkedId s ∧ Settled n s)
    (fun _ _ => rfl) Closing.stable fun s pc hI h hpc => ⟨?_, SenderStep.guar ?_, ?_⟩
  · exact { hI with slot := hI.slot.signalStep hpc }
  · exact { SenderStep.refl n s with
      signals := fun m hm => Function.update_of_ne hm _ _
      receiver := { ReceiverRely.refl s with } }
  · exact ⟨{ h.1 with owns := { h.1.owns with }, parked := { h.1.parked with } }, h.2⟩

/-- A sender that owes nothing may leave. -/
theorem MpscInv.settle (hI : MpscInv cap s) (h : Settled n s) (hopen : s.closed = false)
    (hq : s.waiters.q ≠ []) : s.queue ≠ [] ∨ s.waiters.selected.Nonempty ∨
      ∃ m, Function.update s.credit n false m = true := by
  rcases hI.owed hopen hq with hqueue | hsel | ⟨m, hm⟩
  · exact .inl hqueue
  · exact .inr (.inl hsel)
  · have hcredit : s.credit n = false := h.resolve_left (by simp [hopen])
    have hmn : m ≠ n := by
      rintro rfl
      simp [hcredit] at hm
    exact .inr (.inr ⟨m, (Function.update_of_ne hmn _ _).trans hm⟩)

/-- Every call of a sender ends here, unless it parks. -/
theorem sendReturns_triple {out : SendOut T} {back : List (Item T)} (hback : ∀ x ∈ back, x ∈ left)
    (hout : ∀ s : MpscState T W, sent <:+: s.accepted → OutOk (s.sendReturns n out back) out) :
    (senderContract cap n).Triple (Closing (W := W) n sent left none none)
      (sendReturns n out back) fun _ => SenderRest n := by
  refine .store (Closing.stable none) (fun _ => SenderRest.stable n) ?_
  rintro s hI ⟨⟨h, hsettled⟩, hsig⟩
  have hown : ∀ y ∈ back, y.owner = n := fun y hy => h.owns.owner y (hback y hy)
  refine ⟨?_, SenderStep.guar ?_, ?_⟩
  · exact { hI with
      offered := fun y hy => by
        change y ∈ s.accepted ∨ y ∈ s.withdrawn ++ back at hy
        rw [List.mem_append, ← or_assoc] at hy
        rcases hy with hy | hy
        · exact hI.offered y hy
        · change y.seq < s.seqs y.owner
          rw [hown y hy]
          exact h.owns.offered y (hback y hy)
      apart := fun y hy => by
        rcases List.mem_append.mp hy with hy | hy
        · exact hI.apart y hy
        · exact h.owns.notAccepted y (hback y hy)
      outs := fun m o ho => by
        change Function.update s.sendOut n (some out) m = some o at ho
        by_cases hm : m = n
        · subst hm
          rw [Function.update_self, Option.some.injEq] at ho
          rw [← ho]
          exact hout s h.sent
        · rw [Function.update_of_ne hm] at ho
          exact (hI.outs m o ho).mono List.prefix_rfl (List.subset_append_left _ _)
      owed := hI.settle hsettled
      alive := fun ⟨m, hm⟩ => hI.alive ⟨m, by
        simp only [MpscState.sendReturns] at hm
        split at hm
        · exact hm
        · exact Finset.mem_of_mem_erase hm⟩ }
  · exact { SenderStep.refl n s with
      receiver := { ReceiverRely.refl s with }
      withdrawn := ⟨back, rfl, hown⟩
      credit := fun m hm => Function.update_of_ne hm _ _
      borrow := fun m hm => by
        simp only [MpscState.sendReturns]
        split
        · rfl
        · simp [hm] }
  · exact {
      signal := hsig
      credit := Function.update_self _ _ _
      owns := fun f hf => by
        change s.futures n = some f at hf
        refine ⟨by simp [MpscState.sendReturns, hf, h.borrow], ?_⟩
        rw [h.spent hf]
        exact ⟨List.nodup_nil, by simp, by simp, by simp, by simp⟩
      spent := fun f hf _ => by rw [h.spent hf]
      parked := by
        have hnone : (s.futures n).bind SendFuture.parkedId = none := by
          rcases h.future with hf | hf <;> simp [hf]
        change ParkedAs n ((s.futures n).bind SendFuture.parkedId) _
        rw [hnone]
        exact { h.parked with } }

theorem tryPush_triple (hP : (senderContract cap n).Stable P)
    (hcall : ∀ s, P s → Calling n [] [x] none s) : (senderContract cap n).Triple P (tryPush cap n x)
      fun pushed s => if pushed = true then Closing n [x] [] none (some .load) s else P s := by
  refine .exchange hP (fun pushed => ?_) fun s hI h => ?_
  · cases pushed with
    | true => exact Closing.stable _
    | false => simpa using hP
  · by_cases hfit : s.queue.length < cap
    · simp only [MpscState.tryPush, hfit, if_true, decide_true]
      refine push_step [x] [] hI ?_ (by simpa using hfit) (by simp)
      simpa using hcall s h
    · simp only [MpscState.tryPush, hfit, if_false, decide_false, Bool.false_eq_true]
      exact ⟨hI, senderIdle_guar s, h⟩

theorem refuse_triple : (senderContract cap n).Triple (Closing (T := T) (W := W) n [] [x] none none)
    (refuse n x) fun _ => SenderRest n := by
  apply (loadClosed_triple (Closing.stable none)).bind
  intro closed
  have hreturn : ∀ out : SendOut T, (∀ s : MpscState T W, x ∈ s.withdrawn → OutOk s out) →
      (senderContract cap n).Triple (fun s : MpscState T W => Closing n [] [x] none none s ∧
        (closed = true → s.closed = true)) (sendReturns n out [x]) fun _ => SenderRest n := by
    intro out hout
    have hsend : (senderContract cap n).Triple (Closing (T := T) (W := W) n [] [x] none none)
        (sendReturns n out [x]) fun _ => SenderRest n :=
      sendReturns_triple (by simp) fun s _ => hout _ (by simp [MpscState.sendReturns])
    exact hsend.conseq (fun _ _ h => h.1) fun _ _ _ h => h
  split
  · exact hreturn _ fun _ h => h
  · exact hreturn _ fun _ h => h

theorem trySend_triple : (senderContract cap n).Triple
    (Closing (T := T) (W := W) n [] [x] none none) (trySend cap n x) fun _ => SenderRest n := by
  apply (loadClosed_triple (Closing.stable none)).bind
  intro closed
  refine Contract.Triple.conseq (P := Closing n [] [x] none none) ?_ (fun _ _ h => h.1)
    fun _ _ _ h => h
  split
  · exact sendReturns_triple (by simp) fun s _ => by simp [OutOk, MpscState.sendReturns]
  · apply (tryPush_triple (Closing.stable none) fun s h => ⟨h.1.1, h.2⟩).bind
    rintro (_ | _)
    · exact refuse_triple
    · apply signalRecv_triple.bind
      intro _
      exact sendReturns_triple (by simp) fun s hs => hs.subset (List.mem_singleton_self x)

theorem tryPushMany_triple {items : List (Item T)} : (senderContract cap n).Triple
    (Closing (W := W) n [] items none none) (tryPushMany cap n items)
    fun k => Closing n (items.take k) (items.drop k) none
      (if 0 < k then some .load else none) := by
  unfold tryPushMany
  split
  · exact .ret (Closing.stable none) fun _ _ h => by simpa using h
  · refine .exchange (Closing.stable none) (fun k => Closing.stable _) fun s hI h => ?_
    by_cases hroom : 0 < s.room cap items
    · simp only [MpscState.tryPushMany, hroom, if_true]
      have hle : s.room cap items ≤ items.length := Nat.min_le_right _ _
      have hfit : s.room cap items ≤ cap - s.queue.length := Nat.min_le_left _ _
      have hqueue := hI.queueLe
      refine push_step (items.take _) (items.drop _) hI ?_ ?_ ?_
      · rw [List.take_append_drop]
        exact ⟨h.1.1, h.2⟩
      · rw [List.length_take]
        omega
      · rw [← List.length_pos_iff, List.length_take]
        omega
    · have hzero : s.room cap items = 0 := by omega
      simp only [MpscState.tryPushMany, hzero, lt_irrefl, if_false]
      exact ⟨hI, senderIdle_guar s, by simpa using h⟩

theorem trySendMany_triple {items : List (Item T)} : (senderContract cap n).Triple
    (Closing (W := W) n [] items none none) (trySendMany cap n items) fun _ => SenderRest n := by
  apply (loadClosed_triple (Closing.stable none)).bind
  intro closed
  refine Contract.Triple.conseq (P := Closing n [] items none none) ?_ (fun _ _ h => h.1)
    fun _ _ _ h => h
  split
  · refine sendReturns_triple (fun _ h => h) fun s _ => ⟨rfl, by simp, fun y hy => ?_⟩
    exact List.mem_append_right _ hy
  · apply tryPushMany_triple.bind
    intro k
    have hsignal : (senderContract cap n).Triple
        (Closing (W := W) n (items.take k) (items.drop k) none (if 0 < k then some .load else none))
        (signalIf n k) fun _ => Closing n (items.take k) (items.drop k) none none := by
      unfold signalIf
      split
      · exact signalRecv_triple
      · exact .ret (Closing.stable none) fun _ _ h => h
    apply hsignal.bind
    intro _
    refine sendReturns_triple (fun _ h => h) fun s hs => ⟨rfl, hs, fun y hy => ?_⟩
    exact List.mem_append_right _ hy

theorem repollWaiter_triple : (senderContract cap n).Triple
    (Calling (T := T) (W := W) n [] [x] parkedId) (repollWaiter n parkedId)
    fun _ => Calling n [] [x] none := by
  cases parkedId with
  | none => exact .ret Calling.stable fun _ _ h => h
  | some id => exact .store Calling.stable (fun _ => Calling.stable) fun s hI h => repoll_step hI h

/-- What `push_or_park` leaves behind. -/
def ParkPost (n : Nat) (x : Item T) : ParkOut → MpscState T W → Prop
  | .pushed => Closing n [x] [] none (some .load)
  | .closed => Closing n [] [x] none none
  | .parked id => Closing n [] [x] (some id) none

theorem ParkPost.stable (out : ParkOut) :
    (senderContract cap n).Stable (ParkPost n x out : MpscState T W → Prop) := by
  cases out <;> exact Closing.stable _

theorem pushOrPark_triple (hcap : 0 < cap) (waker : W) : (senderContract cap n).Triple
    (Calling (T := T) (W := W) n [] [x] none) (pushOrPark cap n x waker) (ParkPost n x) := by
  apply (loadClosed_triple Calling.stable).bind
  rintro (_ | _)
  · refine Contract.Triple.conseq (P := Calling n [] [x] none) ?_ (fun _ _ h => h.1)
      fun _ _ _ h => h
    apply (tryPush_triple Calling.stable fun _ h => h).bind
    rintro (_ | _)
    · refine .exchange (by simpa using Calling.stable) ParkPost.stable fun s hI h => ?_
      have h : Calling n [] [x] none s := by simpa using h
      unfold MpscState.pushOrPark
      -- the second look under the lock
      by_cases hclosed : s.closed = true
      · have hout : s.parkOut cap = .closed := by simp [MpscState.parkOut, hclosed]
        simp only [hout]
        exact ⟨hI, senderIdle_guar s, ⟨h.1, .inl hclosed⟩, h.2⟩
      · rw [Bool.not_eq_true] at hclosed
        by_cases hfit : s.queue.length < cap
        · have hout : s.parkOut cap = .pushed := by simp [MpscState.parkOut, hclosed, hfit]
          simp only [hout]
          refine push_step [x] [] hI ?_ (by simpa using hfit) (by simp)
          simpa using h
        · have hout : s.parkOut cap = .parked s.waiters.nextId := by
            simp [MpscState.parkOut, hclosed, hfit]
          simp only [hout]
          exact park_step hcap hI h hclosed hfit
    · exact .ret (Closing.stable _) fun _ _ h => h
  · refine .ret (fun s t ht hst h => ?_) fun s _ h => ⟨⟨h.1.1, .inl (h.2 rfl)⟩, h.1.2⟩
    exact ⟨Calling.stable s t ht hst h.1, fun hc => hst.closed (h.2 hc)⟩

theorem sendPending_triple (id : Nat) : (senderContract cap n).Triple
    (Closing (T := T) (W := W) n [] [x] (some id) none) (sendPending n x id)
    fun _ => SenderRest n := by
  refine .store (Closing.stable none) (fun _ => SenderRest.stable n) ?_
  rintro s hI ⟨⟨h, hsettled⟩, hsig⟩
  refine ⟨?_, SenderStep.guar ?_, ?_⟩
  · exact { hI with
      outs := fun m o ho => by
        change Function.update s.sendOut n (some .pending) m = some o at ho
        by_cases hm : m = n
        · subst hm
          rw [Function.update_self, Option.some.injEq] at ho
          rw [← ho]
          trivial
        · rw [Function.update_of_ne hm] at ho
          exact (hI.outs m o ho).mono List.prefix_rfl (List.Subset.refl _)
      owed := hI.settle hsettled }
  · exact { SenderStep.refl n s with
      futures := fun m hm => Function.update_of_ne hm _ _
      credit := fun m hm => Function.update_of_ne hm _ _
      receiver := { ReceiverRely.refl s with } }
  · exact {
      signal := hsig
      credit := Function.update_self _ _ _
      owns := fun f hf => by
        change Function.update s.futures n (some ⟨some x, some id⟩) n = some f at hf
        rw [Function.update_self, Option.some.injEq] at hf
        rw [← hf]
        exact ⟨h.borrow, { h.owns with }⟩
      spent := fun f hf hval => by
        change Function.update s.futures n (some ⟨some x, some id⟩) n = some f at hf
        rw [Function.update_self, Option.some.injEq] at hf
        rw [← hf] at hval
        cases hval
      parked := by
        change ParkedAs n ((Function.update s.futures n (some ⟨some x, some id⟩) n).bind _) _
        rw [Function.update_self]
        exact { h.parked with } }

theorem pollSend_triple (hcap : 0 < cap) (waker : W) : (senderContract cap n).Triple
    (Calling (T := T) (W := W) n [] [x] parkedId) (pollSend cap n x parkedId waker)
    fun _ => SenderRest n := by
  apply repollWaiter_triple.bind
  intro _
  apply (pushOrPark_triple hcap waker).bind
  rintro (_ | _ | id)
  · apply signalRecv_triple.bind
    intro _
    exact sendReturns_triple (by simp) fun s hs => hs.subset (List.mem_singleton_self x)
  · exact sendReturns_triple (by simp) fun s _ => by simp [OutOk, MpscState.sendReturns]
  · exact sendPending_triple id

theorem endDrop_triple : (senderContract cap n).Triple (Dropping (T := T) (W := W) n none)
    (store fun s => { s with borrowers := s.borrowers.erase n }) fun _ => SenderRest n := by
  refine .store Dropping.stable (fun _ => SenderRest.stable n) fun s hI h => ?_
  refine ⟨{ hI with alive := ?_ }, SenderStep.guar { SenderStep.refl n s with
    borrow := ?_
    receiver := { ReceiverRely.refl s with } }, ?_⟩
  · rintro ⟨m, hm⟩
    exact hI.alive ⟨m, Finset.mem_of_mem_erase hm⟩
  · intro m hm
    simp [hm]
  · exact {
      signal := h.signal
      credit := h.credit
      owns := fun f hf => absurd (h.future.symm.trans hf) (by simp)
      spent := fun f hf => absurd (h.future.symm.trans hf) (by simp)
      parked := by
        change ParkedAs n ((s.futures n).bind _) _
        rw [h.future]
        exact { h.parked with } }

theorem dropSend_triple : (senderContract cap n).Triple (Dropping (T := T) (W := W) n parkedId)
    (dropSend n parkedId) fun _ => SenderRest n := by
  cases parkedId with
  | none => exact endDrop_triple
  | some id =>
    apply Contract.Triple.bind (R := fun _ => Dropping n none)
    · exact .exchange Dropping.stable (fun _ => Dropping.stable) fun s hI h => cancel_step hI h
    · exact fun next => (wakeByRef_triple Dropping.stable next).bind fun _ => endDrop_triple

end Calls

section Start

variable [Waker W] {cap : Nat} {items : List (Item T)} {p : Prog (MpscState T W) PUnit}

/-- Numbers that the party has not used make the items its own. -/
theorem MpscInv.owns_offering (hI : MpscInv cap s) (hnodup : items.Nodup)
    (howner : ∀ x ∈ items, x.owner = n)
    (hseq : ∀ x ∈ items, s.seqs n ≤ x.seq ∧ x.seq < s.seqs n + items.length) :
    Owns n items (s.offering n items) := by
  have hnew : ∀ x ∈ items, ¬ (x ∈ s.accepted ∨ x ∈ s.withdrawn) := fun x hx hold => by
    have hlt := hI.offered x hold
    rw [howner x hx] at hlt
    have := (hseq x hx).1
    omega
  exact {
    nodup := hnodup
    owner := howner
    offered := fun x hx => by
      change x.seq < Function.update s.seqs n _ n
      rw [Function.update_self]
      exact (hseq x hx).2
    notAccepted := fun x hx h => hnew x hx (.inl h)
    notWithdrawn := fun x hx h => hnew x hx (.inr h) }

theorem MpscInv.offering (hI : MpscInv cap s) (halive : 0 < s.senders) :
    MpscInv cap (s.offering n items) ∧ SenderStep n s (s.offering n items) := by
  constructor
  · exact { hI with
      offered := fun x hx => by
        have hlt := hI.offered x hx
        change x.seq < Function.update s.seqs n _ x.owner
        by_cases hx : x.owner = n
        · rw [hx] at hlt ⊢
          rw [Function.update_self]
          omega
        · rwa [Function.update_of_ne hx]
      alive := fun _ => halive }
  · exact { SenderStep.refl n s with
      receiver := { ReceiverRely.refl s with }
      seqs := fun m hm => Function.update_of_ne hm _ _
      borrow := fun m hm => by simp [MpscState.offering, hm] }

omit [Waker W] in
theorem SenderRest.offering (h : SenderRest n s) (hf : s.futures n = none)
    (howns : Owns n items (s.offering n items)) :
    Closing n [] items none none (s.offering n items) := by
  have hparked := h.parked
  rw [hf] at hparked
  exact ⟨⟨⟨Finset.mem_insert_self _ _, List.nil_infix, howns, { hparked with }, .inl hf⟩,
    .inr h.credit⟩, h.signal⟩

omit [Waker W] in
theorem offer_nodup (n : Nat) (vals : List T) (s : MpscState T W) : (offer n vals s).Nodup := by
  have hseq : (offer n vals s).map Item.seq = List.range' (s.seqs n) vals.length := by
    apply List.ext_getElem
    · simp [offer]
    · intro i h₁ h₂
      simp [offer]
  have hnodup : ((offer n vals s).map Item.seq).Nodup := by
    rw [hseq]
    exact List.nodup_range'
  exact hnodup.of_map

omit [Waker W] in
theorem offer_mem {n : Nat} {vals : List T} {s : MpscState T W} {x : Item T}
    (h : x ∈ offer n vals s) :
    x.owner = n ∧ s.seqs n ≤ x.seq ∧ x.seq < s.seqs n + (offer n vals s).length := by
  simp only [offer, List.mem_map] at h
  obtain ⟨⟨v, i⟩, hv, rfl⟩ := h
  have hi : i < vals.length := by
    have := (List.mem_zipIdx hv).2.1
    omega
  refine ⟨rfl, Nat.le_add_right _ _, ?_⟩
  simp only [offer, List.length_map, List.length_zipIdx]
  omega

theorem senderRest_ok (h : SenderRest n s) :
    (senderContract cap n).Ok (fun _ => SenderRest n) (pure PUnit.unit) s :=
  fun t ht hst => SenderRest.stable n s t ht hst h

/-- The last `Sender` is gone and its drop is inside `signal`. -/
theorem dropLast_triple : (senderContract cap n).Triple
    (fun s : MpscState T W => (s.credit n = false ∧ s.futures n = none ∧ ParkedAs n none s) ∧
      s.recv.signals n = some .load) (signalRecv n) fun _ => SenderRest n := by
  have hstable : ∀ pc, (senderContract cap n).Stable fun s : MpscState T W =>
      (s.credit n = false ∧ s.futures n = none ∧ ParkedAs n none s) ∧ s.recv.signals n = pc :=
    fun pc s t ht hst h => ⟨⟨hst.credit.trans h.1.1, hst.future.trans h.1.2.1,
      h.1.2.2.of_rely ht hst⟩, hst.signal.trans h.2⟩
  refine (signal_triple (fun _ _ => rfl) hstable fun s pc hI h hpc =>
    ⟨?_, SenderStep.guar ?_, ?_⟩).conseq (fun _ _ h => h) fun _ s _ h => ?_
  · exact { hI with slot := hI.slot.signalStep hpc }
  · exact { SenderStep.refl n s with
      signals := fun m hm => Function.update_of_ne hm _ _
      receiver := { ReceiverRely.refl s with } }
  · exact ⟨h.1, h.2.1, { h.2.2 with }⟩
  · obtain ⟨⟨hcredit, hfuture, hparked⟩, hsig⟩ := h
    exact ⟨hsig, hcredit, fun f hf => absurd (hfuture.symm.trans hf) (by simp),
      fun f hf => absurd (hfuture.symm.trans hf) (by simp), by rwa [hfuture]⟩

theorem sender_start (hcap : 0 < cap) {op : MpscOp T W} (hI : MpscInv cap s) (h : SenderRest n s)
    (hcall : senderCall cap n op s = some (t, p)) :
    MpscInv cap t ∧ (senderContract cap n).guar s t ∧
      (senderContract cap n).Ok (fun _ => SenderRest n) p t := by
  have hone : ∀ val, s.futures n = none → 0 < s.senders →
      Owns n [⟨n, s.seqs n, val⟩] (s.offering n [⟨n, s.seqs n, val⟩]) :=
    fun val _ _ => hI.owns_offering (by simp) (by simp) (by simp)
  unfold senderCall at hcall
  split at hcall
  · rename_i hf
    obtain ⟨halive, hcall⟩ := by simpa using hcall
    obtain ⟨rfl, rfl⟩ := hcall
    refine ⟨{ hI with alive := fun _ => Nat.succ_pos _ }, SenderStep.guar ?_, senderRest_ok ?_⟩
    · exact { SenderStep.refl n s with
        receiver := { ReceiverRely.refl s with
          quiet := fun h => ⟨h, id, fun _ => Nat.succ_pos _⟩ } }
    · exact { h with
        owns := fun f hf => ⟨(h.owns f hf).1, { (h.owns f hf).2 with }⟩
        parked := { h.parked with } }
  · rename_i hf
    split at hcall
    · rename_i hmany
      obtain ⟨rfl, rfl⟩ := by simpa using hcall
      have hleft : 0 < s.senders - 1 := by omega
      refine ⟨{ hI with alive := fun _ => hleft }, SenderStep.guar ?_, senderRest_ok ?_⟩
      · exact { SenderStep.refl n s with
          receiver := { ReceiverRely.refl s with quiet := fun h => ⟨h, id, fun _ => hleft⟩ } }
      · exact { h with
          owns := fun f hf => ⟨(h.owns f hf).1, { (h.owns f hf).2 with }⟩
          parked := { h.parked with } }
    · obtain ⟨⟨-, hnone⟩, hcall⟩ := by simpa using hcall
      obtain ⟨rfl, rfl⟩ := hcall
      have hI' : MpscInv cap { s with senders := 0, recv := s.recv.beginSignal n } := { hI with
        alive := fun hb => by
          change s.borrowers.Nonempty at hb
          simp [hnone] at hb
        slot := hI.slot.beginSignal h.signal }
      have hparked := h.parked
      rw [hf] at hparked
      refine ⟨hI', SenderStep.guar ?_, dropLast_triple _ hI' ?_⟩
      · exact { SenderStep.refl n s with
          signals := fun m hm => Function.update_of_ne hm _ _
          receiver := { ReceiverRely.refl s with quiet := fun h => Bool.noConfusion h } }
      · exact ⟨⟨h.credit, hf, { hparked with }⟩, Function.update_self _ _ _⟩
  · rename_i val hf
    obtain ⟨halive, hcall⟩ := by simpa using hcall
    obtain ⟨rfl, rfl⟩ := hcall
    obtain ⟨hI', hstep⟩ := hI.offering halive
    exact ⟨hI', hstep.guar, trySend_triple _ hI' (h.offering hf (hone val hf halive))⟩
  · rename_i vals hf
    obtain ⟨halive, hcall⟩ := by simpa using hcall
    obtain ⟨rfl, rfl⟩ := hcall
    obtain ⟨hI', hstep⟩ := hI.offering halive
    refine ⟨hI', hstep.guar, trySendMany_triple _ hI' (h.offering hf ?_)⟩
    exact hI.owns_offering (offer_nodup n vals s) (fun x hx => (offer_mem hx).1)
      fun x hx => (offer_mem hx).2
  · rename_i val hf
    obtain ⟨halive, hcall⟩ := by simpa using hcall
    obtain ⟨rfl, rfl⟩ := hcall
    obtain ⟨hI', hstep⟩ := hI.offering halive
    have howns := hone val hf halive
    have hparked := h.parked
    rw [hf] at hparked
    refine ⟨{ hI' with }, SenderStep.guar ?_, senderRest_ok ?_⟩
    · exact { hstep with
        futures := fun m hm => Function.update_of_ne hm _ _
        receiver := { hstep.receiver with } }
    · exact {
        signal := h.signal
        credit := h.credit
        owns := fun f hf' => by
          change Function.update s.futures n _ n = some f at hf'
          rw [Function.update_self, Option.some.injEq] at hf'
          rw [← hf']
          exact ⟨Finset.mem_insert_self _ _, { howns with }⟩
        spent := fun f hf' hval => by
          change Function.update s.futures n _ n = some f at hf'
          rw [Function.update_self, Option.some.injEq] at hf'
          rw [← hf'] at hval
          cases hval
        parked := by
          change ParkedAs n ((Function.update s.futures n _ n).bind _) _
          rw [Function.update_self]
          exact { hparked with } }
  · rename_i future waker hf
    obtain ⟨hborrow, howns⟩ := h.owns future hf
    have hparked := h.parked
    rw [hf] at hparked
    split at hcall
    · rename_i hval
      obtain ⟨rfl, rfl⟩ := by simpa using hcall
      have hspent := h.spent future hf hval
      rw [Option.bind_some, hspent] at hparked
      have hf' : s.futures n = some ⟨none, none⟩ := by
        rw [hf, ← hval, ← hspent]
      have hdone : (senderContract cap n).Triple (Closing (T := T) (W := W) n [] [] none none)
          (sendReturns n .done []) fun _ => SenderRest n :=
        sendReturns_triple (by simp) fun _ _ => trivial
      refine ⟨hI, senderIdle_guar s, hdone s hI ?_⟩
      refine ⟨⟨⟨hborrow, List.nil_infix, ?_, hparked, .inr hf'⟩, .inr h.credit⟩, h.signal⟩
      exact ⟨List.nodup_nil, by simp, by simp, by simp, by simp⟩
    · rename_i x hval
      obtain ⟨rfl, rfl⟩ := by simpa using hcall
      rw [hval] at howns
      have hI' : MpscInv cap { s with futures := Function.update s.futures n (some ⟨none, none⟩) } :=
        { hI with }
      refine ⟨hI', SenderStep.guar ?_, pollSend_triple hcap waker _ hI' ⟨?_, h.signal⟩⟩
      · exact { SenderStep.refl n s with
          futures := fun m hm => Function.update_of_ne hm _ _
          receiver := { ReceiverRely.refl s with } }
      exact ⟨hborrow, List.nil_infix, { howns with }, { hparked with },
        .inr (Function.update_self _ _ _)⟩
  · rename_i future hf
    obtain ⟨rfl, rfl⟩ := by simpa using hcall
    obtain ⟨-, howns⟩ := h.owns future hf
    have hparked := h.parked
    rw [hf] at hparked
    have hI' : MpscInv cap { s with
        futures := Function.update s.futures n none
        withdrawn := s.withdrawn ++ future.val.toList } := { hI with
      offered := fun x hx => by
        change x ∈ s.accepted ∨ x ∈ s.withdrawn ++ future.val.toList at hx
        rw [List.mem_append, ← or_assoc] at hx
        rcases hx with hx | hx
        · exact hI.offered x hx
        · change x.seq < s.seqs x.owner
          rw [howns.owner x hx]
          exact howns.offered x hx
      apart := fun x hx => by
        rcases List.mem_append.mp hx with hx | hx
        · exact hI.apart x hx
        · exact howns.notAccepted x hx
      outs := fun m out hout =>
        (hI.outs m out hout).mono List.prefix_rfl (List.subset_append_left _ _) }
    refine ⟨hI', SenderStep.guar ?_, dropSend_triple _ hI' ?_⟩
    · exact { SenderStep.refl n s with
        futures := fun m hm => Function.update_of_ne hm _ _
        withdrawn := ⟨_, rfl, howns.owner⟩
        receiver := { ReceiverRely.refl s with } }
    · exact ⟨h.signal, h.credit, Function.update_self _ _ _, { hparked with }⟩
  · simp at hcall

end Start

end Cynosure.SiteD.MpscLight
