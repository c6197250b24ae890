import Cynosure.SiteD.BipBufferWaits

/-! # The parked consumer of the bip buffer

As long as no signal on `data` has begun, the write cursor moves only when the producer
resets a drained buffer. So if the loaded cursors delimit nothing, nothing is unread at
the end of `try_read` either, whatever the loads were interleaved with.
-/

namespace Cynosure.SiteD

open Prog

variable {w : Nat} {W : Type} [Waker W] {cap : Nat}

/-- Where a call of `try_read` came from, with the consumer's calls of `signal`. -/
def ReadAt (ctx : ReadCtx W) (s : BipState w W) : Prop := ReadFrom ctx s ∧ s.Quiet .consumer

section Assertions

variable {ctx : ReadCtx W} {wr r : Nat} {s t : BipState w W}

omit [Waker W] in
theorem ReadFrom.of_same (h : ReadFrom ctx s) (hreading : t.reading = s.reading)
    (hphase : t.data.phase = s.data.phase) (hcurrent : t.data.current = s.data.current) :
    ReadFrom ctx t := by
  cases ctx with
  | tryRead => exact hphase.trans h
  | poll waker => exact ⟨hphase.trans h.1, hcurrent.trans h.2.1, hreading.trans h.2.2⟩
  | recheck => exact ⟨hphase.trans h.1, hreading.trans h.2⟩

theorem ReadFrom.stable : (bipLayer cap .consumer).Stable (ReadFrom (w := w) ctx) :=
  fun _ _ _ hst h => h.of_same hst.2.2.reading hst.2.2.slot.phase hst.2.2.slot.current

theorem ReadAt.stable : (bipLayer cap .consumer).Stable (ReadAt (w := w) ctx) :=
  .and ReadFrom.stable (signals_stable _ _)

/-- The cursors were seen at `wr` and `r`, or the buffer has been drained since. -/
def SeenEmptying (P : BipState w W → Prop) (s : BipState w W) : Prop :=
  s.rip = false ∧ (s.data.published = false → s.Drained ∨ P s)

/-- While something is unread and no signal begins, neither cursor moves. -/
theorem SeenEmptying.stable {P : BipState w W → Prop}
    (hP : ∀ s t, t.write = s.write → t.read = s.read → P s → P t) :
    (bipLayer cap .consumer).Stable (SeenEmptying P) := by
  intro s t _ hst h
  have hsees := hst.1 h.1
  have hwaits := hst.2.2
  refine ⟨hsees.rip, fun hp => ?_⟩
  by_cases hd : s.Drained
  · exact .inl (hwaits.drained hp hd)
  · right
    have heven : s.ticks % 2 = 0 := by
      unfold BipState.Drained at hd
      omega
    have hticks : t.ticks = s.ticks := by
      by_contra hne
      have := hsees.mono
      exact hd (.inr (hsees.begun (by omega) heven).1)
    exact hP s t (hwaits.write hp heven hticks) (hsees.grows hticks heven).read
      ((h.2 (hwaits.slot.published hp)).resolve_left hd)

/-- Why `try_read` returned nothing. -/
def NoData (s : BipState w W) : Prop := s.data.published = false → s.rip = true ∨ s.Drained

theorem NoData.stable : (bipLayer cap .consumer).Stable (NoData (w := w) (W := W)) :=
  fun _ _ _ hst h hp => (h (hst.2.2.slot.published hp)).imp (hst.2.2.rip hp) (hst.2.2.drained hp)

end Assertions

section Loads

variable {ctx : ReadCtx W}

theorem seenWrite_stable (wr : Nat) :
    (bipLayer cap .consumer).Stable (SeenEmptying fun s : BipState w W => s.write = wr) :=
  SeenEmptying.stable fun _ _ hw _ h => hw.trans h

theorem seenBoth_stable (wr r : Nat) : (bipLayer cap .consumer).Stable
    (SeenEmptying fun s : BipState w W => s.write = wr ∧ s.read = r) :=
  SeenEmptying.stable fun _ _ hw hr h => ⟨hw.trans h.1, hr.trans h.2⟩

theorem snapshot_layer (ctx : ReadCtx W) :
    (bipLayer cap .consumer).Triple (fun s : BipState w W => s.rip = false ∧ ReadAt ctx s) snapshot
      fun out s => ReadAt ctx s ∧ ∀ wr r l, out = some (wr, r, l) →
        SeenEmptying (fun s => s.write = wr ∧ s.read = r) s := by
  have hP : (bipLayer cap .consumer).Stable
      fun s : BipState w W => s.rip = false ∧ ReadAt ctx s :=
    .and (.of_base noRip_stable) ReadAt.stable
  have hboth : ∀ wr r, (bipLayer cap .consumer).Stable fun s : BipState w W =>
      ReadAt ctx s ∧ SeenEmptying (fun s => s.write = wr ∧ s.read = r) s :=
    fun wr r => .and ReadAt.stable (seenBoth_stable wr r)
  apply (load_layer hP (fun _ => hP) fun _ _ h => h).bind
  intro e1
  split
  · exact .ret hP fun s _ h => ⟨h.2, fun _ _ _ hout => by cases hout⟩
  apply (load_layer (Q := fun wr s => ReadAt ctx s ∧ SeenEmptying (fun s => s.write = wr) s) hP
    (fun wr => .and ReadAt.stable (seenWrite_stable wr))
    fun s _ h => ⟨h.2, h.1, fun _ => .inr rfl⟩).bind
  intro wr
  apply (load_layer
    (Q := fun r s => ReadAt ctx s ∧ SeenEmptying (fun s => s.write = wr ∧ s.read = r) s)
    (.and ReadAt.stable (seenWrite_stable wr)) (hboth wr)
    fun s _ h => ⟨h.1, h.2.1, fun hp => (h.2.2 hp).imp id fun hw => ⟨hw, rfl⟩⟩).bind
  intro r
  apply (load_layer (hboth wr r) (fun _ => hboth wr r) fun _ _ h => h).bind
  intro l
  apply (load_layer (hboth wr r) (fun _ => hboth wr r) fun _ _ h => h).bind
  intro e2
  split
  · refine .ret (hboth wr r) fun s _ h => ⟨h.1, fun wr' r' l' hout => ?_⟩
    cases hout
    exact h.2
  · exact .ret (hboth wr r) fun s _ h => ⟨h.1, fun _ _ _ hout => by cases hout⟩

end Loads

section Claim

variable {ctx : ReadCtx W}

/-- The cursors loaded by `try_read`, both for the stream and for the waiter. -/
def Loads (ctx : ReadCtx W) (wr r l : Nat) (s : BipState w W) : Prop :=
  Snapshot wr r l s ∧ ReadAt ctx s ∧ SeenEmptying (fun s => s.write = wr ∧ s.read = r) s

theorem Loads.stable (wr r l : Nat) : (bipLayer cap .consumer).Stable (Loads (w := w) ctx wr r l) :=
  .and (.of_base (Snapshot.stable wr r l)) (.and ReadAt.stable (seenBoth_stable wr r))

/-- The wrap at the watermark frees the upper region, and signals `space`. -/
theorem wrapRead_layer (wr r l : Nat) :
    (bipLayer cap .consumer).Triple (Loads (w := w) ctx wr r l) (wrapRead wr r l)
      fun r' s => Loads ctx wr r' l s ∧ ¬ (wr < r' ∧ r' = l) := by
  suffices h : (bipLayer cap .consumer).Triple (Loads (w := w) ctx wr r l) (wrapRead wr r l)
      fun r' s => (ReadAt ctx s ∧ SeenEmptying (fun s => s.write = wr ∧ s.read = r') s) ∧
        ¬ (wr < r' ∧ r' = l) by
    exact (Layer.Triple.and_base (wrapRead_triple wr r l) h).conseq (fun _ _ h => ⟨h.1, h⟩)
      fun _ _ _ h => ⟨⟨h.1, h.2.1⟩, h.2.2⟩
  unfold wrapRead
  split
  · rename_i hwrap
    obtain ⟨hinv, rfl⟩ := hwrap
    have hQ : (bipLayer cap .consumer).Stable fun s : BipState w W =>
        (ReadFrom ctx s ∧ SeenEmptying (fun s => s.write = wr ∧ s.read = 0) s) :=
      .and ReadFrom.stable (seenBoth_stable wr 0)
    refine Layer.Triple.bind (R := fun _ s =>
      (ReadFrom ctx s ∧ SeenEmptying (fun s => s.write = wr ∧ s.read = 0) s) ∧
        s.Signals .consumer none (some .load)) ?_ fun _ => ?_
    · refine .store (Loads.stable wr r r) (fun _ => .and hQ (signals_stable _ _))
        fun s hI h _ _ => ?_
      obtain ⟨hsnap, ⟨hfrom, hquiet⟩, hrip, hseen⟩ := h
      obtain ⟨heven, rfl, htail, -⟩ := hsnap.valid (by omega)
      have hnot : ¬ s.Drained := by
        have := (htail.1 hinv).1
        unfold BipState.Drained
        omega
      refine ⟨⟨hI.2.data, hI.2.space.beginSignal hquiet.2, hI.2.asked⟩, ?_,
        ⟨hfrom.of_same rfl rfl rfl, hrip, fun hp => .inr ⟨((hseen hp).resolve_left hnot).1, rfl⟩⟩,
        hquiet.1, s.space.beginSignal_signals_self _⟩
      intro j hj
      refine ⟨⟨rfl, s.space.beginSignal_signals_of_ne hj⟩, ?_⟩
      cases j with
      | producer =>
        exact ⟨rfl, s.space.sees_beginSignal _, fun h => (by cases h), fun h => by cases h⟩
      | consumer => exact absurd rfl hj
      | write g => exact id
      | read g => exact id
    · apply (signalSpace_layer hQ fun s x h => ⟨h.1.of_same rfl rfl rfl, h.2⟩).bind
      intro _
      refine .ret (.and hQ (signals_stable _ _)) fun s _ h => ?_
      exact ⟨⟨⟨h.1.1, h.2⟩, h.1.2⟩, fun h => absurd h.1 (Nat.not_lt_zero _)⟩
  · rename_i hplain
    exact .ret (Loads.stable wr r l) fun s _ h => ⟨h.2, hplain⟩

theorem takeRip_layer {start len : Nat} {P : BipState w W → Prop}
    (hP : (bipLayer cap .consumer).Stable P) (h : ∀ s, P s → ReadAt ctx s) :
    (bipLayer cap .consumer).Triple P (takeRip start len)
      fun out s => ReadAt ctx s ∧ out ≠ none := by
  refine Layer.Triple.bind (R := fun _ s => ReadAt ctx s)
    (.exchange hP (fun _ => ReadAt.stable) fun s hI hs _ _ => ?_)
    fun g => .ret ReadAt.stable fun s _ h => ⟨h, by simp⟩
  refine ⟨SameWaits.inv (by constructor <;> rfl) hI.2, fun j hj => ⟨⟨rfl, rfl⟩, ?_⟩,
    (h s hs).1.of_same rfl rfl rfl, (h s hs).2⟩
  cases j with
  | producer => exact ⟨rfl, .refl _, fun _ h => h, fun _ => rfl⟩
  | consumer => exact absurd rfl hj
  | write g => exact id
  | read g =>
    intro _ hg
    have hg : s.nextGrant = g := Option.some.inj hg
    subst hg
    simp [BipState.grantRead]

omit [Waker W] in
/-- Cursors that delimit nothing are equal, once the wrap at the watermark is out of the way. -/
theorem drained_of_availEnd {wr r l : Nat} {s : BipState w W} (hI : BipInv cap s)
    (h : Snapshot wr r l s) (hwrap : ¬ (wr < r ∧ r = l)) (hlen : availEnd wr r l - r = 0) :
    wr = r := by
  by_contra hne
  obtain ⟨heven, rfl, htail, hlast⟩ := h.valid hne
  unfold availEnd at hlen
  split at hlen
  · rename_i hlt
    have hmark := hI.mark heven (htail.1 hlt).1
    rw [hlast hlt] at hmark
    exact hwrap ⟨hlt, by omega⟩
  · omega

theorem claimRead_layer (wr r l : Nat) :
    (bipLayer cap .consumer).Triple
      (fun s : BipState w W => Loads ctx wr r l s ∧ ¬ (wr < r ∧ r = l)) (claimRead wr r l)
      fun out s => ReadAt ctx s ∧ (out = none → NoData s) := by
  have hP : (bipLayer cap .consumer).Stable
      fun s : BipState w W => Loads ctx wr r l s ∧ ¬ (wr < r ∧ r = l) :=
    .and (Loads.stable wr r l) fun _ _ _ _ h => h
  refine Layer.Triple.bind (check_layer hP fun s h => ?_) fun _ => ?_
  · obtain ⟨⟨hsnap, hat, hseen⟩, hwrap⟩ := h
    refine ⟨⟨⟨hsnap.rip, fun hne => ?_⟩, ⟨hat.1.of_same rfl rfl rfl, hat.2⟩, hseen⟩, hwrap⟩
    exact ⟨(hsnap.valid hne).even, (hsnap.valid hne).read, (hsnap.valid hne).tail,
      (hsnap.valid hne).last⟩
  · split
    · rename_i hlen
      refine .ret hP fun s hI h => ⟨h.1.2.1, fun _ hp => .inr ?_⟩
      obtain ⟨⟨hsnap, -, -, hseen⟩, hwrap⟩ := h
      rcases hseen hp with hd | ⟨hw, hr⟩
      · exact hd
      · exact .inr (by rw [hw, hr, drained_of_availEnd hI.1 hsnap hwrap hlen])
    · exact (takeRip_layer hP fun s h => h.1.2.1).conseq (fun _ _ h => h)
        fun out s _ h => ⟨h.1, fun hout => absurd hout h.2⟩

end Claim

section Poll

abbrev consumerWaitPost (cap : Nat) : BipNext W → BipState w W → Prop :=
  (bipWaits cap).post .consumer

theorem readRest_stable : (bipLayer cap .consumer).Stable
    fun s : BipState w W => ReadRest s ∧ s.Quiet .consumer := by
  intro s t hI hst h
  refine ⟨?_, signals_stable _ _ s t hI hst h.2⟩
  rcases h.1 with hout | ⟨harmed, hreading, hdata⟩
  · exact .inl (hst.2.2.slot.phase.trans hout)
  · exact .inr ⟨hst.2.2.slot.phase.trans harmed, hst.2.2.reading.trans hreading,
      NoData.stable s t hI hst hdata⟩

/-- A step of the consumer on its own slot and future. -/
theorem consumer_guar {s t : BipState w W} (h : SameGrants s t) (hspace : t.space = s.space)
    (hreserving : t.reserving = s.reserving) (hsignals : t.data.signals = s.data.signals) :
    (bipLayer cap .consumer).extra.guar s t :=
  h.guar (fun j _ => ⟨congrFun hsignals j, by rw [hspace]⟩)
    (fun _ => ⟨hreserving, by rw [hspace]; exact .refl _⟩) fun h => absurd rfl h

theorem readReady_layer {out : Option Nat} {P : BipState w W → Prop}
    (hP : (bipLayer cap .consumer).Stable P)
    (h : ∀ s, P s → s.data.phase = .out ∧ s.Quiet .consumer) :
    (bipLayer cap .consumer).Triple P (readReady out)
      fun _ s => ReadRest s ∧ s.Quiet .consumer := by
  refine .store hP (fun _ => readRest_stable) fun s hI hs _ _ => ?_
  refine ⟨⟨hI.2.data, hI.2.space, hI.2.asked⟩, ?_, .inl (h s hs).1, (h s hs).2⟩
  exact consumer_guar (by constructor <;> rfl) rfl rfl rfl

theorem armData_layer {waker : W} :
    (bipLayer cap .consumer).Triple (ReadAt (w := w) (.poll waker)) (armData waker)
      fun _ => ReadAt .recheck := by
  refine Layer.Triple.conseq (arm_layer (L := bipLayer cap .consumer)
    (P := fun s : BipState w W => s.data.current = some waker ∧ s.reading = true ∧ s.Quiet .consumer)
    (fun _ _ => rfl) (fun s hs => hs.2.data) (fun phase s t hI hst h => ?_)
    (fun s pc hI h hphase _ _ => ?_) fun s hI h hphase _ _ => ?_)
    (fun s _ h => ⟨⟨h.1.2.1, h.1.2.2, h.2⟩, h.1.1⟩) fun _ s _ h => ⟨⟨h.2, h.1.2.1⟩, h.1.2.2⟩
  · exact ⟨⟨hst.2.2.slot.current.trans h.1.1, hst.2.2.reading.trans h.1.2.1,
      signals_stable _ _ s t hI hst h.1.2.2⟩, hst.2.2.slot.phase.trans h.2⟩
  · exact ⟨⟨hI.2.data.armStep hphase, hI.2.space, hI.2.asked⟩,
      consumer_guar (by constructor <;> rfl) rfl rfl rfl, h⟩
  · exact ⟨⟨hI.2.data.beginArm hphase h.1, hI.2.space, hI.2.asked⟩,
      consumer_guar (by constructor <;> rfl) rfl rfl rfl, h⟩

theorem disarmData_layer :
    (bipLayer cap .consumer).Triple (ReadAt (w := w) (W := W) .recheck) disarmData
      fun _ s => s.data.phase = .out ∧ s.Quiet .consumer := by
  refine .store ReadAt.stable (fun _ s t hI hst h => ?_) fun s hI h _ _ => ?_
  · exact ⟨hst.2.2.slot.phase.trans h.1, signals_stable _ _ s t hI hst h.2⟩
  · have hquit : SlotInv s.data.disarm :=
      hI.2.data.quit (fun pc hpc => by simp [h.1.1] at hpc) rfl rfl rfl
    exact ⟨⟨hquit, hI.2.space, hI.2.asked⟩, consumer_guar (by constructor <;> rfl) rfl rfl rfl,
      rfl, h.2⟩

theorem afterRead_layer (ctx : ReadCtx W) (out : Option Nat) :
    (bipLayer cap .consumer).Triple
      (fun s : BipState w W => ReadAt ctx s ∧ (out = none → NoData s)) (afterRead ctx out)
      (consumerWaitPost cap) := by
  have hP : (bipLayer cap .consumer).Stable
      fun s : BipState w W => ReadAt ctx s ∧ (out = none → NoData s) :=
    .and ReadAt.stable fun s t hI hst h hout => NoData.stable s t hI hst (h hout)
  have hdone : (bipLayer cap .consumer).Triple
      (fun s : BipState w W => ReadRest s ∧ s.Quiet .consumer) (pure (BipNext.done : BipNext W))
      (consumerWaitPost cap) :=
    .ret readRest_stable fun _ _ h => h
  have hreturns : (∀ s : BipState w W, ReadAt ctx s ∧ (out = none → NoData s) → ReadRest s) →
      (bipLayer cap .consumer).Triple
        (fun s : BipState w W => ReadAt ctx s ∧ (out = none → NoData s)) (readReturns out)
        fun _ s => ReadRest s ∧ s.Quiet .consumer := fun hrest =>
    same_layer hP readRest_stable (fun _ => by constructor <;> rfl)
      (fun _ => by constructor <;> rfl) fun s h => ⟨hrest s h, h.1.2⟩
  cases ctx with
  | tryRead => exact (hreturns fun s h => .inl h.1.1).bind fun _ => hdone
  | poll waker =>
    cases out with
    | some g => exact (readReady_layer hP fun s h => ⟨h.1.1.1, h.1.2⟩).bind fun _ => hdone
    | none =>
      refine Layer.Triple.bind (armData_layer.conseq (fun _ _ h => h.1) fun _ _ _ h => h)
        fun _ => ?_
      exact .ret ReadAt.stable fun _ _ h => h
  | recheck =>
    cases out with
    | some g =>
      refine Layer.Triple.bind (disarmData_layer.conseq (fun _ _ h => h.1) fun _ _ _ h => h)
        fun _ => ?_
      refine (readReady_layer (fun s t hI hst h => ?_) fun s h => h).bind fun _ => hdone
      exact ⟨hst.2.2.slot.phase.trans h.1, signals_stable _ _ s t hI hst h.2⟩
    | none =>
      exact (hreturns fun s h => .inr ⟨h.1.1.1, h.1.1.2, h.2 rfl⟩).bind fun _ => hdone

theorem readLoop_layer (hw : 2 ≤ w) (ctx : ReadCtx W) :
    (bipLayer cap .consumer).Triple (fun s : BipState w W => s.rip = false ∧ ReadAt ctx s)
      (readLoop ctx) (consumerWaitPost cap) := by
  have hsnap := (Layer.Triple.and_base (L := bipLayer (w := w) cap .consumer)
    (snapshot_triple hw) (snapshot_layer ctx)).conseq (fun s _ h => ⟨h.1, h⟩)
    fun _ _ _ h => h
  apply hsnap.bind
  rintro (_ | ⟨wr, r, l⟩)
  · refine Layer.Triple.conseq (P := ReadAt ctx) ?_ (fun s _ h => h.2.1) fun _ _ _ h => h
    exact .ret ReadAt.stable fun _ _ h => h
  · refine Layer.Triple.conseq (P := Loads ctx wr r l) ?_
      (fun s _ h => ⟨h.1.2 wr r l rfl, h.2.1, h.2.2 wr r l rfl⟩) fun _ _ _ h => h
    apply (wrapRead_layer wr r l).bind
    intro r'
    apply (claimRead_layer wr r' l).bind
    exact fun out => afterRead_layer ctx out

theorem tryRead_layer (hw : 2 ≤ w) (ctx : ReadCtx W) :
    (bipLayer cap .consumer).Triple (ReadAt (w := w) ctx) (tryRead ctx) (consumerWaitPost cap) := by
  have hQ : ∀ b, (bipLayer cap .consumer).Stable fun s : BipState w W => ReadAt ctx s ∧
      (b = true → s.data.published = false → s.rip = true) ∧ (b = false → s.rip = false) := by
    intro b s t hI hst h
    exact ⟨ReadAt.stable s t hI hst h.1,
      fun hb hp => hst.2.2.rip hp (h.2.1 hb (hst.2.2.slot.published hp)),
      fun hb => (hst.1 (h.2.2 hb)).rip⟩
  apply (load_layer ReadAt.stable hQ fun s _ h => ⟨h, fun hb _ => hb, fun hb => hb⟩).bind
  intro b
  cases b with
  | true =>
    exact (afterRead_layer ctx none).conseq (fun s _ h => ⟨h.1, fun _ hp => .inl (h.2.1 rfl hp)⟩)
      fun _ _ _ h => h
  | false => exact (readLoop_layer hw ctx).conseq (fun s _ h => ⟨h.2.2 rfl, h.1⟩) fun _ _ _ h => h

end Poll

end Cynosure.SiteD
