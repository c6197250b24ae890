import Cynosure.SiteD.BipBufferWaits

/-! # The parked producer of the bip buffer

`try_reserve` looks at the flag and at the cursors one after the other. Each look that
speaks against the request stays true until a signal on `space` begins, so at its
end they speak against it together.
-/

namespace Cynosure.SiteD

open Prog

variable {w : Nat} {W : Type} [Waker W] {cap : Nat}

/-- The producer's future, and where it is in its slot. -/
structure ReserveAt (reserving : Option Nat) (phase : Phase W) (current : Option W)
    (s : BipState w W) : Prop where
  reserving : s.reserving = reserving
  phase : s.space.phase = phase
  current : s.space.current = current
  quiet : s.Quiet .producer

section Assertions

variable {reserving : Option Nat} {phase : Phase W} {current : Option W}

theorem ReserveAt.stable :
    (bipLayer cap .producer).Stable (ReserveAt (w := w) reserving phase current) := by
  intro s t hI hst h
  exact {
    reserving := hst.2.2.reserving.trans h.reserving
    phase := hst.2.2.slot.phase.trans h.phase
    current := hst.2.2.slot.current.trans h.current
    quiet := signals_stable _ _ s t hI hst h.quiet }

omit [Waker W] in
theorem ReserveAt.of_same {s t : BipState w W} (h : ReserveAt reserving phase current s)
    (hst : SameWaits s t) : ReserveAt reserving phase current t where
  reserving := hst.reserving.trans h.reserving
  phase := by rw [hst.space]; exact h.phase
  current := by rw [hst.space]; exact h.current
  quiet := ⟨by rw [hst.data]; exact h.quiet.1, by rw [hst.space]; exact h.quiet.2⟩

end Assertions

/-- What a failed look knows, as long as no signal on `space` has begun. -/
theorem noRoom_stable {n : Nat} : (bipLayer cap .producer).Stable
    fun s : BipState w W => s.space.published = false → s.NoRoom cap n := by
  intro s t _ hst h hp
  have hroom := h (hst.2.2.slot.published hp)
  cases hw : s.wip with
  | true => exact .inl (hst.2.2.wip hp hw)
  | false =>
    obtain ⟨hcursors, hplace⟩ := hroom.resolve_left (by simp [hw])
    have hwrite := (hst.1.2 hw).write
    have hread := hst.2.2.read hp
    exact .inr ⟨by rw [hwrite, hread]; exact hcursors, by rw [hwrite, hread]; exact hplace⟩

/-- What the others see of a step of the producer that leaves the slots alone. -/
theorem producer_guar {s t : BipState w W} (hs : SameWaits s t) (hmono : s.ticks ≤ t.ticks)
    (hrip : t.rip = s.rip) (hwrite : s.ticks % 2 = 0 → t.ticks = s.ticks → t.write = s.write)
    (hdrained : s.Drained → t.Drained) (hwriter : ∀ g, s.WriterKnown g → t.WriterKnown g)
    (hreader : t.reader = s.reader) (hgrants : t.readGrants = s.readGrants) :
    (bipLayer cap .producer).extra.guar s t := by
  intro j hj
  refine ⟨hs.signals j, ?_⟩
  cases j with
  | producer => exact absurd rfl hj
  | consumer =>
    exact ⟨hs.reading, by rw [hs.data]; exact .refl _, hmono, fun _ h => hrip.trans h,
      fun _ => hwrite, fun _ => hdrained⟩
  | write g => exact hwriter g
  | read g =>
    intro hr
    unfold BipState.ReaderKnown
    rw [hreader, hgrants]
    exact hr

section Reset

variable {reserving : Option Nat} {phase : Phase W} {current : Option W}

/-- A store of the reset: the buffer counts as drained before and after it. -/
theorem resetStore_layer {r wr : Nat} (r' wr' : Nat) {f : BipState w W → BipState w W}
    (hf : ∀ s, SameWaits s (f s))
    (hsame : ∀ s, (f s).ticks = s.ticks ∧ (f s).wip = s.wip ∧ (f s).rip = s.rip ∧
      (f s).writer = s.writer ∧ (f s).writeGrants = s.writeGrants ∧
      (f s).reader = s.reader ∧ (f s).readGrants = s.readGrants)
    (hcursors : ∀ s, Torn r wr s → (f s).read = r' ∧ (f s).write = wr') :
    (bipLayer cap .producer).Triple (fun s => Torn r wr s ∧ ReserveAt reserving phase current s) (store f)
      fun _ s => Torn r' wr' s ∧ ReserveAt reserving phase current s := by
  refine .store (.and (.of_base (Torn.stable r wr)) ReserveAt.stable)
    (fun _ => .and (.of_base (Torn.stable r' wr')) ReserveAt.stable) fun s hI h _ _ => ?_
  obtain ⟨htorn, hat⟩ := h
  obtain ⟨hticks, hwip, hrip, hwriter, hwrites, hreader, hreads⟩ := hsame s
  have hodd : (f s).ticks % 2 = 1 := by rw [hticks, htorn.odd]
  refine ⟨(hf s).inv hI.2, ?_, ⟨hwip.trans htorn.wip, hodd, (hcursors s htorn).1, (hcursors s htorn).2⟩,
    hat.of_same (hf s)⟩
  refine producer_guar (hf s) hticks.ge hrip (fun he => ?_) (fun _ => .inl hodd) (fun g hw => ?_)
    hreader hreads
  · have := htorn.odd
    omega
  · unfold BipState.WriterKnown
    rw [hwriter, hwrites]
    exact hw

theorem beginReset_layer {wr : Nat} :
    (bipLayer cap .producer).Triple (fun s : BipState w W => SeenCursors cap wr wr s ∧ ReserveAt reserving phase current s)
      (store BipState.bumpEpoch) fun _ s => Torn wr wr s ∧ ReserveAt reserving phase current s := by
  refine .store (.and (.of_base (SeenCursors.stable wr wr)) ReserveAt.stable)
    (fun _ => .and (.of_base (Torn.stable wr wr)) ReserveAt.stable) fun s hI h _ _ => ?_
  obtain ⟨hseen, hat⟩ := h
  have heven := hseen.even
  have hodd : s.bumpEpoch.ticks % 2 = 1 := by
    change (s.ticks + 1) % 2 = 1
    omega
  have hread : s.read = wr := by
    have := hseen.moves
    unfold ReadMoves at this
    omega
  refine ⟨SameWaits.inv (by constructor <;> rfl) hI.2, ?_,
    ⟨hseen.wip, hodd, hread, hseen.write⟩, hat.of_same (by constructor <;> rfl)⟩
  refine producer_guar (by constructor <;> rfl) (Nat.le_succ _) rfl (fun _ ht => ?_)
    (fun _ => .inl hodd) (fun _ hw => hw) rfl rfl
  simp [BipState.bumpEpoch] at ht

theorem endReset_layer :
    (bipLayer cap .producer).Triple (fun s : BipState w W => Torn 0 0 s ∧ ReserveAt reserving phase current s)
      (store BipState.bumpEpoch) fun _ s => SeenCursors cap 0 0 s ∧ ReserveAt reserving phase current s := by
  refine .store (.and (.of_base (Torn.stable 0 0)) ReserveAt.stable)
    (fun _ => .and (.of_base (SeenCursors.stable 0 0)) ReserveAt.stable) fun s hI h _ _ => ?_
  obtain ⟨htorn, hat⟩ := h
  have hodd := htorn.odd
  have heven : s.bumpEpoch.ticks % 2 = 0 := by
    change (s.ticks + 1) % 2 = 0
    omega
  have hread : s.bumpEpoch.read = 0 := htorn.read
  have hmoves : ReadMoves 0 0 s.bumpEpoch.read := by
    rw [hread]
    exact .inl ⟨le_rfl, Iff.rfl⟩
  refine ⟨SameWaits.inv (by constructor <;> rfl) hI.2, ?_,
    ⟨htorn.wip, heven, htorn.write, hmoves, Nat.zero_le _⟩, hat.of_same (by constructor <;> rfl)⟩
  refine producer_guar (by constructor <;> rfl) (Nat.le_succ _) rfl (fun _ ht => ?_)
    (fun _ => .inr (hread.trans htorn.write.symm)) (fun _ hw => hw) rfl rfl
  simp [BipState.bumpEpoch] at ht

theorem canonicalize_layer (r wr : Nat) :
    (bipLayer cap .producer).Triple
      (fun s : BipState w W => SeenCursors cap r wr s ∧ ReserveAt reserving phase current s ∧
        (s.space.published = false → s.read = r))
      (canonicalize cap r wr)
      fun c s => SeenCursors cap c.1 c.2 s ∧ ReserveAt reserving phase current s ∧
        (c = (0, 0) ∨ c = (r, wr) ∧ ¬ (r = wr ∧ wr ≠ 0) ∧ (s.space.published = false → s.read = r)) := by
  unfold canonicalize
  split
  · rename_i hdrained
    obtain ⟨rfl, -⟩ := hdrained
    refine Layer.Triple.conseq
      (P := fun s => SeenCursors cap r r s ∧ ReserveAt reserving phase current s) ?_
      (fun s _ h => ⟨h.1, h.2.1⟩) fun _ _ _ h => h
    apply beginReset_layer.bind
    intro _
    refine Layer.Triple.bind (resetStore_layer 0 r (fun _ => by constructor <;> rfl)
      (fun _ => ⟨rfl, rfl, rfl, rfl, rfl, rfl, rfl⟩) fun s hs => ⟨rfl, hs.write⟩) fun _ => ?_
    refine Layer.Triple.bind (resetStore_layer 0 0 (fun _ => by constructor <;> rfl)
      (fun _ => ⟨rfl, rfl, rfl, rfl, rfl, rfl, rfl⟩) fun s hs => ⟨hs.read, rfl⟩) fun _ => ?_
    refine Layer.Triple.bind (resetStore_layer 0 0 (fun _ => by constructor <;> rfl)
      (fun _ => ⟨rfl, rfl, rfl, rfl, rfl, rfl, rfl⟩) fun s hs => ⟨hs.read, hs.write⟩) fun _ => ?_
    apply endReset_layer.bind
    intro _
    exact .ret (.and (.of_base (SeenCursors.stable 0 0)) ReserveAt.stable)
      fun s _ h => ⟨h.1, h.2, .inl rfl⟩
  · rename_i hplain
    refine .ret (fun s t hI hst h => ?_) fun s _ h => ⟨h.1, h.2.1, .inr ⟨rfl, hplain, h.2.2⟩⟩
    exact ⟨SeenCursors.stable r wr s t hI.1 hst.1 h.1, ReserveAt.stable s t hI hst h.2.1,
      fun hp => (hst.2.2.read hp).trans (h.2.2 (hst.2.2.slot.published hp))⟩

end Reset

section TryReserve

variable {reserving : Option Nat} {phase : Phase W} {current : Option W}

theorem takeWip_layer {start n : Nat} {P : BipState w W → Prop}
    (hP : (bipLayer cap .producer).Stable P)
    (h : ∀ s, P s → ReserveAt reserving phase current s ∧ s.ticks % 2 = 0) :
    (bipLayer cap .producer).Triple P (takeWip start n)
      fun out s => out.isSome = true ∧ ReserveAt reserving phase current s ∧ s.ticks % 2 = 0 := by
  have hQ : (bipLayer cap .producer).Stable
      fun s : BipState w W => ReserveAt reserving phase current s ∧ s.ticks % 2 = 0 :=
    .and ReserveAt.stable (.of_base even_stable)
  refine Layer.Triple.bind
    (R := fun _ s => ReserveAt reserving phase current s ∧ s.ticks % 2 = 0)
    (.exchange hP (fun _ => hQ) fun s hI hs _ _ => ?_) fun g => .ret hQ fun s _ h => ⟨rfl, h⟩
  obtain ⟨hat, heven⟩ := h s hs
  refine ⟨SameWaits.inv (by constructor <;> rfl) hI.2, ?_, hat.of_same (by constructor <;> rfl), heven⟩
  refine producer_guar (by constructor <;> rfl) le_rfl rfl (fun _ _ => rfl) (fun h => h) ?_ rfl rfl
  intro g _ hg
  have hg : s.nextGrant = g := Option.some.inj hg
  subst hg
  simp [BipState.grantWrite]

/-- A request that fits nowhere, by cursors that were seen since the slot was last signalled. -/
theorem place_layer {n r wr : Nat} (c : Nat × Nat) :
    (bipLayer cap .producer).Triple
      (fun s : BipState w W => SeenCursors cap c.1 c.2 s ∧ ReserveAt reserving phase current s ∧
        (c = (0, 0) ∨ c = (r, wr) ∧ ¬ (r = wr ∧ wr ≠ 0) ∧ (s.space.published = false → s.read = r)))
      (place cap n c)
      fun out s => (ReserveAt reserving phase current s ∧ s.ticks % 2 = 0) ∧
        (out = none → n ≤ cap → s.space.published = false → s.NoRoom cap n) := by
  have hP : (bipLayer cap .producer).Stable fun s : BipState w W =>
      SeenCursors cap c.1 c.2 s ∧ ReserveAt reserving phase current s ∧
        (c = (0, 0) ∨ c = (r, wr) ∧ ¬ (r = wr ∧ wr ≠ 0) ∧ (s.space.published = false → s.read = r)) := by
    intro s t hI hst h
    refine ⟨SeenCursors.stable _ _ s t hI.1 hst.1 h.1, ReserveAt.stable s t hI hst h.2.1,
      h.2.2.imp id fun hc => ⟨hc.1, hc.2.1, fun hp => ?_⟩⟩
    exact (hst.2.2.read hp).trans (hc.2.2 (hst.2.2.slot.published hp))
  unfold place
  apply (check_layer hP fun s h => ?_).bind
  · intro _
    cases hstart : placement cap n c.1 c.2 with
    | some start =>
      refine (takeWip_layer hP fun s h => ⟨h.2.1, h.1.even⟩).conseq (fun _ _ h => h) fun out s _ h => ?_
      refine ⟨h.2, fun hout => ?_⟩
      simp [hout] at h
    | none =>
      refine .ret hP fun s _ h => ⟨⟨h.2.1, h.1.even⟩, fun _ hn hp => .inr ?_⟩
      rcases h.2.2 with rfl | ⟨rfl, hplain, hread⟩
      · simp [placement, hn] at hstart
      · rw [hread hp, h.1.write]
        exact ⟨hplain, hstart⟩
  · exact ⟨⟨h.1.wip, h.1.even, h.1.write, h.1.moves, h.1.bound⟩,
      h.2.1.of_same (by constructor <;> rfl), h.2.2⟩

/-- A failed `try_reserve` leaves its reason behind. -/
theorem tryReserve_layer (n : Nat) :
    (bipLayer cap .producer).Triple
      (fun s : BipState w W => ReserveAt reserving phase current s ∧ s.ticks % 2 = 0)
      (tryReserve cap n)
      fun out s => (ReserveAt reserving phase current s ∧ s.ticks % 2 = 0) ∧
        (out = none → n ≤ cap → s.space.published = false → s.NoRoom cap n) := by
  have hP : (bipLayer cap .producer).Stable
      fun s : BipState w W => ReserveAt reserving phase current s ∧ s.ticks % 2 = 0 :=
    .and ReserveAt.stable (.of_base even_stable)
  have hseen : ∀ r wr, (bipLayer cap .producer).Stable fun s : BipState w W =>
      SeenCursors cap r wr s ∧ ReserveAt reserving phase current s ∧
        (s.space.published = false → s.read = r) := by
    intro r wr s t hI hst h
    exact ⟨SeenCursors.stable r wr s t hI.1 hst.1 h.1, ReserveAt.stable s t hI hst h.2.1,
      fun hp => (hst.2.2.read hp).trans (h.2.2 (hst.2.2.slot.published hp))⟩
  unfold tryReserve
  have hwip : ∀ b, (bipLayer cap .producer).Stable fun s : BipState w W =>
      (ReserveAt reserving phase current s ∧ s.ticks % 2 = 0) ∧
        (b = true → s.space.published = false → s.wip = true) ∧ (b = false → s.wip = false) := by
    intro b s t hI hst h
    exact ⟨hP s t hI hst h.1,
      fun hb hp => hst.2.2.wip hp (h.2.1 hb (hst.2.2.slot.published hp)),
      fun hb => (hst.1.2 (h.2.2 hb)).wip⟩
  apply (load_layer hP hwip fun s _ h => ⟨h, fun hb _ => hb, fun hb => hb⟩).bind
  intro b
  cases b with
  | true => exact .ret (hwip true) fun s _ h => ⟨h.1, fun _ _ hp => .inl (h.2.1 rfl hp)⟩
  | false =>
    rw [if_neg Bool.false_ne_true]
    split
    · exact .ret (hwip false) fun s _ h => ⟨h.1, fun _ hn => by omega⟩
    apply (load_layer (Q := fun r s => SeenCursors cap r s.write s ∧
      ReserveAt reserving phase current s ∧ (s.space.published = false → s.read = r)) (hwip false)
      (fun r s t hI hst h => ?_) fun s hI h => ?_).bind
    · intro r
      apply (load_layer (Q := fun wr s => SeenCursors cap r wr s ∧
        ReserveAt reserving phase current s ∧ (s.space.published = false → s.read = r))
        (fun s t hI hst h => ?_) (hseen r) fun _ _ h => h).bind
      · exact fun wr => (canonicalize_layer r wr).bind fun c => place_layer c
      · have := hseen r s.write s t hI hst h
        rwa [← (hst.1.2 h.1.wip).write] at this
    · have := hseen r s.write s t hI hst h
      rwa [← (hst.1.2 h.1.wip).write] at this
    · exact ⟨⟨h.2.2 rfl, h.1.2, rfl, .inl ⟨le_rfl, Iff.rfl⟩, hI.1.bounds.2.1⟩, h.1.1, fun _ => rfl⟩

end TryReserve

section Poll

variable {n : Nat} {waker : W}

theorem reserveRest_stable : (bipLayer cap .producer).Stable
    fun s : BipState w W => ReserveRest cap s ∧ s.Quiet .producer := by
  intro s t hI hst h
  refine ⟨?_, signals_stable _ _ s t hI hst h.2⟩
  rcases h.1 with hout | ⟨harmed, n, hn, hroom⟩
  · exact .inl (hst.2.2.slot.phase.trans hout)
  · exact .inr ⟨hst.2.2.slot.phase.trans harmed, n, hst.2.2.reserving.trans hn,
      noRoom_stable s t hI hst hroom⟩

theorem reserveReturns_layer {reserving : Option Nat} {current : Option W} {out : Option Nat} :
    (bipLayer cap .producer).Triple (ReserveAt (w := w) reserving .out current) (reserveReturns out)
      fun _ s => ReserveRest cap s ∧ s.Quiet .producer :=
  same_layer ReserveAt.stable reserveRest_stable (fun _ => by constructor <;> rfl)
    (fun _ => by constructor <;> rfl) fun _ h => ⟨.inl h.phase, h.quiet⟩

theorem reserveReady_layer {reserving : Option Nat} {current : Option W} {out : Option Nat} :
    (bipLayer cap .producer).Triple (ReserveAt (w := w) reserving .out current) (reserveReady out)
      fun _ s => ReserveRest cap s ∧ s.Quiet .producer := by
  refine .store ReserveAt.stable (fun _ => reserveRest_stable) fun s hI h _ _ => ?_
  refine ⟨⟨hI.2.data, hI.2.space, fun n hn => (by cases hn)⟩, ?_, .inl h.phase, h.quiet⟩
  exact SameGrants.guar (by constructor <;> rfl) (fun _ _ => ⟨rfl, rfl⟩) (fun h => absurd rfl h)
    fun _ => ⟨rfl, .refl _⟩

theorem armSpace_layer :
    (bipLayer cap .producer).Triple
      (fun s : BipState w W => ReserveAt (some n) .out (some waker) s ∧ s.ticks % 2 = 0)
      (armSpace waker)
      fun _ s => ReserveAt (some n) .armed (some waker) s ∧ s.ticks % 2 = 0 := by
  have hguar : ∀ (s : BipState w W) x, x.signals = s.space.signals →
      (bipLayer cap .producer).extra.guar s { s with space := x } := fun s x hx =>
    SameGrants.guar (by constructor <;> rfl) (fun j _ => ⟨rfl, congrFun hx j⟩)
      (fun h => absurd rfl h) fun _ => ⟨rfl, .refl _⟩
  refine Layer.Triple.conseq (arm_layer (L := bipLayer cap .producer)
    (P := fun s : BipState w W => s.reserving = some n ∧ s.space.current = some waker ∧
      s.Quiet .producer ∧ s.ticks % 2 = 0)
    (fun _ _ => rfl) (fun s hs => hs.2.space) (fun phase s t hI hst h => ?_)
    (fun s pc hI h hphase _ _ => ?_) fun s hI h hphase _ _ => ?_)
    (fun s _ h => ⟨⟨h.1.reserving, h.1.current, h.1.quiet, h.2⟩, h.1.phase⟩)
    fun _ s _ h => ⟨⟨h.1.1, h.2, h.1.2.1, h.1.2.2.1⟩, h.1.2.2.2⟩
  · exact ⟨⟨hst.2.2.reserving.trans h.1.1, hst.2.2.slot.current.trans h.1.2.1,
      signals_stable _ _ s t hI hst h.1.2.2.1, even_stable s t hI.1 hst.1 h.1.2.2.2⟩,
      hst.2.2.slot.phase.trans h.2⟩
  · exact ⟨⟨hI.2.data, hI.2.space.armStep hphase, hI.2.asked⟩, hguar s _ rfl, h⟩
  · exact ⟨⟨hI.2.data, hI.2.space.beginArm hphase h.2.1, hI.2.asked⟩, hguar s _ rfl, h⟩

theorem disarmSpace_layer {reserving : Option Nat} {current : Option W} :
    (bipLayer cap .producer).Triple (ReserveAt (w := w) reserving .armed current) disarmSpace
      fun _ => ReserveAt reserving .out current := by
  refine .store ReserveAt.stable (fun _ => ReserveAt.stable) fun s hI h _ _ => ?_
  have hquit : SlotInv s.space.disarm :=
    hI.2.space.quit (fun pc hpc => by simp [h.phase] at hpc) rfl rfl rfl
  refine ⟨⟨hI.2.data, hquit, hI.2.asked⟩, ?_, h.reserving, rfl, h.current, h.quiet⟩
  exact SameGrants.guar (by constructor <;> rfl) (fun _ _ => ⟨rfl, rfl⟩) (fun h => absurd rfl h)
    fun _ => ⟨rfl, .refl _⟩

/-- A poll that returns `Pending` leaves the future parked with its reason. -/
theorem pollReserve_layer (hn : n ≤ cap) :
    (bipLayer cap .producer).Triple
      (fun s : BipState w W => ReserveAt (some n) .out (some waker) s ∧ s.ticks % 2 = 0)
      (pollReserve cap n waker) fun _ s => ReserveRest cap s ∧ s.Quiet .producer := by
  apply (tryReserve_layer n).bind
  rintro (_ | g)
  · refine Layer.Triple.conseq
      (P := fun s => ReserveAt (some n) .out (some waker) s ∧ s.ticks % 2 = 0) ?_
      (fun _ _ h => h.1) fun _ _ _ h => h
    apply armSpace_layer.bind
    intro _
    apply (tryReserve_layer n).bind
    rintro (_ | g)
    · have hP : (bipLayer cap .producer).Stable fun s : BipState w W =>
          (ReserveAt (some n) .armed (some waker) s ∧ s.ticks % 2 = 0) ∧
            (none = (none : Option Nat) → n ≤ cap → s.space.published = false → s.NoRoom cap n) :=
        .and (.and ReserveAt.stable (.of_base even_stable)) fun s t hI hst h _ hn =>
          noRoom_stable s t hI hst (h rfl hn)
      refine same_layer hP reserveRest_stable (fun _ => by constructor <;> rfl)
        (fun _ => by constructor <;> rfl) fun s h => ?_
      exact ⟨.inr ⟨h.1.1.phase, n, h.1.1.reserving, fun hp => h.2 rfl hn hp⟩, h.1.1.quiet⟩
    · refine Layer.Triple.conseq (P := ReserveAt (some n) .armed (some waker)) ?_
        (fun _ _ h => h.1.1) fun _ _ _ h => h
      exact disarmSpace_layer.bind fun _ => reserveReady_layer
  · exact reserveReady_layer.conseq (fun _ _ h => h.1.1) fun _ _ _ h => h

end Poll

end Cynosure.SiteD
