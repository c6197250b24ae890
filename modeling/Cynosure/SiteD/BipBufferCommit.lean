import Cynosure.SiteD.BipBufferProducer

/-! # Committing and abandoning a write grant

A commit makes the first bytes of its region part of the stream: the store of `write`
extends the unread bytes at their end, in either mode, and turns a wrapped grant into
the inverted mode.
-/

namespace Cynosure.SiteD

open Prog

variable {w : Nat} {W : Type} {cap : Nat}

/-- A wrapped commit sets the watermark; in that mode nobody reads it. -/
theorem BipInv.setLast {s : BipState w W} (hI : BipInv cap s) {l : Nat} (hl : l ≤ cap)
    (hmode : s.read ≤ s.write) : BipInv cap { s with last := l } where
  epoch := hI.epoch
  bounds := ⟨hI.bounds.1, hI.bounds.2.1, hl⟩
  stream := fun he => by
    have := hI.stream he
    rw [BipState.span, if_neg (by omega)] at this
    change s.released ++ (if s.write < s.read then _ else _) = s.committed
    rw [if_neg (by omega)]
    exact this
  mark := fun _ h => by
    change s.write < s.read at h
    omega
  resetting := hI.resetting
  wip := hI.wip
  rip := hI.rip
  writeGrant := fun g e he => ⟨(hI.writeGrant g e he).1, { (hI.writeGrant g e he).2 with }⟩
  readGrant := fun g e he => by
    obtain ⟨hr, hfits⟩ := hI.readGrant g e he
    refine ⟨hr, hfits.start, hfits.pos, ?_⟩
    have := hfits.place
    change if s.write < s.read then _ else s.read + e.len ≤ s.write
    rw [if_neg (by omega)] at this ⊢
    exact this
  faulted := hI.faulted

/-- A grant on its way to be committed. -/
structure Committing (g : Nat) (e : WriteGrant) (s : BipState w W) : Prop where
  writer : s.writer = some g
  grant : s.writeGrants g = some { e with handedBack := true }

theorem Committing.stable (g : Nat) (e : WriteGrant) :
    (bipContract cap (.write g)).Stable (Committing g e : BipState w W → Prop) := by
  intro s t _ hst h
  have hsees := hst h.writer
  exact ⟨hsees.writer, hsees.grant.trans h.grant⟩

theorem Committing.fits {g : Nat} {e : WriteGrant} {s : BipState w W} (h : Committing g e s)
    (hI : BipInv cap s) : e.Fits cap s :=
  let hfits := (hI.writeGrant g _ h.grant).2
  ⟨hfits.bound, hfits.bytes, hfits.place⟩

theorem Committing.even {g : Nat} {e : WriteGrant} {s : BipState w W} (h : Committing g e s)
    (hI : BipInv cap s) : s.ticks % 2 = 0 := by
  by_contra hodd
  have hw := (hI.resetting (by omega)).2.1
  rw [hI.wip, h.writer] at hw
  cases hw

theorem Committing.wip {g : Nat} {e : WriteGrant} {s : BipState w W} (h : Committing g e s)
    (hI : BipInv cap s) : s.wip = true := by
  rw [hI.wip, h.writer]
  rfl

/-- The step that publishes a commit: the stream grows by the committed bytes. -/
theorem BipInv.publishCommit {s : BipState w W} {g used : Nat} {e : WriteGrant}
    (hI : BipInv cap s) (h : Committing g e s) (hused : used ≤ e.len)
    (hlast : e.start = 0 → s.write ≠ 0 → s.last = s.write) :
    BipInv cap (s.publishCommit g e used) ∧ TailGrows s (s.publishCommit g e used) := by
  obtain ⟨hbound, hbytes, hplace⟩ := h.fits hI
  have heven := h.even hI
  have hstream := hI.stream heven
  have hmark := hI.mark heven
  have hcaps := hI.bounds
  have htake : e.bytes.take used = region s.buf e.start used := by
    rw [← hbytes, take_region hused]
  have hspan : (s.publishCommit g e used).span = s.span ++ region s.buf e.start used := by
    change (if e.start + used < s.read then region s.buf s.read (s.last - s.read) ++
      region s.buf 0 (e.start + used) else region s.buf s.read (e.start + used - s.read)) = _
    rw [BipState.span]
    rcases hplace with ⟨hstart, hroom⟩ | ⟨hstart, hmode, hroom⟩
    · rw [hstart]
      by_cases hinv : s.write < s.read
      · have := hroom hinv
        rw [if_pos hinv, if_pos (by omega), List.append_assoc, region_add, Nat.zero_add]
      · rw [if_neg hinv, if_neg (by omega),
          show s.write + used - s.read = (s.write - s.read) + used by omega, region_add]
        congr 2
        omega
    · have hw0 : s.write ≠ 0 := by omega
      rw [hstart, hlast hstart hw0, if_pos (by omega), if_neg (by omega), Nat.zero_add]
  constructor
  · exact {
      epoch := hI.epoch
      bounds := ⟨by change e.start + used ≤ cap; omega, hcaps.2⟩
      stream := fun _ => by
        change s.released ++ (s.publishCommit g e used).span = s.committed ++ e.bytes.take used
        rw [hspan, ← List.append_assoc, hstream, htake]
      mark := fun _ hinv => by
        change e.start + used < s.read at hinv
        change s.read ≤ s.last
        rcases hplace with ⟨hstart, hroom⟩ | ⟨hstart, hmode, hroom⟩
        · exact hmark (by omega)
        · rw [hlast hstart (by omega)]
          exact hmode
      resetting := fun ho => by
        change s.ticks % 2 = 1 at ho
        omega
      wip := hI.wip
      rip := hI.rip
      writeGrant := fun g' e' he' => by
        change Function.update s.writeGrants g none g' = some e' at he'
        by_cases hg : g' = g
        · subst hg
          simp at he'
        · rw [Function.update_of_ne hg] at he'
          have := (hI.writeGrant g' e' he').1
          rw [h.writer, Option.some.injEq] at this
          exact absurd this.symm hg
      readGrant := fun g' e' he' => by
        obtain ⟨hr, hfits⟩ := hI.readGrant g' e' he'
        refine ⟨hr, hfits.start, hfits.pos, ?_⟩
        have hfit := hfits.place
        change if e.start + used < s.read then s.read + e'.len ≤ s.last
          else s.read + e'.len ≤ e.start + used
        rcases hplace with ⟨hstart, hroom⟩ | ⟨hstart, hmode, hroom⟩
        · rw [hstart]
          split at hfit
          · rename_i hinv
            have := hroom hinv
            rw [if_pos (by omega)]
            exact hfit
          · rw [if_neg (by omega)]
            omega
        · rw [if_neg (by omega)] at hfit
          rw [if_pos (by omega), hlast hstart (by omega)]
          exact hfit
      faulted := hI.faulted }
  · refine ⟨rfl, fun hinv => ?_, fun hmode => ?_⟩
    · change e.start + used < s.read ∧ s.write ≤ e.start + used ∧ s.last = s.last
      rcases hplace with ⟨hstart, hroom⟩ | ⟨hstart, hmode, hroom⟩
      · have := hroom hinv
        exact ⟨by omega, by omega, rfl⟩
      · omega
    · change (s.read ≤ e.start + used ∧ s.write ≤ e.start + used) ∨
        (e.start + used < s.read ∧ s.write ≤ s.last)
      rcases hplace with ⟨hstart, hroom⟩ | ⟨hstart, -, hroom⟩
      · exact .inl ⟨by omega, by omega⟩
      · exact .inr ⟨by omega, (hlast hstart (by omega)).ge⟩

/-- What the other parties see of a step of a commit. -/
theorem commit_guar {s t : BipState w W} {g : Nat} (hwriter : s.writer = some g)
    (hI : BipInv cap s) (hticks : t.ticks = s.ticks) (hrip : t.rip = s.rip)
    (hreader : t.reader = s.reader) (hgrants : t.readGrants = s.readGrants)
    (hgrows : TailGrows s t) : (bipContract cap (.write g)).guar s t := by
  intro j hj
  cases j with
  | producer =>
    refine ⟨hticks, fun hw => ?_⟩
    rw [hI.wip, hwriter] at hw
    cases hw
  | consumer =>
    refine fun hr => ⟨hrip.trans hr, hticks.ge, fun _ _ => hgrows, fun h => ?_, fun h => ?_⟩
    · omega
    · omega
  | write g' =>
    intro hw
    rw [hwriter, Option.some.injEq] at hw
    exact absurd (congrArg BipParty.write hw.symm) hj
  | read g' => exact reader_still hreader hgrows.read hgrants

theorem storeLast_triple (g : Nat) (e : WriteGrant) (wr : Nat) :
    (bipContract cap (.write g)).Triple
      (fun s : BipState w W => Committing g e s ∧ s.write = wr) (storeLast e.start wr)
      fun _ s => Committing g e s ∧ s.write = wr ∧ (e.start = 0 → wr ≠ 0 → s.last = wr) := by
  have hP : (bipContract cap (.write g)).Stable
      fun s : BipState w W => Committing g e s ∧ s.write = wr :=
    fun s t hI hst h => ⟨Committing.stable g e s t hI hst h.1, (hst h.1.writer).write.trans h.2⟩
  unfold storeLast
  split
  · rename_i hwrapped
    refine .store hP (fun _ => ?_) fun s hI h => ?_
    · intro s t hI hst h
      have hsees := hst h.1.writer
      exact ⟨Committing.stable g e s t hI hst h.1, hsees.write.trans h.2.1,
        fun h0 hw => hsees.last.trans (h.2.2 h0 hw)⟩
    · obtain ⟨h, rfl⟩ := h
      have hplace := (h.fits hI).place
      have hmode : s.read ≤ s.write := by omega
      refine ⟨hI.setLast hI.bounds.1 hmode, commit_guar h.writer hI rfl rfl rfl rfl ?_,
        ⟨h.writer, h.grant⟩, rfl, fun _ _ => rfl⟩
      refine ⟨rfl, fun hinv => ?_, fun _ => .inl ⟨hmode, le_rfl⟩⟩
      omega
  · rename_i hplain
    refine .ret hP fun s _ h => ⟨h.1, h.2, fun h0 hw => absurd ⟨h0, hw⟩ hplain⟩

theorem publishCommit_triple (g : Nat) (e : WriteGrant) (wr used : Nat) (hused : used ≤ e.len) :
    (bipContract cap (.write g)).Triple
      (fun s : BipState w W => Committing g e s ∧ s.write = wr ∧
        (e.start = 0 → wr ≠ 0 → s.last = wr))
      (store (BipState.publishCommit g e used))
      fun _ s => s.writer = some g ∧ s.writeGrants g = none := by
  refine .store ?_ (fun _ => ?_) ?_
  · intro s t hI hst h
    have hsees := hst h.1.writer
    exact ⟨Committing.stable g e s t hI hst h.1, hsees.write.trans h.2.1,
      fun h0 hw => hsees.last.trans (h.2.2 h0 hw)⟩
  · intro s t _ hst h
    have hsees := hst h.1
    exact ⟨hsees.writer, hsees.grant.trans h.2⟩
  · rintro s hI ⟨h, rfl, hlast⟩
    obtain ⟨hinv, hgrows⟩ := hI.publishCommit h hused hlast
    refine ⟨hinv, commit_guar h.writer hI rfl rfl rfl rfl hgrows, h.writer, ?_⟩
    simp [BipState.publishCommit]

/-- The flag is given back; the grant is no longer in the table. -/
theorem BipInv.releaseWip {s t : BipState w W} {g : Nat} (hI : BipInv cap s)
    (hwriter : s.writer = some g)
    (ht : t = { s with
      wip := false, space := t.space, writer := none, writeGrants := t.writeGrants })
    (hgrants : t.writeGrants = Function.update s.writeGrants g none) : BipInv cap t := by
  have heven : ¬ s.ticks % 2 = 1 := by
    intro ho
    have hw := (hI.resetting ho).2.1
    rw [hI.wip, hwriter] at hw
    cases hw
  rw [ht]
  refine { hI with
    resetting := fun ho => absurd ho heven
    wip := rfl
    writeGrant := fun g' e' he' => ?_
    readGrant := fun g' e' he' => ⟨(hI.readGrant g' e' he').1, { (hI.readGrant g' e' he').2 with }⟩ }
  change t.writeGrants g' = some e' at he'
  rw [hgrants] at he'
  by_cases hg : g' = g
  · subst hg
    simp at he'
  · rw [Function.update_of_ne hg] at he'
    have := (hI.writeGrant g' e' he').1
    rw [hwriter, Option.some.injEq] at this
    exact absurd this.symm hg

theorem TailGrows.still {s t : BipState w W} (hread : t.read = s.read) (hwrite : t.write = s.write)
    (hlast : t.last = s.last) : TailGrows s t := by
  refine ⟨hread, fun hi => ?_, fun hp => .inl ?_⟩
  · rw [hread, hwrite, hlast]
    exact ⟨hi, le_rfl, rfl⟩
  · rw [hread, hwrite]
    exact ⟨hp, le_rfl⟩

theorem clearWip_triple (g : Nat) :
    (bipContract cap (.write g)).Triple
      (fun s : BipState w W => s.writer = some g ∧ s.writeGrants g = none)
      (store (BipState.clearWip g)) fun _ _ => True := by
  refine .store ?_ (fun _ => true_stable) ?_
  · intro s t _ hst h
    have hsees := hst h.1
    exact ⟨hsees.writer, hsees.grant.trans h.2⟩
  · rintro s hI ⟨hwriter, hgone⟩
    refine ⟨hI.releaseWip hwriter rfl ?_, commit_guar hwriter hI rfl rfl rfl rfl (.still rfl rfl rfl),
      trivial⟩
    rw [← hgone, Function.update_eq_self]
    rfl

theorem swapWip_triple (g : Nat) (e : WriteGrant) :
    (bipContract cap (.write g)).Triple (Committing (w := w) (W := W) g e)
      (exchange (·.wip) (BipState.swapWip g)) fun _ _ => True := by
  refine .exchange (Committing.stable g e) (fun _ => true_stable) fun s hI h => ?_
  exact ⟨hI.releaseWip h.writer rfl rfl,
    commit_guar h.writer hI rfl rfl rfl rfl (.still rfl rfl rfl), trivial⟩

/-- The owner writes a byte of its region, which holds no unread byte. -/
theorem BipInv.writeByte {s : BipState w W} {g i : Nat} {b : UInt8} {e : WriteGrant}
    (hI : BipInv cap s) (he : s.writeGrants g = some e) (hi : i < e.len) :
    BipInv cap (s.writeByte g i b e) := by
  obtain ⟨hwriter, hfits⟩ := hI.writeGrant g e he
  have heven : s.ticks % 2 = 0 := by
    by_contra hodd
    have hw := (hI.resetting (by omega)).2.1
    rw [hI.wip, hwriter] at hw
    cases hw
  have hplace := hfits.place
  have hmark := hI.mark heven
  have hspan : (s.writeByte g i b e).span = s.span := by
    change (if s.write < s.read then region (Function.update s.buf (e.start + i) b) s.read
      (s.last - s.read) ++ region (Function.update s.buf (e.start + i) b) 0 s.write
      else region (Function.update s.buf (e.start + i) b) s.read (s.write - s.read)) = s.span
    rw [BipState.span]
    by_cases hinv : s.write < s.read
    · rw [if_pos hinv, if_pos hinv, region_update_of_disjoint b (by omega),
        region_update_of_disjoint b (by omega)]
    · rw [if_neg hinv, if_neg hinv, region_update_of_disjoint b (by omega)]
  exact {
    epoch := hI.epoch
    bounds := hI.bounds
    stream := fun h => by rw [hspan]; exact hI.stream h
    mark := hI.mark
    resetting := hI.resetting
    wip := hI.wip
    rip := hI.rip
    writeGrant := fun g' e' he' => by
      change Function.update s.writeGrants g _ g' = some e' at he'
      by_cases hg : g' = g
      · subst hg
        rw [Function.update_self, Option.some.injEq] at he'
        subst he'
        refine ⟨hwriter, hfits.bound, ?_, hfits.place⟩
        change region (Function.update s.buf (e.start + i) b) e.start e.len = e.bytes.set i b
        rw [region_update b hi, hfits.bytes]
      · rw [Function.update_of_ne hg] at he'
        have := (hI.writeGrant g' e' he').1
        rw [hwriter, Option.some.injEq] at this
        exact absurd this.symm hg
    readGrant := fun g' e' he' => ⟨(hI.readGrant g' e' he').1, { (hI.readGrant g' e' he').2 with }⟩
    faulted := hI.faulted }

/-- A grant about to be handed back can no longer be named by its owner. -/
theorem BipInv.handBackWrite {s : BipState w W} {g : Nat} {e : WriteGrant} (hI : BipInv cap s)
    (he : s.writeGrants g = some e) (bytes : List UInt8) :
    BipInv cap (s.handBackWrite g e bytes) := by
  obtain ⟨hwriter, hfits⟩ := hI.writeGrant g e he
  refine { hI with
    writeGrant := fun g' e' he' => ?_
    readGrant := fun g' e' he' => ⟨(hI.readGrant g' e' he').1, { (hI.readGrant g' e' he').2 with }⟩ }
  by_cases hg : g' = g
  · subst hg
    simp only [BipState.handBackWrite, Function.update_self, Option.some.injEq] at he'
    subst he'
    exact ⟨hwriter, hfits.bound, hfits.bytes, hfits.place⟩
  · simp only [BipState.handBackWrite, Function.update_of_ne hg] at he'
    exact ⟨(hI.writeGrant g' e' he').1, { (hI.writeGrant g' e' he').2 with }⟩

variable [Waker W]

theorem signalSpace_triple {i party : BipParty} {P : BipState w W → Prop}
    (hP : (bipContract cap i).Stable P) :
    (bipContract cap i).Triple P (signalSpace party) fun _ => P :=
  sameZoom_triple hP (fun _ _ => by constructor <;> rfl) _

theorem signalData_triple {i party : BipParty} {P : BipState w W → Prop}
    (hP : (bipContract cap i).Stable P) :
    (bipContract cap i).Triple P (signalData party) fun _ => P :=
  sameZoom_triple hP (fun _ _ => by constructor <;> rfl) _

theorem commit_triple (g : Nat) (e : WriteGrant) (used : Nat) :
    (bipContract cap (.write g)).Triple (Committing (w := w) (W := W) g e)
      (commit cap g e used) fun _ _ => True := by
  have hwrite : ∀ wr, (bipContract cap (.write g)).Stable
      fun s : BipState w W => Committing g e s ∧ s.write = wr :=
    fun wr s t hI hst h => ⟨Committing.stable g e s t hI hst h.1, (hst h.1.writer).write.trans h.2⟩
  have hlast : ∀ wr, (bipContract cap (.write g)).Stable
      fun s : BipState w W => Committing g e s ∧ s.write = wr ∧
        (e.start = 0 → wr ≠ 0 → s.last = wr) := by
    intro wr s t hI hst h
    have hsees := hst h.1.writer
    exact ⟨Committing.stable g e s t hI hst h.1, hsees.write.trans h.2.1,
      fun h0 hw => hsees.last.trans (h.2.2 h0 hw)⟩
  apply (load_triple (Q := fun wr s => Committing g e s ∧ s.write = wr) (Committing.stable g e)
    hwrite fun s _ h => ⟨h, rfl⟩).bind
  intro wr
  apply (storeLast_triple g e wr).bind
  intro _
  refine (check_triple (hlast wr) fun s hI h => ?_).bind fun _ => ?_
  · have := (h.1.fits hI).bound
    rw [decide_eq_true_eq]
    omega
  apply (publishCommit_triple g e wr _ (Nat.min_le_right _ _)).bind
  intro _
  apply (clearWip_triple g).bind
  intro _
  exact (signalSpace_triple true_stable).bind fun _ => signalData_triple true_stable

theorem dropWrite_triple (g : Nat) (e : WriteGrant) :
    (bipContract cap (.write g)).Triple (Committing (w := w) (W := W) g e) (dropWrite g)
      fun _ _ => True := by
  apply (swapWip_triple g e).bind
  intro wip
  cases wip with
  | true => exact signalSpace_triple true_stable
  | false => exact .ret true_stable fun _ _ h => h

end Cynosure.SiteD
