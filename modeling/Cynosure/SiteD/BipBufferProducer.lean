import Cynosure.SiteD.BipBufferInvariant

/-! # The producer of the bip buffer

`try_reserve` decides on a stale read cursor, which can only have moved in the
producer's favour, and resets a drained buffer under the epoch.
-/

namespace Cynosure.SiteD

open Prog

variable {w : Nat} {W : Type} {cap : Nat}

/-- No grant is out, and the cursors were seen at `r` and `wr`. -/
structure SeenCursors (cap r wr : Nat) (s : BipState w W) : Prop where
  wip : s.wip = false
  even : s.ticks % 2 = 0
  write : s.write = wr
  moves : ReadMoves wr r s.read
  bound : r ≤ cap

theorem SeenCursors.stable (r wr : Nat) :
    (bipContract cap .producer).Stable (SeenCursors cap r wr : BipState w W → Prop) := by
  intro s t _ hst h
  have hsees := hst.2 h.wip
  have hmoves := hsees.read h.even
  refine ⟨hsees.wip, by rw [hst.1, h.even], hsees.write.trans h.write, ?_, h.bound⟩
  have := h.moves
  rw [h.write] at hmoves
  unfold ReadMoves at *
  omega

theorem even_stable : (bipContract cap .producer).Stable fun s : BipState w W => s.ticks % 2 = 0 := by
  intro s t _ hst h
  rw [hst.1, h]

theorem BipInv.writer_none {s : BipState w W} (hI : BipInv cap s) (h : s.wip = false) :
    s.writer = none := by
  have := hI.wip
  rw [h] at this
  simpa using this.symm

theorem BipInv.reader_none {s : BipState w W} (hI : BipInv cap s) (h : s.rip = false) :
    s.reader = none := by
  have := hI.rip
  rw [h] at this
  simpa using this.symm

theorem BipInv.readGrants_none {s : BipState w W} (hI : BipInv cap s) (h : s.reader = none)
    (g : Nat) : s.readGrants g = none := by
  cases hg : s.readGrants g with
  | none => rfl
  | some e =>
    have := (hI.readGrant g e hg).1
    simp [h] at this

theorem BipInv.writeGrants_none {s : BipState w W} (hI : BipInv cap s) (h : s.writer = none)
    (g : Nat) : s.writeGrants g = none := by
  cases hg : s.writeGrants g with
  | none => rfl
  | some e =>
    have := (hI.writeGrant g e hg).1
    simp [h] at this

/-- The producer is in the middle of a reset and knows the cursors. -/
structure Torn (r wr : Nat) (s : BipState w W) : Prop where
  wip : s.wip = false
  odd : s.ticks % 2 = 1
  read : s.read = r
  write : s.write = wr

theorem Torn.stable (r wr : Nat) :
    (bipContract cap .producer).Stable (Torn r wr : BipState w W → Prop) := by
  intro s t _ hst h
  have hsees := hst.2 h.wip
  exact ⟨hsees.wip, by rw [hst.1, h.odd], (hsees.torn h.odd).trans h.read, hsees.write.trans h.write⟩

/-- A store of the reset: nobody else looks before the epoch is even again. -/
theorem resetStore_triple {r wr : Nat} (r' wr' : Nat) {l : BipState w W → Nat}
    {f : BipState w W → BipState w W} (hr : r' ≤ cap) (hwr : wr' ≤ cap)
    (hl : ∀ s, s.last ≤ cap → l s ≤ cap)
    (hf : ∀ s, Torn r wr s → f s = { s with read := r', write := wr', last := l s }) :
    (bipContract cap .producer).Triple (Torn r wr) (store f) fun _ => Torn r' wr' := by
  refine .store (Torn.stable r wr) (fun _ => Torn.stable r' wr') fun s hI hs => ?_
  obtain ⟨hrel, -, hgrants⟩ := hI.resetting hs.odd
  have hnone := hI.writer_none hs.wip
  have hodd : ¬ s.ticks % 2 = 0 := by
    have := hs.odd
    omega
  rw [hf s hs]
  refine ⟨?_, fun j hj => ?_, hs.wip, hs.odd, rfl, rfl⟩
  · exact {
      epoch := hI.epoch
      bounds := ⟨hwr, hr, hl s hI.bounds.2.2⟩
      stream := fun he => absurd he hodd
      mark := fun he => absurd he hodd
      resetting := hI.resetting
      wip := hI.wip
      rip := hI.rip
      writeGrant := fun g e he => by
        have := hI.writeGrants_none hnone g
        simp [this] at he
      readGrant := fun g e he => by simp [hgrants g] at he
      faulted := hI.faulted }
  · cases j with
    | producer => exact absurd rfl hj
    | consumer =>
      exact fun hr => ⟨hr, le_rfl, fun _ he => absurd he hodd, fun h => absurd h (lt_irrefl _),
        fun h => absurd h (lt_irrefl _)⟩
    | write g => exact fun h => by simp [hnone] at h
    | read g => exact fun h => ⟨h, fun e he => by simp [hgrants g] at he, fun he => he⟩

theorem bumpEpoch_epoch {s : BipState w W} (hI : BipInv cap s) :
    s.bumpEpoch.epoch = BitVec.ofNat w s.bumpEpoch.ticks := by
  change s.epoch + 1 = BitVec.ofNat w (s.ticks + 1)
  rw [hI.epoch, BitVec.ofNat_add]
  rfl

/-- The epoch moves while no grant is out. -/
theorem bumpEpoch_inv {s : BipState w W} (hI : BipInv cap s) (hnone : s.writer = none)
    (hgrants : ∀ g, s.readGrants g = none)
    (hstream : s.bumpEpoch.ticks % 2 = 0 → s.released ++ s.span = s.committed)
    (hmark : s.bumpEpoch.ticks % 2 = 0 → s.write < s.read → s.read ≤ s.last)
    (hresetting : s.bumpEpoch.ticks % 2 = 1 → s.released = s.committed ∧ s.wip = false) :
    BipInv cap s.bumpEpoch where
  epoch := bumpEpoch_epoch hI
  bounds := hI.bounds
  stream := hstream
  mark := hmark
  resetting := fun hodd => ⟨(hresetting hodd).1, (hresetting hodd).2, hgrants⟩
  wip := hI.wip
  rip := hI.rip
  writeGrant := fun g e he => by
    have := hI.writeGrants_none hnone g
    simp [BipState.bumpEpoch, this] at he
  readGrant := fun g e he => by simp [BipState.bumpEpoch, hgrants g] at he
  faulted := hI.faulted

/-- The first step of a reset, on a drained buffer. -/
theorem beginReset_triple {wr : Nat} (hwr : wr ≠ 0) :
    (bipContract cap .producer).Triple (SeenCursors (w := w) (W := W) cap wr wr)
      (store BipState.bumpEpoch) fun _ => Torn wr wr := by
  refine .store (SeenCursors.stable wr wr) (fun _ => Torn.stable wr wr) fun s hI hs => ?_
  have hdrained : s.read = wr := by
    have := hs.moves
    unfold ReadMoves at this
    omega
  have hwrite := hs.write
  have heven := hs.even
  have hspan : s.span = [] := by simp [BipState.span, hdrained, hwrite]
  have hrel : s.released = s.committed := by
    have := hI.stream heven
    rwa [hspan, List.append_nil] at this
  have hgrants : ∀ g, s.readGrants g = none := by
    intro g
    cases hg : s.readGrants g with
    | none => rfl
    | some e =>
      have hfits := (hI.readGrant g e hg).2
      have hpos := hfits.pos
      have hplace := hfits.place
      rw [hwrite, hdrained, if_neg (lt_irrefl _)] at hplace
      omega
  have hnone := hI.writer_none hs.wip
  have hodd : s.bumpEpoch.ticks % 2 = 1 := by
    change (s.ticks + 1) % 2 = 1
    omega
  have hneven : ¬ s.bumpEpoch.ticks % 2 = 0 := by omega
  refine ⟨?_, fun j hj => ?_, hs.wip, hodd, hdrained, hwrite⟩
  · exact bumpEpoch_inv hI hnone hgrants (fun he => absurd he hneven) (fun he => absurd he hneven)
      fun _ => ⟨hrel, hs.wip⟩
  · cases j with
    | producer => exact absurd rfl hj
    | consumer =>
      refine fun hr => ⟨hr, Nat.le_succ _, fun h => ?_, fun _ _ => ?_, fun _ h => ?_⟩
      · simp [BipState.bumpEpoch] at h
      · exact ⟨by omega, by omega, .inl rfl⟩
      · omega
    | write g => exact fun h => by simp [hnone] at h
    | read g => exact fun h => ⟨h, fun e he => by simp [hgrants g] at he, fun he => he⟩

/-- The last step of a reset. -/
theorem endReset_triple :
    (bipContract cap .producer).Triple (Torn (w := w) (W := W) 0 0) (store BipState.bumpEpoch)
      fun _ => SeenCursors cap 0 0 := by
  refine .store (Torn.stable 0 0) (fun _ => SeenCursors.stable 0 0) fun s hI hs => ?_
  obtain ⟨hrel, -, hgrants⟩ := hI.resetting hs.odd
  have hodd := hs.odd
  have hread := hs.read
  have hwrite := hs.write
  have hnone := hI.writer_none hs.wip
  have heven : s.bumpEpoch.ticks % 2 = 0 := by
    change (s.ticks + 1) % 2 = 0
    omega
  have hspan : s.bumpEpoch.span = [] := by
    simp [BipState.span, BipState.bumpEpoch, hread, hwrite]
  refine ⟨?_, fun j hj => ?_, hs.wip, heven, hwrite, .inl ⟨by simp, ?_⟩, Nat.zero_le _⟩
  · refine bumpEpoch_inv hI hnone hgrants (fun _ => ?_) (fun _ h => ?_) (fun h => ?_)
    · rw [show s.span = [] from hspan, List.append_nil]
      exact hrel
    · omega
    · omega
  · cases j with
    | producer => exact absurd rfl hj
    | consumer =>
      refine fun hr => ⟨hr, Nat.le_succ _, fun h => ?_, fun _ h => ?_, fun _ _ => ⟨rfl, hread⟩⟩
      · simp [BipState.bumpEpoch] at h
      · omega
    | write g => exact fun h => by simp [hnone] at h
    | read g => exact fun h => ⟨h, fun e he => by simp [hgrants g] at he, fun he => he⟩
  · change 0 < 0 ↔ 0 < s.read
    omega

theorem canonicalize_triple (r wr : Nat) :
    (bipContract cap .producer).Triple (SeenCursors (w := w) (W := W) cap r wr)
      (canonicalize cap r wr) fun c => SeenCursors cap c.1 c.2 := by
  unfold canonicalize
  split
  · rename_i hdrained
    obtain ⟨rfl, h0⟩ := hdrained
    apply (beginReset_triple h0).bind
    intro _ s hI hs
    have hbound : r ≤ cap := hs.read ▸ hI.bounds.2.1
    refine Contract.Triple.bind (resetStore_triple 0 r (l := fun s => s.last)
      (Nat.zero_le _) hbound (fun _ h => h) fun s hs => ?_) (fun _ => ?_) s hI hs
    · rw [← hs.write]
    apply (resetStore_triple 0 0 (l := fun s => s.last) (Nat.zero_le _)
      (Nat.zero_le _) (fun _ h => h) fun s hs => ?_).bind
    · intro _
      apply (resetStore_triple 0 0 (l := fun _ => cap) (Nat.zero_le _)
        (Nat.zero_le _) (fun _ _ => le_rfl) fun s hs => ?_).bind
      · intro _
        apply endReset_triple.bind
        exact fun _ => .ret (SeenCursors.stable _ _) fun _ _ h => h
      · simp [hs.write, hs.read]
    · rw [← hs.read]
  · exact .ret (SeenCursors.stable r wr) fun _ _ h => h

/-- A region that the source computes from cursors it saw earlier is free now. -/
theorem fits_of_placement {n r wr start : Nat} {s : BipState w W}
    (hs : SeenCursors cap r wr s) (hI : BipInv cap s)
    (hstart : placement cap n r wr = some start) :
    (⟨start, n, false, region s.buf start n⟩ : WriteGrant).Fits cap s := by
  have hmoves := hs.moves
  have hbound := hs.bound
  have hwrite := hs.write
  have hcap := hI.bounds.1
  unfold ReadMoves at hmoves
  unfold placement at hstart
  refine ⟨?_, rfl, ?_⟩
  · change start + n ≤ cap
    split at hstart
    · split at hstart <;> cases hstart
      omega
    · split at hstart
      · cases hstart
        omega
      · split at hstart <;> cases hstart
        omega
  · change (start = s.write ∧ (s.write < s.read → s.write + n < s.read)) ∨
      (start = 0 ∧ s.read ≤ s.write ∧ n < s.read)
    split at hstart
    · split at hstart <;> cases hstart
      omega
    · split at hstart
      · cases hstart
        omega
      · split at hstart <;> cases hstart
        omega

theorem BipInv.grantWrite {s : BipState w W} (hI : BipInv cap s) {start n : Nat}
    (hw : s.wip = false) (heven : s.ticks % 2 = 0)
    (hfits : (⟨start, n, false, region s.buf start n⟩ : WriteGrant).Fits cap s) :
    BipInv cap (s.grantWrite start n) := by
  have hnone := hI.writer_none hw
  refine { hI with
    resetting := fun ho => ?_
    wip := rfl
    writeGrant := fun g e he => ?_
    readGrant := fun g e he => ⟨(hI.readGrant g e he).1, { (hI.readGrant g e he).2 with }⟩ }
  · change s.ticks % 2 = 1 at ho
    omega
  · change Function.update s.writeGrants s.nextGrant _ g = some e at he
    by_cases hg : g = s.nextGrant
    · subst hg
      rw [Function.update_self, Option.some.injEq] at he
      subst he
      exact ⟨rfl, { hfits with }⟩
    · rw [Function.update_of_ne hg, hI.writeGrants_none hnone g] at he
      cases he

theorem takeWip_triple {n r wr start : Nat} (hstart : placement cap n r wr = some start) :
    (bipContract cap .producer).Triple (SeenCursors (w := w) (W := W) cap r wr)
      (takeWip start n) fun _ s => s.ticks % 2 = 0 := by
  refine Contract.Triple.bind (R := fun _ s => s.ticks % 2 = 0)
    (.exchange (SeenCursors.stable r wr) (fun _ => even_stable) fun s hI hs => ?_)
    fun _ => .ret even_stable fun _ _ h => h
  have hnone := hI.writer_none hs.wip
  refine ⟨hI.grantWrite hs.wip hs.even (fits_of_placement hs hI hstart), fun j hj => ?_, hs.even⟩
  cases j with
  | producer => exact absurd rfl hj
  | consumer => exact consumer_still rfl rfl rfl rfl rfl
  | write g => exact fun h => by simp [hnone] at h
  | read g => exact reader_still rfl rfl rfl

theorem place_triple {n : Nat} (c : Nat × Nat) :
    (bipContract cap .producer).Triple (SeenCursors (w := w) (W := W) cap c.1 c.2)
      (place cap n c) fun _ s => s.ticks % 2 = 0 := by
  unfold place
  refine (check_triple (SeenCursors.stable _ _) fun s hI hs => ?_).bind fun _ => ?_
  · rw [decide_eq_true_eq, ← hs.write]
    exact hI.bounds.1
  · cases hstart : placement cap n c.1 c.2 with
    | none => exact .ret (SeenCursors.stable _ _) fun _ _ h => h.even
    | some start => exact takeWip_triple hstart

theorem tryReserve_triple (n : Nat) :
    (bipContract cap .producer).Triple (fun s : BipState w W => s.ticks % 2 = 0)
      (tryReserve cap n) fun _ s => s.ticks % 2 = 0 := by
  unfold tryReserve
  refine (load_triple (Q := fun b s => s.ticks % 2 = 0 ∧ (b = false → s.wip = false)) even_stable
    (fun b => ?_) fun s _ h => ⟨h, fun h => h⟩).bind fun b => ?_
  · intro s t _ hst h
    exact ⟨by rw [hst.1, h.1], fun hb => (hst.2 (h.2 hb)).wip⟩
  cases b with
  | true =>
    refine .ret ?_ fun s _ h => h.1
    intro s t _ hst h
    exact ⟨by rw [hst.1, h.1], fun hb => by cases hb⟩
  | false =>
    have hstable : (bipContract cap .producer).Stable
        fun s : BipState w W => s.ticks % 2 = 0 ∧ (false = false → s.wip = false) :=
      fun s t _ hst h => ⟨by rw [hst.1, h.1], fun _ => (hst.2 (h.2 rfl)).wip⟩
    rw [if_neg Bool.false_ne_true]
    split
    · exact .ret hstable fun s _ h => h.1
    · refine (load_triple (Q := fun r s => SeenCursors cap r s.write s) hstable
        (fun r s t hI hst h => ?_) fun s hI h => ?_).bind fun r => ?_
      · have := SeenCursors.stable r s.write s t hI hst h
        rwa [← (hst.2 h.wip).write] at this
      · exact ⟨h.2 rfl, h.1, rfl, .inl ⟨le_rfl, Iff.rfl⟩, hI.bounds.2.1⟩
      · refine (load_triple (Q := fun wr s => SeenCursors cap r wr s)
          (fun s t hI hst h => ?_) (fun wr => SeenCursors.stable r wr) fun s hI h => h).bind
          fun wr => ?_
        · have := SeenCursors.stable r s.write s t hI hst h
          rwa [← (hst.2 h.wip).write] at this
        · exact (canonicalize_triple r wr).bind fun c => place_triple c

end Cynosure.SiteD
