import Cynosure.SiteD.BipBufferCommit

/-! # The consumer of the bip buffer and its grants

The three cursors are loaded one by one. If the epoch did not move, no reset fell
between the loads, because the buffer cannot be drained and reset twice while the
consumer stands still; the loaded values then delimit a prefix of the unread bytes, and
keep doing so while the producer goes on.
-/

namespace Cynosure.SiteD

open Prog

variable {w : Nat} {W : Type} {cap : Nat}

/-- No read grant is out, and at most one reset has been seen since the epoch was `e`. -/
structure Since (e : Nat) (s : BipState w W) : Prop where
  rip : s.rip = false
  ticks : s.ticks = e ∨ s.ticks = e + 1 ∨ s.ticks = e + 2 ∧ s.read = 0

theorem Since.next {e : Nat} {s t : BipState w W} (he : e % 2 = 0) (h : Since e s)
    (hst : ConsumerSees s t) : Since e t := by
  refine ⟨hst.rip, ?_⟩
  have hmono := hst.mono
  rcases h.ticks with hs | hs | ⟨hs, h0⟩
  · rcases Nat.lt_or_ge s.ticks t.ticks with hlt | hge
    · have := (hst.begun hlt (by omega)).2.2
      omega
    · omega
  · rcases Nat.lt_or_ge s.ticks t.ticks with hlt | hge
    · have := hst.ended hlt (by omega)
      omega
    · omega
  · rcases Nat.lt_or_ge s.ticks t.ticks with hlt | hge
    · exact absurd h0 (hst.begun hlt (by omega)).2.1
    · have := (hst.grows (by omega) (by omega)).read
      exact .inr (.inr ⟨by omega, by omega⟩)

/-- The write cursor was seen at `wr`, and what it delimited is still unread. -/
def TailFrom (wr : Nat) (s : BipState w W) : Prop :=
  (wr < s.read → s.write < s.read ∧ wr ≤ s.write) ∧
    (s.read ≤ wr → (s.read ≤ s.write ∧ wr ≤ s.write) ∨ (s.write < s.read ∧ wr ≤ s.last))

theorem TailFrom.next {wr : Nat} {s t : BipState w W} (h : TailFrom wr s) (hst : TailGrows s t) :
    TailFrom wr t := by
  obtain ⟨hread, hinv, hplain⟩ := hst
  unfold TailFrom at *
  constructor
  · intro hlt
    have h1 := h.1 (by omega)
    have h2 := hinv h1.1
    omega
  · intro hle
    rcases h.2 (by omega) with h1 | h1
    · have h2 := hplain h1.1
      omega
    · have h2 := hinv h1.1
      omega

/-- The values loaded so far, valid if no reset has begun since the epoch was `e`. -/
structure Loaded (e : Nat) (P : BipState w W → Prop) (s : BipState w W) : Prop where
  since : Since e s
  valid : s.ticks = e → P s

theorem Loaded.stable {e : Nat} (he : e % 2 = 0) {P : BipState w W → Prop}
    (hP : ∀ s t, TailGrows s t → P s → P t) :
    (bipContract cap .consumer).Stable (Loaded e P : BipState w W → Prop) := by
  intro s t _ hst h
  have hsees := hst h.since.rip
  refine ⟨h.since.next he hsees, fun ht => ?_⟩
  have hs : s.ticks = e := by
    have := hsees.mono
    have := h.since.ticks
    omega
  exact hP s t (hsees.grows (by omega) (by omega)) (h.valid hs)

/-- A cursor triple that delimits a non-empty prefix of the unread bytes. -/
structure Valid (wr r l : Nat) (s : BipState w W) : Prop where
  even : s.ticks % 2 = 0
  read : s.read = r
  tail : TailFrom wr s
  last : wr < r → s.last = l

/-- The outcome of the loading loop. Of an empty buffer nothing needs to be known. -/
structure Snapshot (wr r l : Nat) (s : BipState w W) : Prop where
  rip : s.rip = false
  valid : wr ≠ r → Valid wr r l s

theorem Valid.next {wr r l : Nat} {s t : BipState w W} (hne : wr ≠ r) (h : Valid wr r l s)
    (hst : ConsumerSees s t) : Valid wr r l t := by
  have hread := h.read
  have htail := h.tail
  have hticks : t.ticks = s.ticks := by
    have hmono := hst.mono
    by_contra hlt
    have hdrained := (hst.begun (by omega) h.even).1
    unfold TailFrom at htail
    omega
  have hgrows := hst.grows hticks h.even
  refine ⟨by rw [hticks, h.even], hgrows.read.trans hread, htail.next hgrows, fun hlt => ?_⟩
  exact (hgrows.inverted (htail.1 (by omega)).1).2.2.trans (h.last hlt)

theorem Snapshot.stable (wr r l : Nat) :
    (bipContract cap .consumer).Stable (Snapshot wr r l : BipState w W → Prop) := by
  intro s t _ hst h
  have hsees := hst h.rip
  exact ⟨hsees.rip, fun hne => (h.valid hne).next hne hsees⟩

theorem noRip_stable :
    (bipContract cap .consumer).Stable fun s : BipState w W => s.rip = false :=
  fun _ _ _ hst h => (hst h).rip

/-- Three equal-epoch loads: no step of a reset fell between them. -/
theorem Loaded.ticks_eq {e : Nat} {P : BipState w W → Prop} {s : BipState w W} (hw : 2 ≤ w)
    (h : Loaded e P s) (hI : BipInv cap s) (heq : s.epoch = BitVec.ofNat w e) : s.ticks = e := by
  have hpow : 2 < 2 ^ w := lt_of_lt_of_le (by decide) (Nat.pow_le_pow_right (by decide) hw)
  rw [hI.epoch] at heq
  rcases h.since.ticks with hs | hs | ⟨hs, -⟩
  · exact hs
  · rw [hs] at heq
    exact absurd heq (Word.ofNat_add_ne (by decide) (by omega))
  · rw [hs] at heq
    exact absurd heq (Word.ofNat_add_ne (by decide) (by omega))

/-- The loads between the two looks at the epoch. -/
theorem loads_triple (hw : 2 ≤ w) {e : Nat} (he : e % 2 = 0) :
    (bipContract cap .consumer).Triple (Since (w := w) (W := W) e)
      (do
        let write ← load (·.write)
        let read ← load (·.read)
        let last ← load (·.last)
        let e2 ← load (·.epoch)
        if e2 = BitVec.ofNat w e then pure (some (write, read, last)) else pure none)
      fun out s => s.rip = false ∧ ∀ wr r l, out = some (wr, r, l) → Snapshot wr r l s := by
  have htail : ∀ wr (s t : BipState w W), TailGrows s t → TailFrom wr s → TailFrom wr t :=
    fun wr s t hst h => h.next hst
  have hread : ∀ wr r (s t : BipState w W), TailGrows s t → TailFrom wr s ∧ s.read = r →
      TailFrom wr t ∧ t.read = r :=
    fun wr r s t hst h => ⟨h.1.next hst, hst.read.trans h.2⟩
  have hlast : ∀ wr r l (s t : BipState w W), TailGrows s t →
      (TailFrom wr s ∧ s.read = r) ∧ (wr < r → s.last = l) →
      (TailFrom wr t ∧ t.read = r) ∧ (wr < r → t.last = l) :=
    fun wr r l s t hst h => ⟨hread wr r s t hst h.1, fun hlt =>
      (hst.inverted (h.1.1.1 (h.1.2 ▸ hlt)).1).2.2.trans (h.2 hlt)⟩
  have hsince : (bipContract cap .consumer).Stable (Since e : BipState w W → Prop) :=
    fun s t _ hst h => h.next he (hst h.rip)
  apply (load_triple (Q := fun wr => Loaded e (TailFrom wr)) hsince
    (fun wr => Loaded.stable he (htail wr)) fun s _ h => ⟨h, fun _ => ⟨?_, ?_⟩⟩).bind
  · intro wr
    apply (load_triple (Q := fun r => Loaded e fun s => TailFrom wr s ∧ s.read = r)
      (Loaded.stable he (htail wr)) (fun r => Loaded.stable he (hread wr r))
      fun s _ h => ⟨h.since, fun ht => ⟨h.valid ht, rfl⟩⟩).bind
    intro r
    apply (load_triple
      (Q := fun l => Loaded e fun s => (TailFrom wr s ∧ s.read = r) ∧ (wr < r → s.last = l))
      (Loaded.stable he (hread wr r)) (fun l => Loaded.stable he (hlast wr r l))
      fun s _ h => ⟨h.since, fun ht => ⟨h.valid ht, fun _ => rfl⟩⟩).bind
    intro l
    have hQ : ∀ e2, (bipContract cap .consumer).Stable fun s : BipState w W =>
        s.rip = false ∧ (e2 = BitVec.ofNat w e → Snapshot wr r l s) :=
      fun e2 s t hI hst h => ⟨(hst h.1).rip, fun h2 => Snapshot.stable wr r l s t hI hst (h.2 h2)⟩
    refine (load_triple (Loaded.stable he (hlast wr r l)) hQ fun s hI h => ?_).bind fun e2 => ?_
    · refine ⟨h.since.rip, fun heq => ⟨h.since.rip, fun _ => ?_⟩⟩
      have hticks := h.ticks_eq hw hI heq
      obtain ⟨⟨h1, h2⟩, h3⟩ := h.valid hticks
      exact ⟨by rw [hticks, he], h2, h1, h3⟩
    · split
      · rename_i heq
        refine .ret (hQ e2) fun s _ h => ⟨h.1, fun wr' r' l' hout => ?_⟩
        cases hout
        exact h.2 heq
      · exact .ret (hQ e2) fun s _ h => ⟨h.1, fun _ _ _ hout => by cases hout⟩
  · exact fun hlt => ⟨hlt, le_rfl⟩
  · exact fun hle => .inl ⟨hle, le_rfl⟩

theorem snapshot_triple (hw : 2 ≤ w) :
    (bipContract cap .consumer).Triple (fun s : BipState w W => s.rip = false) snapshot
      fun out s => s.rip = false ∧ ∀ wr r l, out = some (wr, r, l) → Snapshot wr r l s := by
  have hQ : ∀ e1, (bipContract cap .consumer).Stable fun s : BipState w W =>
      s.rip = false ∧ ∃ e, e1 = BitVec.ofNat w e ∧ (e % 2 = 0 → Since e s) :=
    fun e1 s t _ hst h => ⟨(hst h.1).rip, h.2.imp fun e h' => ⟨h'.1, fun he =>
      (h'.2 he).next he (hst h.1)⟩⟩
  refine (load_triple noRip_stable hQ fun s hI h => ?_).bind fun e1 => ?_
  · exact ⟨h, s.ticks, hI.epoch, fun _ => ⟨h, .inl rfl⟩⟩
  · split
    · exact .ret (hQ e1) fun s _ h => ⟨h.1, fun _ _ _ hout => by cases hout⟩
    · rename_i heven
      rintro s hI ⟨-, e, rfl, hsince⟩
      have he : e % 2 = 0 := by
        rw [Word.and_one_eq_one (by omega)] at heven
        omega
      exact loads_triple hw he s hI (hsince he)

/-- The consumer at the watermark moves to the head; the unread bytes stay the same. -/
theorem BipInv.wrapRead {s : BipState w W} (hI : BipInv cap s) (hrip : s.rip = false)
    (hinv : s.write < s.read) (hlast : s.read = s.last)
    {x : SlotUse W BipParty} : BipInv cap { s with read := 0, space := x } := by
  have hspan : ({ s with read := 0, space := x } : BipState w W).span = s.span := by
    simp [BipState.span, hinv, ← hlast]
  have hgrants := hI.readGrants_none (hI.reader_none hrip)
  exact {
    epoch := hI.epoch
    bounds := ⟨hI.bounds.1, Nat.zero_le _, hI.bounds.2.2⟩
    stream := fun h => by rw [hspan]; exact hI.stream h
    mark := fun _ h => absurd h (Nat.not_lt_zero _)
    resetting := hI.resetting
    wip := hI.wip
    rip := hI.rip
    writeGrant := fun g e he => by
      obtain ⟨hwriter, hfits⟩ := hI.writeGrant g e he
      refine ⟨hwriter, hfits.bound, hfits.bytes, .inl ⟨?_, fun h => absurd h (Nat.not_lt_zero _)⟩⟩
      have := hfits.place
      change e.start = s.write
      omega
    readGrant := fun g e he => by simp [hgrants g] at he
    faulted := hI.faulted }

theorem BipInv.grantRead {s : BipState w W} (hI : BipInv cap s) {start len : Nat}
    (hrip : s.rip = false) (heven : s.ticks % 2 = 0)
    (hfits : (⟨start, len, false⟩ : ReadGrant).Fits s) : BipInv cap (s.grantRead start len) := by
  have hnone := hI.reader_none hrip
  refine { hI with
    resetting := fun ho => ?_
    rip := rfl
    writeGrant := fun g e he => ⟨(hI.writeGrant g e he).1, { (hI.writeGrant g e he).2 with }⟩
    readGrant := fun g e he => ?_ }
  · change s.ticks % 2 = 1 at ho
    omega
  · change Function.update s.readGrants s.nextGrant _ g = some e at he
    by_cases hg : g = s.nextGrant
    · subst hg
      rw [Function.update_self, Option.some.injEq] at he
      subst he
      exact ⟨rfl, { hfits with }⟩
    · rw [Function.update_of_ne hg, hI.readGrants_none hnone g] at he
      cases he

theorem takeRip_triple {wr r l : Nat} (hlen : availEnd wr r l - r ≠ 0) :
    (bipContract cap .consumer).Triple (Snapshot (w := w) (W := W) wr r l)
      (takeRip r (availEnd wr r l - r)) fun _ _ => True := by
  refine Contract.Triple.bind (R := fun _ _ => True)
    (.exchange (Snapshot.stable wr r l) (fun _ => true_stable) fun s hI hs => ?_)
    fun _ => .ret true_stable fun _ _ h => h
  have hne : wr ≠ r := by
    rintro rfl
    simp [availEnd] at hlen
  obtain ⟨heven, rfl, htail, hlast⟩ := hs.valid hne
  have hnone := hI.reader_none hs.rip
  have hmark := hI.mark heven
  refine ⟨hI.grantRead hs.rip heven ⟨rfl, Nat.pos_of_ne_zero hlen, ?_⟩, fun j hj => ?_, trivial⟩
  · change if s.write < s.read then s.read + (availEnd wr s.read l - s.read) ≤ s.last
      else s.read + (availEnd wr s.read l - s.read) ≤ s.write
    unfold availEnd
    by_cases hinv : wr < s.read
    · have h1 := htail.1 hinv
      have h2 := hmark h1.1
      rw [if_pos h1.1, if_pos hinv, ← hlast hinv]
      omega
    · rw [if_neg hinv]
      rcases htail.2 (by omega) with h1 | h1
      · rw [if_neg (by omega)]
        omega
      · rw [if_pos h1.1]
        omega
  · cases j with
    | producer => exact producer_still rfl rfl rfl rfl rfl
    | consumer => exact absurd rfl hj
    | write g => exact writer_still rfl rfl rfl rfl
    | read g => exact fun h => by simp [hnone] at h

theorem claimRead_triple (wr r l : Nat) :
    (bipContract cap .consumer).Triple (Snapshot (w := w) (W := W) wr r l) (claimRead wr r l)
      fun _ _ => True := by
  refine (check_triple (Snapshot.stable wr r l) fun s hI hs => ?_).bind fun _ => ?_
  · rw [decide_eq_true_eq, availEnd]
    split
    · rename_i hinv
      obtain ⟨heven, rfl, htail, hlast⟩ := hs.valid (by omega)
      rw [← hlast hinv]
      exact hI.mark heven (htail.1 hinv).1
    · omega
  · split
    · exact .ret (Snapshot.stable wr r l) fun _ _ _ => trivial
    · rename_i hlen
      exact takeRip_triple hlen

/-- The release of a prefix of the granted bytes. -/
theorem BipInv.publishRelease {s : BipState w W} {g used : Nat} {e : ReadGrant}
    (hI : BipInv cap s) (hreader : s.reader = some g) (he : e.Fits s) (hused : used ≤ e.len)
    (heven : s.ticks % 2 = 0) :
    BipInv cap (s.publishRelease g e s.read used) ∧ ReadMoves s.write s.read (s.read + used) := by
  have hstart := he.start
  have hplace := he.place
  have hcaps := hI.bounds
  have hstream := hI.stream heven
  have hspan : s.span = region s.buf s.read used ++ (s.publishRelease g e s.read used).span := by
    change s.span = _ ++ (if s.write < s.read + used then
      region s.buf (s.read + used) (s.last - (s.read + used)) ++ region s.buf 0 s.write
      else region s.buf (s.read + used) (s.write - (s.read + used)))
    rw [BipState.span]
    by_cases hinv : s.write < s.read
    · rw [if_pos hinv] at hplace ⊢
      rw [if_pos (by omega), ← List.append_assoc, ← region_add]
      congr 2
      omega
    · rw [if_neg hinv] at hplace ⊢
      rw [if_neg (by omega), ← region_add]
      congr 1
      omega
  have hmoves : ReadMoves s.write s.read (s.read + used) := by
    unfold ReadMoves
    split at hplace
    · omega
    · omega
  refine ⟨?_, hmoves⟩
  exact {
    epoch := hI.epoch
    bounds := by
      refine ⟨hcaps.1, ?_, hcaps.2.2⟩
      change s.read + used ≤ cap
      split at hplace <;> omega
    stream := fun _ => by
      change (s.released ++ region s.buf e.start used) ++ (s.publishRelease g e s.read used).span = _
      rw [hstart, List.append_assoc, ← hspan]
      exact hstream
    mark := fun _ h => by
      change s.write < s.read + used at h
      change s.read + used ≤ s.last
      split at hplace
      · omega
      · omega
    resetting := fun ho => by
      change s.ticks % 2 = 1 at ho
      omega
    wip := hI.wip
    rip := hI.rip
    writeGrant := fun g' e' he' => by
      obtain ⟨hwriter, hfits⟩ := hI.writeGrant g' e' he'
      refine ⟨hwriter, hfits.bound, hfits.bytes, ?_⟩
      have := hfits.place
      change (e'.start = s.write ∧ (s.write < s.read + used → s.write + e'.len < s.read + used)) ∨
        (e'.start = 0 ∧ s.read + used ≤ s.write ∧ e'.len < s.read + used)
      unfold ReadMoves at hmoves
      split at hplace
      · omega
      · omega
    readGrant := fun g' e' he' => by
      change Function.update s.readGrants g none g' = some e' at he'
      by_cases hg : g' = g
      · subst hg
        simp at he'
      · rw [Function.update_of_ne hg] at he'
        have := (hI.readGrant g' e' he').1
        rw [hreader, Option.some.injEq] at this
        exact absurd this.symm hg
    faulted := hI.faulted }

/-- What the other parties see of a step of a release. -/
theorem release_guar {s t : BipState w W} {g : Nat} (hreader : s.reader = some g)
    (hI : BipInv cap s) (hticks : t.ticks = s.ticks) (hwip : t.wip = s.wip)
    (hwrite : t.write = s.write) (hlast : t.last = s.last) (hwriter : t.writer = s.writer)
    (hgrants : t.writeGrants = s.writeGrants)
    (hmoves : s.ticks % 2 = 0 → ReadMoves s.write s.read t.read)
    (htorn : s.ticks % 2 = 1 → t.read = s.read) : (bipContract cap (.read g)).guar s t := by
  intro j hj
  cases j with
  | producer =>
    exact ⟨hticks, fun hw => ⟨hwip.trans hw, hwrite, hlast, hticks, hmoves, htorn⟩⟩
  | consumer =>
    intro hr
    rw [hI.rip, hreader] at hr
    cases hr
  | write g' => exact writer_still hwriter hwrite hlast hgrants
  | read g' =>
    intro hr
    rw [hreader, Option.some.injEq] at hr
    exact absurd (congrArg BipParty.read hr.symm) hj

structure Releasing (g : Nat) (e : ReadGrant) (s : BipState w W) : Prop where
  reader : s.reader = some g
  grant : s.readGrants g = some { e with handedBack := true }

theorem Releasing.stable (g : Nat) (e : ReadGrant) :
    (bipContract cap (.read g)).Stable (Releasing g e : BipState w W → Prop) := by
  intro s t _ hst h
  have hsees := hst h.reader
  exact ⟨hsees.reader, (hsees.grant _ h.grant).1⟩

theorem Releasing.fits {g : Nat} {e : ReadGrant} {s : BipState w W} (h : Releasing g e s)
    (hI : BipInv cap s) : e.Fits s :=
  let hfits := (hI.readGrant g _ h.grant).2
  ⟨hfits.start, hfits.pos, hfits.place⟩

theorem Releasing.even {g : Nat} {e : ReadGrant} {s : BipState w W} (h : Releasing g e s)
    (hI : BipInv cap s) : s.ticks % 2 = 0 := by
  by_contra hodd
  have := (hI.resetting (by omega)).2.2 g
  simp [h.grant] at this

theorem BipInv.clearRip {s : BipState w W} {g : Nat} (hI : BipInv cap s)
    (hreader : s.reader = some g) : BipInv cap (s.clearRip g) := by
  have hupdate : ∀ g' e', Function.update s.readGrants g none g' = some e' →
      s.readGrants g' = some e' ∧ g' ≠ g := by
    intro g' e' he'
    by_cases hg : g' = g
    · subst hg
      simp at he'
    · rw [Function.update_of_ne hg] at he'
      exact ⟨he', hg⟩
  refine { hI with
    resetting := fun ho => ⟨(hI.resetting ho).1, (hI.resetting ho).2.1, fun g' => ?_⟩
    rip := rfl
    writeGrant := fun g' e' he' =>
      ⟨(hI.writeGrant g' e' he').1, { (hI.writeGrant g' e' he').2 with }⟩
    readGrant := fun g' e' he' => ?_ }
  · change Function.update s.readGrants g none g' = none
    by_cases hg : g' = g
    · subst hg
      simp
    · rw [Function.update_of_ne hg]
      exact (hI.resetting ho).2.2 g'
  · obtain ⟨he, hg⟩ := hupdate g' e' he'
    have := (hI.readGrant g' e' he).1
    rw [hreader, Option.some.injEq] at this
    exact absurd this.symm hg

theorem clearRip_triple {g : Nat} {P : BipState w W → Prop}
    (hP : (bipContract cap (.read g)).Stable P) (h : ∀ s, P s → s.reader = some g) :
    (bipContract cap (.read g)).Triple P (store (BipState.clearRip g)) fun _ _ => True := by
  refine .store hP (fun _ => true_stable) fun s hI hs => ?_
  exact ⟨hI.clearRip (h s hs), release_guar (h s hs) hI rfl rfl rfl rfl rfl rfl
    (fun _ => .inl ⟨le_rfl, Iff.rfl⟩) fun _ => rfl, trivial⟩

theorem BipInv.handBackRead {s : BipState w W} {g : Nat} {e : ReadGrant} (hI : BipInv cap s)
    (he : s.readGrants g = some e) (bytes : List UInt8) :
    BipInv cap (s.handBackRead g e bytes) := by
  obtain ⟨hreader, hfits⟩ := hI.readGrant g e he
  refine { hI with
    resetting := fun ho => ?_
    writeGrant := fun g' e' he' =>
      ⟨(hI.writeGrant g' e' he').1, { (hI.writeGrant g' e' he').2 with }⟩
    readGrant := fun g' e' he' => ?_ }
  · have := (hI.resetting ho).2.2 g
    simp [he] at this
  · by_cases hg : g' = g
    · subst hg
      simp only [BipState.handBackRead, Function.update_self, Option.some.injEq] at he'
      subst he'
      exact ⟨hreader, hfits.start, hfits.pos, hfits.place⟩
    · simp only [BipState.handBackRead, Function.update_of_ne hg] at he'
      exact ⟨(hI.readGrant g' e' he').1, { (hI.readGrant g' e' he').2 with }⟩

variable [Waker W]

theorem release_triple (g : Nat) (e : ReadGrant) (used : Nat) :
    (bipContract cap (.read g)).Triple (Releasing (w := w) (W := W) g e)
      (release cap g e used) fun _ _ => True := by
  have hread : ∀ r, (bipContract cap (.read g)).Stable
      fun s : BipState w W => Releasing g e s ∧ s.read = r :=
    fun r s t hI hst h => ⟨Releasing.stable g e s t hI hst h.1,
      ((hst h.1.reader).grant _ h.1.grant).2.trans h.2⟩
  have hreader : (bipContract cap (.read g)).Stable fun s : BipState w W => s.reader = some g :=
    fun s t _ hst h => (hst h).reader
  apply (load_triple (Q := fun r s => Releasing g e s ∧ s.read = r) (Releasing.stable g e) hread
    fun s _ h => ⟨h, rfl⟩).bind
  intro r
  refine (check_triple (hread r) fun s hI h => ?_).bind fun _ => ?_
  · obtain ⟨h, rfl⟩ := h
    have hplace := (h.fits hI).place
    have hbounds := hI.bounds
    rw [decide_eq_true_eq]
    split at hplace <;> omega
  refine (Contract.Triple.store (Q := fun _ s => s.reader = some g) (hread r) (fun _ => hreader)
    fun s hI h => ?_).bind fun _ => ?_
  · obtain ⟨h, rfl⟩ := h
    have heven := h.even hI
    obtain ⟨hinv, hmoves⟩ :=
      hI.publishRelease h.reader (h.fits hI) (Nat.min_le_right used e.len) heven
    exact ⟨hinv, release_guar h.reader hI rfl rfl rfl rfl rfl rfl (fun _ => hmoves)
      fun ho => by omega, h.reader⟩
  apply (clearRip_triple hreader fun _ h => h).bind
  intro _
  exact (signalData_triple true_stable).bind fun _ => signalSpace_triple true_stable

theorem dropRead_triple (g : Nat) (e : ReadGrant) :
    (bipContract cap (.read g)).Triple (Releasing (w := w) (W := W) g e) (dropRead g)
      fun _ _ => True := by
  apply (clearRip_triple (Releasing.stable g e) fun _ h => h.reader).bind
  exact fun _ => signalData_triple true_stable

theorem wrapRead_triple (wr r l : Nat) :
    (bipContract cap .consumer).Triple (Snapshot (w := w) (W := W) wr r l) (wrapRead wr r l)
      fun r' => Snapshot wr r' l := by
  unfold wrapRead
  split
  · rename_i hwrap
    obtain ⟨hinv, rfl⟩ := hwrap
    refine (Contract.Triple.store (Q := fun _ => Snapshot wr 0 r) (Snapshot.stable wr r r)
      (fun _ => Snapshot.stable wr 0 r) fun s hI hs => ?_).bind fun _ => ?_
    · obtain ⟨heven, rfl, htail, hlast⟩ := hs.valid (by omega)
      have hmode := htail.1 hinv
      refine ⟨hI.wrapRead hs.rip hmode.1 (hlast hinv).symm, fun j hj => ?_, hs.rip, fun _ => ?_⟩
      · cases j with
        | producer =>
          refine ⟨rfl, fun hw => ⟨hw, rfl, rfl, rfl, fun _ => .inr ⟨hmode.1, Nat.zero_le _⟩,
            fun ho => by omega⟩⟩
        | consumer => exact absurd rfl hj
        | write g => exact writer_still rfl rfl rfl rfl
        | read g =>
          intro h
          simp [hI.reader_none hs.rip] at h
      · exact ⟨heven, rfl, ⟨fun h => absurd h (Nat.not_lt_zero _),
          fun _ => .inl ⟨Nat.zero_le _, hmode.2⟩⟩, fun h => absurd h (Nat.not_lt_zero _)⟩
    · apply (signalSpace_triple (Snapshot.stable wr 0 r)).bind
      exact fun _ => .ret (Snapshot.stable wr 0 r) fun _ _ h => h
  · exact .ret (Snapshot.stable wr r l) fun _ _ h => h

end Cynosure.SiteD
