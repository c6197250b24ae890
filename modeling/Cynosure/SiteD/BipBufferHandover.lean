import Cynosure.SiteD.BipBufferLedger

/-! # The bip buffer is a lossless byte stream

A commit publishes the first bytes of its region as they were when it was called, and a
release gives up the first bytes of its region as its owner saw them. So the stream is the
record of the calls of `commit` on one side and of `release` on the other.
-/

namespace Cynosure.SiteD

open Prog

variable {w : Nat} {W : Type} {cap : Nat} {g : Nat} {s t : BipState w W}

theorem BipState.writeBack_of_close (hgrants : t.writeGrants = Function.update s.writeGrants g none)
    {g' : Nat} (h : t.WriteBack g') : g' ≠ g ∧ s.WriteBack g' := by
  obtain ⟨e, he, hback⟩ := h
  rw [hgrants] at he
  obtain ⟨hne, he⟩ := of_update_none he
  exact ⟨hne, e, he, hback⟩

theorem BipState.readBack_of_close (hgrants : t.readGrants = Function.update s.readGrants g none)
    {g' : Nat} (h : t.ReadBack g') : g' ≠ g ∧ s.ReadBack g' := by
  obtain ⟨e, he, hback⟩ := h
  rw [hgrants] at he
  obtain ⟨hne, he⟩ := of_update_none he
  exact ⟨hne, e, he, hback⟩

section Write

variable {e : WriteGrant} {C bytes X : List UInt8}

/-- The call of `commit` put `bytes` on record and has yet to publish them behind `C`. -/
structure Filed (g : Nat) (e : WriteGrant) (C bytes : List UInt8) (s : BipState w W) : Prop where
  committing : Committing g e s
  committed : s.committed = C
  log : s.commitLog = C ++ bytes

theorem Filed.stable : (ledgerLayer cap (.write g)).Stable
    (Filed g e C bytes : BipState w W → Prop) := by
  intro s t hinv hst h
  obtain ⟨-, hcommitted, hlog⟩ :=
    (show WriterKeeps g s t from hst.2).own h.committing.writer
  exact ⟨Committing.stable g e s t hinv.1 hst.1 h.committing, hcommitted.trans h.committed,
    hlog.trans h.log⟩

/-- The grant is no longer there, and the stream goes on from `X`. -/
structure WriteOver (g : Nat) (X : List UInt8) (s : BipState w W) : Prop where
  back : ¬ s.WriteBack g
  committed : X <+: s.committed

theorem WriteOver.stable : (ledgerLayer cap (.write g)).Stable
    (WriteOver g X : BipState w W → Prop) :=
  fun s t _ hst h => ⟨fun hback => h.back ((show WriterKeeps g s t from hst.2).back hback),
    h.committed.trans (show WriterKeeps g s t from hst.2).grows.committed⟩

theorem WriteOver.same (h : WriteOver g X s) (hst : SameLedger s t) : WriteOver g X t :=
  ⟨by rw [hst.writeBack]; exact h.back, by rw [hst.committed]; exact h.committed⟩

theorem writeOver_triple {α : Type} {p : Prog (BipState w W) α} (hp : p.Always SameLedger) :
    (ledgerLayer cap (.write g)).Triple (WriteOver g X) p fun _ => WriteOver g X :=
  .always WriteOver.stable (fun _ _ hI hsame h => hsame.keeps hI.2 (h.same hsame)) hp

/-- The step that takes a write grant out of the table, when all that is on record is published. -/
theorem closeWrite_keeps (hI : LedgerInv s) (hwriter : s.writer = some g)
    (hgrants : t.writeGrants = Function.update s.writeGrants g none)
    (hcommitted : s.committed <+: t.committed) (hlog : t.committed = t.commitLog)
    (hreleased : t.released = s.released) (hreleaseLog : t.releaseLog = s.releaseLog)
    (hread : t.readGrants = s.readGrants) (hnext : t.nextGrant = s.nextGrant)
    (hX : X <+: t.committed) : (ledgerLayer cap (.write g)).Keeps (WriteOver g X) s t := by
  intro _ hguar
  have hback : t.ReadBack = s.ReadBack := by
    funext g'
    rw [BipState.ReadBack, BipState.ReadBack, hread]
  refine ⟨⟨.of_eq hlog, by rw [hback, hreleased, hreleaseLog]; exact hI.released, fun g' hg' => ?_⟩,
    ledger_guar hguar ⟨hcommitted, hreleased ▸ List.prefix_refl _⟩ (.inl ⟨g, rfl, hwriter⟩)
      (.inr ⟨hreleased, hreleaseLog⟩)
      (fun g' _ h => (BipState.writeBack_of_close hgrants h).2) (fun _ _ => by rw [hback]; exact id),
    fun h => (BipState.writeBack_of_close hgrants h).1 rfl, hX⟩
  rw [hnext] at hg'
  rw [hgrants, hread]
  exact ⟨update_unused hI.unusedWrite (.inl rfl) hg', hI.unusedRead g' hg'⟩

theorem storeLast_ledger (start write : Nat) :
    (storeLast (w := w) (W := W) start write).Always fun s t =>
      SameLedger s t ∧ t.writer = s.writer := by
  unfold storeLast
  split
  · exact always_store fun _ => ⟨by constructor <;> rfl, rfl⟩
  · exact always_pure _

/-- What changes neither the ledger nor the owner leaves the commit as it was. -/
theorem filed_triple {α : Type} {p : Prog (BipState w W) α}
    (hp : p.Always fun s t => SameLedger s t ∧ t.writer = s.writer) :
    (ledgerLayer cap (.write g)).Triple (Filed g e C bytes) p fun _ => Filed g e C bytes := by
  refine .always Filed.stable (fun s t hI hst h => hst.1.keeps hI.2 ?_) hp
  exact ⟨⟨hst.2.trans h.committing.writer, by rw [hst.1.writeGrants]; exact h.committing.grant⟩,
    hst.1.committed.trans h.committed, hst.1.commitLog.trans h.log⟩

theorem WriteGrant.Fits.length_bytes (h : e.Fits cap s) : e.bytes.length = e.len := by
  rw [← h.bytes, length_region]

theorem publishCommit_ledger (used : Nat) :
    (ledgerLayer cap (.write g)).Triple (Filed g e C (e.bytes.take used) : BipState w W → Prop)
      (store (BipState.publishCommit g e (min used e.len)))
      fun _ => WriteOver g (C ++ e.bytes.take used) := by
  refine .store Filed.stable (fun _ => WriteOver.stable) fun s hI h => ?_
  have hlen := (h.committing.fits hI.1).length_bytes
  have hpublished : (s.publishCommit g e (min used e.len)).committed = C ++ e.bytes.take used := by
    change s.committed ++ e.bytes.take (min used e.len) = _
    rw [h.committed, ← hlen, ← List.take_eq_take_min]
  refine closeWrite_keeps hI.2 h.committing.writer rfl (List.prefix_append _ _)
    (hpublished.trans h.log.symm) rfl rfl rfl rfl ?_
  rw [hpublished]

variable [Waker W]

theorem commit_ledger (used : Nat) :
    (ledgerLayer cap (.write g)).Triple (Filed g e C (e.bytes.take used) : BipState w W → Prop)
      (commit cap g e used) fun _ => WriteOver g (C ++ e.bytes.take used) := by
  apply (filed_triple (always_load _ fun s => ⟨.refl s, rfl⟩)).bind
  intro write
  apply (filed_triple (storeLast_ledger e.start write)).bind
  intro _
  apply (filed_triple (p := check _) (always_store fun _ => ⟨by constructor <;> rfl, rfl⟩)).bind
  intro _
  apply (publishCommit_ledger used).bind
  intro _
  refine (writeOver_triple (always_store fun _ => by constructor <;> rfl)).bind fun _ => ?_
  exact (writeOver_triple (signalSpace_ledger _)).bind fun _ =>
    writeOver_triple (signalData_ledger _)

/-- A grant that is dropped publishes nothing. -/
theorem dropWrite_ledger :
    (ledgerLayer cap (.write g)).Triple (Filed g e C [] : BipState w W → Prop) (dropWrite g)
      fun _ => WriteOver g C := by
  refine Layer.Triple.bind (R := fun _ => WriteOver g C)
    (.exchange Filed.stable (fun _ => WriteOver.stable) fun s hI h => ?_) fun wip => ?_
  · have hlog : s.committed = s.commitLog := by rw [h.committed, h.log, List.append_nil]
    exact closeWrite_keeps hI.2 h.committing.writer rfl (List.prefix_refl _) hlog rfl rfl rfl rfl
      (h.committed ▸ List.prefix_refl _)
  · cases wip with
    | true => exact writeOver_triple (signalSpace_ledger _)
    | false => exact writeOver_triple (always_pure _)

end Write

section Read

variable {e : ReadGrant} {R bytes X : List UInt8} {used : Nat}

/-- The call of `release` put the first `used` of the bytes it saw on record, the next ones of the
stream after `R`, and has yet to give them up. -/
structure Drawn (g : Nat) (e : ReadGrant) (R bytes : List UInt8) (used : Nat) (s : BipState w W) :
    Prop where
  releasing : Releasing g e s
  len : bytes.length = e.len
  released : s.released = R
  log : s.releaseLog = R ++ bytes.take used
  next : R ++ bytes <+: s.committed

theorem Drawn.stable : (ledgerLayer cap (.read g)).Stable
    (Drawn g e R bytes used : BipState w W → Prop) := by
  intro s t hinv hst h
  have hkeeps : ReaderKeeps g s t := hst.2
  obtain ⟨-, hreleased, hlog⟩ := hkeeps.own h.releasing.reader
  exact ⟨Releasing.stable g e s t hinv.1 hst.1 h.releasing, h.len, hreleased.trans h.released,
    hlog.trans h.log, h.next.trans hkeeps.grows.committed⟩

/-- The region still shows the bytes that were seen when the call was made. -/
theorem Drawn.region_eq (h : Drawn g e R bytes used s) (hI : BipInv cap s) :
    region s.buf e.start e.len = bytes := by
  have hstream := hI.stream (h.releasing.even hI)
  have hnext := h.next
  rw [← hstream, h.released, List.prefix_append_right_inj] at hnext
  rw [(h.releasing.fits hI).region_eq, ← h.len, ← List.prefix_iff_eq_take.mp hnext]

/-- The grant is no longer there, and what was released goes on from `X`. -/
structure ReadOver (g : Nat) (X : List UInt8) (s : BipState w W) : Prop where
  back : ¬ s.ReadBack g
  released : X <+: s.released

theorem ReadOver.stable : (ledgerLayer cap (.read g)).Stable
    (ReadOver g X : BipState w W → Prop) :=
  fun s t _ hst h => ⟨fun hback => h.back ((show ReaderKeeps g s t from hst.2).back hback),
    h.released.trans (show ReaderKeeps g s t from hst.2).grows.released⟩

theorem ReadOver.same (h : ReadOver g X s) (hst : SameLedger s t) : ReadOver g X t :=
  ⟨by rw [hst.readBack]; exact h.back, by rw [hst.released]; exact h.released⟩

theorem readOver_triple {α : Type} {p : Prog (BipState w W) α} (hp : p.Always SameLedger) :
    (ledgerLayer cap (.read g)).Triple (ReadOver g X) p fun _ => ReadOver g X :=
  .always ReadOver.stable (fun _ _ hI hsame h => hsame.keeps hI.2 (h.same hsame)) hp

/-- Between the two stores of a release the flag is still the grant's. -/
structure Freed (g : Nat) (X : List UInt8) (s : BipState w W) : Prop where
  gone : ReadOver g X s
  reader : s.reader = some g
  log : s.released = s.releaseLog

theorem Freed.stable : (ledgerLayer cap (.read g)).Stable (Freed g X : BipState w W → Prop) := by
  intro s t hinv hst h
  have hkeeps : ReaderKeeps g s t := hst.2
  obtain ⟨hreader, hreleased, hlog⟩ := hkeeps.own h.reader
  exact ⟨ReadOver.stable s t hinv hst h.gone, hreader, by rw [hreleased, hlog, h.log]⟩

/-- The step that takes a read grant out of the table, when all that is on record is released. -/
theorem closeRead_keeps {P : BipState w W → Prop} (hI : LedgerInv s) (hreader : s.reader = some g)
    (hgrants : t.readGrants = Function.update s.readGrants g none)
    (hreleased : s.released <+: t.released) (hlog : t.released = t.releaseLog)
    (hcommitted : t.committed = s.committed) (hcommitLog : t.commitLog = s.commitLog)
    (hwrite : t.writeGrants = s.writeGrants) (hnext : t.nextGrant = s.nextGrant)
    (hX : X <+: t.released) (hP : ReadOver g X t → P t) :
    (ledgerLayer cap (.read g)).Keeps P s t := by
  intro _ hguar
  have hback : t.WriteBack = s.WriteBack := by
    funext g'
    rw [BipState.WriteBack, BipState.WriteBack, hwrite]
  refine ⟨⟨by rw [hback, hcommitted, hcommitLog]; exact hI.committed, .of_eq hlog, fun g' hg' => ?_⟩,
    ledger_guar hguar ⟨hcommitted ▸ List.prefix_refl _, hreleased⟩ (.inr ⟨hcommitted, hcommitLog⟩)
      (.inl ⟨g, rfl, hreader⟩) (fun _ _ => by rw [hback]; exact id)
      (fun g' _ h => (BipState.readBack_of_close hgrants h).2),
    hP ⟨fun h => (BipState.readBack_of_close hgrants h).1 rfl, hX⟩⟩
  rw [hnext] at hg'
  rw [hgrants, hwrite]
  exact ⟨hI.unusedWrite g' hg', update_unused hI.unusedRead (.inl rfl) hg'⟩

theorem publishRelease_ledger (read : Nat) :
    (ledgerLayer cap (.read g)).Triple (Drawn g e R bytes used : BipState w W → Prop)
      (store (BipState.publishRelease g e read (min used e.len)))
      fun _ => Freed g (R ++ bytes.take used) := by
  refine .store Drawn.stable (fun _ => Freed.stable) fun s hI h => ?_
  have hregion : region s.buf e.start (min used e.len) = bytes.take used := by
    rw [← take_region (Nat.min_le_right used e.len), h.region_eq hI.1, ← h.len,
      ← List.take_eq_take_min]
  have hpublished : (s.publishRelease g e read (min used e.len)).released = R ++ bytes.take used := by
    change s.released ++ region s.buf e.start (min used e.len) = _
    rw [h.released, hregion]
  have hlog := hpublished.trans h.log.symm
  refine closeRead_keeps hI.2 h.releasing.reader rfl (List.prefix_append _ _) hlog rfl rfl rfl rfl
    (X := R ++ bytes.take used) ?_ fun hgone => ⟨hgone, h.releasing.reader, hlog⟩
  rw [hpublished]

theorem clearRip_ledger {P : BipState w W → Prop} (hP : (ledgerLayer cap (.read g)).Stable P)
    (h : ∀ s, P s → s.reader = some g ∧ s.released = s.releaseLog ∧ X <+: s.released) :
    (ledgerLayer cap (.read g)).Triple P (store (BipState.clearRip g)) fun _ => ReadOver g X := by
  refine .store hP (fun _ => ReadOver.stable) fun s hI hs => ?_
  obtain ⟨hreader, hlog, hX⟩ := h s hs
  exact closeRead_keeps hI.2 hreader rfl (List.prefix_refl _) hlog rfl rfl rfl rfl hX id

/-- What changes neither the ledger nor the owner leaves the release as it was. -/
theorem drawn_triple {α : Type} {p : Prog (BipState w W) α}
    (hp : p.Always fun s t => SameLedger s t ∧ t.reader = s.reader) :
    (ledgerLayer cap (.read g)).Triple (Drawn g e R bytes used) p fun _ => Drawn g e R bytes used := by
  refine .always Drawn.stable (fun s t hI hst h => hst.1.keeps hI.2 ?_) hp
  exact ⟨⟨hst.2.trans h.releasing.reader, by rw [hst.1.readGrants]; exact h.releasing.grant⟩, h.len,
    hst.1.released.trans h.released, hst.1.releaseLog.trans h.log, by rw [hst.1.committed]; exact h.next⟩

variable [Waker W]

theorem release_ledger :
    (ledgerLayer cap (.read g)).Triple (Drawn g e R bytes used : BipState w W → Prop)
      (release cap g e used) fun _ => ReadOver g (R ++ bytes.take used) := by
  apply (drawn_triple (always_load _ fun s => ⟨.refl s, rfl⟩)).bind
  intro read
  apply (drawn_triple (p := check _) (always_store fun _ => ⟨by constructor <;> rfl, rfl⟩)).bind
  intro _
  apply (publishRelease_ledger read).bind
  intro _
  apply (clearRip_ledger Freed.stable fun s h => ⟨h.reader, h.log, h.gone.released⟩).bind
  intro _
  exact (readOver_triple (signalData_ledger _)).bind fun _ => readOver_triple (signalSpace_ledger _)

/-- A grant that is dropped releases nothing. -/
theorem dropRead_ledger :
    (ledgerLayer cap (.read g)).Triple (Drawn g e R bytes 0 : BipState w W → Prop) (dropRead g)
      fun _ => ReadOver g R := by
  refine (clearRip_ledger Drawn.stable fun s h => ⟨h.releasing.reader, ?_, ?_⟩).bind fun _ =>
    readOver_triple (signalData_ledger _)
  · rw [h.released, h.log, List.take_zero, List.append_nil]
  · rw [h.released]

end Read

section Calls

variable {i : BipParty}

/-- A call of a handle. -/
theorem handle_starts {p : Prog (BipState w W) (BipNext W)}
    (hpost : ∀ b (s : BipState w W), bipLedger.post i b s)
    (hI : LedgerInv s) (hsame : SameLedger s t) (hp : p.Always HandleStep) :
    (ledgerLayer cap i).Keeps ((ledgerLayer cap i).Ok (bipLedger.post i) p) s t := by
  intro hinv hguar
  have hok := handle_triple hp t ⟨hinv, hsame.inv hI⟩ trivial
  exact ⟨hsame.inv hI, hsame.guar hguar, hok.mono fun b s _ _ => hpost b s⟩

/-- Between calls of its owner, a grant that is out has all that is on record behind it. -/
theorem LedgerInv.committed_eq (hI : LedgerInv s) (hB : BipInv cap s) {e : WriteGrant}
    (he : s.writeGrants g = some e) (hback : e.handedBack = false) : s.committed = s.commitLog := by
  refine hI.committed.eq ?_
  rintro g' ⟨e', he', hback'⟩
  obtain rfl : g = g' :=
    Option.some.inj ((hB.writeGrant g e he).1.symm.trans (hB.writeGrant g' e' he').1)
  rw [he, Option.some.injEq] at he'
  rw [he', hback'] at hback
  cases hback

theorem LedgerInv.released_eq (hI : LedgerInv s) (hB : BipInv cap s) {e : ReadGrant}
    (he : s.readGrants g = some e) (hback : e.handedBack = false) : s.released = s.releaseLog := by
  refine hI.released.eq ?_
  rintro g' ⟨e', he', hback'⟩
  obtain rfl : g = g' :=
    Option.some.inj ((hB.readGrant g e he).1.symm.trans (hB.readGrant g' e' he').1)
  rw [he, Option.some.injEq] at he'
  rw [he', hback'] at hback
  cases hback

theorem handBackWrite_keeps {e : WriteGrant} {P : BipState w W → Prop} (hI : LedgerInv s)
    (hB : BipInv cap s) (he : s.writeGrants g = some e) (bytes : List UInt8)
    (hP : (ledgerLayer cap (.write g)).inv (s.handBackWrite g e bytes) →
      P (s.handBackWrite g e bytes)) :
    (ledgerLayer cap (.write g)).Keeps P s (s.handBackWrite g e bytes) := by
  intro hinv hguar
  have hI' : LedgerInv (s.handBackWrite g e bytes) := by
    refine ⟨⟨hI.committed.le.trans (List.prefix_append _ _), fun hnone => ?_⟩, hI.released,
      fun g' hg' => ⟨update_unused hI.unusedWrite (.inr (hI.write_lt he)) hg', hI.unusedRead g' hg'⟩⟩
    exact absurd ⟨_, Function.update_self _ _ _, rfl⟩ (hnone g)
  refine ⟨hI', ledger_guar hguar (.of_eq rfl rfl) (.inl ⟨g, rfl, (hB.writeGrant g e he).1⟩)
    (.inr ⟨rfl, rfl⟩) (fun g' hg' h => ?_) (fun _ _ => id), hP ⟨hinv, hI'⟩⟩
  obtain ⟨e', he', hback⟩ := h
  have hne : g' ≠ g := fun h => hg' (h ▸ rfl)
  exact ⟨e', (Function.update_of_ne hne _ _).symm.trans he', hback⟩

theorem handBackRead_keeps {e : ReadGrant} {P : BipState w W → Prop} (hI : LedgerInv s)
    (hB : BipInv cap s) (he : s.readGrants g = some e) (bytes : List UInt8)
    (hP : (ledgerLayer cap (.read g)).inv (s.handBackRead g e bytes) →
      P (s.handBackRead g e bytes)) :
    (ledgerLayer cap (.read g)).Keeps P s (s.handBackRead g e bytes) := by
  intro hinv hguar
  have hI' : LedgerInv (s.handBackRead g e bytes) := by
    refine ⟨hI.committed, ⟨hI.released.le.trans (List.prefix_append _ _), fun hnone => ?_⟩,
      fun g' hg' => ⟨hI.unusedWrite g' hg', update_unused hI.unusedRead (.inr (hI.read_lt he)) hg'⟩⟩
    exact absurd ⟨_, Function.update_self _ _ _, rfl⟩ (hnone g)
  refine ⟨hI', ledger_guar hguar (.of_eq rfl rfl) (.inr ⟨rfl, rfl⟩)
    (.inl ⟨g, rfl, (hB.readGrant g e he).1⟩) (fun _ _ => id) (fun g' hg' h => ?_), hP ⟨hinv, hI'⟩⟩
  obtain ⟨e', he', hback⟩ := h
  have hne : g' ≠ g := fun h => hg' (h ▸ rfl)
  exact ⟨e', (Function.update_of_ne hne _ _).symm.trans he', hback⟩

theorem Filed.of_call {e : WriteGrant} (hI : LedgerInv s) (hB : BipInv cap s)
    (he : s.writeGrants g = some e) (hback : e.handedBack = false) (bytes : List UInt8) :
    Filed g e s.committed bytes (s.handBackWrite g e bytes) where
  committing := ⟨(hB.writeGrant g e he).1, Function.update_self _ _ _⟩
  committed := rfl
  log := by
    rw [hI.committed_eq hB he hback]
    rfl

theorem Drawn.of_call {e : ReadGrant} (hI : LedgerInv s) (hB : BipInv cap s)
    (he : s.readGrants g = some e) (hback : e.handedBack = false) (used : Nat) :
    Drawn g e s.released (region s.buf e.start e.len) used
      (s.handBackRead g e ((region s.buf e.start e.len).take used)) where
  releasing := ⟨(hB.readGrant g e he).1, Function.update_self _ _ _⟩
  len := length_region _ _
  released := rfl
  log := by
    rw [hI.released_eq hB he hback]
    rfl
  next := by
    have hfits := (hB.readGrant g e he).2
    have heven : s.ticks % 2 = 0 := by
      by_contra hodd
      have := (hB.resetting (by omega)).2.2 g
      simp [he] at this
    change s.released ++ region s.buf e.start e.len <+: s.committed
    rw [← hB.stream heven, List.prefix_append_right_inj, hfits.region_eq]
    exact List.take_prefix _ _

variable [Waker W]

theorem commit_starts {e : WriteGrant} (hI : LedgerInv s) (hB : BipInv cap s)
    (he : s.writeGrants g = some e) (hback : e.handedBack = false) (used : Nat) :
    (ledgerLayer cap (.write g)).Keeps ((ledgerLayer cap (.write g)).Ok (fun next t => next = .done ∧
      WriteOver g (s.committed ++ (region s.buf e.start e.len).take used) t)
      (thenDone (commit cap g e used))) s
      (s.handBackWrite g e ((region s.buf e.start e.len).take used)) := by
  rw [(hB.writeGrant g e he).2.bytes]
  exact handBackWrite_keeps hI hB he _ fun hinv =>
    thenDone_layer (commit_ledger used) WriteOver.stable _ hinv (.of_call hI hB he hback _)

theorem dropWrite_starts {e : WriteGrant} (hI : LedgerInv s) (hB : BipInv cap s)
    (he : s.writeGrants g = some e) (hback : e.handedBack = false) :
    (ledgerLayer cap (.write g)).Keeps ((ledgerLayer cap (.write g)).Ok (fun next t => next = .done ∧
      WriteOver g s.committed t) (thenDone (dropWrite g))) s (s.handBackWrite g e []) :=
  handBackWrite_keeps hI hB he _ fun hinv =>
    thenDone_layer dropWrite_ledger WriteOver.stable _ hinv (.of_call hI hB he hback _)

theorem release_starts {e : ReadGrant} (hI : LedgerInv s) (hB : BipInv cap s)
    (he : s.readGrants g = some e) (hback : e.handedBack = false) (used : Nat) :
    (ledgerLayer cap (.read g)).Keeps ((ledgerLayer cap (.read g)).Ok (fun next t => next = .done ∧
      ReadOver g (s.released ++ (region s.buf e.start e.len).take used) t)
      (thenDone (release cap g e used))) s
      (s.handBackRead g e ((region s.buf e.start e.len).take used)) :=
  handBackRead_keeps hI hB he _ fun hinv =>
    thenDone_layer release_ledger ReadOver.stable _ hinv (.of_call hI hB he hback used)

theorem dropRead_starts {e : ReadGrant} (hI : LedgerInv s) (hB : BipInv cap s)
    (he : s.readGrants g = some e) (hback : e.handedBack = false) :
    (ledgerLayer cap (.read g)).Keeps ((ledgerLayer cap (.read g)).Ok (fun next t => next = .done ∧
      ReadOver g s.released t) (thenDone (dropRead g))) s (s.handBackRead g e []) :=
  handBackRead_keeps hI hB he _ fun hinv =>
    thenDone_layer dropRead_ledger ReadOver.stable _ hinv (.of_call hI hB he hback 0)

omit [Waker W] in
/-- A byte that the owner writes is not part of the stream yet. -/
theorem writeByte_starts {e : WriteGrant} (hI : LedgerInv s) (he : s.writeGrants g = some e)
    (j : Nat) (b : UInt8) (hrest : ¬ s.WriteBack g) :
    (ledgerLayer cap (.write g)).Keeps ((ledgerLayer cap (.write g)).Ok
      (bipLedger.post (.write g)) (pure .done)) s (s.writeByte g j b e) := by
  have hback : (s.writeByte g j b e).WriteBack = s.WriteBack := by
    funext g'
    by_cases hg : g' = g
    · subst hg
      simp [BipState.WriteBack, BipState.writeByte, he]
    · simp [BipState.WriteBack, BipState.writeByte, Function.update_of_ne hg]
  intro hinv hguar
  refine ⟨⟨by rw [hback]; exact hI.committed, hI.released,
      fun g' hg' => ⟨update_unused hI.unusedWrite (.inr (hI.write_lt he)) hg', hI.unusedRead g' hg'⟩⟩,
    ledger_guar hguar (.of_eq rfl rfl) (.inr ⟨rfl, rfl⟩) (.inr ⟨rfl, rfl⟩)
      (fun _ _ => by rw [hback]; exact id) (fun _ _ => id), fun t _ hst h => ?_⟩
  have hkept := (show WriterKeeps g _ t from hst.2).back h
  rw [hback] at hkept
  exact hrest hkept

/-- What a call must establish in the ledger. -/
def LedgerStarts (cap : Nat) (i : BipParty) (s : BipState w W)
    (call : BipState w W × Prog (BipState w W) (BipNext W)) : Prop :=
  (ledgerLayer cap i).Keeps ((ledgerLayer cap i).Ok (bipLedger.post i) call.2) s call.1

variable {op : BipOp W} {call : BipState w W × Prog (BipState w W) (BipNext W)}

theorem producer_ledgerCall (hI : LedgerInv s) (hcall : bipCall cap .producer op s = some call) :
    LedgerStarts cap .producer s call := by
  have hstarts {t : BipState w W} {p : Prog (BipState w W) (BipNext W)} (hsame : SameLedger s t)
      (hp : p.Always HandleStep) : LedgerStarts cap .producer s (t, p) :=
    handle_starts (fun _ _ => trivial) hI hsame hp
  simp only [bipCall] at hcall
  split at hcall
  · cases hcall
    refine hstarts (.refl s) (always_bind (tryReserve_handle _) fun out => handle_same ?_)
    exact always_bind (always_store fun _ => by constructor <;> rfl) fun _ => always_pure _
  · split at hcall <;> cases hcall
    exact hstarts (by constructor <;> rfl) (always_pure _)
  · cases hcall
    exact hstarts (by constructor <;> rfl)
      (always_bind (pollReserve_handle _ _) fun _ => always_pure _)
  · cases hcall
    exact hstarts (by constructor <;> rfl) (always_pure _)
  · cases hcall

theorem consumer_ledgerCall (hI : LedgerInv s) (hcall : bipCall cap .consumer op s = some call) :
    LedgerStarts cap .consumer s call := by
  have hstarts {t : BipState w W} {p : Prog (BipState w W) (BipNext W)} (hsame : SameLedger s t)
      (hp : p.Always HandleStep) : LedgerStarts cap .consumer s (t, p) :=
    handle_starts (fun _ _ => trivial) hI hsame hp
  simp only [bipCall] at hcall
  split at hcall
  · cases hcall
    exact hstarts (.refl s) (tryRead_handle _)
  · cases hcall
    exact hstarts (by constructor <;> rfl) (always_pure _)
  · cases hcall
    exact hstarts (by constructor <;> rfl) (tryRead_handle _)
  · cases hcall
    exact hstarts (by constructor <;> rfl) (always_pure _)
  · cases hcall

theorem write_ledgerCall (hB : BipInv cap s) (hI : LedgerInv s) (hrest : ¬ s.WriteBack g)
    (hcall : bipCall cap (.write g) op s = some call) : LedgerStarts cap (.write g) s call := by
  simp only [bipCall] at hcall
  cases he : s.writeGrants g with
  | none => simp [he] at hcall
  | some e =>
    simp only [he] at hcall
    split at hcall
    · cases hcall
    · rename_i hback
      rw [Bool.not_eq_true] at hback
      split at hcall
      · split at hcall
        · cases hcall
          exact writeByte_starts hI he _ _ hrest
        · cases hcall
      · cases hcall
        exact (commit_starts hI hB he hback _).mono fun h => h.mono fun _ _ _ hover => hover.2.back
      · cases hcall
        exact (dropWrite_starts hI hB he hback).mono fun h => h.mono fun _ _ _ hover => hover.2.back
      · cases hcall

theorem read_ledgerCall (hB : BipInv cap s) (hI : LedgerInv s)
    (hcall : bipCall cap (.read g) op s = some call) : LedgerStarts cap (.read g) s call := by
  simp only [bipCall] at hcall
  cases he : s.readGrants g with
  | none => simp [he] at hcall
  | some e =>
    simp only [he] at hcall
    split at hcall
    · cases hcall
    · rename_i hback
      rw [Bool.not_eq_true] at hback
      split at hcall
      · cases hcall
        exact (release_starts hI hB he hback _).mono fun h => h.mono fun _ _ _ hover => hover.2.back
      · cases hcall
        exact (dropRead_starts hI hB he hback).mono fun h => h.mono fun _ _ _ hover => hover.2.back
      · cases hcall

theorem bipLedger_soundOver :
    bipLedger.SoundOver (bipOutline cap) (bipThreads (w := w) (W := W) cap) where
  init := ⟨.of_eq rfl, .of_eq rfl, fun _ _ => ⟨rfl, rfl⟩⟩
  initRest i := by
    cases i with
    | write g => exact fun ⟨_, he, _⟩ => by cases he
    | read g => exact fun ⟨_, he, _⟩ => by cases he
    | _ => trivial
  stable i s t hI hst _ h := by
    cases i with
    | write g => exact fun hback => h ((show WriterKeeps g s t from hst.2).back hback)
    | read g => exact fun hback => h ((show ReaderKeeps g s t from hst.2).back hback)
    | _ => trivial
  start := by
    intro i op s t p hI hbase hrest hcall
    have hstarts : LedgerStarts cap i s (t, p) := by
      cases i with
      | producer => exact producer_ledgerCall hI.2 hcall
      | consumer => exact consumer_ledgerCall hI.2 hcall
      | write g => exact write_ledgerCall hI.1 hI.2 hrest hcall
      | read g => exact read_ledgerCall hI.1 hI.2 hcall
    exact hstarts
  finish := by
    intro i b s hI hbase hpost hres
    cases i with
    | write g => exact hpost
    | read g => exact hpost
    | _ => trivial
  again := by
    intro i b s p hI hbase hpost hres
    cases i with
    | producer =>
      obtain ⟨rfl, -⟩ := hbase
      cases hres
    | consumer =>
      cases b with
      | done => cases hres
      | enter ctx =>
        cases hres
        exact handle_triple (tryRead_handle ctx) s hI trivial
      | retry ctx =>
        cases hres
        exact handle_triple (readLoop_handle ctx) s hI trivial
    | write g =>
      cases hbase
      cases hres
    | read g =>
      cases hbase
      cases hres

theorem bipLedger_sound (hw : 2 ≤ w) :
    ((bipOutline cap).both bipLedger).Sound (bipThreads (w := w) (W := W) cap) :=
  bipLedger_soundOver.both (bipOutline_sound hw)

/-- What a grant's owner establishes in the ledger holds when its call has returned. -/
theorem ledger_callEnds (hw : 2 ≤ w) {Q : BipState w W → Prop} (hQ : (ledgerLayer cap i).Stable Q)
    {s t : ThreadState (BipState w W) BipParty (BipNext W)}
    (hs : ((bipOutline cap).both bipLedger).Holds s)
    (hcall : ∀ m p, bipCall cap i op s.mem = some (m, p) →
      (ledgerLayer cap i).Keeps ((ledgerLayer cap i).Ok (fun next t => next = .done ∧ Q t) p) s.mem m)
    (h : (bipThreads cap).CallEnds i op s t) : Q t.mem := by
  have hres : ∀ (next : BipNext W) (t : BipState w W), next = .done ∧ Q t →
      (bipThreads (w := w) (W := W) cap).resume i next = none := by
    rintro _ _ ⟨rfl, -⟩
    rfl
  have hstable : ∀ next : BipNext W, (((bipOutline cap).both bipLedger).contract i).Stable
      fun t : BipState w W => next = .done ∧ Q t :=
    fun _ s t ht hst h => ⟨h.1, hQ s t ht hst h.2⟩
  have hok : ∀ m p, (bipThreads cap).start i op s.mem = some (m, p) →
      ((bipOutline cap).both bipLedger).rest i s.mem →
      (((bipOutline cap).both bipLedger).contract i).Ok (fun next t => next = .done ∧ Q t) p m := by
    intro m p hstart hrest
    obtain ⟨hinv, hguar, hbase⟩ := (bipOutline_sound hw).start hs.1.1 hrest.1 hstart
    obtain ⟨-, -, hextra⟩ := hcall m p hstart hinv hguar
    exact (Outline.both_ok hbase hextra).mono fun _ _ _ hpost => hpost.2
  obtain ⟨-, -, hend⟩ := (bipLedger_sound hw).callEnds hres hstable hs hok h
  exact hend

section Ends

variable {s t : ThreadState (BipState w W) BipParty (BipNext W)} {used : Nat}

theorem commit_appends (hw : 2 ≤ w) (hs : ((bipOutline cap).both bipLedger).Holds s)
    {e : WriteGrant} (he : s.mem.writeGrants g = some e)
    (h : (bipThreads cap).CallEnds (.write g) (.commit used) s t) :
    s.mem.committed ++ (region s.mem.buf e.start e.len).take used <+: t.mem.committed := by
  refine (ledger_callEnds hw WriteOver.stable hs (fun m p hcall => ?_) h).committed
  simp only [bipCall, he] at hcall
  split at hcall
  · cases hcall
  · rename_i hback
    cases hcall
    exact commit_starts hs.1.2 hs.1.1 he (by simpa using hback) used

theorem release_appends (hw : 2 ≤ w) (hs : ((bipOutline cap).both bipLedger).Holds s)
    {e : ReadGrant} (he : s.mem.readGrants g = some e)
    (h : (bipThreads cap).CallEnds (.read g) (.release used) s t) :
    s.mem.released ++ (region s.mem.buf e.start e.len).take used <+: t.mem.released := by
  refine (ledger_callEnds hw ReadOver.stable hs (fun m p hcall => ?_) h).released
  simp only [bipCall, he] at hcall
  split at hcall
  · cases hcall
  · rename_i hback
    cases hcall
    exact release_starts hs.1.2 hs.1.1 he (by simpa using hback) used

end Ends

omit [Waker W] in
/-- While no grant is being handed back, the stream is the record. -/
theorem committed_eq_log {s : ThreadState (BipState w W) BipParty (BipNext W)}
    (hs : ((bipOutline cap).both bipLedger).Holds s)
    (hidle : ∀ g, s.running (.write g) = none) : s.mem.committed = s.mem.commitLog := by
  refine hs.1.2.committed.eq fun g => ?_
  have hg := hs.2 (.write g)
  rw [hidle g] at hg
  exact hg.2

omit [Waker W] in
theorem released_eq_log {s : ThreadState (BipState w W) BipParty (BipNext W)}
    (hs : ((bipOutline cap).both bipLedger).Holds s)
    (hidle : ∀ g, s.running (.read g) = none) : s.mem.released = s.mem.releaseLog := by
  refine hs.1.2.released.eq fun g => ?_
  have hg := hs.2 (.read g)
  rw [hidle g] at hg
  exact hg.2

end Calls

theorem BipInv.released_unread (hw : 0 < w) (hI : BipInv cap s) :
    s.released ++ s.unread = s.committed := by
  rw [hI.unread_eq hw]
  split
  · rename_i ho
    rw [List.append_nil, (hI.resetting ho).1]
  · exact hI.stream (by omega)

theorem BipInv.grant_unread (hw : 0 < w) (hI : BipInv cap s) {e : ReadGrant}
    (he : s.readGrants g = some e) :
    region s.buf e.start e.len = s.unread.take e.len ∧ e.len ≤ s.unread.length := by
  have hfits := (hI.readGrant g e he).2
  have heven : ¬ s.ticks % 2 = 1 := by
    intro ho
    have := (hI.resetting ho).2.2 g
    simp [he] at this
  rw [hI.unread_eq hw, if_neg heven]
  refine ⟨hfits.region_eq, ?_⟩
  have hlen := congrArg List.length hfits.region_eq
  rw [length_region, List.length_take] at hlen
  omega

/-- In every interleaving the released bytes followed by the unread ones are the committed
ones, and a live read grant shows the next unread bytes. Both sides of the stream are what the
calls of `commit` and `release` were given: a call that has ended has handed over its bytes. -/
theorem bipbuffer_is_lossless_stream (w : Nat) (hw : 2 ≤ w) (cap : Nat) (W : Type) [Waker W]
    (s : ThreadState (BipState w W) BipParty (BipNext W))
    (h : (bipThreads cap).machine.Reachable s) :
    s.mem.released ++ s.mem.unread = s.mem.committed ∧
    (s.mem.committed <+: s.mem.commitLog ∧
      ((∀ g, s.running (.write g) = none) → s.mem.committed = s.mem.commitLog)) ∧
    (s.mem.released <+: s.mem.releaseLog ∧
      ((∀ g, s.running (.read g) = none) → s.mem.released = s.mem.releaseLog)) ∧
    (∀ g e used t, s.mem.writeGrants g = some e →
      (bipThreads cap).CallEnds (.write g) (.commit used) s t →
      s.mem.committed ++ (region s.mem.buf e.start e.len).take used <+: t.mem.committed) ∧
    (∀ g e used t, s.mem.readGrants g = some e →
      (bipThreads cap).CallEnds (.read g) (.release used) s t →
      s.mem.released ++ (region s.mem.buf e.start e.len).take used <+: t.mem.released) ∧
    ∀ g e, s.mem.readGrants g = some e →
      region s.mem.buf e.start e.len = s.mem.unread.take e.len ∧ e.len ≤ s.mem.unread.length := by
  have hs := (bipLedger_sound hw).reachable h
  obtain ⟨hB, hI⟩ := hs.1
  refine ⟨hB.released_unread (by omega), ⟨hI.committed.le, committed_eq_log hs⟩,
    ⟨hI.released.le, released_eq_log hs⟩, ?_, ?_, fun g e he => hB.grant_unread (by omega) he⟩
  · intro g e used t he hends
    exact commit_appends hw hs he hends
  · intro g e used t he hends
    exact release_appends hw hs he hends

/-- A committed byte is the whole stream, and the grant that reads it shows it. -/
theorem bipbuffer_stream_after_commit :
    ∃ s : ThreadState (BipState 8 Waker.OfTask) BipParty (BipNext Waker.OfTask),
      (bipThreads 4).machine.run (bipThreads 4).machine.init
        (.call .producer (.tryReserve 2) :: List.replicate 7 (.step .producer) ++
          [.call (.write 0) (.writeByte 0 5), .step (.write 0)] ++
          .call (.write 0) (.commit 1) :: List.replicate 7 (.step (.write 0)) ++
          .call .consumer .tryRead :: List.replicate 8 (.step .consumer)) = some s ∧
      s.mem.commitLog = [5] ∧ s.mem.committed <+: [5] ∧ s.mem.readGrants 1 = some ⟨0, 1, false⟩ ∧
      region s.mem.buf 0 1 = s.mem.unread.take 1 := by
  refine Machine.exists_end (c := fun s => decide
    (s.mem.commitLog = [5] ∧ s.mem.readGrants 1 = some ⟨0, 1, false⟩)) _ (by decide +kernel) ?_
  intro s hrun hs
  obtain ⟨hlog, hgrant⟩ := of_decide_eq_true hs
  have hstream := bipbuffer_is_lossless_stream 8 (by decide) 4 Waker.OfTask s ⟨_, hrun⟩
  obtain ⟨-, ⟨hcommitted, -⟩, -, -, -, hshown⟩ := hstream
  exact ⟨hlog, hlog ▸ hcommitted, hgrant, (hshown 1 _ hgrant).1⟩

end Cynosure.SiteD
