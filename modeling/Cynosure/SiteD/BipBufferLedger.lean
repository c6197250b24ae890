import Cynosure.SiteD.BipBufferStream

/-! # What the grants of the bip buffer hand over

A call of `commit` and of `release` puts on record which bytes it was given. The two sides of
the stream grow by just these bytes, in the order of the calls: no other action of any party
moves them, and a grant that is dropped hands over nothing.
-/

namespace Cynosure.SiteD

open Prog

variable {w : Nat} {W : Type} {cap : Nat}

namespace BipState

/-- Grant `g` is being handed back. -/
def WriteBack (s : BipState w W) (g : Nat) : Prop :=
  ∃ e, s.writeGrants g = some e ∧ e.handedBack = true

def ReadBack (s : BipState w W) (g : Nat) : Prop :=
  ∃ e, s.readGrants g = some e ∧ e.handedBack = true

end BipState

/-- All that is on record has been handed over, unless a grant is being handed back. -/
structure HandedOver (back : Nat → Prop) (done log : List UInt8) : Prop where
  le : done <+: log
  eq : (∀ g, ¬ back g) → done = log

theorem HandedOver.of_eq {back : Nat → Prop} {done log : List UInt8} (h : done = log) :
    HandedOver back done log :=
  ⟨h ▸ List.prefix_refl _, fun _ => h⟩

theorem HandedOver.mono {back back' : Nat → Prop} {done log : List UInt8}
    (h : HandedOver back done log) (hback : ∀ g, back g → back' g) : HandedOver back' done log :=
  ⟨h.le, fun hnone => h.eq fun g hg => hnone g (hback g hg)⟩

structure LedgerInv (s : BipState w W) : Prop where
  committed : HandedOver s.WriteBack s.committed s.commitLog
  released : HandedOver s.ReadBack s.released s.releaseLog
  unused : ∀ g, s.nextGrant ≤ g → s.writeGrants g = none ∧ s.readGrants g = none

theorem update_unused {β : Type} {grants : Nat → Option β} {n g g' : Nat} {x : Option β}
    (hunused : ∀ g, n ≤ g → grants g = none) (hx : x = none ∨ g < n) (hg' : n ≤ g') :
    Function.update grants g x g' = none := by
  by_cases hg : g' = g
  · subst hg
    obtain rfl : x = none := hx.resolve_right (by omega)
    exact Function.update_self ..
  · rw [Function.update_of_ne hg, hunused g' hg']

theorem of_update_none {β : Type} {grants : Nat → Option β} {g g' : Nat} {e : β}
    (h : Function.update grants g none g' = some e) : g' ≠ g ∧ grants g' = some e := by
  by_cases hg : g' = g
  · subst hg
    simp at h
  · rw [Function.update_of_ne hg] at h
    exact ⟨hg, h⟩

theorem LedgerInv.unusedWrite {s : BipState w W} (h : LedgerInv s) :
    ∀ g, s.nextGrant ≤ g → s.writeGrants g = none :=
  fun g hg => (h.unused g hg).1

theorem LedgerInv.unusedRead {s : BipState w W} (h : LedgerInv s) :
    ∀ g, s.nextGrant ≤ g → s.readGrants g = none :=
  fun g hg => (h.unused g hg).2

theorem LedgerInv.write_lt {s : BipState w W} (h : LedgerInv s) {g : Nat} {e : WriteGrant}
    (he : s.writeGrants g = some e) : g < s.nextGrant := by
  by_contra hle
  rw [h.unusedWrite g (by omega)] at he
  cases he

theorem LedgerInv.read_lt {s : BipState w W} (h : LedgerInv s) {g : Nat} {e : ReadGrant}
    (he : s.readGrants g = some e) : g < s.nextGrant := by
  by_contra hle
  rw [h.unusedRead g (by omega)] at he
  cases he

structure StreamGrows (s t : BipState w W) : Prop where
  committed : s.committed <+: t.committed
  released : s.released <+: t.released

/-- While a grant is out, only its owner moves its side of the stream. -/
structure WriterKeeps (g : Nat) (s t : BipState w W) : Prop where
  grows : StreamGrows s t
  own : s.writer = some g →
    t.writer = some g ∧ t.committed = s.committed ∧ t.commitLog = s.commitLog
  back : t.WriteBack g → s.WriteBack g

structure ReaderKeeps (g : Nat) (s t : BipState w W) : Prop where
  grows : StreamGrows s t
  own : s.reader = some g →
    t.reader = some g ∧ t.released = s.released ∧ t.releaseLog = s.releaseLog
  back : t.ReadBack g → s.ReadBack g

def ledgerRely : BipParty → BipState w W → BipState w W → Prop
  | .write g, s, t => WriterKeeps g s t
  | .read g, s, t => ReaderKeeps g s t
  | _, _, _ => True

theorem StreamGrows.of_eq {s t : BipState w W} (hcommitted : t.committed = s.committed)
    (hreleased : t.released = s.released) : StreamGrows s t :=
  ⟨hcommitted ▸ List.prefix_refl _, hreleased ▸ List.prefix_refl _⟩

theorem StreamGrows.refl (s : BipState w W) : StreamGrows s s := .of_eq rfl rfl

theorem StreamGrows.trans {r s t : BipState w W} (h : StreamGrows r s) (h' : StreamGrows s t) :
    StreamGrows r t :=
  ⟨h.committed.trans h'.committed, h.released.trans h'.released⟩

theorem ledgerRely_refl (i : BipParty) (s : BipState w W) : ledgerRely i s s := by
  cases i with
  | write g => exact ⟨.refl s, fun h => ⟨h, rfl, rfl⟩, id⟩
  | read g => exact ⟨.refl s, fun h => ⟨h, rfl, rfl⟩, id⟩
  | _ => trivial

theorem ledgerRely_trans {i : BipParty} {r s t : BipState w W} (h : ledgerRely i r s)
    (h' : ledgerRely i s t) : ledgerRely i r t := by
  cases i with
  | write g =>
    refine ⟨h.grows.trans h'.grows, fun hr => ?_, fun ht => h.back (h'.back ht)⟩
    obtain ⟨hs, hcommitted, hlog⟩ := h.own hr
    obtain ⟨ht, hcommitted', hlog'⟩ := h'.own hs
    exact ⟨ht, hcommitted'.trans hcommitted, hlog'.trans hlog⟩
  | read g =>
    refine ⟨h.grows.trans h'.grows, fun hr => ?_, fun ht => h.back (h'.back ht)⟩
    obtain ⟨hs, hreleased, hlog⟩ := h.own hr
    obtain ⟨ht, hreleased', hlog'⟩ := h'.own hs
    exact ⟨ht, hreleased'.trans hreleased, hlog'.trans hlog⟩
  | _ => trivial

/-- Between calls no grant of the party is being handed back. -/
def bipLedger : Outline (BipState w W) BipParty (BipNext W) where
  inv := LedgerInv
  rely := ledgerRely
  refl := ledgerRely_refl
  trans := ledgerRely_trans
  rest
    | .write g, s => ¬ s.WriteBack g
    | .read g, s => ¬ s.ReadBack g
    | _, _ => True
  post
    | .write g, _, s => ¬ s.WriteBack g
    | .read g, _, s => ¬ s.ReadBack g
    | _, _, _ => True

abbrev ledgerLayer (cap : Nat) (i : BipParty) : Layer (BipState w W) :=
  (bipOutline cap).layer bipLedger i

section Steps

variable {i : BipParty} {s t : BipState w W}

/-- What the others see, if they may own a grant and this party moves only its own. -/
theorem ledger_guar (hbase : (bipContract cap i).guar s t) (hgrows : StreamGrows s t)
    (hcommit : (∃ g, i = .write g ∧ s.writer = some g) ∨
      t.committed = s.committed ∧ t.commitLog = s.commitLog)
    (hrelease : (∃ g, i = .read g ∧ s.reader = some g) ∨
      t.released = s.released ∧ t.releaseLog = s.releaseLog)
    (hwrite : ∀ g, i ≠ .write g → t.WriteBack g → s.WriteBack g)
    (hread : ∀ g, i ≠ .read g → t.ReadBack g → s.ReadBack g) :
    (ledgerLayer cap i).extra.guar s t := by
  intro j hj
  cases j with
  | write g =>
    refine ⟨hgrows, fun hwriter => ⟨(hbase (.write g) hj hwriter).writer, ?_⟩,
      hwrite g (Ne.symm hj)⟩
    rcases hcommit with ⟨g', rfl, hg'⟩ | hsame
    · rw [hwriter, Option.some.injEq] at hg'
      exact absurd (congrArg BipParty.write hg') hj
    · exact hsame
  | read g =>
    refine ⟨hgrows, fun hreader => ⟨(hbase (.read g) hj hreader).reader, ?_⟩,
      hread g (Ne.symm hj)⟩
    rcases hrelease with ⟨g', rfl, hg'⟩ | hsame
    · rw [hreader, Option.some.injEq] at hg'
      exact absurd (congrArg BipParty.read hg') hj
    · exact hsame
  | _ => trivial

/-- The record, the stream and the grants stay as they are. -/
structure SameLedger (s t : BipState w W) : Prop where
  committed : t.committed = s.committed
  released : t.released = s.released
  commitLog : t.commitLog = s.commitLog
  releaseLog : t.releaseLog = s.releaseLog
  writeGrants : t.writeGrants = s.writeGrants
  readGrants : t.readGrants = s.readGrants
  nextGrant : t.nextGrant = s.nextGrant

namespace SameLedger

theorem refl (s : BipState w W) : SameLedger s s := by constructor <;> rfl

theorem writeBack (h : SameLedger s t) : t.WriteBack = s.WriteBack := by
  funext g
  rw [BipState.WriteBack, BipState.WriteBack, h.writeGrants]

theorem readBack (h : SameLedger s t) : t.ReadBack = s.ReadBack := by
  funext g
  rw [BipState.ReadBack, BipState.ReadBack, h.readGrants]

theorem inv (h : SameLedger s t) (hI : LedgerInv s) : LedgerInv t where
  committed := by rw [h.writeBack, h.committed, h.commitLog]; exact hI.committed
  released := by rw [h.readBack, h.released, h.releaseLog]; exact hI.released
  unused := by rw [h.nextGrant, h.writeGrants, h.readGrants]; exact hI.unused

theorem guar (h : SameLedger s t) (hbase : (bipContract cap i).guar s t) :
    (ledgerLayer cap i).extra.guar s t :=
  ledger_guar hbase (.of_eq h.committed h.released) (.inr ⟨h.committed, h.commitLog⟩)
    (.inr ⟨h.released, h.releaseLog⟩)
    (fun _ _ => by rw [h.writeBack]; exact id) fun _ _ => by rw [h.readBack]; exact id

theorem keeps {P : BipState w W → Prop} (h : SameLedger s t) (hI : LedgerInv s) (hP : P t) :
    (ledgerLayer cap i).Keeps P s t :=
  fun _ hguar => ⟨h.inv hI, h.guar hguar, hP⟩

end SameLedger

/-- A step of a handle: it leaves the ledger alone, or hands out a grant. -/
inductive HandleStep (s : BipState w W) : BipState w W → Prop
  | same {t : BipState w W} (h : SameLedger s t) : HandleStep s t
  | grantWrite (start n : Nat) : HandleStep s (s.grantWrite start n)
  | grantRead (start n : Nat) : HandleStep s (s.grantRead start n)

theorem HandleStep.keeps (h : HandleStep s t) (hI : LedgerInv s) :
    (ledgerLayer cap i).Keeps (fun _ => True) s t := by
  intro _ hguar
  cases h with
  | same h => exact ⟨h.inv hI, h.guar hguar, trivial⟩
  | grantWrite start n =>
    have hnone := (hI.unused _ (le_refl _)).1
    have hback : (s.grantWrite start n).WriteBack = s.WriteBack := by
      funext g
      by_cases hg : g = s.nextGrant
      · subst hg
        simp [BipState.WriteBack, BipState.grantWrite, hnone]
      · simp [BipState.WriteBack, BipState.grantWrite, Function.update_of_ne hg]
    refine ⟨⟨by rw [hback]; exact hI.committed, hI.released, fun g hg => ?_⟩,
      ledger_guar hguar (.of_eq rfl rfl) (.inr ⟨rfl, rfl⟩) (.inr ⟨rfl, rfl⟩)
        (fun _ _ => by rw [hback]; exact id) (fun _ _ => id), trivial⟩
    have hlt : s.nextGrant + 1 ≤ g := hg
    exact ⟨update_unused (fun g hg => hI.unusedWrite g (by omega)) (.inr s.nextGrant.lt_succ_self) hg,
      hI.unusedRead g (by omega)⟩
  | grantRead start n =>
    have hnone := (hI.unused _ (le_refl _)).2
    have hback : (s.grantRead start n).ReadBack = s.ReadBack := by
      funext g
      by_cases hg : g = s.nextGrant
      · subst hg
        simp [BipState.ReadBack, BipState.grantRead, hnone]
      · simp [BipState.ReadBack, BipState.grantRead, Function.update_of_ne hg]
    refine ⟨⟨hI.committed, by rw [hback]; exact hI.released, fun g hg => ?_⟩,
      ledger_guar hguar (.of_eq rfl rfl) (.inr ⟨rfl, rfl⟩) (.inr ⟨rfl, rfl⟩) (fun _ _ => id)
        (fun _ _ => by rw [hback]; exact id), trivial⟩
    have hlt : s.nextGrant + 1 ≤ g := hg
    exact ⟨hI.unusedWrite g (by omega),
      update_unused (fun g hg => hI.unusedRead g (by omega)) (.inr s.nextGrant.lt_succ_self) hg⟩

end Steps

section Handles

variable {i : BipParty} {α : Type} {p : Prog (BipState w W) α}

theorem handle_triple (hp : p.Always HandleStep) :
    (ledgerLayer cap i).Triple (fun _ => True) p fun _ _ => True :=
  .always Layer.stable_true (fun _ _ hI hstep _ => hstep.keeps hI.2) hp

theorem handle_same (hp : p.Always SameLedger) : p.Always HandleStep := hp.mono .same

theorem check_ledger (ok : Bool) : (check (w := w) (W := W) ok).Always SameLedger :=
  always_store fun _ => by constructor <;> rfl

theorem canonicalize_ledger (read write : Nat) :
    (canonicalize (w := w) (W := W) cap read write).Always SameLedger := by
  unfold canonicalize
  split
  · refine always_bind (always_store fun _ => by constructor <;> rfl) fun _ => ?_
    refine always_bind (always_store fun _ => by constructor <;> rfl) fun _ => ?_
    refine always_bind (always_store fun _ => by constructor <;> rfl) fun _ => ?_
    refine always_bind (always_store fun _ => by constructor <;> rfl) fun _ => ?_
    exact always_bind (always_store fun _ => by constructor <;> rfl) fun _ => always_pure _
  · exact always_pure _

theorem place_handle (n : Nat) (cursors : Nat × Nat) :
    (place (w := w) (W := W) cap n cursors).Always HandleStep := by
  refine always_bind (handle_same (check_ledger _)) fun _ => ?_
  split
  · exact always_pure _
  · exact always_bind (always_exchange fun _ => .grantWrite _ n) fun _ => always_pure _

theorem tryReserve_handle (n : Nat) :
    (tryReserve (w := w) (W := W) cap n).Always HandleStep := by
  apply always_bind (always_load _ fun s => .same (.refl s))
  intro wip
  split
  · exact always_pure _
  · split
    · exact always_pure _
    · refine always_bind (always_load _ fun s => .same (.refl s)) fun read => ?_
      refine always_bind (always_load _ fun s => .same (.refl s)) fun write => ?_
      exact always_bind (handle_same (canonicalize_ledger read write)) fun c => place_handle n c

theorem snapshot_ledger : (snapshot (w := w) (W := W)).Always SameLedger := by
  apply always_bind (always_load _ .refl)
  intro e1
  split
  · exact always_pure _
  · refine always_bind (always_load _ .refl) fun _ => always_bind (always_load _ .refl) fun _ => ?_
    refine always_bind (always_load _ .refl) fun _ => always_bind (always_load _ .refl) fun _ => ?_
    split
    · exact always_pure _
    · exact always_pure _

theorem claimRead_handle (write read last : Nat) :
    (claimRead (w := w) (W := W) write read last).Always HandleStep := by
  refine always_bind (handle_same (check_ledger _)) fun _ => ?_
  split
  · exact always_pure _
  · exact always_bind (always_exchange fun _ => .grantRead _ _) fun _ => always_pure _

variable [Waker W]

theorem signalSpace_ledger (party : BipParty) :
    (signalSpace (w := w) (W := W) party).Always SameLedger :=
  always_zoom (fun _ _ => by constructor <;> rfl) _

theorem signalData_ledger (party : BipParty) :
    (signalData (w := w) (W := W) party).Always SameLedger :=
  always_zoom (fun _ _ => by constructor <;> rfl) _

theorem pollReserve_handle (n : Nat) (waker : W) :
    (pollReserve (w := w) cap n waker).Always HandleStep := by
  have hstore {f : BipState w W → BipState w W} (hf : ∀ s, SameLedger s (f s)) :
      (store f).Always HandleStep := handle_same (always_store hf)
  apply always_bind (tryReserve_handle n)
  rintro (_ | g)
  · refine always_bind (handle_same (always_zoom (fun _ _ => by constructor <;> rfl) _)) fun _ => ?_
    apply always_bind (tryReserve_handle n)
    rintro (_ | g)
    · exact hstore fun _ => by constructor <;> rfl
    · refine always_bind (hstore fun _ => by constructor <;> rfl) fun _ => ?_
      exact hstore fun _ => by constructor <;> rfl
  · exact hstore fun _ => by constructor <;> rfl

theorem wrapRead_ledger (write read last : Nat) :
    (wrapRead (w := w) (W := W) write read last).Always SameLedger := by
  unfold wrapRead
  split
  · refine always_bind (always_store fun _ => by constructor <;> rfl) fun _ => ?_
    exact always_bind (signalSpace_ledger _) fun _ => always_pure _
  · exact always_pure _

theorem afterRead_ledger (ctx : ReadCtx W) (out : Option Nat) :
    (afterRead (w := w) ctx out).Always SameLedger := by
  have hstore {f : BipState w W → BipState w W} (hf : ∀ s, SameLedger s (f s)) (next : BipNext W) :
      (store f >>= fun _ => pure next).Always SameLedger :=
    always_bind (always_store hf) fun _ => always_pure _
  cases ctx with
  | tryRead => exact hstore (fun _ => by constructor <;> rfl) _
  | poll waker =>
    cases out with
    | some g => exact hstore (fun _ => by constructor <;> rfl) _
    | none =>
      exact always_bind (always_zoom (fun _ _ => by constructor <;> rfl) _) fun _ => always_pure _
  | recheck =>
    cases out with
    | some g =>
      exact always_bind (always_store fun _ => by constructor <;> rfl) fun _ =>
        hstore (fun _ => by constructor <;> rfl) _
    | none => exact hstore (fun _ => by constructor <;> rfl) _

theorem readLoop_handle (ctx : ReadCtx W) : (readLoop (w := w) ctx).Always HandleStep := by
  apply always_bind (handle_same snapshot_ledger)
  rintro (_ | ⟨write, read, last⟩)
  · exact always_pure _
  · refine always_bind (handle_same (wrapRead_ledger write read last)) fun read' => ?_
    refine always_bind (claimRead_handle write read' last) fun out => ?_
    exact handle_same (afterRead_ledger ctx out)

theorem tryRead_handle (ctx : ReadCtx W) : (tryRead (w := w) ctx).Always HandleStep := by
  apply always_bind (always_load _ fun s => .same (.refl s))
  intro rip
  split
  · exact handle_same (afterRead_ledger ctx none)
  · exact readLoop_handle ctx

end Handles

end Cynosure.SiteD
