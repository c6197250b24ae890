import Cynosure.SiteD.TripleBufferReader
import Cynosure.SiteD.TripleBufferWriter

/-! # What the calls of the triple buffer report

A call of the writer confirms the buffer it was given exactly if it reports it as
published, and a call of the reader that returns a buffer has taken it. Nothing else that
either side does touches the two records, so what a call found there is there until it
returns.
-/

namespace Cynosure.SiteD

open Prog TripleState

variable {w : Nat} {T W : Type}

/-- Published with the next buffer for the caller, or kept. -/
def PublishReports (kept : TripleOut) (offer : List T × Nat) (s t : TripleState w T W) : Prop :=
  (∃ next, t.writerOut = some (.published next) ∧ t.published = s.published ++ [offer]) ∨
    t.writerOut = some kept ∧ t.published = s.published

/-- What a call of the writer that began in `s` has published when it returns in `t`. -/
def WriterReports (s t : TripleState w T W) : TripleOp T W → Prop
  | .tryPublish => ∃ buf, s.writer.hand = some buf ∧
      PublishReports .refused (s.heap buf.ptr, buf.len) s t
  | .pollPublish _ => ∃ buf, s.writer.held = some buf ∧
      PublishReports .pending (s.heap buf.ptr, buf.len) s t
  | _ => t.published = s.published

/-- Taken as it is in memory, or nothing. -/
def NextReports (nothing : TripleOut) (s t : TripleState w T W) : Prop :=
  (∃ buf, t.readerOut = some (.taken buf) ∧ t.taken = s.taken ++ [(t.heap buf.ptr, buf.len)]) ∨
    t.readerOut = some nothing ∧ t.taken = s.taken

def ReaderReports (s t : TripleState w T W) : TripleOp T W → Prop
  | .tryNext _ => NextReports .refused s t
  | .pollNext _ => NextReports .pending s t
  | _ => t.taken = s.taken

section Writer

/-- The records of the writer's calls stay as they are. -/
structure SameConfirmed (s t : TripleState w T W) : Prop where
  confirmed : t.confirmed = s.confirmed
  offer : t.offer = s.offer

theorem SameConfirmed.refl (s : TripleState w T W) : SameConfirmed s s := ⟨rfl, rfl⟩

theorem middleFree_confirmed : (middleFree (w := w) (T := T) (W := W)).Always SameConfirmed :=
  always_bind (always_bind (always_load _ .refl) fun _ => always_bind (always_load _ .refl)
    fun _ => always_pure _) fun _ => always_pure _

variable [Waker W]

theorem writerTakesNext_confirmed (m : Fin 3) :
    (writerTakesNext (w := w) (T := T) (W := W) m).Always SameConfirmed := by
  apply always_bind (always_exchange fun _ => ⟨rfl, rfl⟩)
  rintro (_ | ptr)
  · exact always_pure _
  · exact always_bind (always_zoom (fun _ _ => ⟨rfl, rfl⟩) _) fun _ => always_pure _

theorem writerPublishNow_confirmed (buf : AlignedBuffer) :
    (writerPublishNow (w := w) (T := T) (W := W) buf).Always SameConfirmed := by
  refine always_bind (always_load _ .refl) fun _ => always_bind (always_load _ .refl) fun _ => ?_
  refine always_bind (always_store fun _ => ⟨rfl, rfl⟩) fun _ => ?_
  refine always_bind (always_store fun _ => ⟨rfl, rfl⟩) fun _ => ?_
  refine always_bind (always_store fun _ => ⟨rfl, rfl⟩) fun _ => ?_
  refine always_bind (always_store fun _ => ⟨rfl, rfl⟩) fun _ => ?_
  refine always_bind (always_load _ .refl) fun _ => ?_
  exact always_bind (always_store fun _ => ⟨rfl, rfl⟩) fun _ => writerTakesNext_confirmed _

theorem tryPublishNow_confirmed (buf : AlignedBuffer) :
    (tryPublishNow (w := w) (T := T) (W := W) buf).Always SameConfirmed := by
  apply always_bind middleFree_confirmed
  rintro (_ | _)
  · exact always_pure _
  · exact always_bind (writerPublishNow_confirmed buf) fun _ => always_pure _

abbrev writerKnown : Layer (TripleState w T W) := writerContract.known

variable {buf : AlignedBuffer} {C : List (List T × Nat)} {offer : List T × Nat} {kept : TripleOut}

/-- `C` was confirmed before the call that was given `offer`. -/
def Confirmed (C : List (List T × Nat)) (offer : List T × Nat) (s : TripleState w T W) : Prop :=
  s.confirmed = C ∧ s.offer = offer

omit [Waker W] in
theorem Confirmed.stable : writerContract.Stable (Confirmed C offer : TripleState w T W → Prop) :=
  fun s t _ hst h => ⟨(show WriterRely s t from hst).confirmed.trans h.1,
    (show WriterRely s t from hst).offer.trans h.2⟩

omit [Waker W] in
theorem Confirmed.of_same {s t : TripleState w T W} (hst : SameConfirmed s t)
    (h : Confirmed C offer s) : Confirmed C offer t :=
  ⟨hst.confirmed.trans h.1, hst.offer.trans h.2⟩

/-- How the call of the writer ended. -/
def PublishEnds (C : List (List T × Nat)) (offer : List T × Nat) (kept : TripleOut)
    (s : TripleState w T W) : Prop :=
  (∃ next, s.writerOut = some (.published next) ∧ s.confirmed = C ++ [offer]) ∨
    s.writerOut = some kept ∧ s.confirmed = C

omit [Waker W] in
theorem PublishEnds.stable :
    writerContract.Stable (PublishEnds C offer kept : TripleState w T W → Prop) := by
  intro s t _ (hst : WriterRely s t) h
  rw [PublishEnds, hst.out, hst.confirmed]
  exact h

def WriterEnds (s t : TripleState w T W) : TripleOp T W → Prop
  | .tryPublish => ∃ buf, s.writer.hand = some buf ∧
      PublishEnds s.confirmed (s.heap buf.ptr, buf.len) .refused t
  | .pollPublish _ => ∃ buf, s.writer.held = some buf ∧
      PublishEnds s.confirmed (s.heap buf.ptr, buf.len) .pending t
  | _ => t.confirmed = s.confirmed

omit [Waker W] in
theorem WriterEnds.stable (s : TripleState w T W) (op : TripleOp T W) :
    writerContract.Stable fun t => WriterEnds s t op := by
  have hsame : writerContract.Stable fun t : TripleState w T W => t.confirmed = s.confirmed :=
    fun t u _ hst h => (show WriterRely t u from hst).confirmed.trans h
  cases op with
  | tryPublish => exact .ex fun _ => .and (.const _) PublishEnds.stable
  | pollPublish waker => exact .ex fun _ => .and (.const _) PublishEnds.stable
  | _ => exact hsame

omit [Waker W] in
/-- Between calls the confirmed buffers are the published ones. -/
theorem WriterEnds.reports {s t : TripleState w T W} {op : TripleOp T W} (h : WriterEnds s t op)
    (hs : s.confirmed = s.published) (ht : t.confirmed = t.published) : WriterReports s t op := by
  cases op <;>
    simpa only [WriterEnds, PublishEnds, WriterReports, PublishReports, hs, ht] using h

theorem tryPublishNow_ends (hw : 0 < w) : writerKnown.Triple
    (fun s : TripleState w T W => Offering buf s ∧ Confirmed C offer s) (tryPublishNow buf)
    fun res s => TryPublishPost buf res s ∧ Confirmed C offer s :=
  .and_base (tryPublishNow_triple hw)
    (Contract.known_always Confirmed.stable Confirmed.of_same (tryPublishNow_confirmed buf))

omit [Waker W] in
theorem publishReturns_ends (next : Option AlignedBuffer) : writerKnown.Triple
    (fun s : TripleState w T W => PublishPost next s ∧ Confirmed C offer s) (publishReturns next)
    fun _ => PublishEnds C offer kept := by
  cases next with
  | none => exact fun _ _ h => h.1.elim
  | some next =>
    refine .store ((Layer.Stable.of_base Fetched.stable).and (.of_base Confirmed.stable))
      (fun _ => .of_base PublishEnds.stable) fun s _ h => Contract.known_keeps fun _ => .inl ?_
    exact ⟨next, rfl, by rw [← h.2.1, ← h.2.2]⟩

omit [Waker W] in
theorem writerKeeps_ends {f : TripleState w T W → TripleState w T W}
    (hf : ∀ s, (f s).writerOut = some kept ∧ (f s).confirmed = s.confirmed) : writerKnown.Triple
      (fun s => Offering buf s ∧ Confirmed C offer s) (store f)
      fun _ => PublishEnds C offer kept := by
  refine .store ((Layer.Stable.of_base Offering.stable).and (.of_base Confirmed.stable))
    (fun _ => .of_base PublishEnds.stable) fun s _ h => Contract.known_keeps fun _ => .inr ?_
  exact ⟨(hf s).1, (hf s).2.trans h.2.1⟩

theorem tryPublish_ends (hw : 0 < w) : writerKnown.Triple
    (fun s : TripleState w T W => Offering buf s ∧ Confirmed C offer s) (tryPublish buf)
    fun _ => PublishEnds C offer .refused := by
  apply (tryPublishNow_ends hw).bind
  rintro (_ | next)
  · exact writerKeeps_ends fun _ => ⟨rfl, rfl⟩
  · exact publishReturns_ends next

theorem pollPublish_ends (hw : 0 < w) (waker : W) : writerKnown.Triple
    (fun s : TripleState w T W => Offering buf s ∧ Confirmed C offer s) (pollPublish waker buf)
    fun _ => PublishEnds C offer .pending := by
  apply (tryPublishNow_ends hw).bind
  rintro (_ | next)
  · have harm : writerKnown.Triple
        (fun s : TripleState w T W => Offering buf s ∧ Confirmed C offer s) (armWriter waker)
        fun _ s => Offering buf s ∧ Confirmed C offer s :=
      .and_base (armWriter_triple Offering.stable waker)
        (Contract.known_always Confirmed.stable Confirmed.of_same
          (always_zoom (fun _ _ => ⟨rfl, rfl⟩) _))
    apply harm.bind
    intro _
    apply (tryPublishNow_ends hw).bind
    rintro (_ | _ | next)
    · exact writerKeeps_ends fun _ => ⟨rfl, rfl⟩
    · exact publishReturns_ends none
    · have hdisarm : writerKnown.Triple
          (fun s : TripleState w T W => PublishPost (some next) s ∧ Confirmed C offer s)
          (store fun s => { s with writerSlot := s.writerSlot.disarm })
          fun _ s => PublishPost (some next) s ∧ Confirmed C offer s :=
        .and_base (disarmWriter_triple (PublishPost.stable _)) (.store (.of_base Confirmed.stable)
          (fun _ => .of_base Confirmed.stable) fun _ _ h => Contract.known_keeps fun _ => h)
      exact hdisarm.bind fun _ => publishReturns_ends (some next)
  · exact publishReturns_ends next

end Writer

section Reader

structure SameDelivered (s t : TripleState w T W) : Prop where
  delivered : t.delivered = s.delivered

theorem SameDelivered.refl (s : TripleState w T W) : SameDelivered s s := ⟨rfl⟩

theorem hasUnread_delivered : (hasUnread (w := w) (T := T) (W := W)).Always SameDelivered :=
  always_bind (always_bind (always_load _ .refl) fun _ => always_bind (always_load _ .refl)
    fun _ => always_pure _) fun _ => always_pure _

theorem returnPrevious_delivered (readerIdx : Fin 3) (previous : Option AlignedBuffer) :
    (returnPrevious (w := w) (T := T) (W := W) readerIdx previous).Always SameDelivered := by
  cases previous with
  | none => exact always_pure _
  | some previous => exact always_bind (always_store fun _ => ⟨rfl⟩) fun _ => always_store fun _ => ⟨rfl⟩

variable [Waker W]

theorem readerTakesMiddle_delivered (generation : BitVec w) (m : Fin 3) :
    (readerTakesMiddle (T := T) (W := W) generation m).Always SameDelivered := by
  apply always_bind (always_exchange fun _ => ⟨rfl⟩)
  rintro (_ | ptr)
  · exact always_pure _
  · refine always_bind (always_load _ .refl) fun _ => always_bind (always_store fun _ => ⟨rfl⟩) fun _ => ?_
    exact always_bind (always_zoom (fun _ _ => ⟨rfl⟩) _) fun _ => always_pure _

theorem tryTakeNow_delivered (previous : Option AlignedBuffer) :
    (tryTakeNow (w := w) (T := T) (W := W) previous).Always SameDelivered := by
  apply always_bind hasUnread_delivered
  rintro (_ | _)
  · exact always_pure _
  · refine always_bind ?_ fun _ => always_pure _
    refine always_bind (always_load _ .refl) fun _ => always_bind (always_load _ .refl) fun _ => ?_
    refine always_bind (always_load _ .refl) fun _ => ?_
    refine always_bind (returnPrevious_delivered _ previous) fun _ => ?_
    refine always_bind (always_store fun _ => ⟨rfl⟩) fun _ => always_bind (always_store fun _ => ⟨rfl⟩) ?_
    exact fun _ => readerTakesMiddle_delivered _ _

abbrev readerKnown : Layer (TripleState w T W) := readerContract.known

variable {previous : Option AlignedBuffer} {future : Bool} {D : List (List T × Nat)}
  {nothing : TripleOut}

/-- `D` was returned before the call. -/
def Delivered (D : List (List T × Nat)) (s : TripleState w T W) : Prop := s.delivered = D

omit [Waker W] in
theorem Delivered.stable : readerContract.Stable (Delivered D : TripleState w T W → Prop) :=
  fun s t _ hst h => (show ReaderRely s t from hst).delivered.trans h

omit [Waker W] in
theorem Delivered.of_same {s t : TripleState w T W} (hst : SameDelivered s t) (h : Delivered D s) :
    Delivered D t :=
  hst.delivered.trans h

/-- How the call of the reader ended; it owns the buffer that it returned. -/
def NextEnds (D : List (List T × Nat)) (nothing : TripleOut) (s : TripleState w T W) : Prop :=
  (∃ buf, s.readerOut = some (.taken buf) ∧ buf.ptr ∈ s.readerOwns ∧
      s.delivered = D ++ [(s.heap buf.ptr, buf.len)]) ∨
    s.readerOut = some nothing ∧ s.delivered = D

omit [Waker W] in
theorem NextEnds.stable :
    readerContract.Stable (NextEnds D nothing : TripleState w T W → Prop) := by
  rintro s t _ hst (⟨buf, hout, howns, hdelivered⟩ | ⟨hout, hdelivered⟩)
  · have hst : ReaderRely s t := hst
    exact .inl ⟨buf, hst.out.trans hout, by rwa [hst.owns],
      by rw [hst.delivered, hdelivered, hst.heap _ howns]⟩
  · have hst : ReaderRely s t := hst
    exact .inr ⟨hst.out.trans hout, hst.delivered.trans hdelivered⟩

def ReaderEnds (s t : TripleState w T W) : TripleOp T W → Prop
  | .tryNext _ => NextEnds s.delivered .refused t
  | .pollNext _ => NextEnds s.delivered .pending t
  | _ => t.delivered = s.delivered

omit [Waker W] in
theorem ReaderEnds.stable (s : TripleState w T W) (op : TripleOp T W) :
    readerContract.Stable fun t => ReaderEnds s t op := by
  cases op with
  | tryNext give => exact NextEnds.stable
  | pollNext waker => exact NextEnds.stable
  | _ => exact Delivered.stable

omit [Waker W] in
theorem NextEnds.reports {s t : TripleState w T W} (h : NextEnds s.delivered nothing t)
    (hs : s.delivered = s.taken) (ht : t.delivered = t.taken) : NextReports nothing s t := by
  rw [NextEnds, hs, ht] at h
  refine h.imp_left ?_
  rintro ⟨buf, hout, -, htaken⟩
  exact ⟨buf, hout, htaken⟩

omit [Waker W] in
theorem ReaderEnds.reports {s t : TripleState w T W} {op : TripleOp T W} (h : ReaderEnds s t op)
    (hs : s.delivered = s.taken) (ht : t.delivered = t.taken) : ReaderReports s t op := by
  have hsame : t.delivered = s.delivered → t.taken = s.taken := fun h => by rw [← ht, ← hs, h]
  cases op with
  | tryNext give => exact NextEnds.reports h hs ht
  | pollNext waker => exact NextEnds.reports h hs ht
  | _ => exact hsame h

theorem tryTakeNow_ends : readerKnown.Triple
    (fun s : TripleState w T W => Asking previous future s ∧ Delivered D s) (tryTakeNow previous)
    fun res s => TryTakePost previous future res s ∧ Delivered D s :=
  .and_base tryTakeNow_triple
    (Contract.known_always Delivered.stable Delivered.of_same (tryTakeNow_delivered previous))

omit [Waker W] in
theorem takeReturns_ends (buf : Option AlignedBuffer) : readerKnown.Triple
    (fun s : TripleState w T W => TakePost buf s ∧ Delivered D s) (takeReturns buf)
    fun _ => NextEnds D nothing := by
  cases buf with
  | none => exact fun _ _ h => h.1.elim
  | some buf =>
    refine .store ((Layer.Stable.of_base Took.stable).and (.of_base Delivered.stable))
      (fun _ => .of_base NextEnds.stable) fun s _ h => Contract.known_keeps fun _ => .inl ?_
    obtain ⟨htook, rfl⟩ := h
    exact ⟨buf, rfl, htook.owns ▸ List.mem_singleton_self _, rfl⟩

omit [Waker W] in
theorem readerKeeps_ends {f : TripleState w T W → TripleState w T W}
    (hf : ∀ s, (f s).readerOut = some nothing ∧ (f s).delivered = s.delivered) : readerKnown.Triple
      (fun s => Asking previous future s ∧ Delivered D s) (store f)
      fun _ => NextEnds D nothing := by
  refine .store ((Layer.Stable.of_base Asking.stable).and (.of_base Delivered.stable))
    (fun _ => .of_base NextEnds.stable) fun s _ h => Contract.known_keeps fun _ => .inr ?_
  exact ⟨(hf s).1, (hf s).2.trans h.2⟩

theorem tryNext_ends : readerKnown.Triple
    (fun s : TripleState w T W => Asking previous future s ∧ Delivered D s) (tryNext previous)
    fun _ => NextEnds D .refused := by
  apply tryTakeNow_ends.bind
  rintro (_ | buf)
  · exact readerKeeps_ends fun _ => ⟨rfl, rfl⟩
  · exact takeReturns_ends buf

theorem pollNext_ends (waker : W) : readerKnown.Triple
    (fun s : TripleState w T W => Asking previous future s ∧ Delivered D s) (pollNext waker previous)
    fun _ => NextEnds D .pending := by
  apply tryTakeNow_ends.bind
  rintro (_ | buf)
  · have harm : readerKnown.Triple
        (fun s : TripleState w T W => Asking previous future s ∧ Delivered D s) (armReader waker)
        fun _ s => Asking previous future s ∧ Delivered D s :=
      .and_base (armReader_triple Asking.stable waker)
        (Contract.known_always Delivered.stable Delivered.of_same (always_zoom (fun _ _ => ⟨rfl⟩) _))
    apply harm.bind
    intro _
    apply tryTakeNow_ends.bind
    rintro (_ | _ | buf)
    · exact readerKeeps_ends fun _ => ⟨rfl, rfl⟩
    · exact takeReturns_ends none
    · have hdisarm : readerKnown.Triple
          (fun s : TripleState w T W => TakePost (some buf) s ∧ Delivered D s)
          (store fun s => { s with readerSlot := s.readerSlot.disarm })
          fun _ s => TakePost (some buf) s ∧ Delivered D s :=
        .and_base (disarmReader_triple (TakePost.stable _)) (.store (.of_base Delivered.stable)
          (fun _ => .of_base Delivered.stable) fun _ _ h => Contract.known_keeps fun _ => h)
      exact hdisarm.bind fun _ => takeReturns_ends (some buf)
  · exact takeReturns_ends buf

end Reader

end Cynosure.SiteD
