import Cynosure.SiteD.TripleBufferReports

/-! # The triple buffer hands every buffer over, in order

Each call of the two sides starts from rest and leaves its side at rest, so the outline
holds of every interleaving. The callers' contract enters with the calls of the
reader: they pass back the buffer in hand.
-/

namespace Cynosure.SiteD

open Prog TripleState

variable {w : Nat} {T W : Type}

section Fill

variable {s : TripleState w T W} {p : Nat} {contents : List T}

/-- The owner of a buffer writes where no slot and no other side looks. -/
theorem TripleInv.fill (hI : TripleInv s) (hp : ∀ i, s.buffers i ≠ some p) (contents : List T) :
    TripleInv { s with heap := Function.update s.heap p contents } :=
  { hI with
    middle := fun hpublishing htaking => by
      obtain ⟨hw, hr, q, hq, hcontents⟩ := hI.middle hpublishing htaking
      have hne : q ≠ p := fun h => hp _ (h ▸ hq)
      refine ⟨hw, hr, q, hq, fun hunread => ?_⟩
      simpa [Function.update_of_ne hne] using hcontents hunread }

theorem TripleInv.fill_readerRely (hI : TripleInv s) (hp : p ∈ s.writerOwns) :
    ReaderRely s { s with heap := Function.update s.heap p contents } := by
  refine ⟨rfl, rfl, rfl, rfl, rfl, fun q hq => ?_, rfl, rfl, rfl,
    fun _ => ⟨rfl, rfl, rfl, rfl, fun i _ => ⟨rfl, fun q hq => ?_⟩⟩⟩
  · have hne : q ≠ p := by
      rintro rfl
      exact hI.not_readerOwns hp hq
    exact Function.update_of_ne hne _ _
  · have hne : q ≠ p := by
      rintro rfl
      exact hI.not_writerOwns_of_slot hq hp
    exact Function.update_of_ne hne _ _

theorem TripleInv.fill_writerRely (hI : TripleInv s) (hp : p ∈ s.readerOwns) :
    WriterRely s { s with heap := Function.update s.heap p contents } := by
  refine ⟨rfl, rfl, rfl, rfl, rfl, fun q hq => ?_, rfl, rfl, rfl, rfl,
    fun _ => ⟨rfl, rfl, rfl, rfl, rfl, fun i q hq => ?_⟩⟩
  · have hne : q ≠ p := by
      rintro rfl
      exact hI.not_readerOwns hq hp
    exact Function.update_of_ne hne _ _
  · have hne : q ≠ p := by
      rintro rfl
      exact hI.not_readerOwns_of_slot hq hp
    exact Function.update_of_ne hne _ _

theorem fillHand_eq {cap len : Nat} {hand : Option AlignedBuffer} {r : TripleState w T W × AlignedBuffer}
    (h : fillHand cap hand contents len s = some r) :
    ∃ buf, hand = some buf ∧
      r = ({ s with heap := Function.update s.heap buf.ptr contents }, { buf with len := len }) := by
  cases hand with
  | none => simp [fillHand] at h
  | some buf =>
    simp only [fillHand, Option.ite_none_right_eq_some, Option.some.injEq] at h
    exact ⟨buf, rfl, h.2.symm⟩

end Fill

section Start

variable {s t : TripleState w T W} {p : Prog (TripleState w T W) PUnit} {cap : Nat}

theorem TripleInv.setWriter (hI : TripleInv s) (handle : TripleHandle) (slot : SlotUse W Unit)
    (offer : List T × Nat) :
    TripleInv { s with writer := handle, writerSlot := slot, offer := offer } ∧
      writerContract.guar s { s with writer := handle, writerSlot := slot, offer := offer } := by
  have hs : SameTriple s { s with writer := handle, writerSlot := slot, offer := offer } := by
    constructor <;> first | rfl | exact id | exact fun _ => Or.inl
  exact ⟨hs.inv hI, writerGuar (hs.readerRely rfl rfl rfl)⟩

theorem TripleInv.setReader (hI : TripleInv s) (handle : TripleHandle) (slot : SlotUse W Unit) :
    TripleInv { s with reader := handle, readerSlot := slot } ∧
      readerContract.guar s { s with reader := handle, readerSlot := slot } := by
  have hs : SameTriple s { s with reader := handle, readerSlot := slot } := by
    constructor <;> first | rfl | exact id | exact fun _ => Or.inl
  exact ⟨hs.inv hI, readerGuar (hs.writerRely rfl rfl rfl rfl)⟩

/-- What is known of the program of a call that began in `s`. -/
def WriterRuns (s : TripleState w T W) (op : TripleOp T W) (p : Prog (TripleState w T W) PUnit)
    (t : TripleState w T W) : Prop :=
  writerContract.Ok (fun _ => WriterRest) p t ∧ writerKnown.Ok (fun _ u => WriterEnds s u op) p t

def ReaderRuns (s : TripleState w T W) (op : TripleOp T W) (p : Prog (TripleState w T W) PUnit)
    (t : TripleState w T W) : Prop :=
  readerContract.Ok (fun _ => ReaderRest) p t ∧ readerKnown.Ok (fun _ u => ReaderEnds s u op) p t

/-- A call starts with no more than a change of the caller's handle and its wait slot. -/
theorem writerStart (hI : TripleInv s) {handle : TripleHandle} {slot : SlotUse W Unit}
    {offer : List T × Nat} {op : TripleOp T W}
    (hp : TripleInv { s with writer := handle, writerSlot := slot, offer := offer } →
      WriterRuns s op p { s with writer := handle, writerSlot := slot, offer := offer }) :
    TripleInv { s with writer := handle, writerSlot := slot, offer := offer } ∧
      writerContract.guar s { s with writer := handle, writerSlot := slot, offer := offer } ∧
      WriterRuns s op p { s with writer := handle, writerSlot := slot, offer := offer } := by
  obtain ⟨hinv, hguar⟩ := hI.setWriter handle slot offer
  exact ⟨hinv, hguar, hp hinv⟩

theorem readerStart (hI : TripleInv s) {handle : TripleHandle} {slot : SlotUse W Unit}
    {op : TripleOp T W}
    (hp : TripleInv { s with reader := handle, readerSlot := slot } →
      ReaderRuns s op p { s with reader := handle, readerSlot := slot }) :
    TripleInv { s with reader := handle, readerSlot := slot } ∧
      readerContract.guar s { s with reader := handle, readerSlot := slot } ∧
      ReaderRuns s op p { s with reader := handle, readerSlot := slot } := by
  obtain ⟨hinv, hguar⟩ := hI.setReader handle slot
  exact ⟨hinv, hguar, hp hinv⟩

theorem writerRest_runs {op : TripleOp T W} (h : WriterRest t) (hends : WriterEnds s t op) :
    WriterRuns s op (pure PUnit.unit) t :=
  ⟨fun u hu htu => WriterRest.stable t u hu htu h,
    fun u hu htu => WriterEnds.stable s op t u hu.1 htu.1 hends⟩

theorem readerRest_runs {op : TripleOp T W} (h : ReaderRest t) (hends : ReaderEnds s t op) :
    ReaderRuns s op (pure PUnit.unit) t :=
  ⟨fun u hu htu => ReaderRest.stable t u hu htu h,
    fun u hu htu => ReaderEnds.stable s op t u hu.1 htu.1 hends⟩

theorem WriterRest.hand {buf : AlignedBuffer} (h : WriterRest s) (hhand : s.writer.hand = some buf) :
    WriterHas buf s ∧ s.confirmed = s.published ∧ s.writer.held = none := by
  obtain ⟨b, hhas, hconfirmed, ⟨hb, hheld⟩ | ⟨hb, -⟩⟩ := h
  · rw [hhand, Option.some.injEq] at hb
    exact ⟨hb ▸ hhas, hconfirmed, hheld⟩
  · simp [hhand] at hb

theorem WriterRest.held {buf : AlignedBuffer} (h : WriterRest s) (hheld : s.writer.held = some buf) :
    WriterHas buf s ∧ s.confirmed = s.published ∧ s.writer.hand = none ∧
      s.offer = (s.heap buf.ptr, buf.len) := by
  obtain ⟨b, hhas, hconfirmed, ⟨-, hb⟩ | ⟨hhand, hb, hoffer⟩⟩ := h
  · simp [hheld] at hb
  · rw [hheld, Option.some.injEq] at hb
    exact ⟨hb ▸ hhas, hconfirmed, hhand, hb ▸ hoffer⟩

theorem ReaderRest.hand (h : ReaderRest s) {buf : AlignedBuffer} (hhand : s.reader.hand = some buf) :
    ReaderHas (some buf) s ∧ s.reader.held = none ∧ s.delivered = s.taken := by
  obtain ⟨b, hhas, hdelivered, ⟨hb, hheld, -⟩ | ⟨hb, -⟩⟩ := h
  · rw [hhand] at hb
    exact ⟨hb ▸ hhas, hheld, hdelivered⟩
  · simp [hhand] at hb

theorem WriterRest.confirmed (h : WriterRest s) : s.confirmed = s.published := by
  obtain ⟨_, _, hconfirmed, _⟩ := h
  exact hconfirmed

theorem ReaderRest.delivered (h : ReaderRest s) : s.delivered = s.taken := by
  obtain ⟨_, _, hdelivered, _⟩ := h
  exact hdelivered

/-- What the callers' contract says of a call without a future. -/
theorem ReaderRest.passed (h : ReaderRest s) {give : Bool} (hheld : s.reader.held.isNone = true)
    (hgive : give = s.reader.hand.isSome) :
    ReaderHas s.reader.hand s ∧ s.delivered = s.taken ∧ s.reader.held = none ∧
      SiteD.passed give s.reader.hand = (s.reader.hand, none) := by
  obtain ⟨b, hhas, hdelivered, hhandle⟩ := h
  rw [Option.isNone_iff_eq_none] at hheld
  have hb : s.reader.hand = b := by
    rcases hhandle with ⟨hb, -⟩ | ⟨hb, hb'⟩
    · exact hb
    · rw [hb, ← hheld, hb']
  refine ⟨hb ▸ hhas, hdelivered, hheld, ?_⟩
  cases hhand : s.reader.hand <;> simp [hhand, hgive, SiteD.passed]

variable [Waker W]

theorem writer_start (hw : 0 < w) {op : TripleOp T W} (hI : TripleInv s) (h : WriterRest s)
    (hcall : writerCall cap op s = some (t, p)) :
    TripleInv t ∧ writerContract.guar s t ∧ WriterRuns s op p t := by
  unfold writerCall at hcall
  split at hcall
  · split at hcall
    · simp at hcall
    · rename_i waker _ _ buf hheld
      obtain ⟨rfl, rfl⟩ := by simpa using hcall
      obtain ⟨hhas, hconfirmed, hhand, hoffer⟩ := h.held hheld
      apply writerStart hI
      intro hI'
      have hoffering : Offering buf { s with
          writer := { s.writer with held := none }
          writerSlot := s.writerSlot.beginPoll waker } :=
        ⟨⟨hhas.busy, hhas.slot, hhas.owns⟩, hhand, rfl, hoffer, hconfirmed⟩
      refine ⟨pollPublish_triple hw waker _ hI' hoffering, ?_⟩
      refine (pollPublish_ends hw waker _ ⟨hI', trivial⟩ ⟨hoffering, rfl, hoffer⟩).mono ?_
      exact fun _ _ _ hends => ⟨buf, hheld, hends⟩
  · obtain ⟨rfl, rfl⟩ := by simpa using hcall
    obtain ⟨buf, hhas, hconfirmed, hbuf⟩ := h
    apply writerStart hI
    intro _
    exact writerRest_runs ⟨buf, ⟨hhas.busy, hhas.slot, hhas.owns⟩, hconfirmed, hbuf⟩ rfl
  · rename_i contents len _
    obtain ⟨r, hfill, hcall⟩ := Option.map_eq_some_iff.mp hcall
    obtain ⟨buf, hhand, rfl⟩ := fillHand_eq hfill
    obtain ⟨rfl, rfl⟩ := by simpa using hcall
    obtain ⟨hhas, hconfirmed, hheld⟩ := h.hand hhand
    have hmem : buf.ptr ∈ s.writerOwns := by simp [hhas.owns]
    have hinv := hI.fill (fun i hi => hI.not_writerOwns_of_slot hi hmem) contents
    refine ⟨(hinv.setWriter _ _ _).1, writerGuar { hI.fill_readerRely hmem with },
      writerRest_runs ?_ rfl⟩
    exact ⟨{ buf with len := len }, ⟨hhas.busy, hhas.slot, hhas.owns⟩, hconfirmed,
      .inl ⟨rfl, hheld⟩⟩
  · obtain ⟨buf, hhand, hcall⟩ := Option.map_eq_some_iff.mp hcall
    obtain ⟨rfl, rfl⟩ := by simpa using hcall
    obtain ⟨hhas, hconfirmed, hheld⟩ := h.hand hhand
    apply writerStart hI
    intro hI'
    have hoffering : Offering buf { s with
        writer := { s.writer with hand := none }
        offer := (s.heap buf.ptr, buf.len) } :=
      ⟨⟨hhas.busy, hhas.slot, hhas.owns⟩, rfl, hheld, rfl, hconfirmed⟩
    refine ⟨tryPublish_triple hw _ hI' hoffering, ?_⟩
    refine (tryPublish_ends hw _ ⟨hI', trivial⟩ ⟨hoffering, rfl, rfl⟩).mono ?_
    exact fun _ _ _ hends => ⟨buf, hhand, hends⟩
  · split at hcall
    · rename_i buf hhand hheld
      obtain ⟨rfl, rfl⟩ := by simpa using hcall
      obtain ⟨hhas, hconfirmed, -⟩ := h.hand hhand
      apply writerStart hI
      intro _
      refine writerRest_runs ?_ rfl
      exact ⟨buf, ⟨hhas.busy, hhas.slot, hhas.owns⟩, hconfirmed, .inr ⟨rfl, rfl, rfl⟩⟩
    · simp at hcall
  · split at hcall
    · rename_i hhand
      obtain ⟨rfl, rfl⟩ := by simpa using hcall
      obtain ⟨buf, hhas, hconfirmed, hbuf⟩ := h
      apply writerStart hI
      intro _
      refine writerRest_runs ?_ rfl
      refine ⟨buf, ⟨hhas.busy, hhas.slot, hhas.owns⟩, hconfirmed, .inl ⟨?_, rfl⟩⟩
      rcases hbuf with ⟨hb, -⟩ | ⟨-, hheld, -⟩
      · simp [hhand] at hb
      · exact hheld
    · simp at hcall
  · simp at hcall

theorem reader_start {op : TripleOp T W} (hI : TripleInv s) (h : ReaderRest s)
    (hcontract : sparesHeld s .reader op = true) (hcall : readerCall cap op s = some (t, p)) :
    TripleInv t ∧ readerContract.guar s t ∧ ReaderRuns s op p t := by
  unfold readerCall at hcall
  split at hcall
  · rename_i waker hfuture
    obtain ⟨rfl, rfl⟩ := by simpa using hcall
    obtain ⟨b, hhas, hdelivered, hhandle⟩ := h
    have hheld : s.reader.held = b ∧ s.reader.hand = none := by
      rcases hhandle with ⟨hb, hheld, hnone⟩ | ⟨hb, hheld⟩
      · rw [hnone hfuture] at hb ⊢
        exact ⟨hheld, hb⟩
      · exact ⟨hheld, hb⟩
    apply readerStart hI
    intro hI'
    rw [hheld.1]
    have hasking : Asking b true { s with
        reader := { s.reader with held := none }
        readerSlot := s.readerSlot.beginPoll waker } :=
      ⟨⟨hhas.busy, hhas.slot, hhas.owns⟩, by simp [hheld.2, hfuture], hdelivered⟩
    exact ⟨pollNext_triple true waker _ hI' hasking,
      pollNext_ends waker _ ⟨hI', trivial⟩ ⟨hasking, rfl⟩⟩
  · obtain ⟨rfl, rfl⟩ := by simpa using hcall
    obtain ⟨b, hhas, hdelivered, hhandle⟩ := h
    apply readerStart hI
    intro _
    refine readerRest_runs ?_ rfl
    refine ⟨b, ⟨hhas.busy, hhas.slot, hhas.owns⟩, hdelivered, ?_⟩
    rcases hhandle with ⟨hb, hheld, -⟩ | hheld
    · exact .inl ⟨hb, hheld, fun h => Bool.noConfusion h⟩
    · exact .inr hheld
  · rename_i contents len hfuture
    obtain ⟨r, hfill, hcall⟩ := Option.map_eq_some_iff.mp hcall
    obtain ⟨buf, hhand, rfl⟩ := fillHand_eq hfill
    obtain ⟨rfl, rfl⟩ := by simpa using hcall
    obtain ⟨hhas, hheld, hdelivered⟩ := h.hand hhand
    have hmem : buf.ptr ∈ s.readerOwns := by simp [hhas.owns]
    have hinv := hI.fill (fun i hi => hI.not_readerOwns_of_slot hi hmem) contents
    refine ⟨(hinv.setReader _ _).1, readerGuar { hI.fill_writerRely hmem with },
      readerRest_runs ?_ rfl⟩
    refine ⟨some { buf with len := len }, ⟨hhas.busy, hhas.slot, hhas.owns⟩, hdelivered,
      .inl ⟨rfl, hheld, fun h => ?_⟩⟩
    exact absurd (hfuture.symm.trans h) Bool.noConfusion
  · obtain ⟨rfl, rfl⟩ := by simpa using hcall
    rename_i hfuture
    obtain ⟨hheld, hgive⟩ := by simpa [sparesHeld] using hcontract
    obtain ⟨hhas, hdelivered, hheld, hpassed⟩ := h.passed (by simp [hheld]) hgive
    rw [hpassed]
    apply readerStart hI
    intro hI'
    have hasking : Asking s.reader.hand false { s with reader := { s.reader with hand := none } } :=
      ⟨⟨hhas.busy, hhas.slot, hhas.owns⟩, by simp [hheld, hfuture], hdelivered⟩
    exact ⟨tryNext_triple _ hI' hasking, tryNext_ends _ ⟨hI', trivial⟩ ⟨hasking, rfl⟩⟩
  · rename_i hfuture
    have hgive := by simpa [sparesHeld, passesHand] using hcontract
    cases hhand : s.reader.hand with
    | none =>
      -- the buffer that a cancelled future left in the handle is the next future's
      obtain ⟨rfl, rfl⟩ := by simpa [hgive, hhand, SiteD.passed] using hcall
      obtain ⟨b, hhas, hdelivered, hhandle⟩ := h
      have hheld : s.reader.held = b := by
        rcases hhandle with ⟨hb, hheld, -⟩ | ⟨-, hheld⟩
        · rw [hheld, ← hb, hhand]
        · exact hheld
      apply readerStart hI
      intro _
      exact readerRest_runs
        ⟨b, ⟨hhas.busy, hhas.slot, hhas.owns⟩, hdelivered, .inr ⟨rfl, hheld⟩⟩ rfl
    | some buf =>
      obtain ⟨hhas, hheld, hdelivered⟩ := h.hand hhand
      obtain ⟨rfl, rfl⟩ := by simpa [hgive, hhand, hheld, SiteD.passed] using hcall
      apply readerStart hI
      intro _
      exact readerRest_runs
        ⟨some buf, ⟨hhas.busy, hhas.slot, hhas.owns⟩, hdelivered, .inr ⟨rfl, rfl⟩⟩ rfl
  · split at hcall
    · rename_i hhand
      obtain ⟨rfl, rfl⟩ := by simpa using hcall
      obtain ⟨b, hhas, hdelivered, hhandle⟩ := h
      apply readerStart hI
      intro _
      refine readerRest_runs ?_ rfl
      refine ⟨b, ⟨hhas.busy, hhas.slot, hhas.owns⟩, hdelivered,
        .inl ⟨?_, rfl, fun h => Bool.noConfusion h⟩⟩
      rcases hhandle with ⟨hb, hheld, -⟩ | ⟨-, hheld⟩
      · rw [← hb, hhand, hheld]
      · exact hheld
    · simp at hcall
  · simp at hcall

end Start

section Handoff

variable [Inhabited T] {cap : Nat}

theorem TripleInv.init : TripleInv (TripleState.init cap : TripleState w T W) where
  generation := rfl
  lastRead := rfl
  le := le_rfl
  bound := Nat.zero_le _
  fifo := rfl
  confirmed := List.prefix_rfl
  returned := List.prefix_rfl
  publishing := fun _ => rfl
  taking := fun h => Bool.noConfusion h
  apart := by simp [TripleState.init]
  middle := fun _ _ => ⟨by simp [TripleState.init], by simp [TripleState.init], 2, rfl,
    fun h => by simp [TripleState.init] at h⟩
  owned := fun p => by
    simp only [owners, slotCount, TripleState.init, Fin.sum_univ_three, List.count_singleton,
      List.count_nil]
    rcases p with _ | _ | _ | p <;> simp
  fresh := fun _ h => by simp [TripleState.init] at h
  sound := ⟨rfl, rfl⟩

variable [Waker W]

theorem tripleOutline_sound (hw : 0 < w)
    {contract : TripleState w T W → TripleSide → TripleOp T W → Bool}
    (hspares : ∀ s op, contract s .reader op = true → sparesHeld s .reader op = true) :
    (tripleOutline (w := w) (T := T) (W := W)).Sound (tripleThreads cap contract) where
  init := TripleInv.init
  initRest := by
    rintro (_ | _)
    · exact ⟨⟨0, 0⟩, ⟨rfl, rfl, rfl⟩, rfl, .inl ⟨rfl, rfl⟩⟩
    · exact ⟨none, ⟨rfl, rfl, rfl⟩, rfl, .inl ⟨rfl, rfl, fun _ => rfl⟩⟩
  stable := by
    rintro (_ | _)
    · exact WriterRest.stable
    · exact ReaderRest.stable
  start := by
    intro side op s t p hI hrest hstart
    change (if contract s side op = true then _ else none) = _ at hstart
    split at hstart
    · rename_i hcontract
      cases side with
      | writer =>
        obtain ⟨hinv, hguar, hruns⟩ := writer_start hw hI hrest hstart
        exact ⟨hinv, hguar, hruns.1⟩
      | reader =>
        obtain ⟨hinv, hguar, hruns⟩ := reader_start hI hrest (hspares s op hcontract) hstart
        exact ⟨hinv, hguar, hruns.1⟩
    · simp at hstart
  finish := by
    intro side _ s _ hpost _
    cases side <;> exact hpost
  again := by
    intro side _ s _ _ _ hagain
    simp [tripleThreads] at hagain

omit [Inhabited T] [Waker W] in
theorem sparesHeld_of_passesBack (s : TripleState w T W) (op : TripleOp T W)
    (h : passesBack s .reader op = true) : sparesHeld s .reader op = true := by
  cases op with
  | tryNext give => exact h
  | next give => exact (Bool.and_eq_true _ _ ▸ h).2
  | _ => rfl

section Reports

variable {contract : TripleState w T W → TripleSide → TripleOp T W → Bool} {op : TripleOp T W}
  {s t : ThreadState (TripleState w T W) TripleSide PUnit}

theorem callEnds_rest (hs : (tripleOutline (w := w) (T := T) (W := W)).Holds s) {i : TripleSide}
    (h : (tripleThreads cap contract).CallEnds i op s t) : tripleOutline.rest i s.mem := by
  have hrest := hs.2 i
  rwa [h.was_idle] at hrest

theorem writer_reports (hw : 0 < w)
    (hspares : ∀ s op, contract s .reader op = true → sparesHeld s .reader op = true)
    (hs : (tripleOutline (w := w) (T := T) (W := W)).Holds s)
    (h : (tripleThreads cap contract).CallEnds .writer op s t) : WriterReports s.mem t.mem op := by
  have hsound : tripleOutline.Sound (tripleThreads cap contract) := tripleOutline_sound hw hspares
  have hbefore := callEnds_rest hs h
  have hafter := (hsound.callEnds_holds hs h).2 .writer
  rw [h.idle] at hafter
  have hruns : ∀ m p, (tripleThreads cap contract).start .writer op s.mem = some (m, p) →
      tripleOutline.rest .writer s.mem → writerKnown.Ok (fun _ u => WriterEnds s.mem u op) p m := by
    intro m p hstart hrest
    change (if contract s.mem .writer op = true then _ else none) = _ at hstart
    split at hstart
    · exact (writer_start hw hs.1 hrest hstart).2.2.2
    · cases hstart
  obtain ⟨-, hends⟩ :=
    hsound.callEnds_known (fun _ => rfl) (fun _ => WriterEnds.stable s.mem op) hs hruns h
  exact hends.reports (WriterRest.confirmed hbefore) (WriterRest.confirmed hafter)

theorem reader_reports (hw : 0 < w)
    (hspares : ∀ s op, contract s .reader op = true → sparesHeld s .reader op = true)
    (hs : (tripleOutline (w := w) (T := T) (W := W)).Holds s)
    (h : (tripleThreads cap contract).CallEnds .reader op s t) : ReaderReports s.mem t.mem op := by
  have hsound : tripleOutline.Sound (tripleThreads cap contract) := tripleOutline_sound hw hspares
  have hbefore := callEnds_rest hs h
  have hafter := (hsound.callEnds_holds hs h).2 .reader
  rw [h.idle] at hafter
  have hruns : ∀ m p, (tripleThreads cap contract).start .reader op s.mem = some (m, p) →
      tripleOutline.rest .reader s.mem → readerKnown.Ok (fun _ u => ReaderEnds s.mem u op) p m := by
    intro m p hstart hrest
    change (if contract s.mem .reader op = true then _ else none) = _ at hstart
    split at hstart
    · rename_i hcontract
      exact (reader_start hs.1 hrest (hspares _ _ hcontract) hstart).2.2.2
    · cases hstart
  obtain ⟨-, hends⟩ :=
    hsound.callEnds_known (fun _ => rfl) (fun _ => ReaderEnds.stable s.mem op) hs hruns h
  exact hends.reports (ReaderRest.delivered hbefore) (ReaderRest.delivered hafter)

end Reports

/-- In every interleaving the buffers that the writer's calls report as published are, and the ones
that the reader's calls return are these, in order and with their lengths; at most one is unread; the
next buffer of a publish is empty; each of the three buffers has one owner; and no rotation finds a
null pointer or a slot that is taken. Each call publishes or takes just what it reports. -/
theorem triplebuffer_is_lossless_handoff (w : Nat) (hw : 0 < w) (cap : Nat) (T W : Type)
    [Waker W] [Inhabited T] (s : ThreadState (TripleState w T W) TripleSide PUnit)
    (h : (tripleThreads cap passesBack).machine.Reachable s) :
    s.mem.delivered <+: s.mem.taken ∧ s.mem.taken <+: s.mem.published ∧
      s.mem.confirmed <+: s.mem.published ∧
      (s.running .writer = none → s.mem.confirmed = s.mem.published) ∧
      s.mem.published.length ≤ s.mem.taken.length + 1 ∧
      (s.running .reader = none → s.mem.delivered = s.mem.taken) ∧
      (∀ next, s.mem.writerOut = some (.published next) → next.len = 0) ∧
      (∀ p < 3, s.mem.owners p = 1) ∧
      (s.running .writer = none → s.mem.writerOwns =
        (s.mem.writer.hand.toList ++ s.mem.writer.held.toList).map AlignedBuffer.ptr) ∧
      (s.running .reader = none → s.mem.readerOwns =
        (s.mem.reader.hand.toList ++ s.mem.reader.held.toList).map AlignedBuffer.ptr) ∧
      s.mem.nullMiddle = false ∧ s.mem.displaced = false ∧
      (∀ op t, (tripleThreads cap passesBack).CallEnds .writer op s t →
        WriterReports s.mem t.mem op) ∧
      ∀ op t, (tripleThreads cap passesBack).CallEnds .reader op s t →
        ReaderReports s.mem t.mem op := by
  obtain ⟨hI, hsides⟩ := (tripleOutline_sound hw sparesHeld_of_passesBack).reachable h
  have hwriter := hsides .writer
  have hreader := hsides .reader
  refine ⟨hI.returned, ?_, hI.confirmed, ?_, hI.bound, ?_, hI.fresh, ?_, ?_, ?_, hI.sound.1, hI.sound.2,
    fun _ _ hcall => writer_reports hw sparesHeld_of_passesBack ⟨hI, hsides⟩ hcall,
    fun _ _ hcall => reader_reports hw sparesHeld_of_passesBack ⟨hI, hsides⟩ hcall⟩
  · rw [hI.fifo]
    exact List.take_prefix _ _
  · intro hidle
    rw [hidle] at hwriter
    exact WriterRest.confirmed hwriter
  · intro hidle
    rw [hidle] at hreader
    exact ReaderRest.delivered hreader
  · intro p hp
    rw [hI.owned p, if_pos hp]
  · intro hidle
    rw [hidle] at hwriter
    obtain ⟨buf, hhas, -, ⟨hhand, hheld⟩ | ⟨hhand, hheld, -⟩⟩ := hwriter
    · simp [hhand, hheld, hhas.owns]
    · simp [hhand, hheld, hhas.owns]
  · intro hidle
    rw [hidle] at hreader
    obtain ⟨previous, hhas, -, ⟨hhand, hheld, -⟩ | ⟨hhand, hheld⟩⟩ := hreader
    · simp [hhand, hheld, hhas.owns]
    · simp [hhand, hheld, hhas.owns]

end Handoff

/-- Two rounds with a generation of one bit, which wraps in the second. -/
theorem triplebuffer_hands_over_two_rounds :
    ∃ s : ThreadState (TripleState 1 Nat Waker.OfTask) TripleSide PUnit,
      (tripleThreads 1 passesBack).machine.Reachable s ∧
      s.mem.delivered = [([7], 1), ([9], 1)] ∧ s.mem.confirmed = [([7], 1), ([9], 1)] ∧
      s.mem.generation = 0 ∧ s.mem.delivered <+: s.mem.taken ∧ s.mem.taken <+: s.mem.published := by
  obtain ⟨s, hrun, hdelivered, hconfirmed, hgeneration⟩ := Machine.exists_end
    (M := (tripleThreads (w := 1) (T := Nat) (W := Waker.OfTask) 1 passesBack).machine)
    (P := fun s => s.mem.delivered = [([7], 1), ([9], 1)] ∧
      s.mem.confirmed = [([7], 1), ([9], 1)] ∧ s.mem.generation = 0)
    (c := fun s => decide (s.mem.delivered = [([7], 1), ([9], 1)] ∧
      s.mem.confirmed = [([7], 1), ([9], 1)] ∧ s.mem.generation = 0))
    (List.flatten
      [.call .writer (.fill [7] 1) :: .step .writer ::
        .call .writer .tryPublish :: List.replicate 14 (.step .writer),
      .call .reader (.tryNext false) :: List.replicate 13 (.step .reader),
      .call .writer (.fill [9] 1) :: .step .writer ::
        .call .writer .tryPublish :: List.replicate 14 (.step .writer),
      .call .reader (.tryNext true) :: List.replicate 15 (.step .reader)])
    (by decide +kernel) fun s _ hs => of_decide_eq_true hs
  have hhandoff := triplebuffer_is_lossless_handoff 1 Nat.one_pos 1 Nat Waker.OfTask s ⟨_, hrun⟩
  exact ⟨s, ⟨_, hrun⟩, hdelivered, hconfirmed, hgeneration, hhandoff.1, hhandoff.2.1⟩

end Cynosure.SiteD
