import Cynosure.Lib.Layer
import Cynosure.SiteD.BipBufferStream

/-! # What the waiters of the bip buffer know

A layer over the outline of the stream. A parked `reserve` knows that it found no room
and that nothing was freed without a signal on its slot; a parked `read` knows that it
found nothing to read and that nothing was committed without one. Every party
knows of its own calls of `signal` that they return before it does.
-/

namespace Cynosure.SiteD

open Prog

variable {w : Nat} {W : Type}

namespace BipState

/-- `try_reserve(n)` fails: a grant is out, or `n` bytes fit nowhere. A drained buffer always
has room for what it can hold at all. -/
def NoRoom (cap n : Nat) (s : BipState w W) : Prop :=
  s.wip = true ∨ (¬ (s.read = s.write ∧ s.write ≠ 0) ∧ placement cap n s.read s.write = none)

/-- Nothing is unread, or the producer is resetting a buffer in which nothing is. -/
def Drained (s : BipState w W) : Prop := s.ticks % 2 = 1 ∨ s.read = s.write

/-- The flag is held by a grant that can still be handed back. -/
def WriterKnown (g : Nat) (s : BipState w W) : Prop := s.writer = some g → s.writeGrants g ≠ none

def ReaderKnown (g : Nat) (s : BipState w W) : Prop := s.reader = some g → s.readGrants g ≠ none

/-- How far the party's calls of `signal` on the two slots are. -/
def Signals (i : BipParty) (data space : Option (SignalPc W)) (s : BipState w W) : Prop :=
  s.data.signals i = data ∧ s.space.signals i = space

def Quiet (i : BipParty) (s : BipState w W) : Prop := s.Signals i none none

end BipState

structure BipWaitInv [Waker W] (cap : Nat) (s : BipState w W) : Prop where
  data : SlotInv s.data
  space : SlotInv s.space
  asked : ∀ n, s.reserving = some n → n ≤ cap

/-- Room is made only together with a signal on the slot. -/
structure ProducerWaits (s t : BipState w W) : Prop where
  reserving : t.reserving = s.reserving
  slot : s.space.WaiterSees t.space
  wip : t.space.published = false → s.wip = true → t.wip = true
  read : t.space.published = false → t.read = s.read

/-- Something to read appears only together with a signal on the slot. -/
structure ConsumerWaits (s t : BipState w W) : Prop where
  reading : t.reading = s.reading
  slot : s.data.WaiterSees t.data
  mono : s.ticks ≤ t.ticks
  rip : t.data.published = false → s.rip = true → t.rip = true
  write : t.data.published = false → s.ticks % 2 = 0 → t.ticks = s.ticks → t.write = s.write
  drained : t.data.published = false → s.Drained → t.Drained

def bipWaitRely : BipParty → BipState w W → BipState w W → Prop
  | .producer, s, t => ProducerWaits s t
  | .consumer, s, t => ConsumerWaits s t
  | .write g, s, t => s.WriterKnown g → t.WriterKnown g
  | .read g, s, t => s.ReaderKnown g → t.ReaderKnown g

structure SignalsKept (i : BipParty) (s t : BipState w W) : Prop where
  data : t.data.signals i = s.data.signals i
  space : t.space.signals i = s.space.signals i

theorem bipWaitRely_refl (i : BipParty) (s : BipState w W) : bipWaitRely i s s := by
  cases i with
  | producer => exact ⟨rfl, .refl _, fun _ h => h, fun _ => rfl⟩
  | consumer => exact ⟨rfl, .refl _, le_rfl, fun _ h => h, fun _ _ _ => rfl, fun _ h => h⟩
  | write g => exact id
  | read g => exact id

theorem bipWaitRely_trans {i : BipParty} {r s t : BipState w W} (h : bipWaitRely i r s)
    (h' : bipWaitRely i s t) : bipWaitRely i r t := by
  cases i with
  | producer =>
    exact {
      reserving := h'.reserving.trans h.reserving
      slot := h.slot.trans h'.slot
      wip := fun hp hw => h'.wip hp (h.wip (h'.slot.published hp) hw)
      read := fun hp => (h'.read hp).trans (h.read (h'.slot.published hp)) }
  | consumer =>
    refine {
      reading := h'.reading.trans h.reading
      slot := h.slot.trans h'.slot
      mono := h.mono.trans h'.mono
      rip := fun hp hw => h'.rip hp (h.rip (h'.slot.published hp) hw)
      write := fun hp he ht => ?_
      drained := fun hp hd => h'.drained hp (h.drained (h'.slot.published hp) hd) }
    have hm := h.mono
    have hm' := h'.mono
    have hs : s.ticks = r.ticks := by omega
    exact (h'.write hp (by omega) (by omega)).trans (h.write (h'.slot.published hp) he hs)
  | write g => exact fun hr => h' (h hr)
  | read g => exact fun hr => h' (h hr)

/-- Where the producer is between its calls: without a registration, or parked on `n`. -/
def ReserveRest (cap : Nat) (s : BipState w W) : Prop :=
  s.space.phase = .out ∨ s.space.phase = .armed ∧
    ∃ n, s.reserving = some n ∧ (s.space.published = false → s.NoRoom cap n)

/-- Where the consumer is between its calls. -/
def ReadRest (s : BipState w W) : Prop :=
  s.data.phase = .out ∨ s.data.phase = .armed ∧ s.reading = true ∧
    (s.data.published = false → s.rip = true ∨ s.Drained)

/-- What a call of `try_read` may assume of the slot, by the place it comes from. -/
def ReadFrom : ReadCtx W → BipState w W → Prop
  | .tryRead, s => s.data.phase = .out
  | .poll waker, s => s.data.phase = .out ∧ s.data.current = some waker ∧ s.reading = true
  | .recheck, s => s.data.phase = .armed ∧ s.reading = true

def bipWaits [Waker W] (cap : Nat) : Outline (BipState w W) BipParty (BipNext W) where
  inv := BipWaitInv cap
  rely i s t := SignalsKept i s t ∧ bipWaitRely i s t
  refl i s := ⟨⟨rfl, rfl⟩, bipWaitRely_refl i s⟩
  trans h h' := ⟨⟨h'.1.data.trans h.1.data, h'.1.space.trans h.1.space⟩,
    bipWaitRely_trans h.2 h'.2⟩
  rest
    | .producer, s => ReserveRest cap s ∧ s.Quiet .producer
    | .consumer, s => ReadRest s ∧ s.Quiet .consumer
    | .write g, s => s.WriterKnown g ∧ s.Quiet (.write g)
    | .read g, s => s.ReaderKnown g ∧ s.Quiet (.read g)
  post
    | .producer, _, s => ReserveRest cap s ∧ s.Quiet .producer
    | .consumer, .done, s => ReadRest s ∧ s.Quiet .consumer
    | .consumer, .enter ctx, s => ReadFrom ctx s ∧ s.Quiet .consumer
    | .consumer, .retry ctx, s => ReadFrom ctx s ∧ s.Quiet .consumer
    | .write g, _, s => s.WriterKnown g ∧ s.Quiet (.write g)
    | .read g, _, s => s.ReaderKnown g ∧ s.Quiet (.read g)

variable [Waker W]

abbrev bipLayer (cap : Nat) (i : BipParty) : Layer (BipState w W) :=
  (bipOutline cap).layer (bipWaits cap) i

variable {cap : Nat}

section Guarantee

variable {i : BipParty} {s t : BipState w W}

/-- What the waiters see of a step that leaves the slots and the futures alone. -/
structure SameWaits (s t : BipState w W) : Prop where
  data : t.data = s.data
  space : t.space = s.space
  reserving : t.reserving = s.reserving
  reading : t.reading = s.reading

omit [Waker W] in
theorem SameWaits.signals (h : SameWaits s t) (j : BipParty) : SignalsKept j s t :=
  ⟨by rw [h.data], by rw [h.space]⟩

theorem SameWaits.inv (h : SameWaits s t) (hI : BipWaitInv cap s) : BipWaitInv cap t where
  data := by rw [h.data]; exact hI.data
  space := by rw [h.space]; exact hI.space
  asked := by rw [h.reserving]; exact hI.asked

omit [Waker W] in
theorem SameWaits.producer (h : SameWaits s t) (hwip : s.wip = true → t.wip = true)
    (hread : t.read = s.read) : ProducerWaits s t :=
  ⟨h.reserving, by rw [h.space]; exact .refl _, fun _ => hwip, fun _ => hread⟩

/-- The cursors, flags and grants are as they were. -/
structure SameGrants (s t : BipState w W) : Prop where
  write : t.write = s.write
  read : t.read = s.read
  wip : t.wip = s.wip
  rip : t.rip = s.rip
  ticks : t.ticks = s.ticks
  writer : t.writer = s.writer
  reader : t.reader = s.reader
  writeGrants : t.writeGrants = s.writeGrants
  readGrants : t.readGrants = s.readGrants

omit [Waker W] in
theorem SameGrants.of_same (h : SameBip s t) : SameGrants s t :=
  ⟨h.write, h.read, h.wip, h.rip, h.ticks, h.writer, h.reader, h.writeGrants, h.readGrants⟩

omit [Waker W] in
theorem SameGrants.drained (h : SameGrants s t) (hs : s.Drained) : t.Drained := by
  unfold BipState.Drained
  rw [h.ticks, h.read, h.write]
  exact hs

omit [Waker W] in
theorem SameGrants.noRoom (h : SameGrants s t) {n : Nat} (hs : s.NoRoom cap n) :
    t.NoRoom cap n := by
  unfold BipState.NoRoom
  rw [h.wip, h.read, h.write]
  exact hs

/-- A step on slots and futures: the other waiters keep their slots, the others their calls. -/
theorem SameGrants.guar (h : SameGrants s t)
    (hsignals : ∀ j, j ≠ i → SignalsKept j s t)
    (hproducer : i ≠ .producer → t.reserving = s.reserving ∧ s.space.WaiterSees t.space)
    (hconsumer : i ≠ .consumer → t.reading = s.reading ∧ s.data.WaiterSees t.data) :
    (bipLayer cap i).extra.guar s t := by
  intro j hj
  refine ⟨hsignals j hj, ?_⟩
  cases j with
  | producer =>
    obtain ⟨hreserving, hslot⟩ := hproducer hj.symm
    exact ⟨hreserving, hslot, fun _ hw => h.wip.trans hw, fun _ => h.read⟩
  | consumer =>
    obtain ⟨hreading, hslot⟩ := hconsumer hj.symm
    exact ⟨hreading, hslot, h.ticks.ge, fun _ hr => h.rip.trans hr, fun _ _ _ => h.write,
      fun _ => h.drained⟩
  | write g =>
    intro hw
    unfold BipState.WriterKnown
    rw [h.writer, h.writeGrants]
    exact hw
  | read g =>
    intro hr
    unfold BipState.ReaderKnown
    rw [h.reader, h.readGrants]
    exact hr

/-- A step on neither: results, checks and loads. -/
theorem SameGrants.guar_of_same (h : SameGrants s t) (hs : SameWaits s t) :
    (bipLayer cap i).extra.guar s t :=
  h.guar (fun j _ => hs.signals j) (fun _ => ⟨hs.reserving, by rw [hs.space]; exact .refl _⟩)
    fun _ => ⟨hs.reading, by rw [hs.data]; exact .refl _⟩

theorem waits_guar_refl (s : BipState w W) : (bipLayer cap i).extra.guar s s :=
  fun j _ => (bipWaits cap).refl j s

end Guarantee

section Rules

variable {i : BipParty} {P : BipState w W → Prop}

theorem load_layer {α : Type} {Q : α → BipState w W → Prop} {f : BipState w W → α}
    (hP : (bipLayer cap i).Stable P) (hQ : ∀ a, (bipLayer cap i).Stable (Q a))
    (h : ∀ s, (bipLayer cap i).inv s → P s → Q (f s) s) :
    (bipLayer cap i).Triple P (Prog.load f) Q :=
  .load hP hQ waits_guar_refl h

/-- A store that neither the cursors and grants nor the slots depend on. -/
theorem same_layer {f : BipState w W → BipState w W} {Q : BipState w W → Prop}
    (hP : (bipLayer cap i).Stable P) (hQ : (bipLayer cap i).Stable Q)
    (hf : ∀ s, SameGrants s (f s)) (hf' : ∀ s, SameWaits s (f s)) (h : ∀ s, P s → Q (f s)) :
    (bipLayer cap i).Triple P (Prog.store f) fun _ => Q :=
  .store hP (fun _ => hQ) fun s hI hs _ _ =>
    ⟨(hf' s).inv hI.2, (hf s).guar_of_same (hf' s), h s hs⟩

theorem check_layer {ok : Bool} (hP : (bipLayer cap i).Stable P)
    (h : ∀ s, P s → P { s with faulted := s.faulted || !ok }) :
    (bipLayer cap i).Triple P (check ok) fun _ => P :=
  same_layer hP hP (fun _ => by constructor <;> rfl) (fun _ => by constructor <;> rfl) h

theorem signals_stable (data space : Option (SignalPc W)) :
    (bipLayer cap i).Stable (BipState.Signals (w := w) i data space) :=
  fun _ _ _ hst h => ⟨hst.2.1.data.trans h.1, hst.2.1.space.trans h.2⟩

/-- A call of `signal` on `space`, beside what else the party knows. -/
theorem signalSpace_layer {data : Option (SignalPc W)} (hP : (bipLayer cap i).Stable P)
    (h : ∀ s x, P s → P { s with space := x }) :
    (bipLayer cap i).Triple (fun s => P s ∧ s.Signals i data (some .load)) (signalSpace i)
      fun _ s => P s ∧ s.Signals i data none := by
  have hstable : ∀ pc, (bipLayer cap i).Stable
      fun s => (P s ∧ s.data.signals i = data) ∧ s.space.signals i = pc := by
    intro pc s t hI hst hs
    obtain ⟨hdata, hspace⟩ := signals_stable _ _ s t hI hst ⟨hs.1.2, hs.2⟩
    exact ⟨⟨hP s t hI hst hs.1.1, hdata⟩, hspace⟩
  refine Layer.Triple.conseq (signal_layer (fun _ _ => rfl) hstable fun s pc hI hs hsig _ _ => ?_)
    (fun s _ hs => ⟨⟨hs.1, hs.2.1⟩, hs.2.2⟩) fun _ s _ hs => ⟨hs.1.1, hs.1.2, hs.2⟩
  refine ⟨⟨hI.2.data, hI.2.space.signalStep hsig, hI.2.asked⟩, ?_, h s _ hs.1, hs.2⟩
  exact SameGrants.guar (by constructor <;> rfl)
    (fun j hj => ⟨rfl, s.space.signalStep_signals_of_ne pc hj⟩)
    (fun _ => ⟨rfl, s.space.sees_signalStep i pc⟩) fun _ => ⟨rfl, .refl _⟩

theorem signalData_layer {space : Option (SignalPc W)} (hP : (bipLayer cap i).Stable P)
    (h : ∀ s x, P s → P { s with data := x }) :
    (bipLayer cap i).Triple (fun s => P s ∧ s.Signals i (some .load) space) (signalData i)
      fun _ s => P s ∧ s.Signals i none space := by
  have hstable : ∀ pc, (bipLayer cap i).Stable
      fun s => (P s ∧ s.space.signals i = space) ∧ s.data.signals i = pc := by
    intro pc s t hI hst hs
    obtain ⟨hdata, hspace⟩ := signals_stable _ _ s t hI hst ⟨hs.2, hs.1.2⟩
    exact ⟨⟨hP s t hI hst hs.1.1, hspace⟩, hdata⟩
  refine Layer.Triple.conseq (signal_layer (fun _ _ => rfl) hstable fun s pc hI hs hsig _ _ => ?_)
    (fun s _ hs => ⟨⟨hs.1, hs.2.2⟩, hs.2.1⟩) fun _ s _ hs => ⟨hs.1.1, hs.2, hs.1.2⟩
  refine ⟨⟨hI.2.data.signalStep hsig, hI.2.space, hI.2.asked⟩, ?_, h s _ hs.1, hs.2⟩
  exact SameGrants.guar (by constructor <;> rfl)
    (fun j hj => ⟨s.data.signalStep_signals_of_ne pc hj, rfl⟩) (fun _ => ⟨rfl, .refl _⟩)
    fun _ => ⟨rfl, s.data.sees_signalStep i pc⟩

end Rules

section WriteGrants

variable {g : Nat}

theorem writerKnown_stable :
    (bipLayer cap (.write g)).Stable (BipState.WriterKnown (w := w) (W := W) g) :=
  fun _ _ _ hst => hst.2.2

theorem writer_stable :
    (bipLayer cap (.write g)).Stable fun s : BipState w W => s.writer = some g :=
  fun _ _ _ hst h => (hst.1 h).writer

/-- A step of the holder of a write grant, which leaves the read side alone. -/
theorem writer_guar {s t : BipState w W}
    (hsignals : ∀ j, j ≠ .write g → SignalsKept j s t) (hproducer : ProducerWaits s t)
    (hconsumer : ConsumerWaits s t) (hwriter' : t.writer = some g ∨ t.writer = none)
    (hreader : t.reader = s.reader) (hgrants : t.readGrants = s.readGrants) :
    (bipLayer cap (.write g)).extra.guar s t := by
  intro j hj
  refine ⟨hsignals j hj, ?_⟩
  cases j with
  | producer => exact hproducer
  | consumer => exact hconsumer
  | write g' =>
    intro _ ht
    rcases hwriter' with h | h
    · rw [h, Option.some.injEq] at ht
      exact absurd (congrArg BipParty.write ht.symm) hj
    · simp [h] at ht
  | read g' =>
    intro hr
    unfold BipState.ReaderKnown
    rw [hreader, hgrants]
    exact hr

theorem publishCommit_layer {e : WriteGrant} {used : Nat} :
    (bipLayer cap (.write g)).Triple
      (fun s : BipState w W => Committing g e s ∧ s.Quiet (.write g))
      (store (BipState.publishCommit g e used))
      fun _ s => s.writer = some g ∧ s.Signals (.write g) (some .load) none := by
  refine .store (.and (.of_base (Committing.stable g e)) (signals_stable _ _))
    (fun _ => .and writer_stable (signals_stable _ _)) fun s hI h _ _ => ?_
  obtain ⟨hc, hquiet⟩ := h
  refine ⟨⟨hI.2.data.beginSignal hquiet.1, hI.2.space, hI.2.asked⟩, ?_, hc.writer,
    s.data.beginSignal_signals_self _, hquiet.2⟩
  refine writer_guar (fun j hj => ⟨s.data.beginSignal_signals_of_ne hj, rfl⟩)
    ⟨rfl, .refl _, fun _ h => h, fun _ => rfl⟩ ?_ (.inl hc.writer) rfl rfl
  exact ⟨rfl, s.data.sees_beginSignal _, le_rfl, fun h => (by cases h), fun h => (by cases h),
    fun h => by cases h⟩

/-- The flag is given back together with a signal on `space`. -/
theorem clearWip_layer :
    (bipLayer cap (.write g)).Triple
      (fun s : BipState w W => s.writer = some g ∧ s.Signals (.write g) (some .load) none)
      (store (BipState.clearWip g))
      fun _ s => s.WriterKnown g ∧ s.Signals (.write g) (some .load) (some .load) := by
  refine .store (.and writer_stable (signals_stable _ _))
    (fun _ => .and writerKnown_stable (signals_stable _ _)) fun s hI h _ _ => ?_
  obtain ⟨hwriter, hsig⟩ := h
  refine ⟨⟨hI.2.data, hI.2.space.beginSignal hsig.2, hI.2.asked⟩, ?_, fun h => (by cases h), hsig.1,
    s.space.beginSignal_signals_self _⟩
  refine writer_guar (fun j hj => ⟨rfl, s.space.beginSignal_signals_of_ne hj⟩)
    ⟨rfl, s.space.sees_beginSignal _, fun h => (by cases h), fun h => by cases h⟩ ?_ (.inr rfl) rfl rfl
  exact ⟨rfl, .refl _, le_rfl, fun _ h => h, fun _ _ _ => rfl, fun _ h => h⟩

theorem commit_layer (e : WriteGrant) (used : Nat) :
    (bipLayer cap (.write g)).Triple
      (fun s : BipState w W => Committing g e s ∧ s.Quiet (.write g)) (commit cap g e used)
      fun _ s => s.WriterKnown g ∧ s.Quiet (.write g) := by
  have hP : (bipLayer cap (.write g)).Stable
      fun s : BipState w W => Committing g e s ∧ s.Quiet (.write g) :=
    .and (.of_base (Committing.stable g e)) (signals_stable _ _)
  apply (load_layer hP (fun _ => hP) fun _ _ h => h).bind
  intro wr
  refine Layer.Triple.bind (R := fun _ s => Committing g e s ∧ s.Quiet (.write g)) ?_ fun _ => ?_
  · unfold storeLast
    split
    · refine same_layer hP hP (fun _ => by constructor <;> rfl) (fun _ => by constructor <;> rfl) ?_
      exact fun s h => ⟨⟨h.1.writer, h.1.grant⟩, h.2⟩
    · exact .ret hP fun _ _ h => h
  apply (check_layer hP fun s h => ⟨⟨h.1.writer, h.1.grant⟩, h.2⟩).bind
  intro _
  apply publishCommit_layer.bind
  intro _
  apply clearWip_layer.bind
  intro _
  apply (signalSpace_layer writerKnown_stable fun _ _ h => h).bind
  exact fun _ => signalData_layer writerKnown_stable fun _ _ h => h

theorem dropWrite_layer (e : WriteGrant) :
    (bipLayer cap (.write g)).Triple
      (fun s : BipState w W => Committing g e s ∧ s.Quiet (.write g)) (dropWrite g)
      fun _ s => s.WriterKnown g ∧ s.Quiet (.write g) := by
  refine Layer.Triple.bind
    (R := fun b s => b = true ∧ s.WriterKnown g ∧ s.Signals (.write g) none (some .load)) ?_ fun b => ?_
  · refine .exchange (.and (.of_base (Committing.stable g e)) (signals_stable _ _))
      (fun b s t hI hst h => ⟨h.1, writerKnown_stable s t hI hst h.2.1,
        signals_stable _ _ s t hI hst h.2.2⟩) fun s hI h _ _ => ?_
    obtain ⟨hc, hquiet⟩ := h
    have hwip : s.wip = true := hc.wip hI.1
    have hspace : (s.swapWip g).space = s.space.beginSignal (.write g) := if_pos hwip
    refine ⟨⟨hI.2.data, by rw [hspace]; exact hI.2.space.beginSignal hquiet.2, hI.2.asked⟩, ?_,
      hwip, fun h => (by cases h), hquiet.1, by rw [hspace]; exact s.space.beginSignal_signals_self _⟩
    refine writer_guar (fun j hj => ⟨rfl, ?_⟩) ⟨rfl, ?_, fun h => ?_, fun _ => rfl⟩
      ⟨rfl, .refl _, le_rfl, fun _ h => h, fun _ _ _ => rfl, fun _ h => h⟩ (.inr rfl) rfl rfl
    · rw [hspace]
      exact s.space.beginSignal_signals_of_ne hj
    · rw [hspace]
      exact s.space.sees_beginSignal _
    · rw [hspace] at h
      cases h
  · cases b with
    | true =>
      refine (signalSpace_layer writerKnown_stable fun _ _ h => h).conseq (fun _ _ h => h.2)
        fun _ _ _ h => h
    | false =>
      intro s _ h
      cases h.1

end WriteGrants

section ReadGrants

variable {g : Nat}

theorem readerKnown_stable :
    (bipLayer cap (.read g)).Stable (BipState.ReaderKnown (w := w) (W := W) g) :=
  fun _ _ _ hst => hst.2.2

theorem reader_stable :
    (bipLayer cap (.read g)).Stable fun s : BipState w W => s.reader = some g :=
  fun _ _ _ hst h => (hst.1 h).reader

theorem reader_guar {s t : BipState w W}
    (hsignals : ∀ j, j ≠ .read g → SignalsKept j s t) (hproducer : ProducerWaits s t)
    (hconsumer : ConsumerWaits s t) (hreader' : t.reader = some g ∨ t.reader = none)
    (hwriter : t.writer = s.writer) (hgrants : t.writeGrants = s.writeGrants) :
    (bipLayer cap (.read g)).extra.guar s t := by
  intro j hj
  refine ⟨hsignals j hj, ?_⟩
  cases j with
  | producer => exact hproducer
  | consumer => exact hconsumer
  | write g' =>
    intro hw
    unfold BipState.WriterKnown
    rw [hwriter, hgrants]
    exact hw
  | read g' =>
    intro _ ht
    rcases hreader' with h | h
    · rw [h, Option.some.injEq] at ht
      exact absurd (congrArg BipParty.read ht.symm) hj
    · simp [h] at ht

omit [Waker W] in
/-- A read grant shows at least one unread byte. -/
theorem Releasing.not_drained {e : ReadGrant} {s : BipState w W} (h : Releasing g e s)
    (hI : BipInv cap s) : ¬ s.Drained := by
  have heven := h.even hI
  obtain ⟨-, hpos, hplace⟩ := h.fits hI
  rintro (hodd | heq)
  · omega
  · rw [if_neg (by omega)] at hplace
    omega

theorem publishRelease_layer {e : ReadGrant} {r used : Nat} :
    (bipLayer cap (.read g)).Triple
      (fun s : BipState w W => Releasing g e s ∧ s.Quiet (.read g))
      (store (BipState.publishRelease g e r used))
      fun _ s => s.reader = some g ∧ s.Signals (.read g) none (some .load) := by
  refine .store (.and (.of_base (Releasing.stable g e)) (signals_stable _ _))
    (fun _ => .and reader_stable (signals_stable _ _)) fun s hI h _ _ => ?_
  obtain ⟨hc, hquiet⟩ := h
  refine ⟨⟨hI.2.data, hI.2.space.beginSignal hquiet.2, hI.2.asked⟩, ?_, hc.reader, hquiet.1,
    s.space.beginSignal_signals_self _⟩
  refine reader_guar (fun j hj => ⟨rfl, s.space.beginSignal_signals_of_ne hj⟩)
    ⟨rfl, s.space.sees_beginSignal _, fun h => (by cases h), fun h => by cases h⟩ ?_
    (.inl hc.reader) rfl rfl
  exact ⟨rfl, .refl _, le_rfl, fun _ h => h, fun _ _ _ => rfl,
    fun _ h => absurd h (hc.not_drained hI.1)⟩

theorem clearRip_layer {space : Option (SignalPc W)} {P : BipState w W → Prop}
    (hP : (bipLayer cap (.read g)).Stable P) :
    (bipLayer cap (.read g)).Triple (fun s => P s ∧ s.Signals (.read g) none space)
      (store (BipState.clearRip g))
      fun _ s => s.ReaderKnown g ∧ s.Signals (.read g) (some .load) space := by
  refine .store (.and hP (signals_stable _ _))
    (fun _ => .and readerKnown_stable (signals_stable _ _)) fun s hI hs _ _ => ?_
  obtain ⟨hPs, hsig⟩ := hs
  refine ⟨⟨hI.2.data.beginSignal hsig.1, hI.2.space, hI.2.asked⟩, ?_, fun h => (by cases h),
    s.data.beginSignal_signals_self _, hsig.2⟩
  refine reader_guar (fun j hj => ⟨s.data.beginSignal_signals_of_ne hj, rfl⟩)
    ⟨rfl, .refl _, fun _ h => h, fun _ => rfl⟩ ?_ (.inr rfl) rfl rfl
  exact ⟨rfl, s.data.sees_beginSignal _, le_rfl, fun h => (by cases h), fun h => (by cases h),
    fun h => by cases h⟩

theorem release_layer (e : ReadGrant) (used : Nat) :
    (bipLayer cap (.read g)).Triple
      (fun s : BipState w W => Releasing g e s ∧ s.Quiet (.read g)) (release cap g e used)
      fun _ s => s.ReaderKnown g ∧ s.Quiet (.read g) := by
  have hP : (bipLayer cap (.read g)).Stable
      fun s : BipState w W => Releasing g e s ∧ s.Quiet (.read g) :=
    .and (.of_base (Releasing.stable g e)) (signals_stable _ _)
  apply (load_layer hP (fun _ => hP) fun _ _ h => h).bind
  intro r
  apply (check_layer hP fun s h => ⟨⟨h.1.reader, h.1.grant⟩, h.2⟩).bind
  intro _
  apply publishRelease_layer.bind
  intro _
  apply (clearRip_layer reader_stable).bind
  intro _
  apply (signalData_layer readerKnown_stable fun _ _ h => h).bind
  exact fun _ => signalSpace_layer readerKnown_stable fun _ _ h => h

theorem dropRead_layer (e : ReadGrant) :
    (bipLayer cap (.read g)).Triple
      (fun s : BipState w W => Releasing g e s ∧ s.Quiet (.read g)) (dropRead g)
      fun _ s => s.ReaderKnown g ∧ s.Quiet (.read g) := by
  apply (clearRip_layer (.of_base (Releasing.stable g e))).bind
  exact fun _ => signalData_layer readerKnown_stable fun _ _ h => h

end ReadGrants

end Cynosure.SiteD
