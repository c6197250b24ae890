import Cynosure.Lib.Word
import Cynosure.SiteD.BipBuffer

/-! # What the parties of a bip buffer keep

The cursors are in one of two modes: the unread bytes are `[read, write)`, or, when the
producer has wrapped and the consumer has not, `[read, last)` followed by `[0, write)`.
The in-progress flags give `write` and `last` to the holder of the write grant and
`read` to the holder of the read grant. The producer's reset of a drained buffer is
the only move of somebody else's cursor; the epoch is odd during it and `ticks`
counts its steps without wrapping.
-/

namespace Cynosure.SiteD

variable {w : Nat} {W : Type}

section Region

variable {buf : Nat → UInt8}

@[simp] theorem region_zero (start : Nat) : region buf start 0 = [] := rfl

@[simp] theorem length_region (start len : Nat) : (region buf start len).length = len := by
  simp [region]

theorem region_add (start m n : Nat) :
    region buf start (m + n) = region buf start m ++ region buf (start + m) n := by
  simp only [region, List.range_add, List.map_append, List.map_map]
  congr 1
  apply List.map_congr_left
  intro i _
  simp [Nat.add_assoc]

theorem take_region {start m n : Nat} (h : m ≤ n) :
    (region buf start n).take m = region buf start m := by
  obtain ⟨k, rfl⟩ := Nat.exists_eq_add_of_le h
  rw [region_add, List.take_left' (length_region _ _)]

theorem region_update_of_disjoint {start n j : Nat} (b : UInt8) (h : j < start ∨ start + n ≤ j) :
    region (Function.update buf j b) start n = region buf start n := by
  apply List.map_congr_left
  intro i hi
  rw [List.mem_range] at hi
  rw [Function.update_of_ne (by omega)]

theorem region_update {start n i : Nat} (b : UInt8) (hi : i < n) :
    region (Function.update buf (start + i) b) start n = (region buf start n).set i b := by
  apply List.ext_getElem
  · simp
  · intro k hk _
    simp only [length_region] at hk
    by_cases hki : k = i
    · subst hki
      simp [region]
    · rw [List.getElem_set_of_ne (Ne.symm hki)]
      simp only [region, List.getElem_map, List.getElem_range]
      rw [Function.update_of_ne (by omega)]

end Region

namespace BipState

/-- The bytes between the cursors. -/
def span (s : BipState w W) : List UInt8 :=
  if s.write < s.read then region s.buf s.read (s.last - s.read) ++ region s.buf 0 s.write
  else region s.buf s.read (s.write - s.read)

end BipState

/-- An outstanding write grant starts at the write cursor, or at the head when it wrapped, and
ends before the unread bytes. -/
structure WriteGrant.Fits (cap : Nat) (e : WriteGrant) (s : BipState w W) : Prop where
  bound : e.start + e.len ≤ cap
  bytes : region s.buf e.start e.len = e.bytes
  place : (e.start = s.write ∧ (s.write < s.read → s.write + e.len < s.read)) ∨
    (e.start = 0 ∧ s.read ≤ s.write ∧ e.len < s.read)

structure ReadGrant.Fits (e : ReadGrant) (s : BipState w W) : Prop where
  start : e.start = s.read
  pos : 0 < e.len
  place : if s.write < s.read then s.read + e.len ≤ s.last else s.read + e.len ≤ s.write

structure BipInv (cap : Nat) (s : BipState w W) : Prop where
  epoch : s.epoch = BitVec.ofNat w s.ticks
  bounds : s.write ≤ cap ∧ s.read ≤ cap ∧ s.last ≤ cap
  stream : s.ticks % 2 = 0 → s.released ++ s.span = s.committed
  mark : s.ticks % 2 = 0 → s.write < s.read → s.read ≤ s.last
  resetting : s.ticks % 2 = 1 → s.released = s.committed ∧ s.wip = false ∧
    ∀ g, s.readGrants g = none
  wip : s.wip = s.writer.isSome
  rip : s.rip = s.reader.isSome
  writeGrant : ∀ g e, s.writeGrants g = some e → s.writer = some g ∧ e.Fits cap s
  readGrant : ∀ g e, s.readGrants g = some e → s.reader = some g ∧ e.Fits s
  faulted : s.faulted = false

/-- How the read cursor moves while the write cursor stands still: forward, or from behind the
watermark to the head. -/
def ReadMoves (write r r' : Nat) : Prop :=
  (r ≤ r' ∧ (write < r ↔ write < r')) ∨ (write < r ∧ r' ≤ write)

structure ProducerSees (s t : BipState w W) : Prop where
  wip : t.wip = false
  write : t.write = s.write
  last : t.last = s.last
  ticks : t.ticks = s.ticks
  read : s.ticks % 2 = 0 → ReadMoves s.write s.read t.read
  torn : s.ticks % 2 = 1 → t.read = s.read

/-- How the producer's end moves while the read cursor stands still. -/
structure TailGrows (s t : BipState w W) : Prop where
  read : t.read = s.read
  inverted : s.write < s.read → t.write < t.read ∧ s.write ≤ t.write ∧ t.last = s.last
  plain : s.read ≤ s.write → (t.read ≤ t.write ∧ s.write ≤ t.write) ∨
    (t.write < t.read ∧ s.write ≤ t.last)

/-- Only a drained buffer is reset, and not twice before the consumer moves. -/
structure ConsumerSees (s t : BipState w W) : Prop where
  rip : t.rip = false
  mono : s.ticks ≤ t.ticks
  grows : t.ticks = s.ticks → s.ticks % 2 = 0 → TailGrows s t
  begun : s.ticks < t.ticks → s.ticks % 2 = 0 → s.read = s.write ∧ s.read ≠ 0 ∧
    (t.ticks = s.ticks + 1 ∨ t.ticks = s.ticks + 2 ∧ t.read = 0)
  ended : s.ticks < t.ticks → s.ticks % 2 = 1 → t.ticks = s.ticks + 1 ∧ t.read = 0

structure WriterSees (g : Nat) (s t : BipState w W) : Prop where
  writer : t.writer = some g
  write : t.write = s.write
  last : t.last = s.last
  grant : t.writeGrants g = s.writeGrants g

/-- A release gives up the cursor one step before the flag. -/
structure ReaderSees (g : Nat) (s t : BipState w W) : Prop where
  reader : t.reader = some g
  grant : ∀ e, s.readGrants g = some e → t.readGrants g = some e ∧ t.read = s.read
  gone : s.readGrants g = none → t.readGrants g = none

def bipRely : BipParty → BipState w W → BipState w W → Prop
  | .producer, s, t => t.ticks = s.ticks ∧ (s.wip = false → ProducerSees s t)
  | .consumer, s, t => s.rip = false → ConsumerSees s t
  | .write g, s, t => s.writer = some g → WriterSees g s t
  | .read g, s, t => s.reader = some g → ReaderSees g s t

theorem TailGrows.refl (s : BipState w W) : TailGrows s s :=
  ⟨rfl, fun h => ⟨h, le_rfl, rfl⟩, fun h => .inl ⟨h, le_rfl⟩⟩

theorem bipRely_refl (i : BipParty) (s : BipState w W) : bipRely i s s := by
  cases i with
  | producer =>
    exact ⟨rfl, fun h => ⟨h, rfl, rfl, rfl, fun _ => .inl ⟨le_rfl, Iff.rfl⟩, fun _ => rfl⟩⟩
  | consumer =>
    exact fun h => ⟨h, le_rfl, fun _ _ => .refl s, fun h => absurd h (lt_irrefl _),
      fun h => absurd h (lt_irrefl _)⟩
  | write g => exact fun h => ⟨h, rfl, rfl, rfl⟩
  | read g => exact fun h => ⟨h, fun _ he => ⟨he, rfl⟩, fun he => he⟩

theorem ProducerSees.trans {r s t : BipState w W} (h : ProducerSees r s) (h' : ProducerSees s t) :
    ProducerSees r t where
  wip := h'.wip
  write := h'.write.trans h.write
  last := h'.last.trans h.last
  ticks := h'.ticks.trans h.ticks
  read := fun he => by
    have h1 := h.read he
    have h2 := h'.read (by rw [h.ticks, he])
    rw [h.write] at h2
    unfold ReadMoves at *
    omega
  torn := fun ho => (h'.torn (by rw [h.ticks, ho])).trans (h.torn ho)

theorem TailGrows.trans {r s t : BipState w W} (h : TailGrows r s) (h' : TailGrows s t) :
    TailGrows r t := by
  obtain ⟨h1, h2, h3⟩ := h
  obtain ⟨h1', h2', h3'⟩ := h'
  refine ⟨h1'.trans h1, fun hi => ?_, fun hp => ?_⟩
  · obtain ⟨a, b, c⟩ := h2 hi
    obtain ⟨a', b', c'⟩ := h2' a
    exact ⟨a', b.trans b', c'.trans c⟩
  · rcases h3 hp with ⟨a, b⟩ | ⟨a, b⟩
    · rcases h3' a with ⟨a', b'⟩ | ⟨a', b'⟩
      · exact .inl ⟨a', b.trans b'⟩
      · exact .inr ⟨a', b.trans b'⟩
    · obtain ⟨a', b', c'⟩ := h2' a
      exact .inr ⟨a', c' ▸ b⟩

theorem ConsumerSees.trans {r s t : BipState w W} (h : ConsumerSees r s) (h' : ConsumerSees s t) :
    ConsumerSees r t := by
  have hm := h.mono
  have hm' := h'.mono
  refine ⟨h'.rip, hm.trans hm', fun he hp => ?_, fun hlt hp => ?_, fun hlt hp => ?_⟩
  · have hrs : s.ticks = r.ticks := by omega
    exact (h.grows hrs hp).trans (h'.grows (by omega) (by omega))
  · rcases Nat.lt_or_ge r.ticks s.ticks with hrs | hrs
    · obtain ⟨hd, h0, hs⟩ := h.begun hrs hp
      refine ⟨hd, h0, ?_⟩
      rcases hs with hs | ⟨hs, hs0⟩
      · rcases Nat.lt_or_ge s.ticks t.ticks with hst | hst
        · obtain ⟨ht, ht0⟩ := h'.ended hst (by omega)
          exact .inr ⟨by omega, ht0⟩
        · exact .inl (by omega)
      · rcases Nat.lt_or_ge s.ticks t.ticks with hst | hst
        · exact absurd hs0 (h'.begun hst (by omega)).2.1
        · have := (h'.grows (by omega) (by omega)).read
          exact .inr ⟨by omega, this.trans hs0⟩
    · have hts : s.ticks = r.ticks := by omega
      have hg := h.grows hts hp
      obtain ⟨hd, h0, ht⟩ := h'.begun (by omega) (by omega)
      have hr := hg.read
      have hi := hg.inverted
      have hpl := hg.plain
      refine ⟨by omega, by omega, ?_⟩
      rw [← hts]
      exact ht
  · rcases Nat.lt_or_ge r.ticks s.ticks with hrs | hrs
    · obtain ⟨hs, hs0⟩ := h.ended hrs hp
      rcases Nat.lt_or_ge s.ticks t.ticks with hst | hst
      · exact absurd hs0 (h'.begun hst (by omega)).2.1
      · have := (h'.grows (by omega) (by omega)).read
        exact ⟨by omega, this.trans hs0⟩
    · obtain ⟨ht, ht0⟩ := h'.ended (by omega) (by omega)
      exact ⟨by omega, ht0⟩

theorem bipRely_trans {i : BipParty} {r s t : BipState w W} (h : bipRely i r s)
    (h' : bipRely i s t) : bipRely i r t := by
  cases i with
  | producer => exact ⟨h'.1.trans h.1, fun hr => (h.2 hr).trans (h'.2 (h.2 hr).wip)⟩
  | consumer => exact fun hr => (h hr).trans (h' (h hr).rip)
  | write g =>
    intro hr
    obtain ⟨a, b, c, d⟩ := h hr
    obtain ⟨a', b', c', d'⟩ := h' a
    exact ⟨a', b'.trans b, c'.trans c, d'.trans d⟩
  | read g =>
    intro hr
    obtain ⟨a, b, c⟩ := h hr
    obtain ⟨a', b', c'⟩ := h' a
    refine ⟨a', fun e he => ?_, fun he => c' (c he)⟩
    exact ⟨(b' e (b e he).1).1, (b' e (b e he).1).2.trans (b e he).2⟩

/-- Between calls no reset is under way. The loop of `try_read` remembers the flag it tested. -/
def bipOutline (cap : Nat) : Outline (BipState w W) BipParty (BipNext W) where
  inv := BipInv cap
  rely := bipRely
  refl := bipRely_refl
  trans := bipRely_trans
  rest
    | .producer, s => s.ticks % 2 = 0
    | _, _ => True
  post
    | .producer, next, s => next = .done ∧ s.ticks % 2 = 0
    | .consumer, .retry _, s => s.rip = false
    | .consumer, _, _ => True
    | _, next, _ => next = .done

abbrev bipContract (cap : Nat) (i : BipParty) : Contract (BipState w W) := (bipOutline cap).contract i

/-- The actions on futures, results and wait slots leave the buffer as it is. -/
structure SameBip (s t : BipState w W) : Prop where
  buf : t.buf = s.buf
  write : t.write = s.write
  read : t.read = s.read
  last : t.last = s.last
  epoch : t.epoch = s.epoch
  wip : t.wip = s.wip
  rip : t.rip = s.rip
  writeGrants : t.writeGrants = s.writeGrants
  readGrants : t.readGrants = s.readGrants
  ticks : t.ticks = s.ticks
  writer : t.writer = s.writer
  reader : t.reader = s.reader
  committed : t.committed = s.committed
  released : t.released = s.released
  faulted : t.faulted = s.faulted

namespace SameBip

variable {s t : BipState w W} {cap : Nat}

theorem refl (s : BipState w W) : SameBip s s := by constructor <;> rfl

theorem span (h : SameBip s t) : t.span = s.span := by
  rw [BipState.span, BipState.span, h.buf, h.write, h.read, h.last]

theorem writeFits (h : SameBip s t) {e : WriteGrant} (he : e.Fits cap s) : e.Fits cap t :=
  ⟨he.bound, by rw [h.buf]; exact he.bytes, by rw [h.write, h.read]; exact he.place⟩

theorem readFits (h : SameBip s t) {e : ReadGrant} (he : e.Fits s) : e.Fits t :=
  ⟨by rw [h.read]; exact he.start, he.pos, by rw [h.write, h.read, h.last]; exact he.place⟩

theorem inv (h : SameBip s t) (hI : BipInv cap s) : BipInv cap t where
  epoch := by rw [h.epoch, h.ticks, hI.epoch]
  bounds := by rw [h.write, h.read, h.last]; exact hI.bounds
  stream := by rw [h.ticks, h.released, h.committed, h.span]; exact hI.stream
  mark := by rw [h.ticks, h.write, h.read, h.last]; exact hI.mark
  resetting := by
    rw [h.ticks, h.released, h.committed, h.wip, h.readGrants]
    exact hI.resetting
  wip := by rw [h.wip, h.writer, hI.wip]
  rip := by rw [h.rip, h.reader, hI.rip]
  writeGrant := fun g e he => by
    rw [h.writeGrants] at he
    rw [h.writer]
    exact ⟨(hI.writeGrant g e he).1, h.writeFits (hI.writeGrant g e he).2⟩
  readGrant := fun g e he => by
    rw [h.readGrants] at he
    rw [h.reader]
    exact ⟨(hI.readGrant g e he).1, h.readFits (hI.readGrant g e he).2⟩
  faulted := by rw [h.faulted, hI.faulted]

end SameBip

/-- What the consumer and the readers see of a step that leaves the cursors alone. -/
theorem consumer_still {s t : BipState w W} (hrip : t.rip = s.rip) (hticks : t.ticks = s.ticks)
    (hread : t.read = s.read) (hwrite : t.write = s.write) (hlast : t.last = s.last) :
    bipRely .consumer s t := by
  refine fun hr => ⟨hrip.trans hr, hticks.ge, fun _ _ => ⟨hread, ?_, ?_⟩, ?_, ?_⟩
  · rw [hwrite, hlast, hread]
    exact fun hi => ⟨hi, le_rfl, rfl⟩
  · rw [hwrite, hread]
    exact fun hp => .inl ⟨hp, le_rfl⟩
  · omega
  · omega

theorem reader_still {g : Nat} {s t : BipState w W} (hreader : t.reader = s.reader)
    (hread : t.read = s.read) (hgrants : t.readGrants = s.readGrants) : bipRely (.read g) s t := by
  refine fun hr => ⟨hreader.trans hr, fun e he => ⟨?_, hread⟩, fun he => ?_⟩
  · rw [hgrants, he]
  · rw [hgrants, he]

theorem writer_still {g : Nat} {s t : BipState w W} (hwriter : t.writer = s.writer)
    (hwrite : t.write = s.write) (hlast : t.last = s.last)
    (hgrants : t.writeGrants = s.writeGrants) : bipRely (.write g) s t :=
  fun hw => ⟨hwriter.trans hw, hwrite, hlast, congrFun hgrants g⟩

theorem producer_still {s t : BipState w W} (hwip : t.wip = s.wip) (hticks : t.ticks = s.ticks)
    (hread : t.read = s.read) (hwrite : t.write = s.write) (hlast : t.last = s.last) :
    bipRely .producer s t := by
  refine ⟨hticks, fun hw => ⟨hwip.trans hw, hwrite, hlast, hticks, fun _ => .inl ?_, fun _ => hread⟩⟩
  rw [hread]
  exact ⟨le_rfl, Iff.rfl⟩

namespace SameBip

variable {s t : BipState w W}

theorem rely (h : SameBip s t) (i : BipParty) : bipRely i s t := by
  cases i with
  | producer => exact producer_still h.wip h.ticks h.read h.write h.last
  | consumer => exact consumer_still h.rip h.ticks h.read h.write h.last
  | write g => exact writer_still h.writer h.write h.last h.writeGrants
  | read g => exact reader_still h.reader h.read h.readGrants

end SameBip

section Frame

variable {cap : Nat} {i : BipParty} {P : BipState w W → Prop}

theorem same_triple {f : BipState w W → BipState w W} (hP : (bipContract cap i).Stable P)
    (hf : ∀ s, SameBip s (f s)) :
    (bipContract cap i).Triple P (Prog.store f) fun _ => P := by
  refine .store hP (fun _ => hP) fun s hI h => ?_
  have hI' := (hf s).inv hI
  exact ⟨hI', fun j _ => (hf s).rely j, hP s _ hI' ((hf s).rely i) h⟩

theorem sameZoom_triple {X α : Type} {get : BipState w W → X}
    {set : BipState w W → X → BipState w W} (hP : (bipContract cap i).Stable P)
    (hset : ∀ s x, SameBip s (set s x)) (p : Prog X α) :
    (bipContract cap i).Triple P (p.zoom get set) fun _ => P := by
  refine Contract.Triple.zoom hP (fun s x hI h => ?_) p
  have hI' := (hset s x).inv hI
  exact ⟨hI', fun j _ => (hset s x).rely j, hP s _ hI' ((hset s x).rely i) h⟩

/-- A check that the assertion before it implies. -/
theorem check_triple {ok : Bool} (hP : (bipContract cap i).Stable P)
    (hok : ∀ s, BipInv cap s → P s → ok = true) :
    (bipContract cap i).Triple P (check ok) fun _ => P := by
  refine .store hP (fun _ => hP) fun s hI h => ?_
  have hsame : SameBip s { s with faulted := s.faulted || !ok } := by
    constructor <;> simp [hok s hI h]
  have hI' := hsame.inv hI
  exact ⟨hI', fun j _ => hsame.rely j, hP s _ hI' (hsame.rely i) h⟩

theorem load_triple {α : Type} {Q : α → BipState w W → Prop} {f : BipState w W → α}
    (hP : (bipContract cap i).Stable P) (hQ : ∀ a, (bipContract cap i).Stable (Q a))
    (h : ∀ s, BipInv cap s → P s → Q (f s) s) :
    (bipContract cap i).Triple P (Prog.load f) Q :=
  .load hP hQ (fun s _ _ j _ => bipRely_refl j s) h

theorem true_stable : (bipContract cap i).Stable fun _ : BipState w W => True :=
  fun _ _ _ _ h => h

end Frame

end Cynosure.SiteD
