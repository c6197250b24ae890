import Cynosure.Lib.Layer
import Cynosure.SiteD.BipBufferConsumer

/-! # The bip buffer keeps its invariant

Every call of every party keeps the invariant, so in every interleaving the released
and the unread bytes together are the committed ones.
-/

namespace Cynosure.SiteD

open Prog

variable {w : Nat} {W : Type} {cap : Nat}

theorem BipInv.init : BipInv cap (BipState.init cap : BipState w W) where
  epoch := rfl
  bounds := ⟨Nat.zero_le _, Nat.zero_le _, le_rfl⟩
  stream := fun _ => rfl
  mark := fun _ h => absurd h (lt_irrefl _)
  resetting := fun h => by cases h
  wip := rfl
  rip := rfl
  writeGrant := fun _ _ h => by cases h
  readGrant := fun _ _ h => by cases h
  faulted := rfl

theorem thenDone_triple {i : BipParty} {P Q : BipState w W → Prop} {p : Prog (BipState w W) PUnit}
    (hp : (bipContract cap i).Triple P p fun _ => Q) (hQ : (bipContract cap i).Stable Q) :
    (bipContract cap i).Triple P (thenDone p) fun next s => next = .done ∧ Q s :=
  hp.bind fun _ => .ret hQ fun _ _ h => ⟨rfl, h⟩

theorem thenDone_layer {L : Layer (BipState w W)} {P Q : BipState w W → Prop}
    {p : Prog (BipState w W) PUnit} (hp : L.Triple P p fun _ => Q) (hQ : L.Stable Q) :
    L.Triple P (thenDone p) fun next s => next = .done ∧ Q s :=
  hp.bind fun _ => .ret hQ fun _ _ h => ⟨rfl, h⟩

/-- What a call must establish: the invariant, what the others rely on, and its program. -/
def Starts (cap : Nat) (i : BipParty) (s : BipState w W)
    (call : BipState w W × Prog (BipState w W) (BipNext W)) : Prop :=
  BipInv cap call.1 ∧ (bipContract cap i).guar s call.1 ∧
    (bipContract cap i).Ok ((bipOutline cap).post i) call.2 call.1

theorem starts_of_same {i : BipParty} {s t : BipState w W} {p : Prog (BipState w W) (BipNext W)}
    {P : BipState w W → Prop} (hst : SameBip s t) (hI : BipInv cap s) (hP : P t)
    (hp : (bipContract cap i).Triple P p ((bipOutline cap).post i)) : Starts cap i s (t, p) :=
  ⟨hst.inv hI, fun j _ => hst.rely j, hp t (hst.inv hI) hP⟩

variable [Waker W]

theorem pollReserve_triple (n : Nat) (waker : W) :
    (bipContract cap .producer).Triple (fun s : BipState w W => s.ticks % 2 = 0)
      (pollReserve cap n waker) fun _ s => s.ticks % 2 = 0 := by
  apply (tryReserve_triple n).bind
  rintro (_ | g)
  · refine (sameZoom_triple even_stable (fun _ _ => by constructor <;> rfl) _).bind fun _ => ?_
    apply (tryReserve_triple n).bind
    rintro (_ | g)
    · exact same_triple even_stable fun _ => by constructor <;> rfl
    · refine (same_triple even_stable fun _ => by constructor <;> rfl).bind fun _ => ?_
      exact same_triple even_stable fun _ => by constructor <;> rfl
  · exact same_triple even_stable fun _ => by constructor <;> rfl

abbrev consumerPost (cap : Nat) : BipNext W → BipState w W → Prop := (bipOutline cap).post .consumer

theorem afterRead_triple (ctx : ReadCtx W) (out : Option Nat) :
    (bipContract cap .consumer).Triple (fun _ : BipState w W => True) (afterRead ctx out)
      (consumerPost cap) := by
  have hdone : (bipContract cap .consumer).Triple (fun _ : BipState w W => True)
      (pure (BipNext.done : BipNext W)) (consumerPost cap) :=
    .ret true_stable fun _ _ h => h
  cases ctx with
  | tryRead => exact (same_triple true_stable fun _ => by constructor <;> rfl).bind fun _ => hdone
  | poll waker =>
    cases out with
    | some g => exact (same_triple true_stable fun _ => by constructor <;> rfl).bind fun _ => hdone
    | none =>
      refine (sameZoom_triple true_stable (fun _ _ => by constructor <;> rfl) _).bind fun _ => ?_
      exact .ret true_stable fun _ _ h => h
  | recheck =>
    cases out with
    | some g =>
      refine (same_triple true_stable fun _ => by constructor <;> rfl).bind fun _ => ?_
      exact (same_triple true_stable fun _ => by constructor <;> rfl).bind fun _ => hdone
    | none => exact (same_triple true_stable fun _ => by constructor <;> rfl).bind fun _ => hdone

theorem readLoop_triple (hw : 2 ≤ w) (ctx : ReadCtx W) :
    (bipContract cap .consumer).Triple (fun s : BipState w W => s.rip = false) (readLoop ctx)
      (consumerPost cap) := by
  apply (snapshot_triple hw).bind
  rintro (_ | ⟨wr, r, l⟩)
  · refine .ret (fun s t _ hst h => ?_) fun _ _ h => h.1
    exact ⟨(hst h.1).rip, fun _ _ _ h => by cases h⟩
  · refine Contract.Triple.conseq (P := Snapshot wr r l) ?_ (fun s _ h => h.2 wr r l rfl)
      fun _ _ _ h => h
    apply (wrapRead_triple wr r l).bind
    intro r'
    apply (claimRead_triple wr r' l).bind
    exact fun out => afterRead_triple ctx out

theorem tryRead_triple (hw : 2 ≤ w) (ctx : ReadCtx W) :
    (bipContract cap .consumer).Triple (fun _ : BipState w W => True) (tryRead ctx)
      (consumerPost cap) := by
  refine (load_triple (Q := fun b s => b = false → s.rip = false) true_stable
    (fun b s t _ hst h hb => (hst (h hb)).rip) fun _ _ _ h => h).bind fun b => ?_
  cases b with
  | true => exact (afterRead_triple ctx none).conseq (fun _ _ _ => trivial) fun _ _ _ h => h
  | false => exact (readLoop_triple hw ctx).conseq (fun _ _ h => h rfl) fun _ _ _ h => h

theorem producer_call {s : BipState w W} {op : BipOp W}
    {call : BipState w W × Prog (BipState w W) (BipNext W)} (hI : BipInv cap s)
    (heven : s.ticks % 2 = 0) (hcall : bipCall cap .producer op s = some call) :
    Starts cap .producer s call := by
  have hdone : (bipContract cap .producer).Triple (fun s : BipState w W => s.ticks % 2 = 0)
      (pure .done) ((bipOutline cap).post .producer) :=
    .ret even_stable fun _ _ h => ⟨rfl, h⟩
  simp only [bipCall] at hcall
  split at hcall
  · cases hcall
    refine starts_of_same (P := fun s => s.ticks % 2 = 0) (.refl s) hI heven ?_
    apply (tryReserve_triple _).bind
    intro out
    exact thenDone_triple (same_triple even_stable fun _ => by constructor <;> rfl) even_stable
  · split at hcall <;> cases hcall
    exact starts_of_same (by constructor <;> rfl) hI heven hdone
  · cases hcall
    exact starts_of_same (by constructor <;> rfl) hI heven
      (thenDone_triple (pollReserve_triple _ _) even_stable)
  · cases hcall
    exact starts_of_same (by constructor <;> rfl) hI heven hdone
  · cases hcall

theorem consumer_call (hw : 2 ≤ w) {s : BipState w W} {op : BipOp W}
    {call : BipState w W × Prog (BipState w W) (BipNext W)} (hI : BipInv cap s)
    (hcall : bipCall cap .consumer op s = some call) : Starts cap .consumer s call := by
  have hdone : (bipContract cap .consumer).Triple (fun _ : BipState w W => True)
      (pure .done) ((bipOutline cap).post .consumer) :=
    .ret true_stable fun _ _ h => h
  simp only [bipCall] at hcall
  split at hcall
  · cases hcall
    exact starts_of_same (.refl s) hI trivial (tryRead_triple hw _)
  · cases hcall
    exact starts_of_same (by constructor <;> rfl) hI trivial hdone
  · cases hcall
    exact starts_of_same (by constructor <;> rfl) hI trivial (tryRead_triple hw _)
  · cases hcall
    exact starts_of_same (by constructor <;> rfl) hI trivial hdone
  · cases hcall

theorem write_call {s : BipState w W} {g : Nat} {op : BipOp W}
    {call : BipState w W × Prog (BipState w W) (BipNext W)} (hI : BipInv cap s)
    (hcall : bipCall cap (.write g) op s = some call) : Starts cap (.write g) s call := by
  simp only [bipCall] at hcall
  cases he : s.writeGrants g with
  | none => simp [he] at hcall
  | some e =>
    have hwriter := (hI.writeGrant g e he).1
    have hback := hI.handBackWrite he
    have hcommitting (bytes : List UInt8) : Committing g e (s.handBackWrite g e bytes) :=
      ⟨hwriter, by simp [BipState.handBackWrite]⟩
    have hpost : ∀ {p : Prog (BipState w W) PUnit},
        (bipContract cap (.write g)).Triple (Committing g e) p (fun _ _ => True) →
        (bipContract cap (.write g)).Triple (Committing g e) (thenDone p)
          ((bipOutline cap).post (.write g)) :=
      fun hp => (thenDone_triple hp true_stable).conseq (fun _ _ h => h) fun _ _ _ h => h.1
    simp only [he] at hcall
    split at hcall
    · cases hcall
    · split at hcall
      · split at hcall
        · rename_i hi
          cases hcall
          exact ⟨hI.writeByte he hi, commit_guar hwriter hI rfl rfl rfl rfl (.still rfl rfl rfl),
            fun _ _ _ => rfl⟩
        · cases hcall
      · cases hcall
        exact ⟨hback _, commit_guar hwriter hI rfl rfl rfl rfl (.still rfl rfl rfl),
          hpost (commit_triple g e _) _ (hback _) (hcommitting _)⟩
      · cases hcall
        exact ⟨hback _, commit_guar hwriter hI rfl rfl rfl rfl (.still rfl rfl rfl),
          hpost (dropWrite_triple g e) _ (hback _) (hcommitting _)⟩
      · cases hcall

theorem read_call {s : BipState w W} {g : Nat} {op : BipOp W}
    {call : BipState w W × Prog (BipState w W) (BipNext W)} (hI : BipInv cap s)
    (hcall : bipCall cap (.read g) op s = some call) : Starts cap (.read g) s call := by
  simp only [bipCall] at hcall
  cases he : s.readGrants g with
  | none => simp [he] at hcall
  | some e =>
    have hreader := (hI.readGrant g e he).1
    have hback := hI.handBackRead he
    have hreleasing (bytes : List UInt8) : Releasing g e (s.handBackRead g e bytes) :=
      ⟨hreader, by simp [BipState.handBackRead]⟩
    have hguar (bytes : List UInt8) :
        (bipContract cap (.read g)).guar s (s.handBackRead g e bytes) :=
      release_guar hreader hI rfl rfl rfl rfl rfl rfl (fun _ => .inl ⟨le_rfl, Iff.rfl⟩) fun _ => rfl
    have hpost : ∀ {p : Prog (BipState w W) PUnit},
        (bipContract cap (.read g)).Triple (Releasing g e) p (fun _ _ => True) →
        (bipContract cap (.read g)).Triple (Releasing g e) (thenDone p)
          ((bipOutline cap).post (.read g)) :=
      fun hp => (thenDone_triple hp true_stable).conseq (fun _ _ h => h) fun _ _ _ h => h.1
    simp only [he] at hcall
    split at hcall
    · cases hcall
    · split at hcall
      · cases hcall
        exact ⟨hback _, hguar _, hpost (release_triple g e _) _ (hback _) (hreleasing _)⟩
      · cases hcall
        exact ⟨hback _, hguar _, hpost (dropRead_triple g e) _ (hback _) (hreleasing _)⟩
      · cases hcall

theorem bipOutline_sound (hw : 2 ≤ w) :
    (bipOutline cap).Sound (bipThreads (w := w) (W := W) cap) where
  init := .init
  initRest i := by cases i <;> trivial
  stable i := by
    cases i with
    | producer => exact even_stable
    | consumer => exact true_stable
    | write g => exact true_stable
    | read g => exact true_stable
  start := by
    intro i op s t p hI hrest hcall
    cases i with
    | producer => exact producer_call hI hrest hcall
    | consumer => exact consumer_call hw hI hcall
    | write g => exact write_call hI hcall
    | read g => exact read_call hI hcall
  finish := by
    intro i b s hI hpost hres
    cases i with
    | producer => exact hpost.2
    | consumer => trivial
    | write g => trivial
    | read g => trivial
  again := by
    intro i b s p hI hpost hres
    cases i with
    | producer =>
      obtain ⟨rfl, -⟩ := hpost
      cases hres
    | consumer =>
      cases b with
      | done => cases hres
      | enter ctx =>
        cases hres
        exact tryRead_triple hw ctx s hI trivial
      | retry ctx =>
        cases hres
        exact readLoop_triple hw ctx s hI hpost
    | write g =>
      cases hpost
      cases hres
    | read g =>
      cases hpost
      cases hres

omit [Waker W] in
theorem BipInv.unread_eq (hw : 0 < w) {s : BipState w W} (hI : BipInv cap s) :
    s.unread = if s.ticks % 2 = 1 then [] else s.span := by
  have hparity : s.epoch &&& 1 = 1 ↔ s.ticks % 2 = 1 := by
    rw [hI.epoch, Word.and_one_eq_one hw]
  rw [BipState.unread, BipState.span]
  by_cases ho : s.ticks % 2 = 1
  · rw [if_pos ho, if_pos (hparity.mpr ho)]
  · rw [if_neg ho, if_neg fun h => ho (hparity.mp h)]

omit [Waker W] in
/-- A granted region is a prefix of the bytes between the cursors. -/
theorem ReadGrant.Fits.region_eq {e : ReadGrant} {s : BipState w W} (he : e.Fits s) :
    region s.buf e.start e.len = s.span.take e.len := by
  have hplace := he.place
  rw [he.start, BipState.span]
  split at hplace
  · rw [if_pos (by assumption), List.take_append_of_le_length (by rw [length_region]; omega),
      take_region (by omega)]
  · rw [if_neg (by assumption), take_region (by omega)]

end Cynosure.SiteD
