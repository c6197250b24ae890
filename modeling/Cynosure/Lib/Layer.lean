import Cynosure.Lib.Threads

/-! # A second layer of facts over an outline

What a sound outline establishes may be taken for granted while more is proved about the
same programs. A layer assumes the invariant and the relies of its base, and of every
action also that the base has already been shown to hold after it; only its own
invariant and guarantee remain to be proved.
-/

universe u v w x

/-- The base contract is met already, the extra one is to be met. -/
structure Layer (S : Type u) where
  base : Contract S
  extra : Contract S

namespace Layer

variable {S : Type u} {α : Type v} {β : Type v} (L : Layer S)

def inv (s : S) : Prop := L.base.inv s ∧ L.extra.inv s

def rely (s t : S) : Prop := L.base.rely s t ∧ L.extra.rely s t

theorem refl (s : S) : L.rely s s := ⟨L.base.refl s, L.extra.refl s⟩

theorem trans {r s t : S} (h : L.rely r s) (h' : L.rely s t) : L.rely r t :=
  ⟨L.base.trans h.1 h'.1, L.extra.trans h.2 h'.2⟩

/-- Every action keeps the extra invariant and guarantee, given that it keeps the base. -/
def Ok (Q : α → S → Prop) : Prog S α → S → Prop
  | .ret a, s => ∀ t, L.inv t → L.rely s t → Q a t
  | .act f k, s => ∀ t, L.inv t → L.rely s t → L.base.inv (f t) → L.base.guar t (f t) →
      L.extra.inv (f t) ∧ L.extra.guar t (f t) ∧ Ok Q (k t) (f t)

def Stable (P : S → Prop) : Prop := ∀ s t, L.inv t → L.rely s t → P s → P t

def Triple (P : S → Prop) (p : Prog S α) (Q : α → S → Prop) : Prop :=
  ∀ s, L.inv s → P s → L.Ok Q p s

/-- A step that the base allows meets the extra obligations, and establishes `P`. -/
def Keeps (P : S → Prop) (s t : S) : Prop :=
  L.base.inv t → L.base.guar s t → L.extra.inv t ∧ L.extra.guar s t ∧ P t

variable {L}

theorem Stable.and {P Q : S → Prop} (hP : L.Stable P) (hQ : L.Stable Q) :
    L.Stable fun s => P s ∧ Q s :=
  fun s t ht hst h => ⟨hP s t ht hst h.1, hQ s t ht hst h.2⟩

theorem Stable.of_base {P : S → Prop} (hP : L.base.Stable P) : L.Stable P :=
  fun s t ht hst => hP s t ht.1 hst.1

theorem Keeps.mono {P Q : S → Prop} {s t : S} (h : L.Keeps P s t) (hQ : P t → Q t) :
    L.Keeps Q s t := by
  intro hbase hguar
  obtain ⟨hinv, hextra, ht⟩ := h hbase hguar
  exact ⟨hinv, hextra, hQ ht⟩

theorem stable_true : L.Stable fun _ => True := fun _ _ _ _ h => h

theorem Ok.stable {Q : α → S → Prop} {p : Prog S α} {s t : S} (h : L.Ok Q p s)
    (hst : L.rely s t) : L.Ok Q p t := by
  cases p with
  | ret a => exact fun r hr htr => h r hr (L.trans hst htr)
  | act f k => exact fun r hr htr => h r hr (L.trans hst htr)

theorem Ok.of_stable {Q : α → S → Prop} {p : Prog S α} {s : S}
    (h : ∀ t, L.inv t → L.rely s t → L.Ok Q p t) : L.Ok Q p s := by
  cases p with
  | ret a => exact fun t ht hst => h t ht hst t ht (L.refl t)
  | act f k => exact fun t ht hst => h t ht hst t ht (L.refl t)

theorem Ok.bind {R : α → S → Prop} {Q : β → S → Prop} {p : Prog S α} {q : α → Prog S β} {s : S}
    (h : L.Ok R p s) (hq : ∀ a, L.Triple (R a) (q a) Q) : L.Ok Q (p.bind q) s := by
  induction p generalizing s with
  | ret a => exact Ok.of_stable fun t ht hst => hq a t ht (h t ht hst)
  | act f k ih =>
    intro t ht hst hbase hguar
    obtain ⟨hinv, hextra, hk⟩ := h t ht hst hbase hguar
    exact ⟨hinv, hextra, ih t hk⟩

theorem Ok.mono {Q Q' : α → S → Prop} {p : Prog S α} {s : S} (h : L.Ok Q p s)
    (hQ : ∀ a t, L.inv t → Q a t → Q' a t) : L.Ok Q' p s := by
  induction p generalizing s with
  | ret a => exact fun t ht hst => hQ a t ht (h t ht hst)
  | act f k ih =>
    intro t ht hst hbase hguar
    obtain ⟨hinv, hextra, hk⟩ := h t ht hst hbase hguar
    exact ⟨hinv, hextra, ih t hk⟩

/-- What the base proves about the results of a program is known to the layer too. -/
theorem Ok.and_base {Q R : α → S → Prop} {p : Prog S α} {s : S} (h : L.base.Ok Q p s)
    (h' : L.Ok R p s) : L.Ok (fun a t => Q a t ∧ R a t) p s := by
  induction p generalizing s with
  | ret a => exact fun t ht hst => ⟨h t ht.1 hst.1, h' t ht hst⟩
  | act f k ih =>
    intro t ht hst hbase hguar
    obtain ⟨hinv, hextra, hk⟩ := h' t ht hst hbase hguar
    exact ⟨hinv, hextra, ih t (h t ht.1 hst.1).2.2 hk⟩

/-- A layer that has only a guarantee, which every action keeps. -/
theorem Ok.of_always {p : Prog S α} (hinv : ∀ s, L.extra.inv s) (h : p.Always L.extra.guar) (s : S) :
    L.Ok (fun _ _ => True) p s := by
  induction p generalizing s with
  | ret a => exact fun _ _ _ => trivial
  | act f k ih => exact fun t _ _ _ _ => ⟨hinv _, (h t).1, ih t (h t).2 _⟩

namespace Triple

theorem ret {P : S → Prop} {Q : α → S → Prop} {a : α} (hP : L.Stable P)
    (h : ∀ s, L.inv s → P s → Q a s) : L.Triple P (.ret a) Q :=
  fun s _ hs t ht hst => h t ht (hP s t ht hst hs)

theorem bind {P : S → Prop} {R : α → S → Prop} {Q : β → S → Prop} {p : Prog S α}
    {q : α → Prog S β} (hp : L.Triple P p R) (hq : ∀ a, L.Triple (R a) (q a) Q) :
    L.Triple P (p >>= q) Q :=
  fun s hs hP => (hp s hs hP).bind hq

theorem conseq {P P' : S → Prop} {Q Q' : α → S → Prop} {p : Prog S α} (h : L.Triple P p Q)
    (hP : ∀ s, L.inv s → P' s → P s) (hQ : ∀ a s, L.inv s → Q a s → Q' a s) : L.Triple P' p Q' :=
  fun s hs hP' => (h s hs (hP s hs hP')).mono hQ

theorem and_base {P P' : S → Prop} {Q Q' : α → S → Prop} {p : Prog S α}
    (h : L.base.Triple P p Q) (h' : L.Triple P' p Q') :
    L.Triple (fun s => P s ∧ P' s) p fun a s => Q a s ∧ Q' a s :=
  fun s hs hP => Ok.and_base (h s hs.1 hP.1) (h' s hs hP.2)

theorem act {P : S → Prop} {Q : α → S → Prop} {f : S → S} {k : S → Prog S α} (hP : L.Stable P)
    (h : ∀ s, L.inv s → P s → L.Keeps (L.Ok Q (k s)) s (f s)) : L.Triple P (.act f k) Q :=
  fun s _ hs t ht hst => h t ht (hP s t ht hst hs)

theorem exchange {P : S → Prop} {Q : α → S → Prop} {read : S → α} {f : S → S} (hP : L.Stable P)
    (hQ : ∀ a, L.Stable (Q a))
    (h : ∀ s, L.inv s → P s → L.Keeps (Q (read s)) s (f s)) :
    L.Triple P (Prog.exchange read f) Q := by
  apply act hP
  intro s hs hPs hbase hguar
  obtain ⟨hinv, hextra, hq⟩ := h s hs hPs hbase hguar
  exact ⟨hinv, hextra, fun t ht hst => hQ _ _ t ht hst hq⟩

theorem store {P : S → Prop} {Q : PUnit → S → Prop} {f : S → S} (hP : L.Stable P)
    (hQ : ∀ a, L.Stable (Q a))
    (h : ∀ s, L.inv s → P s → L.Keeps (Q ⟨⟩) s (f s)) : L.Triple P (Prog.store f) Q :=
  exchange hP hQ h

theorem load {P : S → Prop} {Q : α → S → Prop} {f : S → α} (hP : L.Stable P)
    (hQ : ∀ a, L.Stable (Q a)) (hG : ∀ s, L.extra.guar s s)
    (h : ∀ s, L.inv s → P s → Q (f s) s) : L.Triple P (Prog.load f) Q :=
  exchange hP hQ fun s hs hPs _ _ => ⟨hs.2, hG s, h s hs hPs⟩

/-- A program whose actions are all of one kind, and actions of that kind keep the assertion. -/
theorem always {P : S → Prop} {K : S → S → Prop} (hP : L.Stable P)
    (h : ∀ s t, L.inv s → K s t → P s → L.Keeps P s t) {p : Prog S α} (hp : p.Always K) :
    L.Triple P p fun _ => P := by
  induction p with
  | ret a => exact ret hP fun _ _ hs => hs
  | act f k ih =>
    apply act hP
    intro s hs hPs hbase hguar
    obtain ⟨hinv, hextra, hf⟩ := h s (f s) hs (hp s).1 hPs hbase hguar
    exact ⟨hinv, hextra, ih s (hp s).2 _ ⟨hbase, hinv⟩ hf⟩

/-- A program on a component that no assertion of the layer reads. -/
theorem zoom {X : Type u} {P : S → Prop} {get : S → X} {set : S → X → S} (hP : L.Stable P)
    (h : ∀ s x, L.inv s → P s → L.Keeps P s (set s x)) (p : Prog X α) :
    L.Triple P (p.zoom get set) fun _ => P := by
  induction p with
  | ret a => exact ret hP fun _ _ hs => hs
  | act f k ih =>
    apply act hP
    intro s hs hPs hbase hguar
    obtain ⟨hinv, hextra, hset⟩ := h s (f (get s)) hs hPs hbase hguar
    exact ⟨hinv, hextra, ih _ _ ⟨hbase, hinv⟩ hset⟩

end Triple

end Layer

namespace Contract

variable {S : Type u} {α : Type v} {C : Contract S}

/-- Nothing is known and nothing is owed. -/
def idle (S : Type u) : Contract S where
  inv _ := True
  rely _ _ := True
  guar _ _ := True
  refl _ := trivial
  trans _ _ := trivial

/-- A contract as a layer over no base, so that rules need only be stated for layers. -/
def asLayer (C : Contract S) : Layer S := ⟨idle S, C⟩

theorem asLayer_inv {s : S} (h : C.inv s) : C.asLayer.inv s := ⟨trivial, h⟩

theorem asLayer_stable {P : S → Prop} (h : C.Stable P) : C.asLayer.Stable P :=
  fun s t ht hst => h s t ht.2 hst.2

theorem Ok.of_asLayer {Q : α → S → Prop} {p : Prog S α} {s : S} (h : C.asLayer.Ok Q p s) :
    C.Ok Q p s := by
  induction p generalizing s with
  | ret a => exact fun t ht hst => h t ⟨trivial, ht⟩ ⟨trivial, hst⟩
  | act f k ih =>
    intro t ht hst
    obtain ⟨hinv, hguar, hk⟩ := h t ⟨trivial, ht⟩ ⟨trivial, hst⟩ trivial trivial
    exact ⟨hinv, hguar, ih t hk⟩

theorem Triple.of_asLayer {P : S → Prop} {Q : α → S → Prop} {p : Prog S α}
    (h : C.asLayer.Triple P p Q) : C.Triple P p Q :=
  fun s hs hP => Ok.of_asLayer (h s (asLayer_inv hs) hP)

/-- The contract is known to be met, and nothing more is owed: what is left is what a program
does. -/
def known (C : Contract S) : Layer S := ⟨C, idle S⟩

theorem Stable.of_known {P : S → Prop} (h : C.known.Stable P) : C.Stable P :=
  fun s t ht hst => h s t ⟨ht, trivial⟩ ⟨hst, trivial⟩

theorem known_keeps {P : S → Prop} {s t : S} (h : C.inv t → P t) : C.known.Keeps P s t :=
  fun hinv _ => ⟨trivial, trivial, h hinv⟩

theorem known_always {P : S → Prop} {K : S → S → Prop} (hP : C.Stable P)
    (hK : ∀ {s t}, K s t → P s → P t) {p : Prog S α} (hp : p.Always K) :
    C.known.Triple P p fun _ => P :=
  .always (.of_base hP) (fun _ _ _ hk hs => known_keeps fun _ => hK hk hs) hp

theorem Ok.with_known {Q R : α → S → Prop} {p : Prog S α} {s : S} (h : C.Ok Q p s)
    (h' : C.known.Ok R p s) : C.Ok (fun a t => Q a t ∧ R a t) p s := by
  induction p generalizing s with
  | ret a => exact fun t ht hst => ⟨h t ht hst, h' t ⟨ht, trivial⟩ ⟨hst, trivial⟩⟩
  | act f k ih =>
    intro t ht hst
    obtain ⟨hinv, hguar, hk⟩ := h t ht hst
    obtain ⟨-, -, hk'⟩ := h' t ⟨ht, trivial⟩ ⟨hst, trivial⟩ hinv hguar
    exact ⟨hinv, hguar, ih t hk hk'⟩

end Contract

namespace Outline

variable {S : Type u} {ι : Type v} {Op : Type w} {β : Type x}

/-- The two outlines side by side. -/
def both (O O' : Outline S ι β) : Outline S ι β where
  inv s := O.inv s ∧ O'.inv s
  rely i s t := O.rely i s t ∧ O'.rely i s t
  refl i s := ⟨O.refl i s, O'.refl i s⟩
  trans h h' := ⟨O.trans h.1 h'.1, O'.trans h.2 h'.2⟩
  rest i s := O.rest i s ∧ O'.rest i s
  post i b s := O.post i b s ∧ O'.post i b s

def layer (O O' : Outline S ι β) (i : ι) : Layer S := ⟨O.contract i, O'.contract i⟩

/-- What remains to be shown of an outline over one that is sound. -/
structure SoundOver (O' O : Outline S ι β) (T : Threads S ι Op β) : Prop where
  init : O'.inv T.init
  initRest : ∀ i, O'.rest i T.init
  stable : ∀ i s t, (O.layer O' i).inv t → (O.layer O' i).rely s t → O.rest i s → O'.rest i s →
    O'.rest i t
  start : ∀ {i op s t p}, (O.layer O' i).inv s → O.rest i s → O'.rest i s →
    T.start i op s = some (t, p) → O.inv t → (O.contract i).guar s t →
    O'.inv t ∧ (O'.contract i).guar s t ∧ (O.layer O' i).Ok (O'.post i) p t
  finish : ∀ {i b s}, (O.layer O' i).inv s → O.post i b s → O'.post i b s →
    T.resume i b = none → O'.rest i s
  again : ∀ {i b s p}, (O.layer O' i).inv s → O.post i b s → O'.post i b s →
    T.resume i b = some p → (O.layer O' i).Ok (O'.post i) p s

variable {O O' : Outline S ι β} {T : Threads S ι Op β}

theorem both_ok {i : ι} {α : Type x} {Q Q' : α → S → Prop} {p : Prog S α} {s : S}
    (h : (O.contract i).Ok Q p s) (h' : (O.layer O' i).Ok Q' p s) :
    ((O.both O').contract i).Ok (fun b t => Q b t ∧ Q' b t) p s := by
  induction p generalizing s with
  | ret b => exact fun t ht hst => ⟨h t ht.1 hst.1, h' t ht hst⟩
  | act f k ih =>
    intro t ht hst
    obtain ⟨hinv, hguar, hk⟩ := h t ht.1 hst.1
    obtain ⟨hinv', hguar', hk'⟩ := h' t ht hst hinv hguar
    exact ⟨⟨hinv, hinv'⟩, fun j hj => ⟨hguar j hj, hguar' j hj⟩, ih t hk hk'⟩

/-- A program's specification is still right beside a layer that has only a guarantee. -/
theorem both_triple {i : ι} {α : Type x} {P : S → Prop} {Q : α → S → Prop} {p : Prog S α}
    (h : (O.contract i).Triple P p Q) (hinv : ∀ s, O'.inv s) (hp : p.Always (O'.contract i).guar) :
    ((O.both O').contract i).Triple P p Q := by
  intro s hs hP
  have hlayer : (O.layer O' i).Ok (fun _ _ => True) p s := Layer.Ok.of_always hinv hp s
  exact (both_ok (h s hs.1 hP) hlayer).mono fun _ _ _ hQ => hQ.1

/-- What a program is known to do holds when its call has returned. -/
theorem Sound.callEnds_known [DecidableEq ι] (hO : O.Sound T) {i : ι} {Q : β → S → Prop}
    (hres : ∀ b, T.resume i b = none) (hQ : ∀ b, (O.contract i).Stable (Q b)) {op : Op}
    {s t : ThreadState S ι β} (hs : O.Holds s)
    (hok : ∀ m p, T.start i op s.mem = some (m, p) → O.rest i s.mem →
      (O.contract i).known.Ok Q p m)
    (h : T.CallEnds i op s t) : ∃ b, Q b t.mem := by
  refine hO.callEnds (fun b _ _ => hres b) hQ hs (fun m p hstart hrest => ?_) h
  obtain ⟨-, -, hpost⟩ := hO.start hs.1 hrest hstart
  exact (hpost.with_known (hok m p hstart hrest)).mono fun _ _ _ hQ => hQ.2

theorem Sound.callEnds_holds [DecidableEq ι] (hO : O.Sound T) {i : ι} {op : Op}
    {s t : ThreadState S ι β} (hs : O.Holds s) (h : T.CallEnds i op s t) : O.Holds t := by
  obtain ⟨r, as, hcall, -, hrun, -⟩ := h
  exact hO.run (hO.exec hs hcall) hrun

theorem SoundOver.both (h' : O'.SoundOver O T) (hO : O.Sound T) : (O.both O').Sound T where
  init := ⟨hO.init, h'.init⟩
  initRest i := ⟨hO.initRest i, h'.initRest i⟩
  stable i s t ht hst hs :=
    ⟨hO.stable i s t ht.1 hst.1 hs.1, h'.stable i s t ht hst hs.1 hs.2⟩
  start hs hrest hstart := by
    obtain ⟨hinv, hguar, hok⟩ := hO.start hs.1 hrest.1 hstart
    obtain ⟨hinv', hguar', hok'⟩ := h'.start hs hrest.1 hrest.2 hstart hinv hguar
    exact ⟨⟨hinv, hinv'⟩, fun j hj => ⟨hguar j hj, hguar' j hj⟩, both_ok hok hok'⟩
  finish hs hpost hres := ⟨hO.finish hs.1 hpost.1 hres, h'.finish hs hpost.1 hpost.2 hres⟩
  again hs hpost hres := both_ok (hO.again hs.1 hpost.1 hres) (h'.again hs hpost.1 hpost.2 hres)

end Outline
