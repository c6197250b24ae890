import Mathlib.Logic.Function.Basic

/-! # Programs of atomic actions, and what they may rely on

A program is a tree of atomic actions on a shared state. Between two of them the
other parties may act, so a specification names what a party relies on (how the
others may change the state), what it guarantees (how it changes the state itself)
and an invariant of both. An assertion is usable at a program point when the
others cannot falsify it.
-/

universe u v w

/-- `act f k` applies `f` to the state in one step and goes on according to the state it found. -/
inductive Prog (S : Type u) (α : Type v) : Type (max u v) where
  | ret (a : α)
  | act (f : S → S) (k : S → Prog S α)

namespace Prog

variable {S : Type u} {X : Type u} {α : Type v} {β : Type v}

def bind : Prog S α → (α → Prog S β) → Prog S β
  | .ret a, q => q a
  | .act f k, q => .act f fun s => (k s).bind q

instance : Monad (Prog S) where
  pure := .ret
  bind := bind

def load (f : S → α) : Prog S α := .act id fun s => .ret (f s)

def store (f : S → S) : Prog S PUnit := .act f fun _ => .ret ⟨⟩

/-- A read-modify-write: the value is read off the state before the update. -/
def exchange (read : S → α) (f : S → S) : Prog S α := .act f fun s => .ret (read s)

/-- The program without interference: its result and the state it leaves. -/
def eval : Prog S α → S → α × S
  | .ret a, s => (a, s)
  | .act f k, s => (k s).eval (f s)

/-- A program on a component of the state. -/
def zoom (get : S → X) (set : S → X → S) : Prog X α → Prog S α
  | .ret a => .ret a
  | .act f k => .act (fun s => set s (f (get s))) fun s => (k (get s)).zoom get set

@[simp] theorem eval_pure (a : α) (s : S) : (pure a : Prog S α).eval s = (a, s) := rfl

@[simp] theorem eval_load (f : S → α) (s : S) : (load f).eval s = (f s, s) := rfl

@[simp] theorem eval_store (f : S → S) (s : S) : (store f).eval s = (⟨⟩, f s) := rfl

@[simp] theorem eval_bind (p : Prog S α) (q : α → Prog S β) (s : S) :
    (p >>= q).eval s = (q (p.eval s).1).eval (p.eval s).2 := by
  change (p.bind q).eval s = _
  induction p generalizing s with
  | ret a => rfl
  | act f k ih => exact ih s (f s)

@[simp] theorem eval_exchange (read : S → α) (f : S → S) (s : S) :
    (exchange read f).eval s = (read s, f s) := rfl

/-- A component is changed as the program changes it alone. -/
theorem eval_zoom {get : S → X} {set : S → X → S} (hself : ∀ s, set s (get s) = s)
    (hget : ∀ s x, get (set s x) = x) (hset : ∀ s x y, set (set s x) y = set s y) (p : Prog X α)
    (s : S) : (p.zoom get set).eval s = ((p.eval (get s)).1, set s (p.eval (get s)).2) := by
  induction p generalizing s with
  | ret a => exact Prod.ext rfl (hself s).symm
  | act f k ih =>
    change ((k (get s)).zoom get set).eval (set s (f (get s))) = _
    rw [ih, hget, hset]
    rfl

/-- One action of the program is taken. -/
inductive Next : Prog S α → Prog S α → Prop
  | act (f : S → S) (k : S → Prog S α) (s : S) : Next (k s) (.act f k)

theorem next_wf : WellFounded (Next : Prog S α → Prog S α → Prop) := by
  refine ⟨fun p => ?_⟩
  induction p with
  | ret b =>
    refine ⟨_, fun q hq => ?_⟩
    cases hq
  | act f k ih =>
    refine ⟨_, fun q hq => ?_⟩
    cases hq with
    | act _ _ s => exact ih s

/-- Every action changes the state as `R` allows, whatever the others do in between. -/
def Always (R : S → S → Prop) : Prog S α → Prop
  | .ret _ => True
  | .act f k => ∀ s, R s (f s) ∧ (k s).Always R

section Always

variable {R : S → S → Prop}

theorem Always.mono {R' : S → S → Prop} {p : Prog S α} (h : p.Always R)
    (hR : ∀ {s t}, R s t → R' s t) : p.Always R' := by
  induction p with
  | ret a => trivial
  | act f k ih => exact fun s => ⟨hR (h s).1, ih s (h s).2⟩

theorem always_pure (a : α) : (pure a : Prog S α).Always R := trivial

theorem always_bind {p : Prog S α} {q : α → Prog S β} (hp : p.Always R) (hq : ∀ a, (q a).Always R) :
    (p >>= q).Always R := by
  change (p.bind q).Always R
  induction p with
  | ret a => exact hq a
  | act f k ih => exact fun s => ⟨(hp s).1, ih s (hp s).2⟩

theorem always_exchange {read : S → α} {f : S → S} (h : ∀ s, R s (f s)) :
    (exchange read f).Always R :=
  fun s => ⟨h s, trivial⟩

theorem always_store {f : S → S} (h : ∀ s, R s (f s)) : (store f).Always R :=
  fun s => ⟨h s, trivial⟩

theorem always_load (f : S → α) (h : ∀ s, R s s) : (load f).Always R :=
  fun s => ⟨h s, trivial⟩

theorem always_zoom {get : S → X} {set : S → X → S} (h : ∀ s x, R s (set s x)) (p : Prog X α) :
    (p.zoom get set).Always R := by
  induction p with
  | ret a => trivial
  | act f k ih => exact fun s => ⟨h s _, ih (get s)⟩

end Always

end Prog

/-- What one party may assume of the others and owes to them. -/
structure Contract (S : Type u) where
  inv : S → Prop
  rely : S → S → Prop
  guar : S → S → Prop
  refl : ∀ s, rely s s
  trans : ∀ {r s t}, rely r s → rely s t → rely r t

namespace Contract

variable {S : Type u} {X : Type u} {α : Type v} {β : Type v} (C : Contract S)

/-- Every action of the program, taken after any interference, keeps the invariant and the
guarantee, and the value it returns satisfies `Q`. -/
def Ok (Q : α → S → Prop) : Prog S α → S → Prop
  | .ret a, s => ∀ t, C.inv t → C.rely s t → Q a t
  | .act f k, s => ∀ t, C.inv t → C.rely s t → C.inv (f t) ∧ C.guar t (f t) ∧ Ok Q (k t) (f t)

def Stable (P : S → Prop) : Prop := ∀ s t, C.inv t → C.rely s t → P s → P t

def Triple (P : S → Prop) (p : Prog S α) (Q : α → S → Prop) : Prop :=
  ∀ s, C.inv s → P s → C.Ok Q p s

variable {C}

theorem Ok.stable {Q : α → S → Prop} {p : Prog S α} {s t : S} (h : C.Ok Q p s)
    (hst : C.rely s t) : C.Ok Q p t := by
  cases p with
  | ret a => exact fun r hr htr => h r hr (C.trans hst htr)
  | act f k => exact fun r hr htr => h r hr (C.trans hst htr)

theorem Ok.of_stable {Q : α → S → Prop} {p : Prog S α} {s : S}
    (h : ∀ t, C.inv t → C.rely s t → C.Ok Q p t) : C.Ok Q p s := by
  cases p with
  | ret a => exact fun t ht hst => h t ht hst t ht (C.refl t)
  | act f k => exact fun t ht hst => h t ht hst t ht (C.refl t)

namespace Stable

theorem const (p : Prop) : C.Stable fun _ => p := fun _ _ _ _ h => h

theorem and {P Q : S → Prop} (hP : C.Stable P) (hQ : C.Stable Q) : C.Stable fun s => P s ∧ Q s :=
  fun s t ht hst h => ⟨hP s t ht hst h.1, hQ s t ht hst h.2⟩

theorem or {P Q : S → Prop} (hP : C.Stable P) (hQ : C.Stable Q) : C.Stable fun s => P s ∨ Q s :=
  fun s t ht hst h => h.imp (hP s t ht hst) (hQ s t ht hst)

theorem ex {ι : Sort w} {P : ι → S → Prop} (hP : ∀ i, C.Stable (P i)) :
    C.Stable fun s => ∃ i, P i s := by
  rintro s t ht hst ⟨i, h⟩
  exact ⟨i, hP i s t ht hst h⟩

end Stable

/-- A run without interference ends as specified, and its steps add up to what `R` allows. -/
theorem Ok.eval {Q : α → S → Prop} {p : Prog S α} {s : S} {R : S → S → Prop} (h : C.Ok Q p s)
    (hs : C.inv s) (hrefl : ∀ s, R s s) (htrans : ∀ {a b c}, R a b → R b c → R a c)
    (hguar : ∀ {s t}, C.guar s t → R s t) :
    C.inv (p.eval s).2 ∧ Q (p.eval s).1 (p.eval s).2 ∧ R s (p.eval s).2 := by
  induction p generalizing s with
  | ret a => exact ⟨hs, h s hs (C.refl s), hrefl s⟩
  | act f k ih =>
    obtain ⟨hinv, hstep, hk⟩ := h s hs (C.refl s)
    obtain ⟨hend, hQ, hR⟩ := ih s hk hinv
    exact ⟨hend, hQ, htrans (hguar hstep) hR⟩

theorem Ok.bind {R : α → S → Prop} {Q : β → S → Prop} {p : Prog S α} {q : α → Prog S β} {s : S}
    (h : C.Ok R p s) (hq : ∀ a, C.Triple (R a) (q a) Q) : C.Ok Q (p.bind q) s := by
  induction p generalizing s with
  | ret a => exact Ok.of_stable fun t ht hst => hq a t ht (h t ht hst)
  | act f k ih =>
    intro t ht hst
    obtain ⟨hinv, hguar, hk⟩ := h t ht hst
    exact ⟨hinv, hguar, ih t hk⟩

theorem Triple.ret {P : S → Prop} {Q : α → S → Prop} {a : α} (hP : C.Stable P)
    (h : ∀ s, C.inv s → P s → Q a s) : C.Triple P (.ret a) Q :=
  fun s _ hs t ht hst => h t ht (hP s t ht hst hs)

theorem Triple.bind {P : S → Prop} {R : α → S → Prop} {Q : β → S → Prop} {p : Prog S α}
    {q : α → Prog S β} (hp : C.Triple P p R) (hq : ∀ a, C.Triple (R a) (q a) Q) :
    C.Triple P (p >>= q) Q :=
  fun s hs hP => (hp s hs hP).bind hq

theorem Triple.act {P : S → Prop} {Q : α → S → Prop} {f : S → S} {k : S → Prog S α}
    (hP : C.Stable P)
    (h : ∀ s, C.inv s → P s → C.inv (f s) ∧ C.guar s (f s) ∧ C.Ok Q (k s) (f s)) :
    C.Triple P (.act f k) Q :=
  fun s _ hs t ht hst => h t ht (hP s t ht hst hs)

theorem Triple.exchange {P : S → Prop} {Q : α → S → Prop} {read : S → α} {f : S → S}
    (hP : C.Stable P) (hQ : ∀ a, C.Stable (Q a))
    (h : ∀ s, C.inv s → P s → C.inv (f s) ∧ C.guar s (f s) ∧ Q (read s) (f s)) :
    C.Triple P (Prog.exchange read f) Q := by
  apply Triple.act hP
  intro s hs hPs
  obtain ⟨hinv, hguar, hq⟩ := h s hs hPs
  exact ⟨hinv, hguar, fun t ht hst => hQ _ _ t ht hst hq⟩

theorem Triple.store {P : S → Prop} {Q : PUnit → S → Prop} {f : S → S} (hP : C.Stable P)
    (hQ : ∀ a, C.Stable (Q a))
    (h : ∀ s, C.inv s → P s → C.inv (f s) ∧ C.guar s (f s) ∧ Q ⟨⟩ (f s)) :
    C.Triple P (Prog.store f) Q :=
  Triple.exchange hP hQ h

theorem Triple.load {P : S → Prop} {Q : α → S → Prop} {f : S → α} (hP : C.Stable P)
    (hQ : ∀ a, C.Stable (Q a)) (hG : ∀ s, C.inv s → P s → C.guar s s)
    (h : ∀ s, C.inv s → P s → Q (f s) s) : C.Triple P (Prog.load f) Q :=
  Triple.exchange hP hQ fun s hs hPs => ⟨hs, hG s hs hPs, h s hs hPs⟩

theorem Ok.mono {Q Q' : α → S → Prop} {p : Prog S α} {s : S} (h : C.Ok Q p s)
    (hQ : ∀ a t, C.inv t → Q a t → Q' a t) : C.Ok Q' p s := by
  induction p generalizing s with
  | ret a => exact fun t ht hst => hQ a t ht (h t ht hst)
  | act f k ih =>
    intro t ht hst
    obtain ⟨hinv, hguar, hk⟩ := h t ht hst
    exact ⟨hinv, hguar, ih t hk⟩

theorem Triple.conseq {P P' : S → Prop} {Q Q' : α → S → Prop} {p : Prog S α}
    (h : C.Triple P p Q) (hP : ∀ s, C.inv s → P' s → P s) (hQ : ∀ a s, C.inv s → Q a s → Q' a s) :
    C.Triple P' p Q' :=
  fun s hs hP' => (h s hs (hP s hs hP')).mono hQ

/-- A program on a component that no assertion, guarantee or invariant reads. -/
theorem Triple.zoom {P : S → Prop} {get : S → X} {set : S → X → S} (hP : C.Stable P)
    (h : ∀ s x, C.inv s → P s → C.inv (set s x) ∧ C.guar s (set s x) ∧ P (set s x))
    (p : Prog X α) : C.Triple P (p.zoom get set) fun _ => P := by
  induction p with
  | ret a => exact Triple.ret hP fun _ _ hs => hs
  | act f k ih =>
    apply Triple.act hP
    intro s hs hPs
    obtain ⟨hinv, hguar, hset⟩ := h s (f (get s)) hs hPs
    exact ⟨hinv, hguar, ih _ _ hinv hset⟩

end Contract
