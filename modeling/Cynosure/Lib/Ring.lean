import Mathlib.Data.List.Basic
import Mathlib.Logic.Function.Basic


/-! # A list laid out on a ring of slots

The list starts at the slot `head` and runs forward, wrapping at `n`. A slot holds
its element or nothing, so the layout says of every slot whether it is in use.
Each way to grow, shrink or change the list at one place is one update of the layout.
-/

universe u

namespace Ring

def next (n i : Nat) : Nat := if i + 1 = n then 0 else i + 1

def prev (n i : Nat) : Nat := if i = 0 then n - 1 else i - 1

/-- How far the slot `i` lies behind the head. -/
def offset (n head i : Nat) : Nat := (i + (n - head)) % n

def layout {α : Type u} (n head : Nat) (l : List α) (i : Nat) : Option α :=
  if i < n then l[offset n head i]? else none

section Index

variable {n head i j k : Nat}

theorem next_lt (h : i < n) : next n i < n := by
  unfold next
  split <;> omega

theorem prev_lt (h : 0 < n) (hi : i < n) : prev n i < n := by
  unfold prev
  split <;> omega

theorem next_eq (h : i < n) : next n i = (i + 1) % n := by
  unfold next
  split
  · rename_i hn
    rw [hn, Nat.mod_self]
  · rw [Nat.mod_eq_of_lt (by omega)]

theorem next_prev (h : i < n) : next n (prev n i) = i := by
  unfold next prev
  split <;> split <;> omega

theorem prev_next (n i : Nat) : prev n (next n i) = i := by
  unfold next prev
  split <;> split <;> omega

theorem next_slot (hn : 0 < n) : next n ((head + k) % n) = (head + (k + 1)) % n := by
  rw [next_eq (Nat.mod_lt _ hn), Nat.mod_add_mod, Nat.add_assoc]

theorem slot_next (h : head < n) (k : Nat) : (next n head + k) % n = (head + (k + 1)) % n := by
  rw [next_eq h, Nat.mod_add_mod, Nat.add_assoc, Nat.add_comm 1 k]

theorem offset_slot (h : head < n) (hk : k < n) : offset n head ((head + k) % n) = k := by
  unfold offset
  rw [Nat.mod_add_mod, show head + k + (n - head) = k + n by omega, Nat.add_mod_right,
    Nat.mod_eq_of_lt hk]

theorem slot_offset (h : head < n) (hi : i < n) : (head + offset n head i) % n = i := by
  unfold offset
  rw [Nat.add_mod_mod, show head + (i + (n - head)) = i + n by omega, Nat.add_mod_right,
    Nat.mod_eq_of_lt hi]

theorem offset_lt (hn : 0 < n) : offset n head i < n := Nat.mod_lt _ hn

theorem slot_injective (h : head < n) (hj : j < n) (hk : k < n)
    (heq : (head + j) % n = (head + k) % n) : j = k := by
  rw [← offset_slot h hj, heq, offset_slot h hk]

end Index

section Layout

variable {α : Type u} {n head k : Nat} {l : List α} {v : α}

theorem layout_slot (h : head < n) (hk : k < n) : layout n head l ((head + k) % n) = l[k]? := by
  rw [layout, if_pos (Nat.mod_lt _ (by omega)), offset_slot h hk]

theorem layout_of_le {i : Nat} (h : n ≤ i) : layout n head l i = none := if_neg (by omega)

@[simp] theorem layout_nil (n head : Nat) : layout n head ([] : List α) = fun _ => none := by
  funext i
  simp [layout]

/-- A layout is known by its slots, counted from the head. -/
theorem layout_ext {buf : Nat → Option α} (h : head < n)
    (hin : ∀ k < n, buf ((head + k) % n) = l[k]?) (hout : ∀ i, n ≤ i → buf i = none) :
    buf = layout n head l := by
  funext i
  by_cases hi : i < n
  · rw [layout, if_pos hi, ← hin _ (offset_lt (by omega)), slot_offset h hi]
  · rw [hout i (by omega), layout_of_le (by omega)]

/-- A list that differs from another at one place only. -/
theorem layout_update {l' : List α} (h : head < n) (hk : k < n) {x : Option α} (hx : l'[k]? = x)
    (hother : ∀ j, j ≠ k → l'[j]? = l[j]?) :
    Function.update (layout n head l) ((head + k) % n) x = layout n head l' := by
  refine layout_ext h (fun j hj => ?_) fun i hi => ?_
  · by_cases hjk : j = k
    · rw [hjk, Function.update_self, hx]
    · have hne : (head + j) % n ≠ (head + k) % n := fun heq => hjk (slot_injective h hj hk heq)
      rw [Function.update_of_ne hne, layout_slot h hj, hother j hjk]
  · have hne : i ≠ (head + k) % n := by
      have := Nat.mod_lt (head + k) (show 0 < n by omega)
      omega
    rw [Function.update_of_ne hne, layout_of_le hi]

theorem layout_set (h : head < n) (hk : k < l.length) (hl : l.length ≤ n) :
    Function.update (layout n head l) ((head + k) % n) (some v) = layout n head (l.set k v) := by
  refine layout_update h (by omega) (by simp [hk]) fun j hj => ?_
  rw [List.getElem?_set_ne fun heq => hj heq.symm]

theorem layout_append (h : head < n) (hl : l.length < n) :
    Function.update (layout n head l) ((head + l.length) % n) (some v) =
      layout n head (l ++ [v]) := by
  refine layout_update h hl (by simp) fun j hj => ?_
  rw [List.getElem?_append]
  split
  · rfl
  · rw [List.getElem?_eq_none (by simp; omega), List.getElem?_eq_none (by omega)]

theorem layout_dropLast (h : head < n) (hl : l.length < n) :
    Function.update (layout n head (l ++ [v])) ((head + l.length) % n) none = layout n head l := by
  refine layout_update h hl (by simp) fun j hj => ?_
  rw [List.getElem?_append]
  split
  · rfl
  · rw [List.getElem?_eq_none (by omega), List.getElem?_eq_none (by simp; omega)]

theorem layout_head (h : head < n) : layout n head (v :: l) head = some v := by
  have := layout_slot (l := v :: l) h (k := 0) (by omega)
  rwa [Nat.add_zero, Nat.mod_eq_of_lt h] at this

theorem layout_tail (h : head < n) (hl : l.length < n) :
    Function.update (layout n head (v :: l)) head none = layout n (next n head) l := by
  refine layout_ext (next_lt h) (fun k hk => ?_) fun i hi => ?_
  · rw [slot_next h]
    by_cases hkn : k + 1 = n
    · rw [hkn, Nat.add_mod_right, Nat.mod_eq_of_lt h, Function.update_self,
        List.getElem?_eq_none (by omega)]
    · have hne : (head + (k + 1)) % n ≠ head := by
        intro heq
        have := slot_injective h (j := k + 1) (k := 0) (by omega) (by omega)
          (by rw [heq, Nat.add_zero, Nat.mod_eq_of_lt h])
        omega
      rw [Function.update_of_ne hne, layout_slot h (by omega), List.getElem?_cons_succ]
  · rw [Function.update_of_ne (by omega), layout_of_le hi]

theorem layout_cons (h : head < n) (hl : l.length < n) :
    Function.update (layout n head l) (prev n head) (some v) = layout n (prev n head) (v :: l) := by
  have hprev := prev_lt (by omega) h
  have htail := layout_tail (v := v) hprev hl
  rw [next_prev h] at htail
  rw [← htail, Function.update_idem, Function.update_eq_self_iff, layout_head hprev]

end Layout

end Ring
