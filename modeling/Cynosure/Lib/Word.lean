import Mathlib.Data.BitVec
import Mathlib.Tactic

/-! # Counters kept in machine words

A counter that only grows is stored modulo `2 ^ w`. Differences of two counters are
exact as long as they stay below the modulus, and masking with a power of two less
one gives the counter's position in a ring of that size, whatever the wraps.
-/

namespace Word

variable {w : Nat}

theorem toNat_sub_one {x : BitVec w} (h : x ≠ 0) : (x - 1).toNat = x.toNat - 1 := by
  have hpos : 0 < x.toNat := by
    rw [Nat.pos_iff_ne_zero]
    exact fun h0 => h (BitVec.eq_of_toNat_eq (by simpa using h0))
  have hw : 1 < 2 ^ w := by
    have := x.isLt
    omega
  have h1 : (1 : BitVec w).toNat = 1 := by simp [Nat.mod_eq_of_lt hw]
  rw [BitVec.toNat_sub_of_le (by rw [BitVec.le_def, h1]; exact hpos), h1]

theorem toNat_sub {a b : Nat} (h : b ≤ a) (hlt : a - b < 2 ^ w) :
    (BitVec.ofNat w a - BitVec.ofNat w b).toNat = a - b := by
  have ha : BitVec.ofNat w a = BitVec.ofNat w (a - b) + BitVec.ofNat w b := by
    rw [← BitVec.ofNat_add]
    congr
    omega
  rw [ha, BitVec.add_sub_cancel, BitVec.toNat_ofNat, Nat.mod_eq_of_lt hlt]

theorem toNat_mask {c : BitVec w} (hc : ∃ k, c.toNat = 2 ^ k) (n : Nat) :
    (BitVec.ofNat w n &&& (c - 1)).toNat = n % c.toNat := by
  obtain ⟨k, hk⟩ := hc
  have hc0 : c ≠ 0 := by
    rintro rfl
    have := Nat.two_pow_pos k
    simp at hk
    omega
  have hdvd : c.toNat ∣ 2 ^ w := by
    have hlt := c.isLt
    rw [hk] at hlt ⊢
    exact pow_dvd_pow 2 (Nat.pow_lt_pow_iff_right (by decide) |>.mp hlt).le
  rw [BitVec.toNat_and, toNat_sub_one hc0, hk, Nat.and_two_pow_sub_one_eq_mod, ← hk,
    BitVec.toNat_ofNat, Nat.mod_mod_of_dvd _ hdvd]

theorem ofNat_add_one (n : Nat) : BitVec.ofNat w n + 1 = BitVec.ofNat w (n + 1) := by
  rw [BitVec.ofNat_add]
  rfl

theorem and_one_eq_one (hw : 0 < w) (n : Nat) : BitVec.ofNat w n &&& 1 = 1 ↔ n % 2 = 1 := by
  have hpow : 1 < 2 ^ w := Nat.one_lt_two_pow (by omega)
  have h1 : (1 : BitVec w).toNat = 1 := by simp [Nat.mod_eq_of_lt hpow]
  have hdvd : 2 ∣ 2 ^ w := dvd_pow_self 2 (by omega)
  rw [← BitVec.toNat_inj, BitVec.toNat_and, h1, Nat.and_one_is_mod, BitVec.toNat_ofNat,
    Nat.mod_mod_of_dvd _ hdvd]

theorem ofNat_add_ne {n k : Nat} (hk : 0 < k) (hlt : k < 2 ^ w) :
    BitVec.ofNat w (n + k) ≠ BitVec.ofNat w n := by
  intro h
  have hsub := toNat_sub (w := w) (a := n + k) (b := n) (by omega) (by omega)
  rw [h, BitVec.sub_self] at hsub
  simp at hsub
  omega

/-- Counters that are never two apart agree if they agree modulo `2 ^ w`. -/
theorem eq_of_ofNat_eq {n m : Nat} (hw : 0 < w) (hle : n ≤ m) (hbound : m ≤ n + 1)
    (h : BitVec.ofNat w m = BitVec.ofNat w n) : m = n := by
  by_contra hne
  have hlt : 1 < 2 ^ w := Nat.one_lt_two_pow (by omega)
  have hnext : m = n + 1 := by omega
  rw [hnext] at h
  exact ofNat_add_ne Nat.one_pos hlt h

/-- Two counters less than a lap apart are at different positions. -/
theorem mod_ne_mod {i j n : Nat} (hij : i < j) (hj : j < i + n) : i % n ≠ j % n := by
  intro h
  have hdvd : n ∣ j - i := (Nat.modEq_iff_dvd' hij.le).mp h
  have := Nat.le_of_dvd (by omega) hdvd
  omega

/-- Up to the end of the ring the positions are consecutive. -/
theorem mod_add_of_lt {a k n : Nat} (hk : k < n - a % n) : (a + k) % n = a % n + k := by
  rw [Nat.add_mod, Nat.mod_eq_of_lt (a := k) (by omega), Nat.mod_eq_of_lt (by omega)]

/-- Behind the end of the ring they start over. -/
theorem mod_add_wrapped {a k n : Nat} (hk : k < n) : (a + (n - a % n) + k) % n = k := by
  have hdiv := Nat.div_add_mod a n
  have hmod := Nat.mod_lt a (show 0 < n by omega)
  have hsum : a + (n - a % n) + k = k + n * (a / n + 1) := by
    rw [Nat.mul_add, Nat.mul_one]
    omega
  rw [hsum, Nat.add_mul_mod_self_left, Nat.mod_eq_of_lt hk]

/-- Some bit of the mask is set. -/
def has (x mask : BitVec w) : Bool := x &&& mask != 0

@[simp] theorem has_zero (mask : BitVec w) : has 0#w mask = false := by simp [has]

@[simp] theorem has_or (x y mask : BitVec w) : has (x ||| y) mask = (has x mask || has y mask) := by
  rw [Bool.eq_iff_iff]
  simp [has, BitVec.and_or_distrib_right, BitVec.or_eq_zero_iff, imp_iff_not_or]

/-- Setting other bits leaves those of the mask. -/
theorem has_or_apart {x y mask : BitVec w} (h : has y mask = false) : has (x ||| y) mask = has x mask := by
  rw [has_or, h, Bool.or_false]

theorem has_or_set {x y mask : BitVec w} (h : has y mask = true) : has (x ||| y) mask = true := by
  rw [has_or, h, Bool.or_true]

end Word
