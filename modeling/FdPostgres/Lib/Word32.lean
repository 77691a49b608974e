import Mathlib

/-!
# Circular Order of 32-bit Words

Counters of 32 bits wrap around. Two of their values are compared by the sign of their
difference: a word precedes the words less than half of the circle ahead of it.

* `sub`, `toInt`, `precedes`: the difference, its signed reading, and the order.
* `precedes_iff`: the order in terms of the distance.
* `precedes_iff_of_window`: the order of words that lie in half of the circle.
* `toInt_sub_of_emod`, `precedes_of_emod`: words that are residues of integers close to each other.
-/

namespace Word32

/-- The difference of two words. -/
def sub (a b : ℕ) : ℕ := (a + (2 ^ 32 - b % 2 ^ 32)) % 2 ^ 32

/-- A word read as a signed number. -/
def toInt (a : ℕ) : ℤ := if a < 2 ^ 31 then Int.ofNat a else Int.ofNat a - 2 ^ 32

/-- A word is before another one if their difference is negative. -/
def precedes (a b : ℕ) : Bool := decide (toInt (sub a b) < 0)

theorem sub_lt (a b : ℕ) : sub a b < 2 ^ 32 := Nat.mod_lt _ (Nat.two_pow_pos 32)

/-- The difference to a word that is not larger. -/
theorem sub_of_le {a b : ℕ} (h : b ≤ a) (ha : a < 2 ^ 32) : sub a b = a - b := by
  simp only [sub]
  omega

/-- The difference to a larger word wraps around. -/
theorem sub_of_lt {a b : ℕ} (h : a < b) (hb : b < 2 ^ 32) : sub a b = a + 2 ^ 32 - b := by
  simp only [sub]
  omega

/-- A step towards a word ahead. -/
theorem sub_add {a b k : ℕ} (h : k ≤ sub a b) : sub a (b + k) = sub a b - k := by
  have hlt := sub_lt a b
  have hdiff : sub a b + b % 2 ^ 32 = a % 2 ^ 32 ∨ sub a b + b % 2 ^ 32 = a % 2 ^ 32 + 2 ^ 32 := by
    simp only [sub]
    omega
  have hnext : sub a (b + k) + (b + k) % 2 ^ 32 = a % 2 ^ 32 ∨
      sub a (b + k) + (b + k) % 2 ^ 32 = a % 2 ^ 32 + 2 ^ 32 := by
    simp only [sub]
    omega
  have hlt' := sub_lt a (b + k)
  omega

/-- The sign of a word is its highest bit. -/
theorem toInt_neg_iff {a : ℕ} (ha : a < 2 ^ 32) : toInt a < 0 ↔ 2 ^ 31 ≤ a := by
  rw [toInt]
  split
  · simp only [Int.ofNat_eq_natCast]
    omega
  · simp only [Int.ofNat_eq_natCast]
    omega

/-- **The order by the distance** from the first word ahead to the second one. -/
theorem precedes_iff (a b : ℕ) : precedes a b = true ↔ 1 ≤ sub b a ∧ sub b a ≤ 2 ^ 31 := by
  rw [precedes, decide_eq_true_eq, toInt_neg_iff (sub_lt a b)]
  simp only [sub]
  omega

/-- **In half of the circle** the order is that of the distances from its start. -/
theorem precedes_iff_of_window {base a b : ℕ} (ha : sub a base < 2 ^ 31)
    (hb : sub b base < 2 ^ 31) : precedes a b = true ↔ sub a base < sub b base := by
  have hword : ∀ x, sub x base + base % 2 ^ 32 = x % 2 ^ 32 ∨
      sub x base + base % 2 ^ 32 = x % 2 ^ 32 + 2 ^ 32 := by
    simp only [sub]
    omega
  have hdiff : sub b a + a % 2 ^ 32 = b % 2 ^ 32 ∨ sub b a + a % 2 ^ 32 = b % 2 ^ 32 + 2 ^ 32 := by
    simp only [sub]
    omega
  have hlt := sub_lt b a
  have hwa := hword a
  have hwb := hword b
  rw [precedes_iff]
  omega

/-! ### Words of integers -/

/-- **The signed difference** of the words of two integers that are close to each other. -/
theorem toInt_sub_of_emod {a b : ℕ} {x y : ℤ} (ha : x % 2 ^ 32 = a) (hb : y % 2 ^ 32 = b)
    (hlo : -2 ^ 31 ≤ x - y) (hhi : x - y < 2 ^ 31) : toInt (sub a b) = x - y := by
  rw [toInt]
  split
  case isTrue h =>
    simp only [sub, Int.ofNat_eq_natCast] at h ⊢
    omega
  case isFalse h =>
    simp only [sub, Int.ofNat_eq_natCast] at h ⊢
    omega

/-- Close integers are ordered as their words. -/
theorem precedes_of_emod {a b : ℕ} {x y : ℤ} (ha : x % 2 ^ 32 = a) (hb : y % 2 ^ 32 = b)
    (hlo : -2 ^ 31 ≤ x - y) (hhi : x - y < 2 ^ 31) : precedes a b = decide (x < y) := by
  rw [precedes, toInt_sub_of_emod ha hb hlo hhi]
  exact decide_eq_decide.mpr (by omega)

end Word32
