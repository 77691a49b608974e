import Mathlib

/-!
# Bit Utilities

The functions of `port/pg_bitutils.h` on machine words, and `fls`. The 32-bit and the 64-bit
versions differ in the range of their argument only; each is one definition on numbers under
the two names of the source.

* `nextPower2_spec`: the next power of two is less than twice the number.
-/

namespace FdPostgres

open Nat

variable (num : ℕ)

/-- The logarithm to base two, rounded up. -/
def ceilLog2 : ℕ :=
  if num < 2 then 0 else log2 (num - 1) + 1

/-- The next power of two, or the number itself. -/
def nextPower2 : ℕ :=
  if num &&& (num - 1) = 0 then num else 1 <<< (log2 num + 1)

/-- `pg_leftmost_one_pos32`: the position of the most significant set bit. -/
def pg_leftmost_one_pos32 (word : ℕ) : ℕ := log2 word

def pg_ceil_log2_32 : ℕ := ceilLog2 num

def pg_ceil_log2_64 : ℕ := ceilLog2 num

def pg_nextpower2_32 : ℕ := nextPower2 num

/-- `fls`: the position of the last set bit, counted from one. -/
def fls (mask : ℕ) : ℕ :=
  if mask = 0 then 0 else log2 mask + 1

/-- The next power of two is at least the number and less than twice the number. -/
theorem nextPower2_spec {num : ℕ} (hpos : 0 < num) :
    ∃ k, nextPower2 num = 2 ^ k ∧ num ≤ 2 ^ k ∧ 2 ^ k < 2 * num := by
  have hiff := and_sub_one_eq_zero_iff_isPowerOfTwo (pos_iff_ne_zero.mp hpos)
  by_cases hand : num &&& (num - 1) = 0
  · obtain ⟨k, hk⟩ := hiff.mp hand
    exact ⟨k, by rw [nextPower2, if_pos hand, hk], by omega, by omega⟩
  · have hle : 2 ^ log2 num ≤ num := log2_self_le (pos_iff_ne_zero.mp hpos)
    have hne : 2 ^ log2 num ≠ num := fun h => hand (hiff.mpr ⟨_, h.symm⟩)
    refine ⟨log2 num + 1, ?_, lt_log2_self.le, ?_⟩
    · rw [nextPower2, if_neg hand, one_shiftLeft]
    · omega

end FdPostgres
