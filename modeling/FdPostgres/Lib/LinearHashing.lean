import Mathlib

/-!
# Linear Hashing

A table that grows one bucket at a time keeps three numbers: the highest bucket in use and
two masks of the form `2 ^ k - 1`, one for the whole table and one for its lower half. A
hash value is reduced by the high mask, and by the low mask when that names a bucket not in
use yet. Growing adds one bucket, which takes over part of exactly one old bucket; the masks
move on when the new bucket crosses a power of two.

* `Masks` and `Masks.bucket` are the numbers and the reduction.
* `Masks.grow` adds a bucket, and `Masks.source` is the bucket it is split from.
* `Masks.Valid` is the invariant: consecutive masks around the highest bucket.
* `Masks.partner` computes, from later masks, the bucket that an old bucket is being split
  into.

## Main results

* `Masks.Valid.grow`: growing keeps the invariant.
* `Masks.Valid.bucket_le`: a hash value never maps to a bucket that is not in use.
* `Masks.Valid.bucket_grow`: **a split is local** — growing moves hash values from the
  source to the new bucket and leaves all others in place. `Masks.Valid.bucket_grow_eq_new`
  says which ones move.
* `Masks.LatestSplit.partner_eq`: the partner is right as long as the old bucket has not
  been split once more.
-/

namespace LinearHashing

open Nat

/-- The highest bucket in use, the mask of the whole table, and the mask of its lower
half. -/
structure Masks where
  maxBucket : ℕ
  highMask : ℕ
  lowMask : ℕ
  deriving Repr, DecidableEq

namespace Masks

variable (m : Masks)

/-- The bucket of a hash value. -/
def bucket (h : ℕ) : ℕ :=
  if m.maxBucket < h &&& m.highMask then (h &&& m.highMask) &&& m.lowMask
  else h &&& m.highMask

/-- The bucket that the next new bucket is split from. -/
def source : ℕ :=
  (m.maxBucket + 1) &&& m.lowMask

/-- Add one bucket; a bucket behind the high mask starts a new doubling. -/
def grow : Masks :=
  if m.highMask < m.maxBucket + 1 then
    { maxBucket := m.maxBucket + 1
      highMask := (m.maxBucket + 1) ||| m.highMask
      lowMask := m.highMask }
  else { m with maxBucket := m.maxBucket + 1 }

/-- The bucket that `old` was last split into, computed from the current masks: the one in
the current half of the table if it is in use, else the one in the half before. -/
def partner (old : ℕ) : ℕ :=
  if m.maxBucket < old ||| (m.lowMask + 1) then old ||| ((m.lowMask >>> 1) + 1)
  else old ||| (m.lowMask + 1)

/-- **The invariant** at level `k`: the masks are `2 ^ k - 1` and `2 ^ (k + 1) - 1`, and the
highest bucket lies between them. -/
structure ValidAt (m : Masks) (k : ℕ) : Prop where
  low : m.lowMask + 1 = 2 ^ k
  high : m.highMask + 1 = 2 ^ (k + 1)
  low_le : m.lowMask ≤ m.maxBucket
  le_high : m.maxBucket ≤ m.highMask

/-- The invariant at some level. -/
def Valid : Prop :=
  ∃ k, m.ValidAt k

/-- Reduction by a mask of the form `2 ^ k - 1` is the remainder modulo `2 ^ k`. -/
theorem and_mask_eq_mod {mask k : ℕ} (hm : mask + 1 = 2 ^ k) (h : ℕ) : h &&& mask = h % 2 ^ k := by
  obtain rfl : mask = 2 ^ k - 1 := by omega
  exact and_two_pow_sub_one_eq_mod h k

/-- One more bit adds nothing or a power of two to a remainder. -/
theorem mod_two_pow_succ_eq (h k : ℕ) :
    h % 2 ^ (k + 1) = h % 2 ^ k ∨ h % 2 ^ (k + 1) = h % 2 ^ k + 2 ^ k := by
  rw [mod_pow_succ]
  rcases mod_two_eq_zero_or_one (h / 2 ^ k) with hbit | hbit
  · exact .inl (by rw [hbit]; omega)
  · exact .inr (by rw [hbit]; omega)

namespace ValidAt

variable {m : Masks} {k : ℕ} (hv : m.ValidAt k)

include hv

/-- The high mask is twice the low mask plus one. -/
theorem high_eq : m.highMask = 2 * m.lowMask + 1 := by
  have h1 := hv.low
  have h2 := hv.high
  omega

/-- The bucket of a hash value in terms of remainders. -/
theorem bucket_eq (h : ℕ) :
    m.bucket h = if m.maxBucket < h % 2 ^ (k + 1) then h % 2 ^ k else h % 2 ^ (k + 1) := by
  have hdvd : 2 ^ k ∣ 2 ^ (k + 1) := pow_dvd_pow 2 (le_succ k)
  simp only [bucket, and_mask_eq_mod hv.high, and_mask_eq_mod hv.low, mod_mod_of_dvd h hdvd]

/-- A hash value maps to a bucket in use. -/
theorem bucket_le (h : ℕ) : m.bucket h ≤ m.maxBucket := by
  rw [hv.bucket_eq]
  split
  · have h1 := hv.low
    have h2 := hv.low_le
    omega
  · omega

/-- The source of the next split. It is the same bucket under the masks before and after
the split. -/
theorem source_eq : m.source = (m.maxBucket + 1) % 2 ^ k :=
  and_mask_eq_mod hv.low _

/-- At the end of a doubling, the next bucket is split from the first one. -/
theorem source_of_eq (h : m.maxBucket = m.highMask) :
    m.maxBucket + 1 = 2 ^ (k + 1) ∧ m.source = 0 := by
  have hnew : m.maxBucket + 1 = 2 ^ (k + 1) := by rw [h, hv.high]
  refine ⟨hnew, ?_⟩
  rw [hv.source_eq, hnew, mod_eq_zero_of_dvd (pow_dvd_pow 2 (le_succ k))]

omit hv in
/-- Within a doubling, growing changes the highest bucket only. -/
theorem grow_of_lt (h : m.maxBucket + 1 ≤ m.highMask) :
    m.grow = { m with maxBucket := m.maxBucket + 1 } := by
  rw [grow, if_neg (by omega)]

/-- At the end of a doubling, growing moves both masks on by one bit. -/
theorem grow_of_eq (h : m.maxBucket = m.highMask) :
    m.grow = ⟨2 ^ (k + 1), 2 ^ (k + 1) + (2 ^ (k + 1) - 1), 2 ^ (k + 1) - 1⟩ := by
  have hhigh : m.highMask = 2 ^ (k + 1) - 1 := by
    have := hv.high
    omega
  have hnew : m.highMask + 1 = 2 ^ (k + 1) := hv.high
  have hor : 2 ^ (k + 1) ||| (2 ^ (k + 1) - 1) = 2 ^ (k + 1) + (2 ^ (k + 1) - 1) := by
    rw [Nat.or_comm, Nat.or_two_pow_eq_add_of_lt (by omega), add_comm]
  rw [grow, if_pos (by omega), h, hnew, hhigh, hor]

/-- Within a doubling, growing keeps the level. -/
theorem grow_same (h : m.maxBucket + 1 ≤ m.highMask) : m.grow.ValidAt k := by
  rw [grow_of_lt h]
  exact ⟨hv.low, hv.high, by have := hv.low_le; simp only; omega, h⟩

/-- At the end of a doubling, growing moves to the next level. -/
theorem grow_next (h : m.maxBucket = m.highMask) : m.grow.ValidAt (k + 1) := by
  have hpos : 0 < 2 ^ (k + 1) := Nat.two_pow_pos _
  rw [hv.grow_of_eq h]
  exact ⟨by simp only; omega, by simp only; omega, by simp only; omega, by simp only; omega⟩

/-- The highest bucket is at the end of a doubling or before it. -/
theorem eq_high_or_lt : m.maxBucket = m.highMask ∨ m.maxBucket + 1 ≤ m.highMask := by
  have := hv.le_high
  omega

end ValidAt

namespace Valid

variable {m : Masks}

/-- **Growing keeps the invariant.** -/
theorem grow (hv : m.Valid) : m.grow.Valid := by
  obtain ⟨k, hk⟩ := hv
  rcases hk.eq_high_or_lt with h | h
  · exact ⟨k + 1, hk.grow_next h⟩
  · exact ⟨k, hk.grow_same h⟩

theorem maxBucket_grow (m : Masks) : m.grow.maxBucket = m.maxBucket + 1 := by
  rw [Masks.grow]
  split <;> rfl

/-- A hash value never maps to a bucket that is not in use. -/
theorem bucket_le (hv : m.Valid) (h : ℕ) : m.bucket h ≤ m.maxBucket := by
  obtain ⟨k, hk⟩ := hv
  exact hk.bucket_le h

/-- The source of a split is the same under the masks after the split. -/
theorem source_eq_and_grow (hv : m.Valid) : m.source = (m.maxBucket + 1) &&& m.grow.lowMask := by
  obtain ⟨k, hk⟩ := hv
  rcases hk.eq_high_or_lt with h | h
  · obtain ⟨hnew, hsrc⟩ := hk.source_of_eq h
    rw [hsrc, and_mask_eq_mod (hk.grow_next h).low, hnew, mod_self]
  · rw [ValidAt.grow_of_lt h]
    rfl

/-- The source of a split is a bucket in use. -/
theorem source_le (hv : m.Valid) : m.source ≤ m.maxBucket := by
  obtain ⟨k, hk⟩ := hv
  have h1 := hk.low
  have h2 := hk.low_le
  rw [hk.source_eq]
  omega

/-- **A split is local**: growing leaves a hash value in its bucket, or moves it from the
source of the split to the new bucket. -/
theorem bucket_grow (hv : m.Valid) (h : ℕ) :
    m.grow.bucket h = m.bucket h ∨
    (m.bucket h = m.source ∧ m.grow.bucket h = m.maxBucket + 1) := by
  obtain ⟨k, hk⟩ := hv
  rcases hk.eq_high_or_lt with hmax | hmax
  · obtain ⟨hnew, hsrc⟩ := hk.source_of_eq hmax
    have hbef : m.bucket h = h % 2 ^ (k + 1) := by
      rw [hk.bucket_eq, if_neg (by omega)]
    have hafter := (hk.grow_next hmax).bucket_eq h
    rw [maxBucket_grow, hnew] at hafter
    rcases mod_two_pow_succ_eq h (k + 1) with hmod | hmod
    · left
      rw [hafter, if_neg (by omega), hbef, hmod]
    · by_cases hzero : h % 2 ^ (k + 1) = 0
      · right
        rw [hafter, if_neg (by omega), hbef, hsrc]
        omega
      · left
        rw [hafter, if_pos (by omega), hbef]
  · have hafter := (hk.grow_same hmax).bucket_eq h
    have hbef := hk.bucket_eq h
    rw [maxBucket_grow] at hafter
    by_cases heq : h % 2 ^ (k + 1) = m.maxBucket + 1
    · right
      rw [if_neg (by omega)] at hafter
      rw [if_pos (by omega)] at hbef
      refine ⟨?_, by omega⟩
      rw [hbef, hk.source_eq, ← heq, mod_mod_of_dvd h (pow_dvd_pow 2 (le_succ k))]
    · left
      rw [hafter, hbef]
      by_cases hlt : m.maxBucket < h % 2 ^ (k + 1)
      · rw [if_pos hlt, if_pos (by omega)]
      · rw [if_neg hlt, if_neg (by omega)]

/-- After a growth the low mask is below the highest bucket. -/
theorem lowMask_grow_lt (hv : m.Valid) : m.grow.lowMask < m.maxBucket + 1 := by
  obtain ⟨k, hk⟩ := hv
  have hle := hk.low_le
  have hhigh := hk.high
  rcases hk.eq_high_or_lt with hmax | hmax
  · rw [hk.grow_of_eq hmax]
    dsimp only
    omega
  · rw [ValidAt.grow_of_lt hmax]
    exact Nat.lt_succ_of_le hle

/-- **The hash values in a new bucket** are those that the new high mask reduces to it. -/
theorem bucket_grow_eq_new (hv : m.Valid) (h : ℕ) :
    m.grow.bucket h = m.maxBucket + 1 ↔ h &&& m.grow.highMask = m.maxBucket + 1 := by
  have hlow := hv.lowMask_grow_lt
  rw [bucket, maxBucket_grow]
  split
  · have hle : (h &&& m.grow.highMask) &&& m.grow.lowMask ≤ m.grow.lowMask := Nat.and_le_right
    omega
  · rfl

/-- The next bucket is the source with one higher bit set. -/
theorem exists_source_add (hv : m.Valid) :
    ∃ j, m.source < 2 ^ j ∧ m.maxBucket + 1 = m.source + 2 ^ j := by
  obtain ⟨k, hk⟩ := hv
  rcases hk.eq_high_or_lt with h | h
  · obtain ⟨hnew, hsrc⟩ := hk.source_of_eq h
    exact ⟨k + 1, by omega, by omega⟩
  · have hlow := hk.low
    have hlow_le := hk.low_le
    have hhigh := hk.high
    have hsrc : m.source = m.maxBucket + 1 - 2 ^ k := by
      rw [hk.source_eq, mod_eq_sub_mod (by omega), mod_eq_of_lt (by omega)]
    exact ⟨k, by omega, by omega⟩

end Valid

/-! ### The partner of a split -/

/-- The split of `old` into `new` is the latest one of `old`: `new` is `old` with one higher
bit set and is in use, and the bucket with the next bit set is not. -/
def LatestSplit (old new : ℕ) : Prop :=
  ∃ j, old < 2 ^ j ∧ new = old + 2 ^ j ∧ new ≤ m.maxBucket ∧ m.maxBucket < old + 2 ^ (j + 1)

namespace LatestSplit

variable {m : Masks} {old new : ℕ}

/-- A growing table starts a latest split, from the source to the new bucket. -/
theorem of_grow (hv : m.Valid) : m.grow.LatestSplit m.source (m.maxBucket + 1) := by
  obtain ⟨j, hlt, hnew⟩ := hv.exists_source_add
  have hmax := Valid.maxBucket_grow m
  exact ⟨j, hlt, hnew, by omega, by omega⟩

/-- A split stays the latest one of its old bucket while other buckets are split. -/
theorem grow (hv : m.Valid) (h : m.LatestSplit old new) (hne : m.source ≠ old) :
    m.grow.LatestSplit old new := by
  obtain ⟨j, hlt, hnew, hle, hmax⟩ := h
  obtain ⟨i, hilt, hi⟩ := hv.exists_source_add
  have hgrow := Valid.maxBucket_grow m
  refine ⟨j, hlt, hnew, by omega, ?_⟩
  by_contra hcon
  have hsum : m.source + 2 ^ i = old + 2 ^ (j + 1) := by omega
  have hij : i = j + 1 := by
    rcases lt_trichotomy i (j + 1) with hi' | hi' | hi'
    · have hle' : 2 ^ i ≤ 2 ^ j := Nat.pow_le_pow_right (by omega) (by omega)
      omega
    · exact hi'
    · have hle' : 2 ^ (j + 1 + 1) ≤ 2 ^ i := Nat.pow_le_pow_right (by omega) (by omega)
      omega
  rw [hij] at hsum
  exact hne (by omega)

/-- **The partner is right**: from any masks under which a split of `old` is its latest one,
`partner` computes the new bucket of that split. -/
theorem partner_eq (hv : m.Valid) (h : m.LatestSplit old new) : m.partner old = new := by
  obtain ⟨k, hk⟩ := hv
  obtain ⟨j, hlt, hnew, hle, hmax⟩ := h
  have hlow := hk.low
  have hlow_le := hk.low_le
  have hle_high := hk.le_high
  have hhigh := hk.high
  have hcases : k = j ∨ k = j + 1 := by
    rcases lt_or_ge k j with hkj | hkj
    · have hle' : 2 ^ (k + 1) ≤ 2 ^ j := Nat.pow_le_pow_right (by omega) (by omega)
      omega
    · rcases lt_or_ge (j + 1) k with hkj' | hkj'
      · have hle' : 2 ^ (j + 1 + 1) ≤ 2 ^ k := Nat.pow_le_pow_right (by omega) (by omega)
        omega
      · omega
  rcases hcases with rfl | rfl
  · rw [partner, hlow, Nat.or_two_pow_eq_add_of_lt hlt, if_neg (by omega), hnew]
  · have hshift : (m.lowMask >>> 1) + 1 = 2 ^ j := by
      omega
    rw [partner, hlow, hshift, Nat.or_two_pow_eq_add_of_lt (by omega), if_pos (by omega),
      Nat.or_two_pow_eq_add_of_lt hlt, hnew]

end LatestSplit

end Masks

end LinearHashing
