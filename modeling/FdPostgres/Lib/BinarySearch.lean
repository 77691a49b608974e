import Mathlib

/-!
# Binary Search

The loop that halves an interval of positions until it finds where a test changes from true to
false. The caller fixes the test; in a sorted array it compares the key with the element at a
position.

* `partitionPoint_eq`: if the test holds exactly before position `k`, the loop returns `k`.
* `exists_partition`: a test that holds before every position where it holds has such a `k`.
-/

namespace BinarySearch

/-- The loop over the positions from `low` to `high`: where the test holds, the answer is behind
the middle. -/
def partitionPoint (p : ℕ → Bool) : ℕ → ℕ → ℕ → ℕ
  | 0, low, _ => low
  | fuel + 1, low, high =>
      if low < high then
        if p (low + (high - low) / 2) then
          partitionPoint p fuel (low + (high - low) / 2 + 1) high
        else partitionPoint p fuel low (low + (high - low) / 2)
      else low

/-- **The loop finds where the test changes.** -/
theorem partitionPoint_eq {p : ℕ → Bool} {k fuel low high : ℕ} (hfuel : high - low ≤ fuel)
    (hlow : low ≤ k) (hhigh : k ≤ high) (hp : ∀ i, low ≤ i → i < high → (p i = true ↔ i < k)) :
    partitionPoint p fuel low high = k := by
  induction fuel generalizing low high with
  | zero =>
    rw [partitionPoint]
    omega
  | succ fuel ih =>
    rw [partitionPoint]
    by_cases hlt : low < high
    · have hmid := hp (low + (high - low) / 2) (by omega) (by omega)
      rw [if_pos hlt]
      by_cases htest : p (low + (high - low) / 2) = true
      · rw [if_pos htest]
        have hk := hmid.mp htest
        exact ih (by omega) (by omega) hhigh (fun i hi hi' => hp i (by omega) hi')
      · rw [if_neg htest]
        have hk : ¬ low + (high - low) / 2 < k := fun h => htest (hmid.mpr h)
        exact ih (by omega) hlow (by omega) (fun i hi hi' => hp i hi (by omega))
    · rw [if_neg hlt]
      omega

/-- A test that holds before every position where it holds changes at one position. -/
theorem exists_partition {p : ℕ → Prop} (n : ℕ) (h : ∀ i j, i ≤ j → j < n → p j → p i) :
    ∃ k ≤ n, ∀ i < n, p i ↔ i < k := by
  induction n with
  | zero => exact ⟨0, Nat.le_refl 0, fun i hi => absurd hi (Nat.not_lt_zero i)⟩
  | succ n ih =>
    by_cases hp : p n
    · refine ⟨n + 1, Nat.le_refl _, fun i hi => ?_⟩
      exact iff_of_true (h i n (Nat.lt_succ_iff.mp hi) (Nat.lt_succ_self n) hp) hi
    · obtain ⟨k, hk, hiff⟩ := ih (fun i j hij hj => h i j hij (Nat.lt_succ_of_lt hj))
      refine ⟨k, Nat.le_succ_of_le hk, fun i hi => ?_⟩
      by_cases heq : i = n
      · rw [heq]
        exact iff_of_false hp (Nat.not_lt.mpr hk)
      · exact hiff i (by omega)

end BinarySearch
