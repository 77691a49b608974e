import FdPostgres.Lib.Word32

/-!
# Counters that Skip Zero

A 32-bit counter that never hands out zero goes through the words from `1` to `2 ^ 32 - 1` and
starts again. The numbers it hands out are `nth 0, nth 1, ...`; the counter itself is at zero for
a moment when it wraps around, and `skip` moves it on.

* `skip_succ`: the number after a number.
* `nth_ne_nth`: a number comes again only after all others.
* `nth_add`: the distance of two numbers as words, which counts zero when it is passed.
-/

namespace WrapCounter

variable (r : ℕ)

/-- The numbers that are handed out, in order. -/
def nth : ℕ := r % (2 ^ 32 - 1) + 1

/-- The counter, moved past zero. -/
def skip (w : ℕ) : ℕ := if w = 0 then 1 else w

theorem nth_pos : 0 < nth r := Nat.succ_pos _

theorem nth_lt : nth r < 2 ^ 32 := by
  simp only [nth]
  omega

/-- **The number after a number**: the counter is incremented and moved past zero. -/
theorem skip_succ : skip ((nth r + 1) % 2 ^ 32) = nth (r + 1) := by
  by_cases hlast : r % (2 ^ 32 - 1) + 1 = 2 ^ 32 - 1
  · have hzero : (nth r + 1) % 2 ^ 32 = 0 := by
      simp only [nth]
      omega
    rw [skip, if_pos hzero, nth]
    omega
  · have hnext : (nth r + 1) % 2 ^ 32 = nth r + 1 := by
      simp only [nth]
      omega
    rw [skip, hnext, if_neg (Nat.succ_ne_zero _), nth, nth]
    omega

theorem skip_nth : skip (nth r) = nth r := if_neg (Nat.ne_of_gt (nth_pos r))

/-- Every word is the counter before some number. -/
theorem exists_nth (w : ℕ) (hw : w < 2 ^ 32) : ∃ r, skip w = nth r := by
  refine ⟨skip w - 1, ?_⟩
  by_cases hzero : w = 0
  · rw [hzero]
    decide
  · rw [skip, if_neg hzero, nth]
    omega

/-- Two numbers, the second one a distance of words after the first. -/
theorem exists_nth_after {a b : ℕ} (ha : 0 < a ∧ a < 2 ^ 32) (hb : 0 < b ∧ b < 2 ^ 32) :
    ∃ i j, i ≤ j ∧ a = nth i ∧ b = nth j ∧ j ≤ i + Word32.sub b a := by
  rcases lt_or_ge b a with hlt | hge
  · refine ⟨a - 1, b - 1 + (2 ^ 32 - 1), by omega, ?_, ?_, ?_⟩
    · rw [nth]
      omega
    · rw [nth]
      omega
    · rw [Word32.sub_of_lt hlt ha.2]
      omega
  · refine ⟨a - 1, b - 1, by omega, ?_, ?_, ?_⟩
    · rw [nth]
      omega
    · rw [nth]
      omega
    · rw [Word32.sub_of_le hge hb.2]
      omega

/-- **A number comes again only after all others.** -/
theorem nth_ne_nth {r i j : ℕ} (hij : i < j) (hlt : j - i < 2 ^ 32 - 1) :
    nth (r + i) ≠ nth (r + j) := by
  simp only [nth]
  omega

/-- **The distance of two numbers**: as words they are as far apart as their places, or one more
when zero is between them. -/
theorem nth_add {d : ℕ} (hd : d < 2 ^ 32 - 1) :
    ∃ e, d ≤ e ∧ e ≤ d + 1 ∧ (d = 0 → e = 0) ∧ nth (r + d) = (nth r + e) % 2 ^ 32 := by
  have hplace : (r + d) % (2 ^ 32 - 1) = r % (2 ^ 32 - 1) + d ∨
      (r + d) % (2 ^ 32 - 1) + (2 ^ 32 - 1) = r % (2 ^ 32 - 1) + d := by
    omega
  simp only [nth]
  rcases hplace with hplace | hplace
  · refine ⟨d, Nat.le_refl d, Nat.le_succ d, id, ?_⟩
    omega
  · refine ⟨d + 1, Nat.le_succ d, Nat.le_refl _, fun hzero => ?_, ?_⟩
    · omega
    · omega

end WrapCounter
