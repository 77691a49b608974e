import Mathlib

/-!
# Blocks of a Circular Space

A space of `N` slots is divided into blocks of `B` slots, the last of which may be short. Slots
are given out in order, round after round: the slot number `X`, not wrapped around, is the slot
`X % N` of the round `X / N`, and its block is `X % N / B`.

* `index N B X`: the number of the block of `X`, not wrapped around.
* `index_mod`: it wraps around to the block of the slot.
* `index_mono`, `index_lt`, `index_add`: it grows with `X`, at the first slot of each block, and by
  the number of blocks in a round.
-/

namespace CircularBlocks

variable {N B : ℕ}

/-- The number of blocks. -/
def count (N B : ℕ) : ℕ := (N - 1) / B + 1

/-- The block of a slot, not wrapped around. -/
def index (N B X : ℕ) : ℕ := X / N * count N B + X % N / B

/-- The block of a slot is one of the blocks. -/
theorem block_lt (hN : 0 < N) (X : ℕ) : X % N / B < count N B := by
  have hlt : X % N ≤ N - 1 := Nat.le_sub_one_of_lt (Nat.mod_lt X hN)
  exact Nat.lt_succ_of_le (Nat.div_le_div_right hlt)

/-- **The block number wraps around to the block of the slot.** -/
theorem index_mod (hN : 0 < N) (X : ℕ) : index N B X % count N B = X % N / B := by
  rw [index, mul_comm, Nat.mul_add_mod, Nat.mod_eq_of_lt (block_lt hN X)]

theorem index_add (hN : 0 < N) (X : ℕ) : index N B (X + N) = index N B X + count N B := by
  rw [index, index, Nat.add_div_right X hN, Nat.add_mod_right, Nat.succ_mul]
  omega

/-- Blocks of the same round. -/
theorem index_le_of_div_eq {X Y : ℕ} (hdiv : X / N = Y / N) (hmod : X % N / B ≤ Y % N / B) :
    index N B X ≤ index N B Y := by
  rw [index, hdiv]
  exact Nat.add_le_add_left hmod _

/-- Blocks of an earlier round. -/
theorem index_lt_of_div_lt (hN : 0 < N) {X Y : ℕ} (hdiv : X / N < Y / N) :
    index N B X < index N B Y := by
  have hround : (X / N + 1) * count N B ≤ Y / N * count N B := Nat.mul_le_mul_right _ hdiv
  have hblock := block_lt (B := B) hN X
  rw [Nat.succ_mul] at hround
  calc X / N * count N B + X % N / B
      < X / N * count N B + count N B := Nat.add_lt_add_left hblock _
    _ ≤ Y / N * count N B := hround
    _ ≤ Y / N * count N B + Y % N / B := Nat.le_add_right _ _

/-- **The block number grows.** -/
theorem index_mono (hN : 0 < N) {X Y : ℕ} (h : X ≤ Y) : index N B X ≤ index N B Y := by
  rcases lt_or_eq_of_le (Nat.div_le_div_right h : X / N ≤ Y / N) with hlt | heq
  · exact (index_lt_of_div_lt hN hlt).le
  · refine index_le_of_div_eq heq (Nat.div_le_div_right ?_)
    have hX := Nat.div_add_mod X N
    have hY := Nat.div_add_mod Y N
    rw [heq] at hX
    omega

/-- **The block number grows at the first slot of a block.** -/
theorem index_lt (hN : 0 < N) {X Y : ℕ} (h : X < Y) (hfirst : Y % N % B = 0) :
    index N B X < index N B Y := by
  rcases lt_or_eq_of_le (Nat.div_le_div_right h.le : X / N ≤ Y / N) with hlt | heq
  · exact index_lt_of_div_lt hN hlt
  · have hX := Nat.div_add_mod X N
    have hY := Nat.div_add_mod Y N
    rw [heq] at hX
    have hlt : X % N < Y % N := by omega
    have hdvd : B ∣ Y % N := Nat.dvd_of_mod_eq_zero hfirst
    have hblock : X % N / B < Y % N / B := Nat.div_lt_div_of_lt_of_dvd hdvd hlt
    rw [index, index, heq]
    omega

end CircularBlocks
