import Mathlib

/-!
# Packed Differences of an Increasing Sequence

A strictly increasing sequence behind a base is stored as the differences of neighbours, each
less one. Numbers of a fixed width are packed into one number, the first one in the lowest bits.

* `undelta_deltas`: the sequence is recovered from its differences.
* `pack`: fields of width `w` under a top part; `pack_and_mask` and `pack_shiftRight` read them
  one after the other.
* `shifted_or_field`, `pack_or_shiftLeft`: packing with shifts and disjunctions.
-/

namespace PackedDeltas

open List

/-! ### Differences -/

/-- The differences of neighbours, less one. -/
def deltas : ℕ → List ℕ → List ℕ
  | _, [] => []
  | base, x :: xs => (x - base - 1) :: deltas x xs

/-- The sequence with given differences. -/
def undelta : ℕ → List ℕ → List ℕ
  | _, [] => []
  | base, d :: ds => (base + 1 + d) :: undelta (base + 1 + d) ds

/-- A strictly increasing sequence behind a base. -/
def Increasing (base : ℕ) (xs : List ℕ) : Prop :=
  (base :: xs).Pairwise (· < ·)

variable {base x : ℕ} {xs : List ℕ}

/-- An increasing sequence starts behind its base and goes on increasing. -/
theorem increasing_cons : Increasing base (x :: xs) ↔ base < x ∧ Increasing x xs := by
  rw [Increasing, Increasing, pairwise_cons, pairwise_cons]
  constructor
  · rintro ⟨hbase, hx⟩
    exact ⟨hbase x mem_cons_self, hx⟩
  · rintro ⟨hlt, hx⟩
    refine ⟨fun y hy => ?_, hx⟩
    rcases mem_cons.mp hy with rfl | hy
    · exact hlt
    · exact lt_trans hlt (hx.1 y hy)

/-- A sequence has as many differences as numbers. -/
theorem length_deltas (base : ℕ) (xs : List ℕ) : (deltas base xs).length = xs.length := by
  induction xs generalizing base with
  | nil => rfl
  | cons x xs ih => simp [deltas, ih]

/-- The differences of the first numbers. -/
theorem deltas_take (base : ℕ) (xs : List ℕ) (n : ℕ) :
    deltas base (xs.take n) = (deltas base xs).take n := by
  induction xs generalizing base n with
  | nil => simp [deltas]
  | cons x xs ih =>
    cases n with
    | zero => rfl
    | succ n => simp only [take_succ_cons, deltas, ih]

/-- **An increasing sequence is recovered from its differences.** -/
theorem undelta_deltas (h : Increasing base xs) : undelta base (deltas base xs) = xs := by
  induction xs generalizing base with
  | nil => rfl
  | cons x xs ih =>
    obtain ⟨hlt, hxs⟩ := increasing_cons.mp h
    have hx : base + 1 + (x - base - 1) = x := by omega
    rw [deltas, undelta, hx, ih hxs]

variable {ds : List ℕ}

/-- The recovered numbers are behind the base. -/
theorem lt_of_mem_undelta {y : ℕ} (h : y ∈ undelta base ds) : base < y := by
  induction ds generalizing base with
  | nil => cases h
  | cons d ds ih =>
    rcases mem_cons.mp h with rfl | h
    · omega
    · have hlt := ih h
      omega

/-- A sequence without gaps. -/
theorem mem_undelta_replicate {n y : ℕ} :
    y ∈ undelta base (List.replicate n 0) ↔ base < y ∧ y ≤ base + n := by
  induction n generalizing base with
  | zero =>
    simp only [replicate_zero, undelta, not_mem_nil, false_iff]
    omega
  | succ n ih =>
    rw [replicate_succ, undelta, mem_cons, ih]
    omega

/-! ### Fields -/

/-- Fields of width `w`, the first one lowest, under a top part. -/
def pack (w top : ℕ) : List ℕ → ℕ
  | [] => top
  | d :: ds => d + 2 ^ w * pack w top ds

theorem pack_and_mask {w d : ℕ} (top : ℕ) (ds : List ℕ) (hd : d < 2 ^ w) :
    pack w top (d :: ds) &&& (2 ^ w - 1) = d := by
  rw [pack, Nat.and_two_pow_sub_one_eq_mod, Nat.add_mul_mod_self_left, Nat.mod_eq_of_lt hd]

/-- The fields above the lowest one. -/
theorem pack_shiftRight {w d : ℕ} (top : ℕ) (ds : List ℕ) (hd : d < 2 ^ w) :
    pack w top (d :: ds) >>> w = pack w top ds := by
  rw [pack, Nat.shiftRight_eq_div_pow, Nat.add_mul_div_left _ _ (Nat.two_pow_pos w),
    Nat.div_eq_of_lt hd, zero_add]

/-- The top part lies above the fields. -/
theorem pack_top (w top : ℕ) (ds : List ℕ) :
    pack w top ds = pack w 0 ds + 2 ^ (w * ds.length) * top := by
  induction ds with
  | nil => simp [pack]
  | cons d ds ih =>
    rw [pack, pack, ih, length_cons, mul_add, mul_add w, mul_one,
      add_comm (w * ds.length) w, pow_add, mul_assoc, add_assoc]

/-- Fields without a top part are bounded by their total width. -/
theorem pack_lt {w : ℕ} (h : ∀ d ∈ ds, d < 2 ^ w) : pack w 0 ds < 2 ^ (w * ds.length) := by
  induction ds with
  | nil => simp [pack]
  | cons d ds ih =>
    have hd := h d mem_cons_self
    have hds := ih (fun d hd => h d (mem_cons_of_mem _ hd))
    rw [pack, length_cons, mul_add, mul_one, add_comm (w * ds.length) w, pow_add]
    have hmul : 2 ^ w * (pack w 0 ds + 1) ≤ 2 ^ w * 2 ^ (w * ds.length) := Nat.mul_le_mul_left _ hds
    rw [mul_add, mul_one] at hmul
    omega

/-- A top part at a given bit, above all fields. -/
theorem pack_or_shiftLeft {w top bit : ℕ} (h : ∀ d ∈ ds, d < 2 ^ w) (hbit : w * ds.length ≤ bit) :
    pack w 0 ds ||| (top <<< bit) = pack w (top <<< (bit - w * ds.length)) ds := by
  have hlt : pack w 0 ds < 2 ^ bit :=
    lt_of_lt_of_le (pack_lt h) (Nat.pow_le_pow_right (by decide) hbit)
  have hpow : 2 ^ bit = 2 ^ (w * ds.length) * 2 ^ (bit - w * ds.length) := by
    rw [← pow_add, Nat.add_sub_cancel' hbit]
  rw [Nat.or_comm, ← Nat.shiftLeft_add_eq_or_of_lt hlt, pack_top w (top <<< _),
    Nat.shiftLeft_eq, Nat.shiftLeft_eq, hpow, add_comm, mul_comm top,
    mul_comm top, mul_assoc]

/-- The top part read back. -/
theorem pack_shiftRight_top {w top bit : ℕ} (h : ∀ d ∈ ds, d < 2 ^ w) (hbit : w * ds.length ≤ bit) :
    pack w (top <<< (bit - w * ds.length)) ds >>> bit = top := by
  have hlt : pack w 0 ds < 2 ^ bit :=
    lt_of_lt_of_le (pack_lt h) (Nat.pow_le_pow_right (by decide) hbit)
  rw [← pack_or_shiftLeft h hbit, Nat.shiftRight_or_distrib, Nat.shiftLeft_shiftRight,
    Nat.shiftRight_eq_div_pow, Nat.div_eq_of_lt hlt, Nat.zero_or]

theorem shifted_or_field {w d : ℕ} (a : ℕ) (hd : d < 2 ^ w) : 2 ^ w * a ||| d = d + 2 ^ w * a := by
  rw [← Nat.two_pow_add_eq_or_of_lt hd, add_comm]

end PackedDeltas
