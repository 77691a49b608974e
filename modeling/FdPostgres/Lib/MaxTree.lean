import Mathlib

/-!
# Trees of Maxima in an Array

A binary tree in an array of `n` nodes: the children of node `i` are the nodes `2 * i + 1` and
`2 * i + 2`, and the first `k` nodes are inner ones. Each inner node carries the maximum of its
children; a child past the end of the array counts for the least value.

* `IsMaxTree`: every inner node is right.
* `MaxExcept`: every inner node but one is right, which is what a change of a single node leaves.
* `IsMaxTree.root_eq_sup`: the root is the maximum of the leaves.
* `IsMaxTree.child_of_le`: a value that a node promises is promised by one of its children.
* `sup_blocks`: the maximum over a range is the maximum over its blocks.
-/

namespace MaxTree

open Function Nat

variable {α : Type*} [LinearOrder α] [OrderBot α]

/-- The parent of a node. -/
def parent (i : ℕ) : ℕ := (i - 1) / 2

/-- A node, or the least value past the end of the array. -/
def read (n : ℕ) (nodes : ℕ → α) (i : ℕ) : α := if i < n then nodes i else ⊥

/-- The maximum of the children of a node. -/
def childMax (n : ℕ) (nodes : ℕ → α) (i : ℕ) : α :=
  max (read n nodes (2 * i + 1)) (read n nodes (2 * i + 2))

/-- **Every inner node is the maximum of its children.** -/
def IsMaxTree (n k : ℕ) (nodes : ℕ → α) : Prop := ∀ i < k, nodes i = childMax n nodes i

/-- Every inner node but one is the maximum of its children. -/
def MaxExcept (n k : ℕ) (nodes : ℕ → α) (j : ℕ) : Prop :=
  ∀ i < k, i ≠ j → nodes i = childMax n nodes i

section Changes

variable {n k : ℕ} {nodes : ℕ → α} {i j m : ℕ} {v : α}

theorem childMax_update (hm : m ≠ 2 * i + 1) (hm' : m ≠ 2 * i + 2) :
    childMax n (update nodes m v) i = childMax n nodes i := by
  simp only [childMax, read, update_of_ne hm.symm, update_of_ne hm'.symm]

/-- The tree is right if the one node is. -/
theorem MaxExcept.isMaxTree (h : MaxExcept n k nodes j) (hj : nodes j = childMax n nodes j) :
    IsMaxTree n k nodes := by
  intro i hi
  by_cases hij : i = j
  · rw [hij, hj]
  · exact h i hi hij

/-- A change of a leaf concerns its parent only. -/
theorem IsMaxTree.update_leaf (h : IsMaxTree n k nodes) (hm : k ≤ m) :
    MaxExcept n k (update nodes m v) (parent m) := by
  intro i hi hne
  rw [parent] at hne
  rw [update_of_ne (by omega), childMax_update (by omega) (by omega)]
  exact h i hi

/-- **Correcting a node** concerns its parent only. -/
theorem MaxExcept.write (h : MaxExcept n k nodes j) :
    MaxExcept n k (update nodes j (childMax n nodes j)) (parent j) := by
  intro i hi hne
  rw [parent] at hne
  by_cases hij : i = j
  · rw [hij, update_self, childMax_update (by omega) (by omega)]
  · rw [update_of_ne hij]
    by_cases hchild : j = 2 * i + 1 ∨ j = 2 * i + 2
    · omega
    · rw [not_or] at hchild
      rw [childMax_update hchild.1 hchild.2]
      exact h i hi hij

/-- Correcting the root. -/
theorem MaxExcept.update_root (h : MaxExcept n k nodes 0) :
    IsMaxTree n k (update nodes 0 (childMax n nodes 0)) := by
  refine h.write.isMaxTree ?_
  rw [parent, update_self, childMax_update (by omega) (by omega)]

end Changes

section Maximum

variable {n k : ℕ} {nodes : ℕ → α} {i : ℕ} {v : α} (h : IsMaxTree n k nodes)

include h

/-- **What a node promises is promised by a child.** -/
theorem IsMaxTree.child_of_le (hi : i < k) (hv : ⊥ < v) (hle : v ≤ nodes i) :
    (2 * i + 1 < n ∧ v ≤ nodes (2 * i + 1)) ∨ (2 * i + 2 < n ∧ v ≤ nodes (2 * i + 2)) := by
  have hread : ∀ j, v ≤ read n nodes j → j < n ∧ v ≤ nodes j := by
    intro j hj
    rw [read] at hj
    split at hj
    · rename_i hjn
      exact ⟨hjn, hj⟩
    · exact absurd (lt_of_lt_of_le hv hj) (lt_irrefl _)
  rw [h i hi, childMax, le_max_iff] at hle
  exact hle.imp (hread _) (hread _)

/-- Some leaf has what a node promises. -/
theorem IsMaxTree.exists_leaf (hv : ⊥ < v) :
    ∀ {i : ℕ}, i < n → v ≤ nodes i → ∃ j, k ≤ j ∧ j < n ∧ v ≤ nodes j := by
  intro i hi hle
  -- the way down ends, since the indices grow
  induction hd : n - i using Nat.strong_induction_on generalizing i with
  | _ d ih =>
    by_cases hk : i < k
    · rcases h.child_of_le hk hv hle with ⟨hlt, hchild⟩ | ⟨hlt, hchild⟩
      · exact ih (n - (2 * i + 1)) (by omega) hlt hchild rfl
      · exact ih (n - (2 * i + 2)) (by omega) hlt hchild rfl
    · exact ⟨i, by omega, hi, hle⟩

/-- No node is above its parent. -/
theorem IsMaxTree.le_parent (hn : n ≤ 2 * k + 1) (hpos : 0 < i)
    (hi : i < n) : nodes i ≤ nodes (parent i) := by
  have hchild : parent i < k ∧ (i = 2 * parent i + 1 ∨ i = 2 * parent i + 2) := by
    rw [parent]
    omega
  rw [h (parent i) hchild.1, childMax, le_max_iff]
  refine hchild.2.imp (fun heq => ?_) fun heq => ?_
  · rw [← heq, read, if_pos hi]
  · rw [← heq, read, if_pos hi]

/-- **No node is above its ancestors**: `j` levels up, the numbers from 1 on are divided by
`2 ^ j`. -/
theorem IsMaxTree.le_ancestor (hn : n ≤ 2 * k + 1) (hi : i < n)
    {j m : ℕ} (hm : (i + 1) / 2 ^ j = m + 1) : nodes i ≤ nodes m := by
  induction j generalizing m with
  | zero =>
    rw [pow_zero, Nat.div_one, Nat.add_right_cancel_iff] at hm
    rw [hm]
  | succ j ih =>
    rw [pow_succ, ← Nat.div_div_eq_div_mul] at hm
    have hle := Nat.div_le_self (i + 1) (2 ^ j)
    obtain ⟨w, hw⟩ : ∃ w, (i + 1) / 2 ^ j = w + 1 := Nat.exists_eq_add_one.mpr (by omega)
    have hpar : parent w = m := by
      rw [parent]
      omega
    rw [← hpar]
    exact (ih hw).trans (h.le_parent hn (by omega) (by omega))

/-- No node is above the root. -/
theorem IsMaxTree.le_root (hn : n ≤ 2 * k + 1) (i : ℕ) (hi : i < n) : nodes i ≤ nodes 0 := by
  induction i using Nat.strong_induction_on with
  | _ i ih =>
    rcases Nat.eq_zero_or_pos i with rfl | hpos
    · exact le_rfl
    · have hlt : parent i < i := by
        rw [parent]
        omega
      exact (h.le_parent hn hpos hi).trans (ih _ hlt (hlt.trans hi))

/-- **The root is the maximum of the leaves.** -/
theorem IsMaxTree.root_eq_sup (hn : n ≤ 2 * k + 1) (hpos : 0 < n) :
    nodes 0 = (Finset.Ico k n).sup nodes := by
  apply le_antisymm
  · by_cases hbot : nodes 0 = ⊥
    · rw [hbot]
      exact bot_le
    · obtain ⟨j, hk, hj, hle⟩ := h.exists_leaf (bot_lt_iff_ne_bot.mpr hbot) hpos le_rfl
      exact le_trans hle (Finset.le_sup (Finset.mem_Ico.mpr ⟨hk, hj⟩))
  · refine Finset.sup_le fun j hj => h.le_root hn j ?_
    exact (Finset.mem_Ico.mp hj).2

omit h in
/-- **The maximum over a range, block by block.** -/
theorem sup_blocks (f : ℕ → α) (p n : ℕ) {m : ℕ} (hm : 0 < m) :
    (Finset.Ico (p * (n * m)) ((p + 1) * (n * m))).sup f =
      (Finset.range n).sup fun s => (Finset.Ico ((p * n + s) * m) ((p * n + s + 1) * m)).sup f := by
  apply le_antisymm
  · refine Finset.sup_le fun b hb => ?_
    rw [Finset.mem_Ico, ← mul_assoc, ← mul_assoc, ← le_div_iff_mul_le hm,
      ← div_lt_iff_lt_mul hm, add_mul, one_mul] at hb
    have hs : b / m - p * n ∈ Finset.range n := Finset.mem_range.mpr (by omega)
    have hblock : p * n + (b / m - p * n) = b / m := by omega
    refine le_trans ?_ (Finset.le_sup (f := fun s =>
      (Finset.Ico ((p * n + s) * m) ((p * n + s + 1) * m)).sup f) hs)
    rw [hblock]
    refine Finset.le_sup (Finset.mem_Ico.mpr ⟨div_mul_le_self b m, ?_⟩)
    exact lt_mul_of_div_lt (lt_succ_self _) hm
  · refine Finset.sup_le fun s hs => Finset.sup_le fun b hb => Finset.le_sup ?_
    rw [Finset.mem_range] at hs
    rw [Finset.mem_Ico] at hb ⊢
    constructor
    · rw [← mul_assoc]
      exact le_trans (mul_le_mul_right m (le_add_right _ s)) hb.1
    · rw [← mul_assoc, add_mul, one_mul]
      exact lt_of_lt_of_le hb.2 (mul_le_mul_right m (by omega))

end Maximum

end MaxTree
