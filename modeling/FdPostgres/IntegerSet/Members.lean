import FdPostgres.IntegerSet.Contents

/-!
# Lookups in an Integer Set

A lookup searches the buffer when the value is not below its first value, and the tree
otherwise. In the tree, the last item whose first value is not above the value is the only one
that can hold it; the walk down follows the slots of that item.

* `descend_eq`: the walk ends at the leaf of that item.
* `leafContains_eq`: the search on the leaf looks into that item.
* `Contents.is_member`: the answer is whether the value was added.
-/

namespace FdPostgres

open BinarySearch List Nat

/-! ### Binary searches -/

variable {arr : List ℕ} {k x : ℕ}

/-- The search past the equal keys. -/
theorem intset_binsrch_uint64_next (hk : k ≤ arr.length)
    (h : ∀ i < arr.length, arr.getD i 0 ≤ x ↔ i < k) : intset_binsrch_uint64 x arr true = k := by
  refine partitionPoint_eq le_rfl (zero_le k) hk (fun i _ hi => ?_)
  rw [goesRight, if_pos rfl, decide_eq_true_eq]
  exact h i hi

/-- The search for the first key that is not below. -/
theorem intset_binsrch_uint64_first (hk : k ≤ arr.length)
    (h : ∀ i < arr.length, arr.getD i 0 < x ↔ i < k) : intset_binsrch_uint64 x arr false = k := by
  refine partitionPoint_eq le_rfl (zero_le k) hk (fun i _ hi => ?_)
  rw [goesRight, if_neg Bool.false_ne_true, decide_eq_true_eq]
  exact h i hi

/-- The search on a leaf. -/
theorem intset_binsrch_leaf_next {arr : List LeafItem} (hk : k ≤ arr.length)
    (h : ∀ i < arr.length, (arr.getD i default).first ≤ x ↔ i < k) :
    intset_binsrch_leaf x arr true = k := by
  refine partitionPoint_eq le_rfl (zero_le k) hk (fun i _ hi => ?_)
  rw [goesRight, if_pos rfl, decide_eq_true_eq]
  exact h i hi

/-! ### The walk down -/

/-- Of the items up to number `n`, exactly those below `k` start at `x` or before. -/
def ItemsUpTo (item : ℕ → LeafItem) (n x k : ℕ) : Prop :=
  k ≤ n + 1 ∧ ∀ i ≤ n, (item i).first ≤ x ↔ i < k

section Walk

variable {s : IntegerSet} {item : ℕ → LeafItem} {n x k : ℕ} {l : ℕ}

/-- A slot starts at `x` or before exactly when its first item does. -/
theorem slotKey_le_iff (h : ItemsUpTo item n x k) {slot : ℕ} (hslot : slot ≤ n / 64 ^ l) :
    slotKey item l slot ≤ x ↔ 64 ^ l * slot < k := by
  refine h.2 _ ?_
  exact (mul_le_mul_left _ hslot).trans (mul_div_le n _)

/-- The slots of a node that start at `x` or before, when the last such item is below the node:
they are those up to the slot of that item. -/
theorem slots_up_to (h : ItemsUpTo item n x k) (hk : 0 < k) {i : ℕ}
    (hi : i < (slotRange (n / 64 ^ l) ((k - 1) / 64 ^ (l + 1))).length) :
    slotKey item l (64 * ((k - 1) / 64 ^ (l + 1)) + i) ≤ x ↔ i < (k - 1) / 64 ^ l % 64 + 1 := by
  rw [length_slotRange] at hi
  rw [slotKey_le_iff h (by omega)]
  have hdiv : (k - 1) / 64 ^ (l + 1) = (k - 1) / 64 ^ l / 64 := by
    rw [Nat.div_div_eq_div_mul, pow_succ]
  have hlast : 64 ^ l * (64 * ((k - 1) / 64 ^ (l + 1)) + i) < k ↔
      64 * ((k - 1) / 64 ^ (l + 1)) + i ≤ (k - 1) / 64 ^ l := by
    rw [Nat.le_div_iff_mul_le (Nat.pow_pos (by decide)), mul_comm]
    omega
  omega

/-- The slot of the last such item is in its node. -/
theorem slot_in_node (h : ItemsUpTo item n x k) (l : ℕ) :
    (k - 1) / 64 ^ l % 64 < (slotRange (n / 64 ^ l) ((k - 1) / 64 ^ (l + 1))).length := by
  have hle : (k - 1) / 64 ^ l ≤ n / 64 ^ l := Nat.div_le_div_right (by have := h.1; omega)
  have hdiv : (k - 1) / 64 ^ (l + 1) = (k - 1) / 64 ^ l / 64 := by
    rw [Nat.div_div_eq_div_mul, pow_succ]
  rw [length_slotRange, hdiv]
  omega

/-- The node of the last such item is on its level. -/
theorem node_on_level (h : ItemsUpTo item n x k) (l : ℕ) :
    (k - 1) / 64 ^ (l + 1) ≤ n / 64 ^ l / 64 := by
  rw [Nat.div_div_eq_div_mul]
  exact Nat.div_le_div_right (by have := h.1; omega)

/-- The slot of the last such item. -/
theorem slot_eq (k l : ℕ) :
    64 * ((k - 1) / 64 ^ (l + 1)) + (k - 1) / 64 ^ l % 64 = (k - 1) / 64 ^ l := by
  rw [pow_succ, ← Nat.div_div_eq_div_mul]
  omega

variable (htree : Tree s item n)

include htree

/-- **The walk down ends at the leaf of the last item that starts at `x` or before.** -/
theorem descend_eq (h : ItemsUpTo item n x k) (hk : 0 < k) (hl : l < s.num_levels) :
    descend s x l ⟨l, (k - 1) / 64 ^ (l + 1)⟩ = some ⟨0, (k - 1) / 64⟩ := by
  induction l with
  | zero => rw [descend, pow_one]
  | succ l ih =>
    have hnode := (htree.upper.level (l + 1) (Nat.succ_pos l) hl).node _
      (node_on_level h (l + 1))
    have hin := slot_in_node h (l + 1)
    have hsea : intset_binsrch_uint64 x
        (s.nodes (l + 1) ((k - 1) / 64 ^ (l + 1 + 1))).values true =
        (k - 1) / 64 ^ (l + 1) % 64 + 1 := by
      rw [hnode]
      refine intset_binsrch_uint64_next ?_ (fun i hi => ?_)
      · simp only [slotNode, length_map]
        exact hin
      · simp only [slotNode, length_map] at hi
        rw [slotNode, getD_eq_getElem _ _ (by rwa [length_map]), getElem_map,
          ← getD_eq_getElem _ 0 hi, getD_slotRange hi]
        exact slots_up_to h hk hi
    have hlink : (s.nodes (l + 1) ((k - 1) / 64 ^ (l + 1 + 1))).downlinks.getD
        ((k - 1) / 64 ^ (l + 1) % 64) default = ⟨l, (k - 1) / 64 ^ (l + 1)⟩ := by
      rw [hnode, slotNode, getD_eq_getElem _ _ (by rwa [length_map]),
        getElem_map, ← getD_eq_getElem _ 0 hin, getD_slotRange hin, slot_eq]
      rfl
    simp only [descend, hsea, Nat.add_sub_cancel, hlink]
    exact ih (Nat.lt_of_succ_lt hl)

/-- Below all keys, the walk ends at once. -/
theorem descend_none (h : ItemsUpTo item n x 0) (hl : l + 1 < s.num_levels)
    : descend s x (l + 1) ⟨l + 1, 0⟩ = none := by
  have hnode := (htree.upper.level (l + 1) (succ_pos l) hl).node 0 (zero_le _)
  have hsea : intset_binsrch_uint64 x (s.nodes (l + 1) 0).values true = 0 := by
    rw [hnode]
    refine intset_binsrch_uint64_next (zero_le _) (fun i hi => ?_)
    simp only [slotNode, length_map] at hi
    rw [slotNode, getD_eq_getElem _ _ (by rwa [length_map]), getElem_map,
      ← getD_eq_getElem _ 0 hi, getD_slotRange hi]
    rw [length_slotRange] at hi
    rw [slotKey_le_iff h (by omega)]
    exact iff_of_false (not_lt_zero _) (not_lt_zero _)
  simp only [descend, hsea, if_pos]

/-- An item of a leaf. -/
theorem leaf_item {j i : ℕ} (hj : j ≤ n / 64)
    (hi : i < (slotRange n j).length) : (s.leaves j).items.getD i default = item (64 * j + i) := by
  rw [htree.leaves.leaf j hj, getD_eq_getElem _ _ (by rwa [length_map]),
    getElem_map, ← getD_eq_getElem _ 0 hi, getD_slotRange hi]

theorem leaf_length {j : ℕ} (hj : j ≤ n / 64) :
    (s.leaves j).items.length = (slotRange n j).length := by
  rw [htree.leaves.leaf j hj, length_map]

/-- **The search on the leaf looks into the last item that starts at `x` or before.** -/
theorem leafContains_eq (h : ItemsUpTo item n x k) (hk : 0 < k) :
    leafContains (s.leaves ((k - 1) / 64)) x = ((item (k - 1)).first == x ||
        simple8b_contains (item (k - 1)).codeword x (item (k - 1)).first) := by
  have hnode := node_on_level h 0
  have hin := slot_in_node h 0
  have hslot := slot_eq k 0
  simp only [zero_add, pow_zero, pow_one, Nat.div_one] at hnode hin hslot
  have hsea : intset_binsrch_leaf x (s.leaves ((k - 1) / 64)).items true = (k - 1) % 64 + 1 := by
    refine intset_binsrch_leaf_next ?_ (fun i hi => ?_)
    · rw [leaf_length htree hnode]
      exact hin
    · rw [leaf_length htree hnode] at hi
      rw [leaf_item htree hnode hi]
      rw [length_slotRange] at hi
      have hiff := h.2 (64 * ((k - 1) / 64) + i) (by omega)
      omega
  simp only [leafContains, hsea, if_neg (Nat.succ_ne_zero _), Nat.add_sub_cancel,
    leaf_item htree hnode hin, hslot]

/-- A value below the first item is not on the first leaf. -/
theorem leafContains_none (h : ItemsUpTo item n x 0) : leafContains (s.leaves 0) x = false := by
  have hsea : intset_binsrch_leaf x (s.leaves 0).items true = 0 := by
    refine intset_binsrch_leaf_next (zero_le _) (fun i hi => ?_)
    rw [leaf_length htree (zero_le _)] at hi
    rw [leaf_item htree (zero_le _) hi]
    rw [length_slotRange] at hi
    exact h.2 (64 * 0 + i) (by omega) |>.trans
      (iff_of_false (not_lt_zero _) (not_lt_zero _))
  simp only [leafContains, hsea, if_pos]

end Walk

/-! ### The answer -/

/-- The answer of the tree. -/
def treeContains (s : IntegerSet) (x : ℕ) : Bool :=
  match s.root with
  | none => false
  | some node =>
      match descend s x (s.num_levels - 1) node with
      | none => false
      | some leaf => leafContains (s.leaves leaf.idx) x

/-- The search in a tree looks into the last item that starts at `x` or before. -/
theorem treeContains_eq {s : IntegerSet} {item : ℕ → LeafItem} {n : ℕ} (htree : Tree s item n)
    (h : ItemsUpTo item n x k) : treeContains s x = (decide (0 < k) && ((item (k - 1)).first == x ||
      simple8b_contains (item (k - 1)).codeword x (item (k - 1)).first)) := by
  have hpos := htree.height.pos
  rw [treeContains, htree.upper.root]
  rcases Nat.eq_zero_or_pos k with rfl | hk
  · rw [decide_eq_false (lt_irrefl 0), Bool.false_and]
    by_cases hone : s.num_levels = 1
    · simp only [hone]
      exact leafContains_none htree h
    · obtain ⟨l, hl⟩ : ∃ l, s.num_levels - 1 = l + 1 := ⟨s.num_levels - 2, by omega⟩
      simp only [hl, descend_none htree h (show l + 1 < s.num_levels by omega)]
  · have hroot : (k - 1) / 64 ^ s.num_levels = 0 :=
      Nat.div_eq_of_lt (lt_of_le_of_lt (by have := h.1; omega) htree.height.lt)
    have hwalk := descend_eq htree h hk (show s.num_levels - 1 < s.num_levels by omega)
    rw [Nat.sub_add_cancel hpos, hroot] at hwalk
    simp only [hwalk, decide_eq_true hk]
    exact leafContains_eq htree h hk

section Answer

variable {s : IntegerSet} {l : List ℕ} {items : List LeafItem}

/-- The first value of an item is one of its values. -/
theorem first_mem_itemValues (it : LeafItem) : it.first ∈ itemValues it := mem_cons_self

variable (h : Contents s l items)

include h

/-- The values of the tree increase. -/
theorem Contents.tree_sorted : (items.flatMap itemValues).Pairwise (· < ·) := by
  have hsort := h.sorted
  rw [← h.values] at hsort
  exact (pairwise_append.mp hsort).1

/-- The values of an item are below those of the items behind it. -/
theorem Contents.item_lt {i j : ℕ} (hij : i < j) (hj : j < items.length)
    {a b : ℕ} (ha : a ∈ itemValues (itemAt items i)) (hb : b ∈ itemValues (itemAt items j)) :
    a < b := by
  have hpair := (pairwise_flatMap.mp h.tree_sorted).2
  have hlt := pairwise_iff_getElem.mp hpair i j (by omega) hj hij
  rw [itemAt, getD_eq_getElem _ _ (by omega)] at ha
  rw [itemAt, getD_eq_getElem _ _ hj] at hb
  exact hlt a ha b hb

/-- No value of an item is below its first one. -/
theorem Contents.first_le {i a : ℕ} (hi : i < items.length)
    (ha : a ∈ itemValues (itemAt items i)) : (itemAt items i).first ≤ a := by
  have hpair := (pairwise_flatMap.mp h.tree_sorted).1 _ (itemAt_mem hi)
  rcases mem_cons.mp ha with rfl | ha
  · exact le_rfl
  · exact le_of_lt ((pairwise_cons.mp hpair).1 a ha)

/-- Where the items that start at `x` or before end. -/
theorem Contents.items_up_to (hne : items ≠ []) (x : ℕ) :
    ∃ k, ItemsUpTo (itemAt items) (items.length - 1) x k := by
  have hpos := length_pos_iff.mpr hne
  obtain ⟨k, hk, hiff⟩ := exists_partition (p := fun i => (itemAt items i).first ≤ x)
    items.length (fun i j hij hj hle => by
      rcases lt_or_eq_of_le hij with hlt | rfl
      · exact (h.item_lt hlt hj (first_mem_itemValues _) (first_mem_itemValues _)).le.trans hle
      · exact hle)
  exact ⟨k, by omega, fun i hi => hiff i (by omega)⟩

/-- Only the last item that starts at `x` or before can hold `x`. -/
theorem Contents.mem_items_iff
    (hk : ItemsUpTo (itemAt items) (items.length - 1) x k) (hne : items ≠ []) :
    x ∈ items.flatMap itemValues ↔ 0 < k ∧ x ∈ itemValues (itemAt items (k - 1)) := by
  have hpos := length_pos_iff.mpr hne
  have hle := hk.1
  constructor
  · intro hx
    obtain ⟨it, hit, hx⟩ := mem_flatMap.mp hx
    obtain ⟨i, hi, rfl⟩ := getElem_of_mem hit
    have hat : itemAt items i = items[i] := getD_eq_getElem _ _ hi
    rw [← hat] at hx
    have hlt : i < k := (hk.2 i (by omega)).mp (h.first_le hi hx)
    have hlast : (itemAt items (k - 1)).first ≤ x := (hk.2 (k - 1) (by omega)).mpr (by omega)
    rcases lt_or_ge i (k - 1) with hbef | hafter
    · have := h.item_lt hbef (by omega) hx (first_mem_itemValues _)
      omega
    · obtain rfl : i = k - 1 := by omega
      exact ⟨by omega, hx⟩
  · rintro ⟨hpos', hx⟩
    exact mem_flatMap.mpr ⟨_, itemAt_mem (by omega), hx⟩

/-- **The search in the tree** answers whether the value is in the tree. -/
theorem Contents.treeContains (hx : x < 2 ^ 64) :
    treeContains s x = decide (x ∈ items.flatMap itemValues) := by
  rcases h.stored with ⟨rfl, hnone⟩ | ⟨hne, htree⟩
  · rw [FdPostgres.treeContains, hnone.root]
    rfl
  · obtain ⟨k, hk⟩ := h.items_up_to hne x
    rw [treeContains_eq htree hk, Bool.eq_iff_iff, decide_eq_true_eq, h.mem_items_iff hk hne,
      Bool.and_eq_true, decide_eq_true_eq]
    refine and_congr_right (fun hpos => ?_)
    have hlt : k - 1 < items.length := by
      have := hk.1
      have := length_pos_iff.mpr hne
      omega
    have hcodes := h.itemsOk _ (itemAt_mem hlt)
    have hfirst : (itemAt items (k - 1)).first ≤ x := (hk.2 (k - 1) (by omega)).mpr (by omega)
    rw [Bool.or_eq_true, beq_iff_eq, itemValues, mem_cons]
    rcases lt_or_eq_of_le hfirst with hfirst | hfirst
    · rw [hcodes.contains x hfirst hx, eq_comm]
    · exact iff_of_true (.inl hfirst) (.inl hfirst.symm)

omit h in
/-- A position of an increasing sequence is determined by its value. -/
theorem sorted_getD_lt (hsort : arr.Pairwise (· < ·)) {i j : ℕ} (hij : i < j)
    (hj : j < arr.length) : arr.getD i 0 < arr.getD j 0 := by
  rw [getD_eq_getElem _ _ (by omega), getD_eq_getElem _ _ hj]
  exact pairwise_iff_getElem.mp hsort i j (by omega) hj hij

omit h in
/-- The search in an increasing array. -/
theorem binsrch_mem (hsort : arr.Pairwise (· < ·)) (x : ℕ) :
    (if intset_binsrch_uint64 x arr false ≥ arr.length then false
      else arr.getD (intset_binsrch_uint64 x arr false) 0 == x) = decide (x ∈ arr) := by
  obtain ⟨k, hk, hiff⟩ := exists_partition (p := fun i => arr.getD i 0 < x) arr.length
    (fun i j hij hj hlt => by
      rcases lt_or_eq_of_le hij with hij | rfl
      · exact (sorted_getD_lt hsort hij hj).trans hlt
      · exact hlt)
  rw [intset_binsrch_uint64_first hk hiff]
  have hmem : x ∈ arr ↔ k < arr.length ∧ arr.getD k 0 = x := by
    constructor
    · intro hx
      obtain ⟨i, hi, rfl⟩ := getElem_of_mem hx
      have hat : arr.getD i 0 = arr[i] := getD_eq_getElem _ _ hi
      have hnot : ¬ i < k := fun hlt => by
        have := (hiff i hi).mpr hlt
        omega
      have hki : k = i := by
        by_contra hne
        have hki : k < i := by omega
        have hlt := sorted_getD_lt hsort hki hi
        rw [hat] at hlt
        exact absurd ((hiff k (by omega)).mp hlt) (lt_irrefl k)
      rw [hki]
      exact ⟨hi, hat⟩
    · rintro ⟨hlt, rfl⟩
      rw [getD_eq_getElem _ _ hlt]
      exact getElem_mem hlt
  by_cases hlt : k < arr.length
  · rw [if_neg (not_le.mpr hlt), Bool.eq_iff_iff, beq_iff_eq, decide_eq_true_eq, hmem]
    exact (and_iff_right hlt).symm
  · rw [if_pos (not_lt.mp hlt), eq_comm, decide_eq_false_iff_not, hmem]
    exact fun h => hlt h.1

/-- **A lookup answers whether the value was added.** -/
theorem Contents.is_member (hx : x < 2 ^ 64) : intset_is_member s x = decide (x ∈ l) := by
  have hsort := h.sorted
  rw [← h.values] at hsort
  obtain ⟨-, hbuf, hcross⟩ := pairwise_append.mp hsort
  have hmem : x ∈ l ↔ x ∈ items.flatMap itemValues ∨ x ∈ s.buffered_values := by
    rw [← h.values, mem_append]
  rw [intset_is_member]
  split
  case isTrue hsea =>
    have hnot : x ∉ items.flatMap itemValues := by
      intro hin
      have hfirst : s.buffered_values.getD 0 0 ∈ s.buffered_values := by
        rw [getD_eq_getElem _ _ hsea.1]
        exact getElem_mem hsea.1
      have := hcross x hin _ hfirst
      omega
    rw [binsrch_mem hbuf, Bool.eq_iff_iff, decide_eq_true_eq, decide_eq_true_eq, hmem]
    exact (or_iff_right hnot).symm
  case isFalse hsea =>
    have hnot : x ∉ s.buffered_values := by
      intro hin
      obtain ⟨i, hi, rfl⟩ := getElem_of_mem hin
      have hat : s.buffered_values.getD i 0 = s.buffered_values[i] := getD_eq_getElem _ _ hi
      refine hsea ⟨by omega, ?_⟩
      rcases Nat.eq_zero_or_pos i with rfl | hpos
      · exact hat.le
      · have := sorted_getD_lt hbuf hpos hi
        rw [hat] at this
        exact this.le
    change FdPostgres.treeContains s x = _
    rw [h.treeContains hx, Bool.eq_iff_iff, decide_eq_true_eq, decide_eq_true_eq, hmem]
    exact (or_iff_left hnot).symm

end Answer

end FdPostgres
