import FdPostgres.IntegerSet.Set

/-!
# The Tree of an Integer Set

The tree grows at its right end only, so its shape is determined by the number of its items.
The slots of level `l` are numbered: those of the leaves are the items, and those of a higher
level are the nodes of the level below. A node has 64 slots, all of them in use except on the
right spine. With items up to number `n`, the last slot of level `l` is `n / 64 ^ l`.

* `TreeLevel`, `Leaves`, `Tree`: the nodes in memory are those of the items.
* `update_upper_spec`: a new leaf is linked into the levels above, as the carry of the item
  number in base 64 goes up.
* `Tree.insertItem`: adding an item keeps the tree.
-/

namespace FdPostgres

open Function List

/-! ### Slots -/

/-- The slots of node `j`, when `q` is the last slot of the level. -/
def slotRange (q j : ℕ) : List ℕ :=
  List.range' (64 * j) (min 64 (q + 1 - 64 * j))

theorem length_slotRange (q j : ℕ) : (slotRange q j).length = min 64 (q + 1 - 64 * j) :=
  length_range'

variable {q : ℕ} {item : ℕ → LeafItem} {l : ℕ} {s s' : IntegerSet} {n m h : ℕ}

/-- A slot of a node by its position. -/
theorem getD_slotRange {j i : ℕ} (hi : i < (slotRange q j).length) :
    (slotRange q j).getD i 0 = 64 * j + i := by
  rw [getD_eq_getElem _ _ hi]
  simp [slotRange]

/-- The last node has all slots exactly when the next slot starts a new node. -/
theorem length_slotRange_last (q : ℕ) : (slotRange q (q / 64)).length < 64 ↔ ¬ 64 ∣ q + 1 := by
  rw [length_slotRange]
  omega

/-- A node before the last one does not change. -/
theorem slotRange_succ_of_lt {j : ℕ} (hj : j < (q + 1) / 64) :
    slotRange (q + 1) j = slotRange q j := by
  have hlen : min 64 (q + 1 + 1 - 64 * j) = min 64 (q + 1 - 64 * j) := by omega
  rw [slotRange, slotRange, hlen]

/-- The last node gets the next slot, if it has room. -/
theorem slotRange_succ_of_not_dvd (h : ¬ 64 ∣ q + 1) :
    slotRange (q + 1) (q / 64) = slotRange q (q / 64) ++ [q + 1] := by
  have hlen : min 64 (q + 1 + 1 - 64 * (q / 64)) = min 64 (q + 1 - 64 * (q / 64)) + 1 := by omega
  have hlast : 64 * (q / 64) + min 64 (q + 1 - 64 * (q / 64)) = q + 1 := by omega
  rw [slotRange, slotRange, hlen, range'_1_concat, hlast]

/-- A new node has the next slot only. -/
theorem slotRange_succ_of_dvd (h : 64 ∣ q + 1) : slotRange (q + 1) ((q + 1) / 64) = [q + 1] := by
  have hlen : min 64 (q + 1 + 1 - 64 * ((q + 1) / 64)) = 1 := by omega
  have hfirst : 64 * ((q + 1) / 64) = q + 1 := by omega
  rw [slotRange, hlen, hfirst]
  rfl

/-! ### The levels in memory -/

/-- The key of a slot: the first value of its first item. -/
def slotKey (item : ℕ → LeafItem) (level slot : ℕ) : ℕ :=
  (item (64 ^ level * slot)).first

/-- The internal node `j` of a level. -/
def slotNode (item : ℕ → LeafItem) (level q j : ℕ) : InternalNode where
  values := (slotRange q j).map (slotKey item level)
  downlinks := (slotRange q j).map (fun slot => ⟨level - 1, slot⟩)

/-- The nodes of a level whose last slot is `q`. -/
structure TreeLevel (s : IntegerSet) (item : ℕ → LeafItem) (level q : ℕ) : Prop where
  count : s.numNodes level = q / 64 + 1
  node : ∀ j ≤ q / 64, s.nodes level j = slotNode item level q j
  rightmost : s.rightmost_nodes level = some ⟨level, q / 64⟩

/-- The leaves, when `n` is the last item. -/
structure Leaves (s : IntegerSet) (item : ℕ → LeafItem) (n : ℕ) : Prop where
  count : s.numLeaves = n / 64 + 1
  leaf : ∀ j ≤ n / 64, s.leaves j =
    ⟨if j < n / 64 then some (j + 1) else none, (slotRange n j).map item⟩
  rightmost : s.rightmost_nodes 0 = some ⟨0, n / 64⟩
  leftmost : s.leftmost_leaf = some 0

/-- The height of a tree whose last item is `n`. -/
structure Height (h n : ℕ) : Prop where
  pos : 1 ≤ h
  lt : n < 64 ^ h
  least : h = 1 ∨ 64 ^ (h - 1) ≤ n

/-- The levels above the leaves, with the last slot of each, and the root. -/
structure Upper (s : IntegerSet) (item : ℕ → LeafItem) (q : ℕ → ℕ) : Prop where
  level : ∀ l, 1 ≤ l → l < s.num_levels → TreeLevel s item l (q l)
  unused : ∀ l, s.num_levels ≤ l → s.numNodes l = 0
  root : s.root = some ⟨s.num_levels - 1, 0⟩

/-- **The tree of the items up to number `n`.** -/
structure Tree (s : IntegerSet) (item : ℕ → LeafItem) (n : ℕ) : Prop where
  height : Height s.num_levels n
  upper : Upper s item (fun l => n / 64 ^ l)
  leaves : Leaves s item n

/-- A level depends on its own nodes only. -/
theorem TreeLevel.congr (h : TreeLevel s item l q) (hcount : s'.numNodes l = s.numNodes l)
    (hnodes : s'.nodes l = s.nodes l) (hright : s'.rightmost_nodes l = s.rightmost_nodes l) :
    TreeLevel s' item l q where
  count := hcount.trans h.count
  node j hj := by rw [hnodes, h.node j hj]
  rightmost := hright.trans h.rightmost

/-! ### Carries in base 64 -/

/-- The carry goes on to the next level when the new slot starts a node. -/
theorem pow_succ_dvd_iff (h : 64 ^ l ∣ m) : 64 ^ (l + 1) ∣ m ↔ 64 ∣ m / 64 ^ l := by
  rw [Nat.dvd_div_iff_mul_dvd h, pow_succ]

/-- A carry that stops at a level does not reach a higher one. -/
theorem not_pow_dvd_of_lt {l' : ℕ} (h : ¬ 64 ^ (l + 1) ∣ m) (hl : l < l') : ¬ 64 ^ l' ∣ m :=
  fun hdvd => h (dvd_trans (pow_dvd_pow 64 hl) hdvd)

/-- The slot of the new item on a level that it starts. -/
theorem slotKey_of_dvd (item : ℕ → LeafItem) (h : 64 ^ l ∣ m) :
    slotKey item l (m / 64 ^ l) = (item m).first := by
  rw [slotKey, Nat.mul_div_cancel' h]

/-- The last slots while a new item is linked: the levels below `L` have it already. -/
def carrySlot (n L l : ℕ) : ℕ :=
  if l < L then (n + 1) / 64 ^ l else n / 64 ^ l

/-- When the carry stops at level `L`, all levels above have their last slots already. -/
theorem carrySlot_eq {L : ℕ} (h : ¬ 64 ^ (L + 1) ∣ n + 1) (hl : l ≠ L) :
    carrySlot n L l = (n + 1) / 64 ^ l := by
  rw [carrySlot]
  split
  · rfl
  · rw [Nat.succ_div_of_not_dvd (not_pow_dvd_of_lt h (by omega))]

/-- The levels other than `L` do not notice when the carry passes it. -/
theorem carrySlot_succ {L : ℕ} (hl : l ≠ L) : carrySlot n (L + 1) l = carrySlot n L l := by
  rw [carrySlot, carrySlot]
  by_cases hlt : l < L
  · rw [if_pos hlt, if_pos (by omega)]
  · rw [if_neg hlt, if_neg (by omega)]

/-! ### Linking a new node -/

/-- A set without the levels above its leaves. -/
def leafPart (s : IntegerSet) : IntegerSet :=
  { s with
    num_levels := 0
    root := none
    nodes := fun _ _ => ⟨[], []⟩
    numNodes := fun _ => 0
    rightmost_nodes := fun _ => none }

/-- Only the levels above the leaves changed. -/
structure SameLeaves (s s' : IntegerSet) : Prop where
  part : leafPart s' = leafPart s
  rightmost : s'.rightmost_nodes 0 = s.rightmost_nodes 0

theorem SameLeaves.trans {s'' : IntegerSet} (h : SameLeaves s s') (h' : SameLeaves s' s'') :
    SameLeaves s s'' :=
  ⟨h'.part.trans h.part, h'.rightmost.trans h.rightmost⟩

/-- A new internal node changes nothing at the leaves. -/
theorem sameLeaves_newInternalNode (s : IntegerSet) {level : ℕ} (hl : level ≠ 0)
    (node : InternalNode) : SameLeaves s (newInternalNode s level node) :=
  ⟨rfl, update_of_ne hl.symm _ _⟩

section Levels

variable {s : IntegerSet} {item : ℕ → LeafItem} {l q : ℕ}

/-- A change of another level. -/
theorem TreeLevel.newInternalNode_of_ne (h : TreeLevel s item l q) {level : ℕ} (hl : l ≠ level)
    (node : InternalNode) : TreeLevel (newInternalNode s level node) item l q :=
  h.congr (update_of_ne hl _ _) (update_of_ne hl _ _)
    (update_of_ne hl _ _)

/-- A downlink on another level. -/
theorem TreeLevel.addDownlink_of_ne (h : TreeLevel s item l q) {parent : NodePtr}
    (hl : l ≠ parent.level) (child : NodePtr) (key : ℕ) :
    TreeLevel (addDownlink s parent child key) item l q :=
  h.congr rfl (update_of_ne hl _ _) rfl

/-- The next slot in the last node of a level. -/
theorem TreeLevel.addDownlink (h : TreeLevel s item l q) (hroom : ¬ 64 ∣ q + 1) :
    TreeLevel (addDownlink s ⟨l, q / 64⟩ ⟨l - 1, q + 1⟩ (slotKey item l (q + 1))) item l
      (q + 1) := by
  have hdiv : (q + 1) / 64 = q / 64 := Nat.succ_div_of_not_dvd hroom
  refine ⟨by rw [hdiv]; exact h.count, ?_, by rw [hdiv]; exact h.rightmost⟩
  intro j hj
  rw [hdiv] at hj
  simp only [FdPostgres.addDownlink, update_self]
  by_cases hlast : j = q / 64
  · rw [hlast, update_self, h.node _ le_rfl, slotNode, slotNode,
      slotRange_succ_of_not_dvd hroom, map_append, map_append]
    rfl
  · rw [update_of_ne hlast, h.node j hj, slotNode, slotNode, slotRange_succ_of_lt (by omega)]

/-- The next slot in a new node of a level. -/
theorem TreeLevel.newNode (h : TreeLevel s item l q) (hfull : 64 ∣ q + 1) :
    TreeLevel (newInternalNode s l ⟨[slotKey item l (q + 1)], [⟨l - 1, q + 1⟩]⟩) item l
      (q + 1) := by
  have hdiv : (q + 1) / 64 = q / 64 + 1 := Nat.succ_div_of_dvd hfull
  refine ⟨?_, ?_, ?_⟩
  · simp [newInternalNode, h.count, hdiv]
  · intro j hj
    simp only [newInternalNode, update_self, h.count]
    by_cases hlast : j = (q + 1) / 64
    · rw [← hdiv, hlast, update_self, slotNode, slotRange_succ_of_dvd hfull]
      rfl
    · rw [← hdiv, update_of_ne hlast, h.node j (by omega), slotNode, slotNode,
        slotRange_succ_of_lt (by omega)]
  · simp [newInternalNode, h.count, hdiv]

end Levels

/-- The new root: the old root and the new node are its slots. -/
theorem treeLevel_newRoot (hunus : s.numNodes l = 0) :
    TreeLevel (addDownlink (newInternalNode s l ⟨[slotKey item l 0], [⟨l - 1, 0⟩]⟩) ⟨l, 0⟩
      ⟨l - 1, 1⟩ (slotKey item l 1)) item l 1 := by
  refine ⟨?_, ?_, ?_⟩
  · simp [addDownlink, newInternalNode, hunus]
  · intro j hj
    obtain rfl : j = 0 := by omega
    simp [addDownlink, newInternalNode, hunus, slotNode, slotRange, List.range']
  · simp [addDownlink, newInternalNode, hunus]

/-- The first value of the root is that of the first item. -/
theorem firstValue_root {q : ℕ → ℕ} (h : Upper s item q)
    (hleaf : (s.leaves 0).items.getD 0 default = item 0) :
    firstValue s ⟨s.num_levels - 1, 0⟩ = (item 0).first := by
  rw [firstValue]
  by_cases hone : s.num_levels - 1 = 0
  · rw [if_pos hone, hleaf]
  · have hnode := (h.level (s.num_levels - 1) (by omega) (by omega)).node 0 (Nat.zero_le _)
    rw [if_neg hone, hnode, slotNode, slotRange]
    obtain ⟨k, hk⟩ : ∃ k, min 64 (q (s.num_levels - 1) + 1 - 64 * 0) = k + 1 :=
      ⟨min 64 (q (s.num_levels - 1) + 1 - 64 * 0) - 1, by omega⟩
    rw [hk]
    simp [slotKey]

/-- A full tree gets a new root: the item number is a power of 64. -/
theorem update_upper_newRoot (hmax : n + 1 < 64 ^ 11) (fuel : ℕ) (hht : Height s.num_levels n)
    (hupper : Upper s item (carrySlot n s.num_levels))
    (hleaf : (s.leaves 0).items.getD 0 default = item 0) (hdvd : 64 ^ s.num_levels ∣ n + 1) :
    ∃ s', intset_update_upper (fuel + 1) s s.num_levels
        ⟨s.num_levels - 1, (n + 1) / 64 ^ s.num_levels⟩ (item (n + 1)).first = (.ok (), s') ∧
      SameLeaves s s' ∧ Height s'.num_levels (n + 1) ∧
      Upper s' item (fun l => (n + 1) / 64 ^ l) := by
  have hpos := hht.pos
  have hpow : n + 1 = 64 ^ s.num_levels :=
    le_antisymm hht.lt (Nat.le_of_dvd (Nat.succ_pos n) hdvd)
  have hlevs : s.num_levels ≠ MAX_TREE_LEVELS := by
    intro heq
    rw [hpow, heq] at hmax
    exact absurd hmax (lt_irrefl _)
  have hslot : (n + 1) / 64 ^ s.num_levels = 1 := by
    rw [hpow, Nat.div_self (Nat.pow_pos (by decide))]
  have hunus := hupper.unused s.num_levels le_rfl
  have hfirst : firstValue s ⟨s.num_levels - 1, 0⟩ = slotKey item s.num_levels 0 := by
    rw [firstValue_root hupper hleaf, slotKey, mul_zero]
  have hkey : slotKey item s.num_levels ((n + 1) / 64 ^ s.num_levels) = (item (n + 1)).first :=
    slotKey_of_dvd item hdvd
  rw [hslot] at hkey
  refine ⟨addDownlink { newInternalNode s s.num_levels ⟨[slotKey item s.num_levels 0],
    [⟨s.num_levels - 1, 0⟩]⟩ with num_levels := s.num_levels + 1, root := some ⟨s.num_levels, 0⟩ }
    ⟨s.num_levels, 0⟩ ⟨s.num_levels - 1, 1⟩ (slotKey item s.num_levels 1), ?_, ?_, ?_, ?_, ?_, ?_⟩
  · rw [hslot, ← hkey]
    simp [intset_update_upper, newRoot, hlevs, hupper.root, hfirst, newInternalNode, hunus,
      MAX_INTERNAL_ITEMS]
  · exact ⟨rfl, update_of_ne (by omega) _ _⟩
  · refine ⟨Nat.succ_pos _, ?_, .inr ?_⟩
    · rw [hpow]
      exact Nat.pow_lt_pow_right (by decide) (Nat.lt_succ_self _)
    · exact hpow.ge
  · intro l hl hlt
    by_cases htop : l = s.num_levels
    · rw [htop, hslot]
      exact (treeLevel_newRoot hunus).congr rfl rfl rfl
    · have hlt' : l < s.num_levels := lt_of_le_of_ne (Nat.lt_succ_iff.mp hlt) htop
      have hlevel := hupper.level l hl hlt'
      rw [carrySlot, if_pos hlt'] at hlevel
      exact ((hlevel.newInternalNode_of_ne htop ⟨[slotKey item s.num_levels 0],
        [⟨s.num_levels - 1, 0⟩]⟩).addDownlink_of_ne htop ⟨s.num_levels - 1, 1⟩
        (slotKey item s.num_levels 1)).congr rfl rfl rfl
  · intro l hl
    have hgt : s.num_levels < l := hl
    exact (update_of_ne (ne_of_gt hgt) _ _).trans (hupper.unused l hgt.le)
  · rfl

/-- The height does not change when the next item number is not the capacity of the tree. -/
theorem Height.succ (hh : Height h n) (hcap : n + 1 ≠ 64 ^ h) : Height h (n + 1) where
  pos := hh.pos
  lt := lt_of_le_of_ne hh.lt hcap
  least := hh.least.imp id Nat.le_succ_of_le

/-- A power of 64 that divides another number is not below a smaller one. -/
theorem ne_pow_of_not_dvd (hdvd : ¬ 64 ^ (l + 1) ∣ m) (hl : l < h) : m ≠ 64 ^ h :=
  fun heq => hdvd (heq ▸ pow_dvd_pow 64 hl)

/-- **A new node is linked into the levels above**: the carry of the new item number goes up
from level `L`. -/
theorem update_upper_spec (hmax : n + 1 < 64 ^ 11) (fuel : ℕ) (s : IntegerSet) (L : ℕ) (hL : 1 ≤ L)
    (hle : L ≤ s.num_levels) (hfuel : s.num_levels < L + fuel) (hht : Height s.num_levels n)
    (hupper : Upper s item (carrySlot n L)) (hleaf : (s.leaves 0).items.getD 0 default = item 0)
    (hdvd : 64 ^ L ∣ n + 1) :
    ∃ s', intset_update_upper fuel s L ⟨L - 1, (n + 1) / 64 ^ L⟩ (item (n + 1)).first =
        (.ok (), s') ∧ SameLeaves s s' ∧ Height s'.num_levels (n + 1) ∧
      Upper s' item (fun l => (n + 1) / 64 ^ l) := by
  induction fuel generalizing s L with
  | zero => omega
  | succ fuel ih =>
    by_cases htop : L = s.num_levels
    · subst htop
      exact update_upper_newRoot hmax fuel hht hupper hleaf hdvd
    · have hlt : L < s.num_levels := lt_of_le_of_ne hle htop
      have hlevel := hupper.level L hL hlt
      rw [carrySlot, if_neg (lt_irrefl L)] at hlevel
      have hslot : (n + 1) / 64 ^ L = n / 64 ^ L + 1 := Nat.succ_div_of_dvd hdvd
      have hkey : (item (n + 1)).first = slotKey item L (n / 64 ^ L + 1) := by
        rw [← hslot, slotKey_of_dvd item hdvd]
      have hlen : (s.nodes L (n / 64 ^ L / 64)).values.length =
          (slotRange (n / 64 ^ L) (n / 64 ^ L / 64)).length := by
        rw [hlevel.node _ le_rfl, slotNode, length_map]
      have hother : ∀ l, 1 ≤ l → l < s.num_levels → TreeLevel s item l (carrySlot n L l) :=
        hupper.level
      by_cases hcarry : 64 ^ (L + 1) ∣ n + 1
      · have hfull : 64 ∣ n / 64 ^ L + 1 := hslot ▸ (pow_succ_dvd_iff hdvd).mp hcarry
        have hnoroom : ¬ (s.nodes L (n / 64 ^ L / 64)).values.length < MAX_INTERNAL_ITEMS := by
          rw [hlen, MAX_INTERNAL_ITEMS, length_slotRange_last]
          exact not_not.mpr hfull
        have hcount : s.numNodes L = (n + 1) / 64 ^ (L + 1) := by
          rw [hlevel.count, ← Nat.succ_div_of_dvd hfull, ← hslot, Nat.div_div_eq_div_mul, pow_succ]
        have hstep : intset_update_upper (fuel + 1) s L ⟨L - 1, (n + 1) / 64 ^ L⟩
            (item (n + 1)).first = intset_update_upper fuel (newInternalNode s L
              ⟨[slotKey item L (n / 64 ^ L + 1)], [⟨L - 1, n / 64 ^ L + 1⟩]⟩) (L + 1)
              ⟨L, (n + 1) / 64 ^ (L + 1)⟩ (item (n + 1)).first := by
          simp only [intset_update_upper, if_neg (not_le.mpr hlt), hlevel.rightmost,
            if_neg hnoroom, hslot, hkey, hcount]
        have hnew : Upper (newInternalNode s L ⟨[slotKey item L (n / 64 ^ L + 1)],
            [⟨L - 1, n / 64 ^ L + 1⟩]⟩) item (carrySlot n (L + 1)) := by
          refine ⟨fun l hl hlt' => ?_, fun l hl => ?_, hupper.root⟩
          · by_cases heq : l = L
            · rw [heq, carrySlot, if_pos (Nat.lt_succ_self L), hslot]
              exact hlevel.newNode hfull
            · rw [carrySlot_succ heq]
              exact (hother l hl hlt').newInternalNode_of_ne heq _
          · have hne : l ≠ L := by
              have hl' : s.num_levels ≤ l := hl
              omega
            exact (update_of_ne hne _ _).trans (hupper.unused l hl)
        have hfuel' : s.num_levels < L + 1 + fuel := by omega
        obtain ⟨s', heq, hsame, hht', hupper'⟩ := ih (newInternalNode s L
          ⟨[slotKey item L (n / 64 ^ L + 1)], [⟨L - 1, n / 64 ^ L + 1⟩]⟩) (L + 1)
          (Nat.succ_pos L) hlt hfuel' hht hnew hleaf hcarry
        refine ⟨s', hstep.trans heq, ?_, hht', hupper'⟩
        exact (sameLeaves_newInternalNode s (by omega) _).trans hsame
      · have hroom : ¬ 64 ∣ n / 64 ^ L + 1 :=
          fun h => hcarry ((pow_succ_dvd_iff hdvd).mpr (hslot ▸ h))
        have hroom' : (s.nodes L (n / 64 ^ L / 64)).values.length < MAX_INTERNAL_ITEMS := by
          rw [hlen, MAX_INTERNAL_ITEMS, length_slotRange_last]
          exact hroom
        refine ⟨addDownlink s ⟨L, n / 64 ^ L / 64⟩ ⟨L - 1, n / 64 ^ L + 1⟩
          (slotKey item L (n / 64 ^ L + 1)), ?_, ⟨rfl, rfl⟩,
          hht.succ (ne_pow_of_not_dvd hcarry hlt), ?_, hupper.unused, hupper.root⟩
        · simp only [intset_update_upper, if_neg (not_le.mpr hlt), hlevel.rightmost,
            if_pos hroom', hslot, hkey]
        · intro l hl hlt'
          by_cases heq : l = L
          · rw [heq, hslot]
            exact hlevel.addDownlink hroom
          · rw [← carrySlot_eq hcarry heq]
            exact (hother l hl hlt').addDownlink_of_ne heq _ _

/-! ### Adding an item -/

/-- A set without its tree. -/
def bufferPart (s : IntegerSet) : IntegerSet :=
  { leafPart s with
    leftmost_leaf := none
    leaves := fun _ => ⟨none, []⟩
    numLeaves := 0 }

/-- The levels above the leaves do not change with the leaves. -/
theorem Upper.congr {q : ℕ → ℕ} (h : Upper s item q) (hlevs : s'.num_levels = s.num_levels)
    (hroot : s'.root = s.root) (hcount : s'.numNodes = s.numNodes) (hnodes : s'.nodes = s.nodes)
    (hright : ∀ l, 1 ≤ l → s'.rightmost_nodes l = s.rightmost_nodes l) : Upper s' item q where
  level l hl hlt :=
    (h.level l hl (hlevs ▸ hlt)).congr (by rw [hcount]) (by rw [hnodes]) (hright l hl)
  unused l hl := by
    rw [hcount]
    exact h.unused l (hlevs ▸ hl)
  root := by rw [hroot, hlevs, h.root]

section LeafAccess

variable {s : IntegerSet} {leaf j : ℕ}

theorem addItem_leaves_self (s : IntegerSet) (leaf : ℕ) (it : LeafItem) :
    (addItem s leaf it).leaves leaf = ⟨(s.leaves leaf).next, (s.leaves leaf).items ++ [it]⟩ :=
  update_self _ _ _

theorem addItem_leaves_of_ne (hj : j ≠ leaf) (it : LeafItem) :
    (addItem s leaf it).leaves j = s.leaves j :=
  update_of_ne hj _ _

theorem appendLeaf_leaves_new (hleaf : leaf ≠ s.numLeaves) :
    (appendLeaf s leaf).leaves s.numLeaves = ⟨none, []⟩ :=
  (update_of_ne hleaf.symm _ _).trans (update_self _ _ _)

/-- The leaf before the new one. -/
theorem appendLeaf_leaves_old (hleaf : leaf ≠ s.numLeaves) :
    (appendLeaf s leaf).leaves leaf = ⟨some s.numLeaves, (s.leaves leaf).items⟩ := by
  have hold : (newLeaf s).leaves leaf = s.leaves leaf := update_of_ne hleaf _ _
  simp [appendLeaf, hold]

/-- The other leaves when a leaf was appended. -/
theorem appendLeaf_leaves_of_ne (hj : j ≠ leaf) (hnew : j ≠ s.numLeaves) :
    (appendLeaf s leaf).leaves j = s.leaves j :=
  (update_of_ne hj _ _).trans (update_of_ne hnew _ _)

end LeafAccess

/-- An item in the last leaf, which has room. -/
theorem Leaves.addItem (h : Leaves s item n) (hroom : ¬ 64 ∣ n + 1) :
    Leaves (addItem s (n / 64) (item (n + 1))) item (n + 1) := by
  have hdiv : (n + 1) / 64 = n / 64 := Nat.succ_div_of_not_dvd hroom
  refine ⟨by rw [hdiv]; exact h.count, fun j hj => ?_, by rw [hdiv]; exact h.rightmost, h.leftmost⟩
  rw [hdiv] at hj ⊢
  by_cases hlast : j = n / 64
  · rw [hlast, addItem_leaves_self, h.leaf _ le_rfl, slotRange_succ_of_not_dvd hroom, map_append]
    rfl
  · rw [addItem_leaves_of_ne hlast, h.leaf j hj, slotRange_succ_of_lt (by omega)]

/-- The leaves after a new one was linked and got its first item. -/
theorem Leaves.appendLeaf (h : Leaves s item n) (hfull : 64 ∣ n + 1)
    (hsame : SameLeaves (appendLeaf s (n / 64)) s') :
    Leaves (FdPostgres.addItem s' s.numLeaves (item (n + 1))) item (n + 1) := by
  have hdiv : (n + 1) / 64 = n / 64 + 1 := Nat.succ_div_of_dvd hfull
  have hnum : s.numLeaves = n / 64 + 1 := h.count
  have hne : n / 64 ≠ s.numLeaves := by omega
  have hleaves : (leafPart s').leaves = (leafPart (FdPostgres.appendLeaf s (n / 64))).leaves :=
    congrArg IntegerSet.leaves hsame.part
  have hcount : (leafPart s').numLeaves = (leafPart (FdPostgres.appendLeaf s (n / 64))).numLeaves :=
    congrArg IntegerSet.numLeaves hsame.part
  have hleft : (leafPart s').leftmost_leaf =
      (leafPart (FdPostgres.appendLeaf s (n / 64))).leftmost_leaf :=
    congrArg IntegerSet.leftmost_leaf hsame.part
  refine ⟨?_, fun j hj => ?_, ?_, hleft.trans h.leftmost⟩
  · rw [hdiv, ← hnum]
    exact hcount
  · have hleaf : s'.leaves j = (FdPostgres.appendLeaf s (n / 64)).leaves j := congrFun hleaves j
    by_cases hnew : j = s.numLeaves
    · have hrange : slotRange (n + 1) (n / 64 + 1) = [n + 1] := hdiv ▸ slotRange_succ_of_dvd hfull
      rw [hnew] at hleaf ⊢
      rw [addItem_leaves_self, hleaf, appendLeaf_leaves_new hne, if_neg (by omega), hnum, hrange]
      rfl
    · rw [addItem_leaves_of_ne hnew, hleaf, slotRange_succ_of_lt (by omega), if_pos (by omega)]
      by_cases hold : j = n / 64
      · rw [hold, appendLeaf_leaves_old hne, h.leaf _ le_rfl, hnum]
      · rw [appendLeaf_leaves_of_ne hold hnew, h.leaf j (by omega), if_pos (by omega)]
  · rw [hdiv, ← hnum]
    have hlast : (FdPostgres.appendLeaf s (n / 64)).rightmost_nodes 0 = some ⟨0, s.numLeaves⟩ :=
      update_self 0 _ s.rightmost_nodes
    exact hsame.rightmost.trans hlast

/-- The first item is the first one of the first leaf. -/
theorem Leaves.first_item (h : Leaves s item n) : (s.leaves 0).items.getD 0 default = item 0 := by
  obtain ⟨k, hk⟩ : ∃ k, min 64 (n + 1 - 64 * 0) = k + 1 := ⟨min 64 (n + 1 - 64 * 0) - 1, by omega⟩
  rw [h.leaf 0 (Nat.zero_le _), slotRange, hk]
  rfl

/-- A tree with fewer items than its maximum has no more than the maximum of levels. -/
theorem Height.le_max (hh : Height h n) (hmax : n + 1 < 64 ^ 11) : h ≤ 11 := by
  rcases hh.least with hone | hleast
  · omega
  · by_contra hgt
    have hpow : 64 ^ 11 ≤ 64 ^ (h - 1) := Nat.pow_le_pow_right (by decide) (by omega)
    omega

/-- **Adding the next item keeps the tree.** -/
theorem Tree.insertItem (h : Tree s item n) (hmax : n + 1 < 64 ^ 11) :
    ∃ s', insertItem s (n / 64) (item (n + 1)) = (.ok ((n + 1) / 64), s') ∧
      Tree s' item (n + 1) ∧ bufferPart s' = bufferPart s := by
  have hlength : (s.leaves (n / 64)).items.length = (slotRange n (n / 64)).length := by
    rw [h.leaves.leaf _ le_rfl, length_map]
  by_cases hfull : 64 ∣ n + 1
  · have hlen : (s.leaves (n / 64)).items.length ≥ MAX_LEAF_ITEMS := by
      rw [hlength, MAX_LEAF_ITEMS, ge_iff_le, ← not_lt, length_slotRange_last]
      exact not_not.mpr hfull
    have hdiv : (n + 1) / 64 = s.numLeaves := by rw [h.leaves.count, Nat.succ_div_of_dvd hfull]
    have hupper : Upper (FdPostgres.appendLeaf s (n / 64)) item (carrySlot n 1) := by
      have hq : Upper s item (carrySlot n 1) := by
        refine ⟨fun l hl hlt => ?_, h.upper.unused, h.upper.root⟩
        rw [carrySlot, if_neg (by omega)]
        exact h.upper.level l hl hlt
      exact hq.congr rfl rfl rfl rfl (fun l hl => update_of_ne (by omega) _ _)
    have hleaf : ((FdPostgres.appendLeaf s (n / 64)).leaves 0).items.getD 0 default = item 0 := by
      have hne : 0 ≠ s.numLeaves := by
        omega
      by_cases hold : 0 = n / 64
      · rw [← hold, appendLeaf_leaves_old hne]
        exact h.leaves.first_item
      · rw [appendLeaf_leaves_of_ne hold hne]
        exact h.leaves.first_item
    have hle := h.height.le_max hmax
    obtain ⟨s', heq, hsame, hht, hupper'⟩ := update_upper_spec hmax (MAX_TREE_LEVELS + 1)
      (FdPostgres.appendLeaf s (n / 64)) 1 le_rfl h.height.pos
      (by change s.num_levels < 1 + 12; omega) h.height hupper hleaf (by exact hfull)
    have hlink : linkLeaf s (n / 64) (item (n + 1)).first = (.ok (), s') := by
      rw [pow_one, hdiv] at heq
      exact heq
    refine ⟨FdPostgres.addItem s' s.numLeaves (item (n + 1)), ?_,
      ⟨hht, hupper'.congr rfl rfl rfl rfl (fun _ _ => rfl),
        h.leaves.appendLeaf hfull hsame⟩, ?_⟩
    · rw [FdPostgres.insertItem, if_pos hlen, hlink, hdiv]
    · have hpart : bufferPart (leafPart s') =
          bufferPart (leafPart (FdPostgres.appendLeaf s (n / 64))) :=
        congrArg bufferPart hsame.part
      exact hpart
  · have hlen : ¬ (s.leaves (n / 64)).items.length ≥ MAX_LEAF_ITEMS := by
      rw [hlength, MAX_LEAF_ITEMS, not_le, length_slotRange_last]
      exact hfull
    have hcap : n + 1 ≠ 64 ^ s.num_levels := by
      intro heq
      exact hfull (heq ▸ dvd_pow_self 64 (ne_of_gt h.height.pos))
    refine ⟨FdPostgres.addItem s (n / 64) (item (n + 1)), ?_,
      ⟨h.height.succ hcap, ?_, h.leaves.addItem hfull⟩, rfl⟩
    · rw [FdPostgres.insertItem, if_neg hlen, Nat.succ_div_of_not_dvd hfull]
    · refine ⟨fun l hl hlt => ?_, h.upper.unused, h.upper.root⟩
      have hnot : ¬ 64 ^ l ∣ n + 1 := not_pow_dvd_of_lt (by exact hfull) hl
      rw [Nat.succ_div_of_not_dvd hnot]
      exact (h.upper.level l hl hlt).congr rfl rfl rfl

end FdPostgres
