import FdPostgres.IntegerSet.Tree
import Mathlib

/-!
# Adding to an Integer Set

The values of a set are those of the items in its tree, in order, and then those in its buffer.
Flushing moves values from the buffer to the tree and keeps the sequence.

* `Contents`: the sequence of all values, with the tree and the buffer that hold it.
* `flushLoop_spec`: the loop packs values into items until few remain.
* `Contents.add_member`: adding a value behind all others appends it; `Contents.out_of_order`:
  another value is refused while `num_entries` counts right.
-/

namespace FdPostgres

open PackedDeltas List Nat

/-! ### Items -/

/-- The values of an item. -/
def itemValues (it : LeafItem) : List ℕ :=
  it.first :: simple8b_decode it.codeword it.first

/-- An item whose codeword can be decoded and searched. -/
def ItemOk (it : LeafItem) : Prop :=
  Codes it.codeword it.first (simple8b_decode it.codeword it.first)

section Items

variable {codeword first : ℕ} {vs : List ℕ}

/-- The values of an item are those that were encoded. -/
theorem Codes.itemValues (h : Codes codeword first vs) :
    itemValues ⟨first, codeword⟩ = first :: vs :=
  congrArg (cons first) h.decode

/-- An item of encoded values. -/
theorem Codes.itemOk (h : Codes codeword first vs) : ItemOk ⟨first, codeword⟩ := by
  have hdecode : simple8b_decode codeword first = vs := h.decode
  change Codes codeword first (simple8b_decode codeword first)
  rw [hdecode]
  exact h

end Items

/-- The items of a list by number. -/
def itemAt (items : List LeafItem) (i : ℕ) : LeafItem :=
  items.getD i default

variable {items : List LeafItem} {s : IntegerSet}

theorem itemAt_append_of_lt {i : ℕ} (it : LeafItem) (hi : i < items.length) :
    itemAt (items ++ [it]) i = itemAt items i := by
  rw [itemAt, itemAt, getD_append _ _ _ _ hi]

/-- The new item. -/
theorem itemAt_append_length (items : List LeafItem) (it : LeafItem) :
    itemAt (items ++ [it]) items.length = it := by
  rw [itemAt, getD_append_right _ _ _ _ le_rfl, Nat.sub_self]
  rfl

theorem itemAt_mem {i : ℕ} (hi : i < items.length) : itemAt items i ∈ items := by
  rw [itemAt, getD_eq_getElem _ _ hi]
  exact getElem_mem hi

/-! ### Trees of a list of items -/

/-- A set without what does not belong to its tree. -/
def treePart (s : IntegerSet) : IntegerSet :=
  { s with
    num_entries := 0
    highest_value := 0
    buffered_values := []
    iter_active := false
    iter_values := .null
    iter_num_values := 0
    iter_valueno := 0
    iter_node := none
    iter_itemno := 0
    iter_values_buf := [] }

/-- A tree with other names for its items. -/
theorem Tree.congr_item {item item' : ℕ → LeafItem} {n : ℕ} (h : Tree s item n)
    (heq : ∀ i ≤ n, item' i = item i) : Tree s item' n := by
  have hslot : ∀ q j k, k ∈ slotRange q j → k ≤ q := by
    intro q j k hk
    rw [slotRange, mem_range'_1] at hk
    omega
  refine ⟨h.height, ⟨fun l hl hlt => ?_, h.upper.unused, h.upper.root⟩, ?_⟩
  · have hlevel := h.upper.level l hl hlt
    refine ⟨hlevel.count, fun j hj => ?_, hlevel.rightmost⟩
    rw [hlevel.node j hj]
    refine congrArg₂ InternalNode.mk (map_congr_left fun k hk => ?_) rfl
    rw [slotKey, slotKey, heq]
    exact le_trans (mul_le_mul_left _ (hslot _ _ _ hk)) (mul_div_le n (64 ^ l))
  · refine ⟨h.leaves.count, fun j hj => ?_, h.leaves.rightmost, h.leaves.leftmost⟩
    rw [h.leaves.leaf j hj]
    exact congrArg (LeafNode.mk _)
      (map_congr_left fun k hk => (heq k (hslot _ _ _ hk)).symm)

/-- A tree depends on its part of the set only. -/
theorem Tree.congr {s' : IntegerSet} {item : ℕ → LeafItem} {n : ℕ} (h : Tree s item n)
    (heq : treePart s' = treePart s) : Tree s' item n := by
  have hlevs : (treePart s').num_levels = (treePart s).num_levels := by rw [heq]
  have hroot : (treePart s').root = (treePart s).root := by rw [heq]
  have hcount : (treePart s').numNodes = (treePart s).numNodes := by rw [heq]
  have hnodes : (treePart s').nodes = (treePart s).nodes := by rw [heq]
  have hright : (treePart s').rightmost_nodes = (treePart s).rightmost_nodes := by rw [heq]
  have hleaves : (treePart s').leaves = (treePart s).leaves := by rw [heq]
  have hnum : (treePart s').numLeaves = (treePart s).numLeaves := by rw [heq]
  have hleft : (treePart s').leftmost_leaf = (treePart s).leftmost_leaf := by rw [heq]
  refine ⟨?_, h.upper.congr hlevs hroot hcount hnodes (fun l _ => congrFun hright l), ?_⟩
  · exact hlevs ▸ h.height
  · refine ⟨hnum.trans h.leaves.count, fun j hj => ?_, ?_, hleft.trans h.leaves.leftmost⟩
    · exact (congrFun hleaves j).trans (h.leaves.leaf j hj)
    · exact (congrFun hright 0).trans h.leaves.rightmost

/-- A set that has no tree yet. -/
structure NoTree (s : IntegerSet) : Prop where
  root : s.root = none
  rightmost : s.rightmost_nodes 0 = none
  leftmost : s.leftmost_leaf = none
  leaves : s.numLeaves = 0
  nodes : ∀ l, s.numNodes l = 0

/-- A tree with one leaf that has no items yet. -/
structure FreshLeaf (s : IntegerSet) : Prop where
  levels : s.num_levels = 1
  root : s.root = some ⟨0, 0⟩
  rightmost : s.rightmost_nodes 0 = some ⟨0, 0⟩
  leftmost : s.leftmost_leaf = some 0
  leaves : s.numLeaves = 1
  leaf : s.leaves 0 = ⟨none, []⟩
  nodes : ∀ l, s.numNodes l = 0

/-- The tree of a list of items, with a leaf for the next one. -/
def Open (s : IntegerSet) (items : List LeafItem) : Prop :=
  (items = [] ∧ FreshLeaf s) ∨ (items ≠ [] ∧ Tree s (itemAt items) (items.length - 1))

/-- The tree of a list of items. -/
def Stored (s : IntegerSet) (items : List LeafItem) : Prop :=
  (items = [] ∧ NoTree s) ∨ (items ≠ [] ∧ Tree s (itemAt items) (items.length - 1))

/-- The first item of the first leaf. -/
theorem FreshLeaf.addItem (h : FreshLeaf s) (it : LeafItem) :
    Tree (addItem s 0 it) (itemAt [it]) 0 := by
  refine ⟨⟨?_, ?_, ?_⟩, ⟨fun l hl hlt => ?_, fun l _ => h.nodes l, ?_⟩, ⟨h.leaves, ?_,
    h.rightmost, h.leftmost⟩⟩
  · exact h.levels.ge
  · exact Nat.pow_pos (by decide)
  · exact .inl h.levels
  · have hlevs : l < 1 := h.levels ▸ hlt
    omega
  · have hlevs : (FdPostgres.addItem s 0 it).num_levels = 1 := h.levels
    rw [hlevs]
    exact h.root
  · intro j hj
    obtain rfl : j = 0 := by omega
    rw [addItem_leaves_self, h.leaf]
    rfl

/-- **Adding an item** to the rightmost leaf, or to a new one. -/
theorem Open.insertItem (h : Open s items) (it : LeafItem) (hmax : items.length < 64 ^ 11) :
    ∃ s', insertItem s ((items.length - 1) / 64) it = (.ok (items.length / 64), s') ∧
      Open s' (items ++ [it]) ∧ bufferPart s' = bufferPart s := by
  have hne : items ++ [it] ≠ [] := append_ne_nil_of_right_ne_nil _ (by simp)
  rcases h with ⟨rfl, hfresh⟩ | ⟨hitems, htree⟩
  · have hlen : ¬ (s.leaves 0).items.length ≥ MAX_LEAF_ITEMS := by
      rw [hfresh.leaf]
      decide
    refine ⟨addItem s 0 it, ?_, .inr ⟨hne, hfresh.addItem it⟩, rfl⟩
    change FdPostgres.insertItem s 0 it = (.ok 0, _)
    rw [FdPostgres.insertItem, if_neg hlen]
  · obtain ⟨n, hn⟩ : ∃ n, items.length = n + 1 :=
      ⟨items.length - 1, by have := length_pos_iff.mpr hitems; omega⟩
    have hlast : items.length - 1 = n := by omega
    rw [hlast] at htree
    have hsame : ∀ i ≤ n, itemAt (items ++ [it]) i = itemAt items i :=
      fun i hi => itemAt_append_of_lt it (by omega)
    have hnew : itemAt (items ++ [it]) (n + 1) = it := hn ▸ itemAt_append_length items it
    obtain ⟨s', heq, htree', hpart⟩ := (htree.congr_item hsame).insertItem (by omega)
    rw [hnew] at heq
    refine ⟨s', ?_, .inr ⟨hne, ?_⟩, hpart⟩
    · rw [hn]
      exact heq
    · rw [length_append, hn]
      exact htree'

/-! ### Flushing -/

/-- The integers behind the first one of a long increasing sequence can be encoded. -/
theorem encodable_of_pairwise {first : ℕ} {rest : List ℕ}
    (hsort : (first :: rest).Pairwise (· < ·)) (hlt : ∀ x ∈ first :: rest, x < 2 ^ 64)
    (hlen : 240 ≤ rest.length) : Encodable first rest where
  increasing := hsort
  lt x hx := hlt x (mem_cons_of_mem first hx)
  length := hlen

/-- **The loop of the flush** packs values into items and keeps their sequence; fewer values than
an item may need remain. -/
theorem flushLoop_spec (fuel : ℕ) {values : List ℕ} (hopen : Open s items)
    (hsort : values.Pairwise (· < ·)) (hlt : ∀ x ∈ values, x < 2 ^ 64)
    (hfuel : values.length ≤ fuel) (hmax : items.length + values.length < 64 ^ 11) :
    ∃ new values' s', flushLoop fuel s ((items.length - 1) / 64) values = (.ok values', s') ∧
      Open s' (items ++ new) ∧ new.flatMap itemValues ++ values' = values ∧
      (∀ it ∈ new, ItemOk it) ∧ values'.length < MAX_VALUES_PER_LEAF_ITEM ∧
      (MAX_VALUES_PER_LEAF_ITEM ≤ values.length → new ≠ []) ∧ bufferPart s' = bufferPart s := by
  have hmin : MAX_VALUES_PER_LEAF_ITEM = 241 := rfl
  induction fuel generalizing s items values with
  | zero =>
    obtain rfl : values = [] := length_eq_zero_iff.mp (by omega)
    refine ⟨[], [], s, rfl, by rwa [append_nil], rfl, fun it hit => absurd hit (by simp),
      ?_, fun hlen => ?_, rfl⟩
    · omega
    · omega
  | succ fuel ih =>
    rw [flushLoop]
    by_cases hlong : values.length ≥ MAX_VALUES_PER_LEAF_ITEM
    · obtain ⟨first, rest, rfl⟩ : ∃ first rest, values = first :: rest :=
        exists_cons_of_length_pos (by omega)
      rw [length_cons] at hlong hfuel hmax
      obtain ⟨hcodes, hle⟩ := simple8b_encode_codes
        (encodable_of_pairwise hsort hlt (by omega))
      generalize hn : (simple8b_encode rest first).2 = n at hcodes hle
      generalize hcode : (simple8b_encode rest first).1 = codeword at hcodes
      obtain ⟨s₁, hinsert, hopen₁, hpart₁⟩ := hopen.insertItem ⟨first, codeword⟩ (by omega)
      have hvals : itemValues ⟨first, codeword⟩ = first :: rest.take n := hcodes.itemValues
      have hitem : ItemOk ⟨first, codeword⟩ := hcodes.itemOk
      have hdrop : (first :: rest).drop (1 + n) = rest.drop n := by
        rw [add_comm, drop_succ_cons]
      have hsub : (rest.drop n).Sublist (first :: rest) :=
        (drop_sublist n rest).trans (sublist_cons_self first rest)
      have hcount : (items ++ [(⟨first, codeword⟩ : LeafItem)]).length - 1 = items.length := by
        simp
      obtain ⟨new, values', s', hloop, hopen', hseq, hok, hshort, -, hpart⟩ :=
        ih hopen₁ (hsort.sublist hsub) (fun x hx => hlt x (hsub.subset hx))
          (by rw [length_drop]; omega)
          (by rw [length_append, length_singleton, length_drop]; omega)
      rw [hcount] at hloop
      refine ⟨⟨first, codeword⟩ :: new, values', s', ?_, ?_, ?_, ?_, hshort,
        fun _ => cons_ne_nil _ _, hpart.trans hpart₁⟩
      · rw [if_pos (by exact hlong)]
        simp only [getD_cons_zero, drop_one, tail_cons, hn, hcode, hinsert, hdrop, hloop]
      · rwa [append_assoc] at hopen'
      · rw [flatMap_cons, hvals, append_assoc, hseq, cons_append, take_append_drop]
      · exact forall_mem_cons.mpr ⟨hitem, hok⟩
    · rw [if_neg hlong]
      exact ⟨[], values, s, rfl, by rwa [append_nil], rfl,
        fun it hit => absurd hit (by simp), not_le.mp hlong,
        fun hlen => absurd hlen hlong, rfl⟩

/-! ### The values of a set -/

/-- **The contents of a set**: the values of the items in the tree and those in the buffer are
the values `l` that were added. -/
structure Contents (s : IntegerSet) (l : List ℕ) (items : List LeafItem) : Prop where
  stored : Stored s items
  itemsOk : ∀ it ∈ items, ItemOk it
  values : items.flatMap itemValues ++ s.buffered_values = l
  sorted : l.Pairwise (· < ·)
  lt : ∀ x ∈ l, x < 2 ^ 64
  entries : s.num_entries = l.length % 2 ^ 64
  highest : ∀ y, l.getLast? = some y → s.highest_value = y
  short : s.buffered_values.length ≤ MAX_BUFFERED_VALUES

/-- A new set has no values. -/
theorem contents_create : Contents intset_create [] [] where
  stored := .inl ⟨rfl, rfl, rfl, rfl, rfl, fun _ => rfl⟩
  itemsOk it hit := nomatch hit
  values := rfl
  sorted := List.Pairwise.nil
  lt x hx := nomatch hx
  entries := rfl
  highest y hy := nomatch hy
  short := by decide

section Add

variable {s : IntegerSet} {l : List ℕ} {items : List LeafItem}

/-- There are no more than `2 ^ 64` values. -/
theorem length_le_of_pairwise (hsort : l.Pairwise (· < ·)) (hlt : ∀ x ∈ l, x < 2 ^ 64) :
    l.length ≤ 2 ^ 64 := by
  have hnodup : l.Nodup := hsort.imp (fun h => ne_of_lt h)
  have hsub : l.toFinset ⊆ Finset.range (2 ^ 64) :=
    fun x hx => Finset.mem_range.mpr (hlt x (mem_toFinset.mp hx))
  have hcard := Finset.card_le_card hsub
  rwa [toFinset_card_of_nodup hnodup, Finset.card_range] at hcard

/-- Every item has a value. -/
theorem length_le_flatMap (items : List LeafItem) :
    items.length ≤ (items.flatMap itemValues).length := by
  induction items with
  | nil => exact zero_le _
  | cons it items ih =>
    rw [flatMap_cons, length_append, itemValues, length_cons, length_cons]
    omega

variable (h : Contents s l items)

include h

/-- There are fewer items than the tree can hold. -/
theorem Contents.items_lt : items.length + s.buffered_values.length < 64 ^ 11 := by
  have hle := length_le_of_pairwise h.sorted h.lt
  have hitems := length_le_flatMap items
  rw [← h.values, length_append] at hle
  omega

omit h in
/-- The first leaf of a set without a tree. -/
theorem NoTree.firstLeaf (h : NoTree s) : FreshLeaf (firstLeaf s) := by
  have hzero := h.leaves
  refine ⟨rfl, ?_, ?_, ?_, ?_, ?_, h.nodes⟩
  · simp [FdPostgres.firstLeaf, hzero]
  · simp [FdPostgres.firstLeaf, newLeaf, hzero]
  · simp [FdPostgres.firstLeaf, hzero]
  · simp [FdPostgres.firstLeaf, newLeaf, hzero]
  · simp [FdPostgres.firstLeaf, newLeaf, hzero]

omit h in
/-- The tree that a flush starts with, and its rightmost leaf. -/
theorem Stored.open (h : Stored s items) :
    ∃ s₁, (if s.rightmost_nodes 0 = none then firstLeaf s else s) = s₁ ∧ Open s₁ items ∧
      s₁.rightmost_nodes 0 = some ⟨0, (items.length - 1) / 64⟩ ∧ bufferPart s₁ = bufferPart s := by
  rcases h with ⟨rfl, hnone⟩ | ⟨hne, htree⟩
  · refine ⟨firstLeaf s, if_pos hnone.rightmost, .inl ⟨rfl, hnone.firstLeaf⟩, ?_, rfl⟩
    exact hnone.firstLeaf.rightmost
  · have hright := htree.leaves.rightmost
    refine ⟨s, if_neg (by rw [hright]; simp), .inr ⟨hne, htree⟩, hright, rfl⟩

/-- **Flushing a full buffer** keeps the values, and makes room in the buffer. -/
theorem Contents.flush (hfull : s.buffered_values.length ≥ MAX_BUFFERED_VALUES) :
    ∃ s' items', intset_flush_buffered_values s = (.ok (), s') ∧ Contents s' l items' ∧
      s'.buffered_values.length < MAX_VALUES_PER_LEAF_ITEM ∧ s'.iter_active = s.iter_active := by
  obtain ⟨s₁, hs₁, hopen, hright, hpart₁⟩ := h.stored.open
  have hbuf : (bufferPart s₁).buffered_values = (bufferPart s).buffered_values := by
    rw [hpart₁]
  have hbuf' : s₁.buffered_values = s.buffered_values := hbuf
  have hsub : s.buffered_values.Sublist l := h.values ▸ sublist_append_right _ _
  obtain ⟨new, values', s₂, hloop, hopen₂, hseq, hok, hshort, hnew, hpart₂⟩ :=
    flushLoop_spec s.buffered_values.length hopen (h.sorted.sublist hsub)
      (fun x hx => h.lt x (hsub.subset hx)) le_rfl h.items_lt
  have hne : items ++ new ≠ [] := by
    refine append_ne_nil_of_right_ne_nil _ (hnew (le_trans ?_ hfull))
    exact Nat.le_mul_of_pos_right _ (by decide)
  have hpart : bufferPart s₂ = bufferPart s := hpart₂.trans hpart₁
  have hent : (bufferPart s₂).num_entries = (bufferPart s).num_entries := by rw [hpart]
  have hhigh : (bufferPart s₂).highest_value = (bufferPart s).highest_value := by rw [hpart]
  have hact : (bufferPart s₂).iter_active = (bufferPart s).iter_active := by rw [hpart]
  refine ⟨{ s₂ with buffered_values := values' }, items ++ new, ?_, ?_, hshort, hact⟩
  · simp only [intset_flush_buffered_values, hs₁, hright, hbuf', hloop]
  · refine ⟨?_, ?_, ?_, h.sorted, h.lt, hent.trans h.entries,
      fun y hy => hhigh.trans (h.highest y hy), le_of_lt (lt_of_lt_of_le hshort ?_)⟩
    · rcases hopen₂ with ⟨heq, -⟩ | ⟨-, htree⟩
      · exact absurd heq hne
      · exact .inr ⟨hne, htree.congr rfl⟩
    · exact forall_mem_append.mpr ⟨h.itemsOk, hok⟩
    · rw [flatMap_append, append_assoc, hseq, h.values]
    · exact Nat.le_mul_of_pos_right _ (by decide)

/-! ### Adding a value -/

variable {x : ℕ}

/-- A value behind all others goes to the end of the buffer. -/
theorem Contents.buffer
    (hroom : s.buffered_values.length < MAX_BUFFERED_VALUES) (hx : x < 2 ^ 64)
    (horder : ∀ y ∈ l, y < x) : Contents (bufferValue s x) (l ++ [x]) items where
  stored := by
    rcases h.stored with ⟨rfl, hnone⟩ | ⟨hne, htree⟩
    · exact .inl ⟨rfl, { hnone with }⟩
    · exact .inr ⟨hne, htree.congr rfl⟩
  itemsOk := h.itemsOk
  values := by
    rw [bufferValue, ← append_assoc, h.values]
  sorted := by
    refine pairwise_append.mpr ⟨h.sorted, pairwise_singleton _ _, ?_⟩
    intro y hy z hz
    rw [mem_singleton.mp hz]
    exact horder y hy
  lt := forall_mem_append.mpr ⟨h.lt, forall_mem_singleton.mpr hx⟩
  entries := by
    rw [bufferValue, h.entries, length_append, length_singleton, mod_add_mod]
  highest := by
    intro y hy
    rw [getLast?_concat] at hy
    exact Option.some.inj hy
  short := by
    rw [bufferValue, length_append]
    exact hroom

/-- A value behind all others is behind the highest one. -/
theorem Contents.in_order (horder : ∀ y ∈ l, y < x) :
    ¬ (x ≤ s.highest_value ∧ s.num_entries > 0) := by
  rintro ⟨hle, hpos⟩
  cases hlast : l.getLast? with
  | none =>
    rw [getLast?_eq_none_iff.mp hlast] at h
    have hent := h.entries
    rw [length_nil] at hent
    omega
  | some y =>
    have hy := horder y (mem_of_getLast? hlast)
    rw [h.highest y hlast] at hle
    omega

/-- **Adding a value behind all others appends it.** -/
theorem Contents.add_member (hact : s.iter_active = false)
    (hx : x < 2 ^ 64) (horder : ∀ y ∈ l, y < x) :
    ∃ s' items', intset_add_member s x = (.ok (), s') ∧ Contents s' (l ++ [x]) items' ∧
      s'.iter_active = false := by
  have hnot := h.in_order horder
  have hact' : ¬ s.iter_active = true := by rw [hact]; exact Bool.false_ne_true
  by_cases hfull : s.buffered_values.length ≥ MAX_BUFFERED_VALUES
  · obtain ⟨s₁, items', hflush, hcont, hshort, hiter⟩ := h.flush hfull
    have hroom : s₁.buffered_values.length < MAX_BUFFERED_VALUES :=
      lt_of_lt_of_le hshort (Nat.le_mul_of_pos_right _ (by decide))
    refine ⟨bufferValue s₁ x, items', ?_, hcont.buffer hroom hx horder, hiter.trans hact⟩
    rw [intset_add_member, if_neg hact', if_neg hnot, if_pos hfull, hflush]
  · refine ⟨bufferValue s x, items, ?_, h.buffer (not_le.mp hfull) hx horder, hact⟩
    rw [intset_add_member, if_neg hact', if_neg hnot, if_neg hfull]

/-- **A value that is not behind all others is refused**, as long as the number of entries has not
wrapped around. -/
theorem Contents.out_of_order (hlen : l.length < 2 ^ 64) {y : ℕ}
    (hy : y ∈ l) (hle : x ≤ y) : intset_add_member s x =
      (.error (if s.iter_active then .iterationInProgress else .outOfOrder), s) := by
  have hpos : 0 < l.length := length_pos_of_mem hy
  have hent : s.num_entries > 0 := by
    rw [h.entries, mod_eq_of_lt hlen]
    exact hpos
  have hne : l ≠ [] := ne_nil_of_mem hy
  have hlast : l.getLast? = some (l.getLast hne) := getLast?_eq_some_getLast hne
  have hhigh : y ≤ s.highest_value := by
    rw [h.highest _ hlast]
    have hsplit := dropLast_append_getLast hne
    rw [← hsplit] at hy
    rcases mem_append.mp hy with hy | hy
    · have hsort := h.sorted
      rw [← hsplit] at hsort
      exact le_of_lt ((pairwise_append.mp hsort).2.2 y hy _ (mem_singleton_self _))
    · exact (mem_singleton.mp hy).le
  rw [intset_add_member]
  cases hiter : s.iter_active with
  | true => rfl
  | false => rw [if_neg Bool.false_ne_true, if_pos ⟨le_trans hle hhigh, hent⟩]; rfl

end Add

end FdPostgres
