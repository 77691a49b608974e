import FdPostgres.Bitmapset.Results
import FdPostgres.Mmgr

/-!
# The Discrete Knapsack

`DiscreteKnapsack` chooses items of the largest total value within a limit on their weight. It keeps
a best value and its items for every weight up to the limit, in one row that each item changes in
place, from the large weights down. So an entry that is read has not been changed for the item yet,
apart from the entry itself if the item has no weight. The sets have one member more than the items
they stand for, so that they never grow.

Values are exact, in an ordered semiring, and the arrays are functions.

* `IsBest`: a best choice among some items that has all the items without weight.
* `discreteKnapsack_best`: **the items returned are a best choice**, as long as the row can be
  allocated.
-/

namespace FdPostgres

open Finset Function

variable {V : Type} [Semiring V] [LinearOrder V]

/-- The two arrays, by weight. -/
structure KnapsackRow (V : Type) where
  values : ℕ → V
  sets : ℕ → Option Bitmapset

/-- What the loops do for an item and a weight. -/
def knapsackStep (i : Int32) (iw : ℕ) (iv : V) (j : ℕ) (row : KnapsackRow V) :
    Except BmsError (KnapsackRow V) :=
  let ow := j - iw
  if row.values j ≤ row.values ow + iv then do
    let copied := if j ≠ ow then
      bms_add_members (bms_del_members (row.sets j) (row.sets j)) (row.sets ow) else row.sets j
    let set ← bms_add_member copied i
    return ⟨update row.values j (row.values ow + iv), update row.sets j set⟩
  else return row

/-- The loop over the weights below a number, down to the weight of the item. -/
def knapsackWeights (i : Int32) (iw : ℕ) (iv : V) :
    ℕ → KnapsackRow V → Except BmsError (KnapsackRow V)
  | 0, row => return row
  | j + 1, row =>
    if j < iw then return row
    else do knapsackWeights i iw iv j (← knapsackStep i iw iv j row)

/-- The value of an item, which is 1 if no values are given. -/
def itemValue (item_values : Option (ℕ → V)) (i : ℕ) : V :=
  item_values.elim 1 (· i)

/-- The row after the items below a number. -/
def knapsackItems (max_weight : ℕ) (num_items : Int32) (item_weights : ℕ → ℕ)
    (item_values : Option (ℕ → V)) : ℕ → Except BmsError (KnapsackRow V)
  | 0 => do
    let set ← bms_make_singleton num_items
    return ⟨fun _ => 0, fun _ => some set⟩
  | i + 1 => do
    let row ← knapsackItems max_weight num_items item_weights item_values i
    knapsackWeights (.ofNat i) (item_weights i) (itemValue item_values i) (max_weight + 1) row

/-- An error report, by `palloc` or by an operation on a set. -/
inductive KnapsackError where
  | memory (e : MemoryError)
  | bms (e : BmsError)

def DiscreteKnapsack (max_weight : ℕ) (num_items : Int32) (item_weights : ℕ → ℕ)
    (item_values : Option (ℕ → V)) : Except KnapsackError (Option Bitmapset) := do
  -- `values` and `sets`, with eight bytes for each weight
  (palloc ((1 + max_weight) * 8)).mapError .memory
  (palloc ((1 + max_weight) * 8)).mapError .memory
  let row ← (knapsackItems max_weight num_items item_weights item_values
    num_items.toNatClampNeg).mapError .bms
  (bms_del_member (row.sets max_weight) num_items).mapError .bms

/-! ### Best choices -/

/-- A choice within the limit that no other one exceeds, with all the items without weight. -/
structure IsBest (weight : ℕ → ℕ) (value : ℕ → V) (items : Finset ℕ) (limit : ℕ) (s : Finset ℕ) :
    Prop where
  sub : s ⊆ items
  fits : ∑ i ∈ s, weight i ≤ limit
  best : ∀ t ⊆ items, ∑ i ∈ t, weight i ≤ limit → ∑ i ∈ t, value i ≤ ∑ i ∈ s, value i
  light : ∀ i ∈ items, weight i = 0 → i ∈ s

variable {weight : ℕ → ℕ} {value : ℕ → V} {items s s' : Finset ℕ} {limit x n i : ℕ}

/-- A choice with one more item has that item, or is one of the old choices. -/
theorem sum_le_of_insert {m : V}
    (hout : ∀ t ⊆ items, ∑ i ∈ t, weight i ≤ limit → ∑ i ∈ t, value i ≤ m)
    (hin : weight x ≤ limit → ∀ t ⊆ items, ∑ i ∈ t, weight i ≤ limit - weight x →
      ∑ i ∈ t, value i + value x ≤ m) :
    ∀ t ⊆ insert x items, ∑ i ∈ t, weight i ≤ limit → ∑ i ∈ t, value i ≤ m := by
  intro t ht hfits
  by_cases hx : x ∈ t
  · rw [← sum_erase_add _ _ hx] at hfits ⊢
    exact hin (by omega) _ (subset_insert_iff.mp ht) (by omega)
  · exact hout t ((subset_insert_iff_of_notMem hx).mp ht) hfits

variable [IsOrderedRing V]

/-- The item is taken, on top of a best choice for what it leaves of the limit. -/
theorem IsBest.take (h : IsBest weight value items limit s) (hx : x ∉ items)
    (h' : IsBest weight value items (limit - weight x) s') (hfits : weight x ≤ limit)
    (hle : ∑ i ∈ s, value i ≤ ∑ i ∈ s', value i + value x) :
    IsBest weight value (insert x items) limit (insert x s') := by
  have hx' : x ∉ s' := fun hmem => hx (h'.sub hmem)
  refine ⟨insert_subset_insert x h'.sub, ?_, ?_, ?_⟩
  · rw [sum_insert hx']
    have := h'.fits
    omega
  · rw [sum_insert hx', add_comm]
    exact sum_le_of_insert (fun t ht hfits => (h.best t ht hfits).trans hle)
      fun _ t ht hfits => add_le_add_left (h'.best t ht hfits) _
  · exact (forall_mem_insert ..).mpr ⟨fun _ => mem_insert_self x s',
      fun i hi hzero => mem_insert_of_mem (h'.light i hi hzero)⟩

/-- The item is left, as it is too heavy or the choices with it are worse. -/
theorem IsBest.leave (h : IsBest weight value items limit s) (hx : 0 ≤ value x)
    (hleft : weight x ≤ limit → ∃ s', IsBest weight value items (limit - weight x) s' ∧
      ∑ i ∈ s', value i + value x < ∑ i ∈ s, value i) :
    IsBest weight value (insert x items) limit s := by
  refine ⟨h.sub.trans (subset_insert x items), h.fits, ?_, ?_⟩
  · refine sum_le_of_insert h.best fun hfits t ht hless => ?_
    obtain ⟨s', h', hlt⟩ := hleft hfits
    exact (add_le_add_left (h'.best t ht hless) _).trans hlt.le
  · refine (forall_mem_insert ..).mpr ⟨fun hzero => ?_, h.light⟩
    -- an item without weight can be put on top of the choice itself
    obtain ⟨s', h', hlt⟩ := hleft (by omega)
    have hle := h'.best s h.sub (by rw [hzero]; exact h.fits)
    exact absurd hlt (not_lt.mpr (hle.trans (le_add_of_nonneg_right hx)))

/-! ### The loops -/

/-- What the row has for a weight: the value of a best choice, and its items with the marker. -/
def BestAt (weight : ℕ → ℕ) (value : ℕ → V) (n i : ℕ) (row : KnapsackRow V) (j : ℕ) : Prop :=
  ∃ s, memberSet (row.sets j) = insert n s ∧ row.values j = ∑ k ∈ s, value k ∧
    IsBest weight value (range i) j s

/-- One step makes the entry of its weight, and keeps the others. -/
theorem knapsackStep_best {j : ℕ} {row : KnapsackRow V} (hi : i < 2 ^ 31) (hvalue : 0 ≤ value i)
    (hfits : weight i ≤ j) (h : BestAt weight value n i row j)
    (h' : BestAt weight value n i row (j - weight i)) :
    ∃ row', knapsackStep (.ofNat i) (weight i) (value i) j row = .ok row' ∧
      BestAt weight value n (i + 1) row' j ∧
      ∀ k ≠ j, ∀ i, BestAt weight value n i row k → BestAt weight value n i row' k := by
  obtain ⟨s, hset, hval, hbest⟩ := h
  obtain ⟨s', hset', hval', hbest'⟩ := h'
  simp only [knapsackStep, BestAt, range_add_one]
  by_cases hle : row.values j ≤ row.values (j - weight i) + value i
  · rw [if_pos hle]
    rw [hval, hval'] at hle
    have hcopied : memberSet (if j ≠ j - weight i then bms_add_members (bms_del_members
        (row.sets j) (row.sets j)) (row.sets (j - weight i)) else row.sets j) = insert n s' := by
      split_ifs with hne
      · rw [memberSet_add_members, bms_del_members_eq, memberSet_difference, sdiff_self, ← hset']
        exact empty_union _
      · rw [← hset', ← not_ne_iff.mp hne]
    have hpos : 0 ≤ Int32.ofNat i := by
      rw [Int32.le_iff_toInt_le, Int32.toInt_ofNat_of_lt hi]
      exact Int.natCast_nonneg i
    obtain ⟨c, hc, hcset⟩ := memberSet_add_member _ hpos
    rw [hcopied, Int32.toNatClampNeg_ofNat_of_lt hi, insert_comm] at hcset
    simp only [hc]
    refine ⟨_, rfl, ⟨insert i s', ?_, ?_, hbest.take notMem_range_self hbest' hfits hle⟩, ?_⟩
    · simp only [update_self, hcset]
    · have hnotMem : i ∉ s' := fun hmem => notMem_range_self (hbest'.sub hmem)
      simp only [update_self, hval', sum_insert hnotMem, add_comm]
    · intro k hk i h
      simpa [BestAt, hk] using h
  · rw [if_neg hle]
    rw [hval, hval', not_le] at hle
    exact ⟨row, rfl, ⟨s, hset, hval, hbest.leave hvalue fun _ => ⟨s', hbest', hle⟩⟩,
      fun _ _ _ => id⟩

/-- The loop over the weights: those from `j` on are done, and those below are as before. -/
theorem knapsackWeights_best {m j : ℕ} (hi : i < 2 ^ 31) (hvalue : 0 ≤ value i) :
    ∀ {row : KnapsackRow V}, (∀ k < j, BestAt weight value n i row k) →
      (∀ k < m, j ≤ k → BestAt weight value n (i + 1) row k) →
      ∃ row', knapsackWeights (.ofNat i) (weight i) (value i) j row = .ok row' ∧
        ∀ k < m, BestAt weight value n (i + 1) row' k := by
  induction j with
  | zero => exact fun {row} _ hdone => ⟨row, rfl, fun k hk => hdone k hk (Nat.zero_le k)⟩
  | succ j ih =>
    intro row hold hdone
    by_cases hheavy : j < weight i
    · refine ⟨row, if_pos hheavy, fun k hk => ?_⟩
      rcases lt_or_ge k (j + 1) with hlt | hge
      · obtain ⟨s, hset, hval, hbest⟩ := hold k hlt
        rw [BestAt, range_add_one]
        exact ⟨s, hset, hval, hbest.leave hvalue (by omega)⟩
      · exact hdone k hk hge
    · obtain ⟨row₁, hrow₁, hnew, hkept⟩ := knapsackStep_best hi hvalue (not_lt.mp hheavy)
        (hold j (by omega)) (hold (j - weight i) (by omega))
      rw [knapsackWeights, if_neg hheavy, hrow₁]
      refine ih (fun k hk => hkept k hk.ne i (hold k (by omega))) fun k hk hge => ?_
      rcases hge.eq_or_lt with rfl | hgt
      · exact hnew
      · exact hkept k hgt.ne' (i + 1) (hdone k hk hgt)

theorem itemValue_nonneg {item_values : Option (ℕ → V)}
    (hvalues : ∀ values ∈ item_values, ∀ i < n, 0 ≤ values i) :
    ∀ i < n, 0 ≤ itemValue item_values i := by
  cases item_values with
  | none => exact fun _ _ => zero_le_one
  | some values => exact hvalues values rfl

/-- The loop over the items. -/
theorem knapsackItems_best {num_items : Int32} (hn : 0 < num_items) {item_values : Option (ℕ → V)}
    (hvalues : ∀ i < num_items.toNatClampNeg, 0 ≤ itemValue item_values i) (max_weight : ℕ) :
    ∀ {i : ℕ}, i ≤ num_items.toNatClampNeg → ∃ row,
      knapsackItems max_weight num_items weight item_values i = .ok row ∧ ∀ k < max_weight + 1,
        BestAt weight (itemValue item_values) num_items.toNatClampNeg i row k := by
  intro i hi
  induction i with
  | zero =>
    obtain ⟨c, hc, hset⟩ := memberSet_make_singleton (Int32.le_of_lt hn)
    rw [knapsackItems, hc]
    refine ⟨_, rfl, fun k _ => ⟨∅, hset, rfl, subset_refl _, Nat.zero_le k, ?_, ?_⟩⟩
    · intro t ht _
      rw [subset_empty.mp ht]
    · exact fun i hi => absurd hi (notMem_empty i)
  | succ i ih =>
    obtain ⟨row, hrow, hbest⟩ := ih (by omega)
    have hlt := num_items.toNatClampNeg_lt
    rw [knapsackItems, hrow]
    exact knapsackWeights_best (by omega) (hvalues i (by omega)) hbest (by omega)

/-- **The knapsack is filled as well as it can be.** If the two arrays are within the limit of
`palloc`, a best choice among all items is returned; otherwise, if the number of entries
is an `int`, the call ends with an error report. -/
theorem discreteKnapsack_best (max_weight : ℕ) (num_items : Int32) (item_weights : ℕ → ℕ)
    (item_values : Option (ℕ → V)) (hn : 0 < num_items)
    (hvalues : ∀ values ∈ item_values, ∀ i < num_items.toNatClampNeg, 0 ≤ values i) :
    ((1 + max_weight) * 8 ≤ MaxAllocSize → ∃ result,
      DiscreteKnapsack max_weight num_items item_weights item_values = .ok result ∧
      IsBest item_weights (itemValue item_values) (range num_items.toNatClampNeg) max_weight
        (memberSet result)) ∧
    (MaxAllocSize < (1 + max_weight) * 8 → 1 + max_weight < 2 ^ 31 →
      DiscreteKnapsack max_weight num_items item_weights item_values =
        .error (.memory (.invalidAlloc ((1 + max_weight) * 8)))) := by
  constructor
  · intro hsize
    obtain ⟨row, hrow, hall⟩ := knapsackItems_best hn (itemValue_nonneg hvalues) max_weight le_rfl
    obtain ⟨s, hset, -, hbest⟩ := hall max_weight (by omega)
    obtain ⟨result, hresult, hmembers⟩ := memberSet_del_member (row.sets max_weight)
      (Int32.le_of_lt hn)
    refine ⟨result, ?_, ?_⟩
    · rw [DiscreteKnapsack, palloc_of_le hsize, hrow]
      simp only [Except.mapError, bind, Except.bind, hresult]
    · rw [hmembers, hset, erase_insert fun hmem => notMem_range_self (hbest.sub hmem)]
      exact hbest
  · intro hsize _
    rw [DiscreteKnapsack, palloc_of_lt hsize]
    rfl

/-- The weights and values of four items, of which the last has neither. -/
def fourWeights (i : ℕ) : ℕ := [3, 2, 4, 0].getD i 0

def fourValues (i : ℕ) : ℕ := [4, 3, 5, 0].getD i 0

/-- With a limit of 5 the first two are better than the third, and the last one is taken too. -/
theorem discreteKnapsack_best_four : ∃ result,
    DiscreteKnapsack 5 4 fourWeights (some fourValues) = .ok result ∧
      7 ≤ ∑ i ∈ memberSet result, fourValues i ∧ 3 ∈ memberSet result := by
  obtain ⟨result, hok, hbest⟩ := (discreteKnapsack_best 5 4 fourWeights (some fourValues)
    (by decide) fun _ _ _ _ => Nat.zero_le _).1 (by decide)
  have hsum : ∑ i ∈ {0, 1}, fourValues i ≤ ∑ i ∈ memberSet result, fourValues i :=
    hbest.best {0, 1} (by decide) (by decide)
  exact ⟨result, hok, hsum, hbest.light 3 (by decide) rfl⟩

end FdPostgres
