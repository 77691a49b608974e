import FdPostgres.Bitmapset.Iteration

/-!
# Bitmapset Operations Agree with Finite Sets

`BitmapsetAgrees` collects what the operations promise about two Bitmapsets and two numbers,
in terms of the sets of members only: null pointers, lengths and trailing zero words do not
appear in it.

## Main results

* `bitmapset_agrees_iff`: **the operations agree with finite sets exactly when the largest
  `int` is not a member** of the set that is iterated over. With that member, the ascending
  iteration runs past the last position, and a set of all `int`s has more members than
  `bms_num_members` can return.
* `bitmapset_disagrees_INT_MAX`: the singleton of the largest `int` is such a set.
-/

namespace FdPostgres

open BitWords BMS_Comparison Finset Int32

/-- **Agreement with finite sets**, for two Bitmapsets and two numbers. -/
structure BitmapsetAgrees (hash_any : List bitmapword → BitVec 32) (a b : Option Bitmapset)
    (x y : Int32) : Prop where
  union : memberSet (bms_union a b) = memberSet a ∪ memberSet b
  intersect : memberSet (bms_intersect a b) = memberSet a ∩ memberSet b
  difference : memberSet (bms_difference a b) = memberSet a \ memberSet b
  add_members : memberSet (bms_add_members a b) = memberSet a ∪ memberSet b
  int_members : memberSet (bms_int_members a b) = memberSet a ∩ memberSet b
  del_members : memberSet (bms_del_members a b) = memberSet a \ memberSet b
  join : memberSet (bms_join a b) = memberSet a ∪ memberSet b
  add_member : 0 ≤ x → ∃ c, bms_add_member a x = .ok c ∧
    memberSet (some c) = insert x.toNatClampNeg (memberSet a)
  del_member : 0 ≤ x → ∃ c, bms_del_member a x = .ok c ∧
    memberSet c = (memberSet a).erase x.toNatClampNeg
  add_range : 0 ≤ x → ∃ c, bms_add_range a x y = .ok c ∧
    ∀ n : ℕ, n ∈ memberSet c ↔ n ∈ memberSet a ∨ (x.toInt ≤ n ∧ (n : ℤ) ≤ y.toInt)
  is_member : 0 ≤ x → bms_is_member x a = .ok (decide (x.toNatClampNeg ∈ memberSet a))
  equal : bms_equal a b = true ↔ memberSet a = memberSet b
  is_subset : bms_is_subset a b = true ↔ memberSet a ⊆ memberSet b
  overlap : bms_overlap a b = true ↔ (memberSet a ∩ memberSet b).Nonempty
  nonempty_difference :
    bms_nonempty_difference a b = true ↔ (memberSet a \ memberSet b).Nonempty
  membership : bms_membership a = membershipOf (memberSet a).card
  num_members : (bms_num_members a).toInt = (memberSet a).card
  member_index : 0 ≤ x → ∃ i : Int32, bms_member_index a x = .ok i ∧
    i.toInt = if x.toNatClampNeg ∈ memberSet a then
      (((memberSet a).filter (· < x.toNatClampNeg)).card : ℤ) else -1
  is_empty : bms_is_empty a = true ↔ memberSet a = ∅
  subset_compare : bms_subset_compare a b = if memberSet a = memberSet b then BMS_EQUAL
    else if memberSet a ⊆ memberSet b then BMS_SUBSET1
    else if memberSet b ⊆ memberSet a then BMS_SUBSET2
    else BMS_DIFFERENT
  compare_lt : bms_compare a b = -1 ↔ toColex (memberSet a) < toColex (memberSet b)
  compare_eq : bms_compare a b = 0 ↔ memberSet a = memberSet b
  compare_gt : bms_compare a b = 1 ↔ toColex (memberSet b) < toColex (memberSet a)
  hash_value : bms_equal a b = true → bms_hash_value hash_any a = bms_hash_value hash_any b
  next_member : Enumerates (bms_next_member a) (· < ·) (memberSet a)
  prev_member : Enumerates (bms_prev_member a) (· > ·) (memberSet a)

/-- A range of numbers, with its bounds in `int`. -/
theorem add_range_iff (a : Option Bitmapset) {x y : Int32} (hx : 0 ≤ x) :
    ∃ c, bms_add_range a x y = .ok c ∧
      ∀ n : ℕ, n ∈ memberSet c ↔ n ∈ memberSet a ∨ (x.toInt ≤ n ∧ (n : ℤ) ≤ y.toInt) := by
  obtain ⟨c, hc, hset⟩ := memberSet_add_range a hx y
  refine ⟨c, hc, fun n => ?_⟩
  have hxi : 0 ≤ x.toInt := le_iff_toInt_le.mp hx
  have hxn : (x.toNatClampNeg : ℤ) = x.toInt := Int.toNat_of_nonneg hxi
  rw [hset, mem_union]
  refine or_congr_right ?_
  by_cases hempty : y < x
  · have hlt := lt_iff_toInt_lt.mp hempty
    rw [if_pos hempty]
    refine iff_of_false (notMem_empty n) ?_
    omega
  · have hle := Int32.le_iff_toInt_le.mp (Int32.not_lt.mp hempty)
    have hyn : (y.toNatClampNeg : ℤ) = y.toInt := Int.toNat_of_nonneg (by omega)
    rw [if_neg hempty, mem_Icc]
    omega

/-- The number of members fits in `int` without the largest `int`. -/
theorem card_memberSet_lt {a : Option Bitmapset} (hmax : INT_MAX ∉ memberSet a) :
    (memberSet a).card < 2 ^ 31 := by
  have hsub : memberSet a ⊆ range INT_MAX := by
    intro n hn
    have hle := memberSet_le_INT_MAX hn
    have hne : n ≠ INT_MAX := fun heq => hmax (heq ▸ hn)
    exact mem_range.mpr (by omega)
  have hcard := card_le_card hsub
  rw [card_range, INT_MAX] at hcard
  omega

/-- The number of members below a number fits in `int`. -/
theorem card_filter_lt (s : Finset ℕ) (x : Int32) :
    (s.filter (· < x.toNatClampNeg)).card < 2 ^ 31 := by
  have hsub : s.filter (· < x.toNatClampNeg) ⊆ range x.toNatClampNeg :=
    fun n hn => mem_range.mpr (mem_filter.mp hn).2
  have hcard := card_le_card hsub
  have hlt := x.toNatClampNeg_lt
  rw [card_range] at hcard
  omega

/-- The index of a member, in `int`. -/
theorem member_index_toInt (a : Option Bitmapset) {x : Int32} (hx : 0 ≤ x) :
    ∃ i : Int32, bms_member_index a x = .ok i ∧ i.toInt = if x.toNatClampNeg ∈ memberSet a then
        (((memberSet a).filter (· < x.toNatClampNeg)).card : ℤ) else -1 := by
  refine ⟨_, bms_member_index_eq a hx, ?_⟩
  by_cases hmem : x.toNatClampNeg ∈ memberSet a
  · rw [if_pos hmem, if_pos hmem, toInt_ofNat_of_lt (card_filter_lt _ x)]
  · rw [if_neg hmem, if_neg hmem]
    rfl

/-- The one-pass comparison, by sets. -/
theorem subset_compare_sets (a b : Option Bitmapset) :
    bms_subset_compare a b =
      if memberSet a = memberSet b then BMS_EQUAL else if memberSet a ⊆ memberSet b then BMS_SUBSET1
      else if memberSet b ⊆ memberSet a then BMS_SUBSET2 else BMS_DIFFERENT := by
  have h1 := bms_is_subset_iff a b
  have h2 := bms_is_subset_iff b a
  rw [bms_subset_compare_eq]
  by_cases hab : memberSet a ⊆ memberSet b <;> by_cases hba : memberSet b ⊆ memberSet a
  · rw [h1.mpr hab, h2.mpr hba, if_pos (hab.antisymm hba)]
    rfl
  · rw [h1.mpr hab, Bool.eq_false_iff.mpr (fun h => hba (h2.mp h)),
      if_neg (fun heq => hba heq.superset), if_pos hab]
    rfl
  · rw [Bool.eq_false_iff.mpr (fun h => hab (h1.mp h)), h2.mpr hba,
      if_neg (fun heq => hab heq.subset), if_neg hab, if_pos hba]
    rfl
  · rw [Bool.eq_false_iff.mpr (fun h => hab (h1.mp h)),
      Bool.eq_false_iff.mpr (fun h => hba (h2.mp h)), if_neg (fun heq => hab heq.subset),
      if_neg hab, if_neg hba]
    rfl

/-- The three answers of the comparator exclude one another. -/
theorem compare_iffs {r : ℤ} {s t : Finset ℕ} (h : ComparesColex r s t) :
    (r = -1 ↔ toColex s < toColex t) ∧ (r = 0 ↔ s = t) ∧ (r = 1 ↔ toColex t < toColex s) := by
  rcases h with ⟨rfl, hlt⟩ | ⟨rfl, rfl⟩ | ⟨rfl, hlt⟩
  · refine ⟨iff_of_true rfl hlt, iff_of_false (by decide) ?_,
      iff_of_false (by decide) (not_lt_of_gt hlt)⟩
    rintro rfl
    exact lt_irrefl _ hlt
  · exact ⟨iff_of_false (by decide) (lt_irrefl _), iff_of_true rfl rfl,
      iff_of_false (by decide) (lt_irrefl _)⟩
  · refine ⟨iff_of_false (by decide) (not_lt_of_gt hlt), iff_of_false (by decide) ?_,
      iff_of_true rfl hlt⟩
    rintro rfl
    exact lt_irrefl _ hlt

/-- **The operations agree with finite sets exactly when the largest `int` is not a
member.** -/
theorem bitmapset_agrees_iff (hash_any : List bitmapword → BitVec 32)
    (a b : Option Bitmapset) (x y : Int32) :
    BitmapsetAgrees hash_any a b x y ↔ INT_MAX ∉ memberSet a := by
  constructor
  · intro h hmem
    exact not_enumerates_next hmem h.next_member
  · intro hmax
    obtain ⟨hlt, heq, hgt⟩ := compare_iffs (bms_compare_spec a b)
    refine
      { union := memberSet_union a b
        intersect := memberSet_intersect a b
        difference := memberSet_difference a b
        add_members := memberSet_add_members a b
        int_members := memberSet_int_members a b
        del_members := by rw [bms_del_members_eq, memberSet_difference]
        join := by rw [bms_join_eq, memberSet_add_members]
        add_member := memberSet_add_member a
        del_member := memberSet_del_member a
        add_range := add_range_iff a
        is_member := bms_is_member_eq a
        equal := bms_equal_iff a b
        is_subset := bms_is_subset_iff a b
        overlap := ?_
        nonempty_difference := ?_
        membership := bms_membership_eq a
        num_members := ?_
        member_index := member_index_toInt a
        is_empty := bms_is_empty_iff a
        subset_compare := subset_compare_sets a b
        compare_lt := hlt
        compare_eq := heq
        compare_gt := hgt
        hash_value := fun h => bms_hash_value_congr hash_any ((bms_equal_iff a b).mp h)
        next_member := enumerates_next hmax
        prev_member := enumerates_prev a }
    · rw [bms_overlap_iff, not_disjoint_iff_nonempty_inter]
    · rw [bms_nonempty_difference_eq, Bool.not_eq_true', Bool.eq_false_iff, Ne,
        bms_is_subset_iff, sdiff_nonempty]
    · rw [bms_num_members_eq, toInt_ofNat_of_lt (card_memberSet_lt hmax)]

/-- The singleton of the largest `int`: its ascending iteration finds the member, and then
reads in front of the array. -/
theorem bitmapset_disagrees_INT_MAX :
    ∃ c, bms_make_singleton (ofNat INT_MAX) = .ok c ∧
      bms_next_member (some c) (ofNat INT_MAX) = none ∧
      ¬ BitmapsetAgrees (fun _ => 0) (some c) none 0 0 := by
  obtain ⟨c, hc, hset⟩ := memberSet_make_singleton (x := ofNat INT_MAX) (by decide)
  have hmem : INT_MAX ∈ memberSet (some c) := by
    rw [hset]
    exact mem_singleton.mpr rfl
  exact ⟨c, hc, bms_next_member_INT_MAX c, fun h => not_enumerates_next hmem h.next_member⟩

end FdPostgres
