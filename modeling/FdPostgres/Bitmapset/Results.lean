import FdPostgres.Bitmapset.Members

/-!
# The Sets That Bitmapset Operations Build

Each operation that builds a set is specified by the words of its result, and by the set of
members that follows.

* `memberSet_union`, `memberSet_intersect`, `memberSet_difference` and the recycling versions.
* `memberSet_add_member`, `memberSet_del_member`, `memberSet_add_range`: operations with
  numbers, from the bits of their masks.
* `bms_is_member_eq`, `bms_member_index_eq`: queries for a number.
-/

namespace FdPostgres

open BitWords Finset

/-! ### Operations on two sets -/

/-- The words after changing a range of them. -/
theorem word_update_words (a : Bitmapset) (lo hi : ℕ) (f : ℕ → bitmapword → bitmapword)
    (i : ℕ) :
    word (a.update lo hi f).words i =
      if lo ≤ i ∧ i < hi ∧ i < a.nwords then f i (word a.words i) else word a.words i :=
  word_update lo hi f a.words i

/-- A change keeps the number of words. -/
@[simp]
theorem nwords_update (a : Bitmapset) (lo hi : ℕ) (f : ℕ → bitmapword → bitmapword) :
    (a.update lo hi f).nwords = a.nwords :=
  length_update lo hi f a.words

/-- The words after joining a shorter set into a longer one. -/
theorem word_orInto {result other : Bitmapset} (h : other.nwords ≤ result.nwords) (i : ℕ) :
    word (orInto result other).words i = word result.words i ||| word other.words i := by
  rw [orInto, word_update_words]
  split
  · rfl
  · have hzero : word other.words i = 0#64 := word_of_nwords_le (by omega)
    rw [hzero, BitVec.or_zero]

variable {a : Bitmapset} {k : ℕ} {x : Int32} {b : ℕ}

/-- Joining gives the union, whichever set the result is built in. -/
theorem members_join {b c : Bitmapset}
    (h : (c = orInto b a ∧ a.nwords ≤ b.nwords) ∨ (c = orInto a b ∧ b.nwords ≤ a.nwords)) :
    members c.words = members a.words ∪ members b.words := by
  refine members_of_word_or bits_pos (fun i => ?_)
  rcases h with ⟨rfl, hle⟩ | ⟨rfl, hle⟩
  · rw [word_orInto hle, BitVec.or_comm]
  · exact word_orInto hle i

/-- `bms_union` gives the union. -/
theorem memberSet_union (a b : Option Bitmapset) :
    memberSet (bms_union a b) = memberSet a ∪ memberSet b := by
  match a, b with
  | none, b => rw [bms_union, memberSet_none, empty_union]
  | some a, none => rw [bms_union, memberSet_none, union_empty]
  | some a, some b =>
    refine members_join ?_
    by_cases hle : a.nwords ≤ b.nwords
    · exact .inl ⟨if_pos hle, hle⟩
    · exact .inr ⟨if_neg hle, by omega⟩

/-- `bms_add_members` gives the union. -/
theorem memberSet_add_members (a b : Option Bitmapset) :
    memberSet (bms_add_members a b) = memberSet a ∪ memberSet b := by
  match a, b with
  | none, b => rw [bms_add_members, memberSet_none, empty_union]
  | some a, none => rw [bms_add_members, memberSet_none, union_empty]
  | some a, some b =>
    refine members_join ?_
    by_cases hlt : a.nwords < b.nwords
    · exact .inl ⟨if_pos hlt, hlt.le⟩
    · exact .inr ⟨if_neg hlt, by omega⟩

/-- `bms_join` does what `bms_add_members` does. -/
theorem bms_join_eq (a b : Option Bitmapset) : bms_join a b = bms_add_members a b := by
  match a, b with
  | none, b => rfl
  | some a, none => rfl
  | some a, some b => rfl

/-- The words after intersecting a set with another one. -/
theorem word_andInto (result other : Bitmapset) (i : ℕ) :
    word (andInto result other).words i = word result.words i &&& word other.words i := by
  rw [andInto, word_update_words]
  split
  · rfl
  · have hzero : word result.words i = 0#64 := word_of_nwords_le (by omega)
    rw [hzero, BitVec.zero_and]

/-- `bms_intersect` gives the intersection. -/
theorem memberSet_intersect (a b : Option Bitmapset) :
    memberSet (bms_intersect a b) = memberSet a ∩ memberSet b := by
  match a, b with
  | none, b => rw [bms_intersect, memberSet_none, empty_inter]; simp
  | some a, none => rw [bms_intersect, memberSet_none, inter_empty]; simp
  | some a, some b =>
    refine members_of_word_and bits_pos (fun i => ?_)
    simp only [bms_intersect, wordsOf]
    split_ifs with hle
    · exact word_andInto a b i
    · rw [word_andInto, BitVec.and_comm]

/-- The two loops of `bms_int_members` intersect the words. -/
theorem memberSet_int_members (a b : Option Bitmapset) :
    memberSet (bms_int_members a b) = memberSet a ∩ memberSet b := by
  match a, b with
  | none, b => rw [bms_int_members, memberSet_none, empty_inter]; simp
  | some a, none => rw [bms_int_members, memberSet_none, inter_empty]; simp
  | some a, some b =>
    refine members_of_word_and bits_pos (fun i => ?_)
    simp only [bms_int_members, wordsOf, word_update_words, nwords_update]
    rcases lt_or_ge i a.nwords with hlt | hge
    · rcases lt_or_ge i b.nwords with hlt' | hge'
      · rw [if_neg (by omega), if_pos (by omega)]
      · rw [if_pos (by omega), word_of_nwords_le hge', BitVec.and_zero]
        rfl
    · rw [if_neg (by omega), if_neg (by omega), word_of_nwords_le hge, BitVec.zero_and]

/-- The words after clearing the bits of another set. -/
theorem word_clearFrom (result b : Bitmapset) (i : ℕ) :
    word (clearFrom result b).words i = word result.words i &&& ~~~ word b.words i := by
  rw [clearFrom, word_update_words]
  rcases lt_or_ge i result.nwords with hlt | hge
  · rcases lt_or_ge i b.nwords with hlt' | hge'
    · rw [if_pos (by omega)]
    · rw [if_neg (by omega), word_of_nwords_le hge', BitVec.not_zero, BitVec.and_allOnes]
  · rw [if_neg (by omega), word_of_nwords_le hge, BitVec.zero_and]

/-- `bms_difference` gives the difference. -/
theorem memberSet_difference (a b : Option Bitmapset) :
    memberSet (bms_difference a b) = memberSet a \ memberSet b := by
  match a, b with
  | none, b => rw [bms_difference, memberSet_none, empty_sdiff]
  | some a, none => rw [bms_difference, memberSet_none, sdiff_empty]
  | some a, some b => exact members_of_word_and_not bits_pos (word_clearFrom a b)

/-- `bms_del_members` does what `bms_difference` does. -/
theorem bms_del_members_eq (a b : Option Bitmapset) : bms_del_members a b = bms_difference a b := by
  match a, b with
  | none, b => rfl
  | some a, none => rfl
  | some a, some b => rfl

/-! ### Operations with a number -/

/-- The words after changing one of them. -/
theorem word_modify (hk : k < a.nwords) (f : bitmapword → bitmapword) (i : ℕ) :
    word (a.modify k f).words i = if i = k then f (word a.words i) else word a.words i := by
  rw [Bitmapset.modify, word_update_words]
  by_cases hi : i = k
  · rw [if_pos (by omega), if_pos hi]
  · rw [if_neg (by omega), if_neg hi]

theorem word_enlarge (a : Bitmapset) (h : k < maxWords) (i : ℕ) :
    word (a.enlarge k h).words i = word a.words i :=
  word_append_replicate a.words _ i

theorem lt_nwords_enlarge (a : Bitmapset) (h : k < maxWords) : k < (a.enlarge k h).nwords := by
  simp only [Bitmapset.enlarge, Bitmapset.nwords, List.length_append, List.length_replicate]
  omega

/-- The words of a new set are zero. -/
theorem word_zeros (h : k < maxWords) (i : ℕ) : word (Bitmapset.zeros k h).words i = 0#64 := by
  have hnil := word_append_replicate ([] : List bitmapword) (k + 1) i
  exact hnil

theorem lt_nwords_zeros (h : k < maxWords) : k < (Bitmapset.zeros k h).nwords := by
  simp [Bitmapset.zeros, Bitmapset.nwords]

/-- The set of a new singleton. -/
theorem memberSet_make_singleton (hx : 0 ≤ x) :
    ∃ c, bms_make_singleton x = .ok c ∧ memberSet (some c) = {x.toNatClampNeg} := by
  refine ⟨_, if_neg (Int32.not_lt.mpr hx), ?_⟩
  rw [← insert_empty_eq, ← memberSet_none]
  refine members_of_word_set bits_pos (fun i => ?_)
  simp only [wordsOf]
  rw [word_modify (lt_nwords_zeros _), word_zeros, word_nil, BitVec.zero_or]
  rfl

/-- `bms_add_member` inserts the number. -/
theorem memberSet_add_member (a : Option Bitmapset) (hx : 0 ≤ x) : ∃ c, bms_add_member a x = .ok c ∧
      memberSet (some c) = insert x.toNatClampNeg (memberSet a) := by
  cases a with
  | none =>
    obtain ⟨c, hc, hset⟩ := memberSet_make_singleton hx
    refine ⟨c, ?_, ?_⟩
    · rw [bms_add_member, if_neg (Int32.not_lt.mpr hx)]
      exact hc
    · rw [hset, memberSet_none, insert_empty_eq]
  | some a =>
    refine ⟨_, if_neg (Int32.not_lt.mpr hx), ?_⟩
    refine members_of_word_set bits_pos (fun i => ?_)
    simp only [wordsOf]
    rw [word_modify (lt_nwords_enlarge a _), word_enlarge]
    rfl

/-- `bms_del_member` erases the number. -/
theorem memberSet_del_member (a : Option Bitmapset) (hx : 0 ≤ x) : ∃ c, bms_del_member a x = .ok c ∧
      memberSet c = (memberSet a).erase x.toNatClampNeg := by
  cases a with
  | none =>
    refine ⟨none, if_neg (Int32.not_lt.mpr hx), ?_⟩
    rw [memberSet_none, erase_empty]
  | some a =>
    by_cases hlt : WORDNUM x.toNatClampNeg < a.nwords
    · refine ⟨_, (if_neg (Int32.not_lt.mpr hx)).trans (if_pos hlt), ?_⟩
      refine members_of_word_clear bits_pos (fun i => ?_)
      simp only [wordsOf]
      rw [word_modify hlt]
      rfl
    · refine ⟨_, (if_neg (Int32.not_lt.mpr hx)).trans (if_neg hlt), ?_⟩
      have hle : a.nwords ≤ x.toNatClampNeg / 64 := not_lt.mp hlt
      refine (erase_eq_of_notMem ?_).symm
      rw [memberSet, wordsOf, mem_members bits_pos, bit, word_of_nwords_le hle]
      simp

/-! ### Masks and ranges -/

/-- The mask of the bits below a position. -/
theorem getLsbD_lowMask (hb : b < 64) (j : ℕ) :
    (((1 : bitmapword) <<< b) - 1).getLsbD j = decide (j < b) := by
  have hone : ((1 : bitmapword) <<< b).toNat = 2 ^ b := by
    have hlt : 2 ^ b < 2 ^ 64 := Nat.pow_lt_pow_right (by decide) hb
    rw [BitVec.toNat_shiftLeft, Nat.shiftLeft_eq]
    change 1 * 2 ^ b % 2 ^ 64 = 2 ^ b
    rw [one_mul, Nat.mod_eq_of_lt hlt]
  have hle : (1 : bitmapword) ≤ (1 : bitmapword) <<< b := by
    rw [BitVec.le_def, hone]
    exact Nat.one_le_two_pow
  rw [BitVec.getLsbD, BitVec.toNat_sub_of_le hle, hone]
  exact Nat.testBit_two_pow_sub_one b j

/-- The mask of the bits from a position on. -/
theorem getLsbD_highMask {j : ℕ} (hb : b < 64) (hj : j < 64) :
    (~~~ (((1 : bitmapword) <<< b) - 1)).getLsbD j = decide (b ≤ j) := by
  rw [BitVec.getLsbD_not, getLsbD_lowMask hb]
  by_cases h : b ≤ j
  · simp [hj, h]
  · simp [h]
    omega

/-- The mask of the bits up to a position. -/
theorem getLsbD_upToMask {j : ℕ} (hb : b < 64) :
    ((~~~ (0 : bitmapword)) >>> (64 - (b + 1))).getLsbD j = decide (j ≤ b) := by
  rw [BitVec.getLsbD_ushiftRight, BitVec.getLsbD_not]
  simp only [BitVec.ofNat_eq_ofNat, BitVec.getLsbD_zero, Bool.not_false, Bool.and_true]
  congr 1
  exact propext (by omega)

/-- The room that `bms_add_range` makes has the words of the input. -/
theorem word_roomFor (a : Option Bitmapset) (h : k < maxWords) (i : ℕ) :
    word (roomFor a k h).words i = word (wordsOf a) i := by
  cases a with
  | none => exact word_zeros h i
  | some a => exact word_enlarge a h i

/-- The room that `bms_add_range` makes is enough. -/
theorem lt_nwords_roomFor (a : Option Bitmapset) (h : k < maxWords) :
    k < (roomFor a k h).nwords := by
  cases a with
  | none => exact lt_nwords_zeros h
  | some a => exact lt_nwords_enlarge a h

/-- The bits after turning on a range. -/
theorem bit_setRange {l u : ℕ} (hle : l ≤ u) (hu : WORDNUM u < a.nwords) (n : ℕ) :
    bit (setRange a l u).words n = true ↔ bit a.words n = true ∨ (l ≤ n ∧ n ≤ u) := by
  have hlw : WORDNUM l = l / 64 := rfl
  have huw : WORDNUM u = u / 64 := rfl
  have hlb : BITNUM l = l % 64 := rfl
  have hub : BITNUM u = u % 64 := rfl
  have hlb' : BITNUM l < 64 := Nat.mod_lt _ (by decide)
  have hub' : BITNUM u < 64 := Nat.mod_lt _ (by decide)
  have hj : n % 64 < 64 := Nat.mod_lt _ (by decide)
  have humask : ∀ j, ((~~~ (0 : bitmapword)) >>> (BITS_PER_BITMAPWORD -
      (BITNUM u + 1))).getLsbD j = decide (j ≤ BITNUM u) := fun j => getLsbD_upToMask hub'
  simp only [setRange, bit]
  split_ifs with hsame
  · rw [word_modify (by omega)]
    split_ifs with hi
    · rw [BitVec.getLsbD_or, BitVec.getLsbD_and, getLsbD_highMask hlb' hj, humask, Bool.or_eq_true,
        Bool.and_eq_true, decide_eq_true_eq, decide_eq_true_eq]
      refine or_congr_right ?_
      omega
    · refine (or_iff_left ?_).symm
      omega
  · rw [word_modify (by simpa [Bitmapset.modify] using hu), word_update_words,
      word_modify (by omega), Bitmapset.modify, nwords_update]
    rcases lt_trichotomy (n / 64) (WORDNUM u) with hi | hi | hi
    · rw [if_neg (by omega)]
      rcases lt_trichotomy (n / 64) (WORDNUM l) with hi' | hi' | hi'
      · rw [if_neg (by omega), if_neg (by omega)]
        refine (or_iff_left ?_).symm
        omega
      · rw [if_neg (by omega), if_pos hi', BitVec.getLsbD_or, getLsbD_highMask hlb' hj,
          Bool.or_eq_true, decide_eq_true_eq]
        refine or_congr_right ?_
        omega
      · rw [if_pos (by omega), BitVec.getLsbD_not]
        refine iff_of_true (by simp [hj]) (.inr ?_)
        omega
    · rw [if_pos hi, if_neg (by omega), if_neg (by omega), BitVec.getLsbD_or, humask,
        Bool.or_eq_true, decide_eq_true_eq]
      refine or_congr_right ?_
      omega
    · rw [if_neg (by omega), if_neg (by omega), if_neg (by omega)]
      refine (or_iff_left ?_).symm
      omega

/-- `bms_add_range` adds the numbers of the range. -/
theorem memberSet_add_range (a : Option Bitmapset) {lower : Int32} (hlower : 0 ≤ lower)
    (upper : Int32) :
    ∃ c, bms_add_range a lower upper = .ok c ∧ memberSet c = memberSet a ∪
      (if upper < lower then ∅ else Finset.Icc lower.toNatClampNeg upper.toNatClampNeg) := by
  by_cases hempty : upper < lower
  · refine ⟨a, if_pos hempty, ?_⟩
    rw [if_pos hempty, union_empty]
  · have hle : lower.toNatClampNeg ≤ upper.toNatClampNeg :=
      Int32.toNatClampNeg_le (Int32.not_lt.mp hempty)
    refine ⟨_, (if_neg hempty).trans (if_neg (Int32.not_lt.mpr hlower)), ?_⟩
    rw [if_neg hempty]
    ext n
    rw [mem_union, mem_Icc, memberSet, memberSet, mem_members bits_pos,
      mem_members bits_pos, wordsOf, bit_setRange hle (lt_nwords_roomFor a _), bit,
      word_roomFor]
    rfl

/-! ### Queries for a number -/

/-- A word has a bit exactly when the conjunction with the bit is not zero. -/
theorem and_bit_ne_zero (x : bitmapword) (hb : b < 64) :
    (x &&& ((1 : bitmapword) <<< b) != 0) = x.getLsbD b := by
  change (x &&& 1#64 <<< b != 0#64) = x.getLsbD b
  rw [← BitVec.twoPow_eq, BitVec.and_twoPow]
  cases hx : x.getLsbD b with
  | false => simp
  | true =>
    have hne : BitVec.twoPow 64 b ≠ 0#64 := by
      intro heq
      have hbit := congrArg (BitVec.getLsbD · b) heq
      simp [hb] at hbit
    simp [hne]

/-- `bms_is_member` tests for membership. -/
theorem bms_is_member_eq (a : Option Bitmapset) (hx : 0 ≤ x) :
    bms_is_member x a = .ok (decide (x.toNatClampNeg ∈ memberSet a)) := by
  simp only [bms_is_member]
  rw [if_neg (Int32.not_lt.mpr hx)]
  cases a with
  | none => simp [memberSet_none]
  | some a =>
    have hmem : x.toNatClampNeg ∈ memberSet (some a) ↔
        (word a.words (x.toNatClampNeg / 64)).getLsbD (x.toNatClampNeg % 64) = true := by
      rw [memberSet, mem_members bits_pos]
      rfl
    by_cases hge : WORDNUM x.toNatClampNeg ≥ a.nwords
    · simp only [if_pos hge]
      have hge' : a.nwords ≤ x.toNatClampNeg / 64 := hge
      have hnot : ¬ x.toNatClampNeg ∈ memberSet (some a) := by
        rw [hmem, word_of_nwords_le hge']
        simp
      simp [hnot]
    · simp only [if_neg hge, and_bit_ne_zero _ (show BITNUM x.toNatClampNeg < 64 from
        Nat.mod_lt _ (by decide)), hmem]
      exact congrArg Except.ok Bool.decide_eq_true.symm

/-- `bms_member_index` is the number of smaller members, and -1 for a number that is none. -/
theorem bms_member_index_eq (a : Option Bitmapset) (hx : 0 ≤ x) :
    bms_member_index a x = .ok (if x.toNatClampNeg ∈ memberSet a then
      Int32.ofNat ((memberSet a).filter (· < x.toNatClampNeg)).card else -1) := by
  simp only [bms_member_index]
  rw [bms_is_member_eq a hx]
  split_ifs with hmem
  · cases a with
    | none => rw [memberSet_none] at hmem; exact absurd hmem (notMem_empty _)
    | some a =>
      simp only [hmem, decide_true]
      have hb : x.toNatClampNeg % 64 < 64 := Nat.mod_lt _ (by decide)
      have hcount := count_bit_mul_add bits_pos a.words (i := x.toNatClampNeg / 64) hb.le
      rw [Nat.div_add_mod] at hcount
      have hmask : bmw_popcount (word a.words (x.toNatClampNeg / 64) &&&
          (((1 : bitmapword) <<< (x.toNatClampNeg % 64)) - 1)) =
          Nat.count (fun k => (word a.words (x.toNatClampNeg / 64)).getLsbD k = true)
            (x.toNatClampNeg % 64) := by
        rw [bmw_popcount, popcount_eq_count, Nat.count_eq_card_filter_range,
          Nat.count_eq_card_filter_range]
        congr 1
        ext k
        simp only [mem_filter, mem_range, BitVec.getLsbD_and,
          getLsbD_lowMask hb, Bool.and_eq_true, decide_eq_true_eq]
        constructor
        · rintro ⟨-, hbit, hk⟩
          exact ⟨hk, hbit⟩
        · rintro ⟨hk, hbit⟩
          exact ⟨by omega, hbit, hk⟩
      have hfilt : ((memberSet (some a)).filter (· < x.toNatClampNeg)).card =
          Nat.count (fun n => bit a.words n = true) x.toNatClampNeg := by
        rw [Nat.count_eq_card_filter_range]
        congr 1
        ext n
        rw [mem_filter, mem_filter, mem_range, memberSet,
          mem_members bits_pos, and_comm]
        rfl
      simp only [WORDNUM, BITNUM, BITS_PER_BITMAPWORD]
      rw [hmask, countLoop_eq, ← Int32.ofNat_add, ← hcount, hfilt]
  · simp [hmem]

end FdPostgres
