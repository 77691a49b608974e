import FdPostgres.Bitmapset.Ops

/-!
# Bitmapsets Are Finite Sets

Every operation on Bitmapsets is specified by the set of members, whatever the number of words
or of trailing zero words. The words of a null pointer are the empty list, so that an operation
is first specified word by word on the padded words, with no case for null pointers or for
different lengths left, and then on sets by the library on lists of words.

* `memberSet` is the abstraction.
* `bms_is_subset_iff`, `bms_equal_iff`, ...: the answers of the comparisons.
* `bms_subset_compare_eq`: the one-pass comparison is the two subset tests at once.
* `bms_compare_spec`: the comparator is the colexicographic order, decided by the highest
  member of one set only.
-/

namespace FdPostgres

open BitWords List Nat Bool

/-- The words of a set; none for a null pointer. -/
def wordsOf : Option Bitmapset → List bitmapword
  | none => []
  | some a => a.words

variable (a : Option Bitmapset)

/-- **The members of a Bitmapset.** -/
def memberSet : Finset ℕ :=
  members (wordsOf a)

theorem memberSet_none : memberSet none = ∅ := by
  simp [memberSet, wordsOf, members]

@[simp]
theorem word_nil (i : ℕ) : word ([] : List bitmapword) i = 0#64 := word_of_length_le (zero_le i)

theorem word_of_nwords_le {a : Bitmapset} {i : ℕ} (h : a.nwords ≤ i) : word a.words i = 0#64 :=
  word_of_length_le h

theorem bits_pos : 0 < 64 := by decide

/-! ### Loops over words -/

theorem all_range_iff {n : ℕ} {p : ℕ → Bool} :
    (range n).all p = true ↔ ∀ i < n, p i = true := by
  simp [all_eq_true]

/-- A loop that tests the extra words for zero. -/
theorem all_drop_iff {ws : List bitmapword} {n : ℕ} :
    (ws.drop n).all (fun w => w == 0) = true ↔ ∀ i, n ≤ i → word ws i = 0#64 := by
  simp only [all_eq_true, beq_iff_eq]
  constructor
  · intro h i hi
    by_contra hne
    have hlt : i < ws.length := by
      by_contra hge
      exact hne (word_of_length_le (by omega))
    refine hne (h _ ?_)
    rw [mem_drop_iff_getElem]
    refine ⟨i - n, by omega, ?_⟩
    rw [word, getD_eq_getElem _ _ hlt]
    congr 1
    omega
  · intro h w hw
    rw [mem_drop_iff_getElem] at hw
    obtain ⟨j, hj, rfl⟩ := hw
    have hword := h (n + j) (by omega)
    rwa [word, getD_eq_getElem _ _ (by omega)] at hword

/-- A loop that looks for a nonzero word is the negation of one that tests for zero. -/
theorem any_ne_zero_eq_not_all (ws : List bitmapword) :
    ws.any (fun w => w != 0) = !ws.all (fun w => w == 0) := by
  rw [not_all_eq_any_not]
  rfl

/-! ### Tests -/

/-- `bms_is_empty` tests for the empty set. -/
theorem bms_is_empty_iff : bms_is_empty a = true ↔ memberSet a = ∅ := by
  cases a with
  | none => simp [bms_is_empty, memberSet_none]
  | some a =>
    rw [memberSet, wordsOf, members_eq_empty_iff bits_pos]
    simp [bms_is_empty]

/-- The test of `bms_equal` on a shorter and a longer set. -/
theorem equal_loops_iff (s l : Bitmapset) :
    ((range s.nwords).all (fun i => word s.words i == word l.words i) &&
      (l.words.drop s.nwords).all (fun w => w == 0)) = true ↔
      members s.words = members l.words := by
  rw [and_eq_true, all_range_iff, all_drop_iff, members_eq_iff bits_pos]
  simp only [beq_iff_eq]
  constructor
  · rintro ⟨hcommon, hext⟩ i
    rcases lt_or_ge i s.nwords with hlt | hge
    · exact hcommon i hlt
    · rw [word_of_nwords_le hge, hext i hge]
  · intro h
    refine ⟨fun i _ => h i, fun i hge => ?_⟩
    rw [← h i, word_of_nwords_le hge]

variable (a b : Option Bitmapset)

/-- `bms_equal` compares the sets of members. -/
theorem bms_equal_iff : bms_equal a b = true ↔ memberSet a = memberSet b := by
  match a, b with
  | none, none => simp [bms_equal]
  | none, some b => rw [bms_equal, bms_is_empty_iff, memberSet_none, eq_comm]
  | some a, none => rw [bms_equal, bms_is_empty_iff, memberSet_none]
  | some a, some b =>
    simp only [bms_equal, memberSet, wordsOf]
    by_cases hle : a.nwords ≤ b.nwords
    · simp only [hle]
      exact equal_loops_iff a b
    · simp only [hle, if_false]
      rw [equal_loops_iff b a, eq_comm]

/-- `bms_is_subset` tests for inclusion. -/
theorem bms_is_subset_iff : bms_is_subset a b = true ↔ memberSet a ⊆ memberSet b := by
  match a, b with
  | none, b => simp [bms_is_subset, memberSet_none]
  | some a, none => rw [bms_is_subset, bms_is_empty_iff, memberSet_none, Finset.subset_empty]
  | some a, some b =>
    simp only [bms_is_subset, memberSet, wordsOf]
    rw [and_eq_true, all_range_iff, all_drop_iff, members_subset_iff bits_pos]
    simp only [beq_iff_eq]
    constructor
    · rintro ⟨hcommon, hext⟩ i
      rcases lt_or_ge i (min a.nwords b.nwords) with hlt | hge
      · exact hcommon i hlt
      · rw [hext i hge, BitVec.zero_and]
    · intro h
      refine ⟨fun i _ => h i, fun i hge => ?_⟩
      rcases lt_or_ge i a.nwords with hlt | hge'
      · have hzero : word b.words i = 0#64 := word_of_nwords_le (by omega)
        have hi := h i
        rwa [hzero, BitVec.not_zero, BitVec.and_allOnes] at hi
      · exact word_of_nwords_le hge'

/-- `bms_nonempty_difference` is the negation of the subset test. -/
theorem bms_nonempty_difference_eq : bms_nonempty_difference a b = !bms_is_subset a b := by
  match a, b with
  | none, b => rfl
  | some a, none => rfl
  | some a, some b =>
    simp only [bms_is_subset, Bool.not_and, not_all_eq_any_not]
    rfl

/-- `bms_overlap` tests for a common member. -/
theorem bms_overlap_iff : bms_overlap a b = true ↔ ¬ Disjoint (memberSet a) (memberSet b) := by
  match a, b with
  | none, b | some a, none => simp [bms_overlap, memberSet_none]
  | some a, some b =>
    simp only [bms_overlap, memberSet, wordsOf]
    rw [disjoint_members_iff bits_pos, any_eq_true]
    simp only [mem_range, bne_iff_ne, not_forall]
    constructor
    · rintro ⟨i, -, hne⟩
      exact ⟨i, hne⟩
    · rintro ⟨i, hne⟩
      refine ⟨i, ?_, hne⟩
      by_contra hge
      rcases lt_or_ge i a.nwords with hlt | hge'
      · have hzero : word b.words i = 0#64 := word_of_nwords_le (by omega)
        exact hne (by rw [hzero, BitVec.and_zero])
      · exact hne (by rw [word_of_nwords_le hge', BitVec.zero_and])

/-! ### The one-pass comparison -/

open BMS_Comparison

/-- The status for two subset relations: `none` when neither holds. -/
def subsetStatus (sub1 sub2 : Bool) : Option BMS_Comparison :=
  match sub1, sub2 with
  | true, true => some BMS_EQUAL
  | true, false => some BMS_SUBSET1
  | false, true => some BMS_SUBSET2
  | false, false => none

variable (p q : Bool)

/-- Noting that `a` is not a subset. -/
theorem subsetStatus_bind_notSubset1 (w : bitmapword) :
    (subsetStatus p q).bind (fun r => if w ≠ 0 then notSubset1 r else some r) =
      subsetStatus (p && w == 0) q := by
  simp only [← beq_eq_false_iff_ne]
  cases p <;> cases q <;> cases w == 0 <;> rfl

/-- Noting that `b` is not a subset. -/
theorem subsetStatus_bind_notSubset2 (w : bitmapword) :
    (subsetStatus p q).bind (fun r => if w ≠ 0 then notSubset2 r else some r) =
      subsetStatus p (q && w == 0) := by
  simp only [← beq_eq_false_iff_ne]
  cases p <;> cases q <;> cases w == 0 <;> rfl

/-- A round over a pair of words updates both relations. -/
theorem subsetStatus_bind_word (aword bword : bitmapword) :
    (subsetStatus p q).bind (subsetCompareWord aword bword) =
      subsetStatus (p && (aword &&& ~~~ bword == 0)) (q && (bword &&& ~~~ aword == 0)) := by
  rw [← subsetStatus_bind_notSubset2, ← subsetStatus_bind_notSubset1, Option.bind_assoc]
  rfl

/-- A loop updates the relations by all its words. -/
theorem subsetStatus_bind_foldlM {α : Type} (step : BMS_Comparison → α → Option BMS_Comparison)
    (f g : α → Bool)
    (hstep : ∀ p q x, (subsetStatus p q).bind (step · x) = subsetStatus (p && f x) (q && g x))
    (l : List α) (p q : Bool) :
    (subsetStatus p q).bind (fun r => l.foldlM step r) =
      subsetStatus (p && l.all f) (q && l.all g) := by
  induction l generalizing p q with
  | nil =>
    simp only [all_nil, Bool.and_true]
    exact Option.bind_fun_some _
  | cons x l ih =>
    have hcons : (subsetStatus p q).bind (fun r => (x :: l).foldlM step r) =
        ((subsetStatus p q).bind (step · x)).bind (fun r => l.foldlM step r) := by
      rw [Option.bind_assoc]
      rfl
    rw [hcons, hstep, ih, all_cons, all_cons, Bool.and_assoc, Bool.and_assoc]

/-- The loop over the words in common. -/
theorem subsetCompareLoop_eq (a b : List bitmapword) (n : ℕ) :
    subsetCompareLoop a b n =
      subsetStatus ((range n).all (fun i => word a i &&& ~~~ word b i == 0))
        ((range n).all (fun i => word b i &&& ~~~ word a i == 0)) := by
  have h := subsetStatus_bind_foldlM
    (fun result i => subsetCompareWord (word a i) (word b i) result) _ _
    (fun p q i => subsetStatus_bind_word p q (word a i) (word b i)) (range n) true true
  simp only [Bool.true_and] at h
  rw [← h]
  rfl

/-- The loop over the extra words of the first set. -/
theorem extraWordsLoop_notSubset1 (ws : List bitmapword) :
    (subsetStatus p q).bind (extraWordsLoop notSubset1 ws) =
      subsetStatus (p && ws.all (fun w => w == 0)) q := by
  have h := subsetStatus_bind_foldlM
    (fun result (w : bitmapword) => if w ≠ 0 then notSubset1 result else some result)
    (fun w => w == 0) (fun _ => true) ?_ ws p q
  · rw [show ws.all (fun _ => true) = true by simp, Bool.and_true] at h
    exact h
  · intro p q w
    rw [Bool.and_true]
    exact subsetStatus_bind_notSubset1 p q w

/-- The loop over the extra words of the second set. -/
theorem extraWordsLoop_notSubset2 (ws : List bitmapword) :
    (subsetStatus p q).bind (extraWordsLoop notSubset2 ws) =
      subsetStatus p (q && ws.all (fun w => w == 0)) := by
  have h := subsetStatus_bind_foldlM
    (fun result (w : bitmapword) => if w ≠ 0 then notSubset2 result else some result)
    (fun _ => true) (fun w => w == 0) ?_ ws p q
  · rw [show ws.all (fun _ => true) = true by simp, Bool.and_true] at h
    exact h
  · intro p q w
    rw [Bool.and_true]
    exact subsetStatus_bind_notSubset2 p q w

/-- The subset test sees no extra words of a set that is not longer. -/
theorem bms_is_subset_of_le {a b : Bitmapset} (h : a.nwords ≤ b.nwords) :
    bms_is_subset (some a) (some b) =
      (range a.nwords).all (fun i => word a.words i &&& ~~~ word b.words i == 0) := by
  simp only [bms_is_subset, min_eq_left h]
  rw [Bitmapset.nwords, drop_length, all_nil, Bool.and_true]

/-- **`bms_subset_compare` is the two subset tests at once.** -/
theorem bms_subset_compare_eq :
    bms_subset_compare a b =
      (subsetStatus (bms_is_subset a b) (bms_is_subset b a)).getD BMS_DIFFERENT := by
  match a, b with
  | none, none => rfl
  | none, some b =>
    simp only [bms_subset_compare, bms_is_subset]
    cases bms_is_empty (some b) <;> rfl
  | some a, none =>
    simp only [bms_subset_compare, bms_is_subset]
    cases bms_is_empty (some a) <;> rfl
  | some a, some b =>
    simp only [bms_subset_compare]
    congr 1
    rw [subsetCompareLoop_eq]
    rcases lt_trichotomy a.nwords b.nwords with hlt | heq | hgt
    · simp only [not_lt_of_gt hlt, hlt, if_true, if_false]
      rw [extraWordsLoop_notSubset2, bms_is_subset_of_le hlt.le]
      simp only [bms_is_subset, min_eq_left hlt.le, min_eq_right hlt.le]
    · simp only [heq, gt_iff_lt, lt_irrefl, if_false, min_self]
      rw [bms_is_subset_of_le heq.le, bms_is_subset_of_le heq.ge, heq]
      exact Option.bind_fun_some _
    · simp only [hgt, if_true]
      rw [extraWordsLoop_notSubset1, bms_is_subset_of_le hgt.le]
      simp only [bms_is_subset, min_eq_right hgt.le]

/-! ### The comparator -/

/-- What a comparator may answer for two sets. -/
def ComparesColex (r : ℤ) (s t : Finset ℕ) : Prop :=
  (r = -1 ∧ toColex s < toColex t) ∨ (r = 0 ∧ s = t) ∨ (r = 1 ∧ toColex t < toColex s)

/-- Two sets that differ in a word differ in a highest word. -/
theorem exists_highest_difference {a b : List bitmapword} {i : ℕ} (h : word a i ≠ word b i) :
    ∃ m, i ≤ m ∧ word a m ≠ word b m ∧ ∀ k, m < k → word a k = word b k := by
  have hbound : ∀ k, word a k ≠ word b k → k ≤ max a.length b.length := by
    intro k hk
    by_contra hgt
    exact hk (by rw [word_of_length_le (by omega), word_of_length_le (by omega)])
  let P : ℕ → Prop := fun k => word a k ≠ word b k
  have hP : P (findGreatest P (max a.length b.length)) := findGreatest_spec (hbound i h) h
  refine ⟨_, le_findGreatest (hbound i h) h, hP, ?_⟩
  intro k hk
  by_contra hne
  have hle : k ≤ findGreatest P (max a.length b.length) :=
    le_findGreatest (hbound k hne) hne
  omega

/-- Two words that differ are ordered. -/
theorem word_lt_or_gt {x y : bitmapword} (h : x ≠ y) : x < y ∨ (y < x ∧ ¬ x < y) := by
  have hne : x.toNat ≠ y.toNat := fun heq => h (BitVec.eq_of_toNat_eq heq)
  simp only [BitVec.lt_def]
  omega

/-- The loop over the words in common, when the words behind them agree. -/
theorem compareLoop_spec {a b : List bitmapword} {n : ℕ}
    (habove : ∀ k, n ≤ k → word a k = word b k) :
    ComparesColex (compareLoop a b n) (members a) (members b) := by
  induction n with
  | zero =>
    refine .inr (.inl ⟨rfl, ?_⟩)
    rw [members_eq_iff bits_pos]
    exact fun i => habove i (zero_le i)
  | succ n ih =>
    have hnext : ∀ k, n < k → word a k = word b k := fun k hk => habove k hk
    simp only [compareLoop]
    by_cases hne : word a n = word b n
    · rw [if_neg (not_not_intro hne)]
      refine ih (fun k hk => ?_)
      rcases eq_or_lt_of_le hk with rfl | hlt
      · exact hne
      · exact hnext k hlt
    · rw [if_pos hne]
      rcases word_lt_or_gt (Ne.symm hne) with hgt | ⟨hlt, hnot⟩
      · rw [if_pos hgt]
        exact .inr (.inr ⟨rfl, toColex_lt_of_word_lt hgt (fun k hk => (hnext k hk).symm)⟩)
      · rw [if_neg hnot]
        exact .inl ⟨rfl, toColex_lt_of_word_lt hlt hnext⟩

/-- A set with a nonzero word behind the end of another one is greater. -/
theorem toColex_lt_of_extra {a b : Bitmapset}
    (h : (a.words.drop (min a.nwords b.nwords)).any (fun w => w != 0) = true) :
    toColex (members b.words) < toColex (members a.words) := by
  rw [any_ne_zero_eq_not_all, not_eq_true', ← not_eq_true, all_drop_iff] at h
  push Not at h
  obtain ⟨i, hi, hne⟩ := h
  have hlt : i < a.nwords := by
    by_contra hge
    exact hne (word_of_nwords_le (by omega))
  have hzero : ∀ k, i ≤ k → word b.words k = 0#64 := fun k hk => word_of_nwords_le (by omega)
  obtain ⟨m, hm, hdiff, habove⟩ := exists_highest_difference
    (show word b.words i ≠ word a.words i by rw [hzero i le_rfl]; exact hne.symm)
  refine toColex_lt_of_word_lt ?_ habove
  rw [hzero m hm] at hdiff ⊢
  exact (BitVec.pos_iff_ne_zero _).mpr hdiff.symm

/-- **`bms_compare` is the colexicographic order** on the sets of members. -/
theorem bms_compare_spec : ComparesColex (bms_compare a b) (memberSet a) (memberSet b) := by
  have hbot : ∀ {s : Finset ℕ}, s ≠ ∅ → toColex (∅ : Finset ℕ) < toColex s := by
    intro s hs
    exact Finset.Colex.toColex_lt_toColex_of_ssubset
      (Finset.empty_ssubset.mpr (Finset.nonempty_iff_ne_empty.mpr hs))
  match a, b with
  | none, b =>
    rw [bms_compare]
    split_ifs with hempty
    · exact .inr (.inl ⟨rfl, ((bms_is_empty_iff b).mp hempty).symm⟩)
    · rw [bms_is_empty_iff] at hempty
      exact .inl ⟨rfl, hbot hempty⟩
  | some a, none =>
    rw [bms_compare]
    split_ifs with hempty
    · exact .inr (.inl ⟨rfl, (bms_is_empty_iff _).mp hempty⟩)
    · rw [bms_is_empty_iff] at hempty
      exact .inr (.inr ⟨rfl, hbot hempty⟩)
  | some a, some b =>
    simp only [bms_compare]
    by_cases hext : (a.words.drop (min a.nwords b.nwords)).any (fun w => w != 0) = true
    · rw [if_pos hext]
      exact .inr (.inr ⟨rfl, toColex_lt_of_extra hext⟩)
    rw [if_neg hext]
    by_cases hext' : (b.words.drop (min a.nwords b.nwords)).any (fun w => w != 0) = true
    · rw [if_pos hext']
      rw [min_comm] at hext'
      exact .inl ⟨rfl, toColex_lt_of_extra hext'⟩
    rw [if_neg hext']
    refine compareLoop_spec (fun k hk => ?_)
    simp only [any_ne_zero_eq_not_all, not_eq_true', not_eq_false, all_drop_iff]
      at hext hext'
    rw [hext k hk, hext' k hk]

/-! ### Counting -/

variable (x : bitmapword)

/-- The bits of the lowest set bit. -/
theorem getLsbD_RIGHTMOST_ONE (i : ℕ) : (RIGHTMOST_ONE x).getLsbD i = true ↔
      x.getLsbD i = true ∧ ∀ j < i, x.getLsbD j = false := by
  rw [RIGHTMOST_ONE, BitVec.getLsbD_and, and_eq_true, BitVec.getLsbD_neg]
  constructor
  · rintro ⟨hx, hneg⟩
    refine ⟨hx, fun j hj => ?_⟩
    by_contra hset
    have hlt : i < 64 := BitVec.lt_of_getLsbD hx
    have hex : ∃ j < i, x.getLsbD j = true := ⟨j, hj, by simpa using hset⟩
    rw [hx] at hneg
    simp [hlt, hex] at hneg
  · rintro ⟨hx, hbelow⟩
    have hex : ¬ ∃ j < i, x.getLsbD j = true := by
      rintro ⟨j, hj, hset⟩
      rw [hbelow j hj] at hset
      exact false_ne_true hset
    simp [hx, hex]

/-- The population count as the size of the set of bits. -/
theorem popcount_eq_card :
    popcount x = ((Finset.range 64).filter (fun i => x.getLsbD i = true)).card := by
  rw [popcount_eq_count, count_eq_card_filter_range]

/-- A word has more than one bit exactly when it is not its lowest set bit. -/
theorem HAS_MULTIPLE_ONES_iff : HAS_MULTIPLE_ONES x = true ↔ 1 < popcount x := by
  rw [HAS_MULTIPLE_ONES, bne_iff_ne, popcount_eq_card, Finset.one_lt_card_iff]
  simp only [Finset.mem_filter, Finset.mem_range]
  constructor
  · intro hne
    by_contra hcon
    push Not at hcon
    refine hne (BitVec.eq_of_getLsbD_eq fun i hi => eq_iff_iff.mpr ?_)
    rw [getLsbD_RIGHTMOST_ONE]
    refine ⟨And.left, fun hx => ⟨hx, fun j hj => ?_⟩⟩
    by_contra hset
    have := hcon i j ⟨hi, hx⟩ ⟨by omega, by simpa using hset⟩
    omega
  · rintro ⟨i, j, ⟨hi, hxi⟩, ⟨hj, hxj⟩, hne⟩ heq
    rw [← heq, getLsbD_RIGHTMOST_ONE] at hxi hxj
    rcases lt_or_gt_of_ne hne with hlt | hlt
    · exact false_ne_true ((hxj.2 i hlt).symm.trans hxi.1)
    · exact false_ne_true ((hxi.2 j hlt).symm.trans hxj.1)

/-- A word is zero exactly when it has no bit. -/
theorem popcount_eq_zero_iff : popcount x = 0 ↔ x = 0 := by
  rw [popcount_eq_card, Finset.card_eq_zero, Finset.filter_eq_empty_iff]
  simp only [Finset.mem_range]
  constructor
  · intro h
    refine BitVec.eq_of_getLsbD_eq fun i hi => ?_
    have := h hi
    simpa using this
  · rintro rfl i -
    simp

/-- The loop that counts adds up the population counts, in `int`. -/
theorem countLoop_eq (ws : List bitmapword) : countLoop ws = Int32.ofNat (ws.map popcount).sum := by
  have hacc : ∀ (ws : List bitmapword) (acc : ℕ),
      ws.foldl (fun result w =>
        if w ≠ 0 then result + Int32.ofNat (bmw_popcount w) else result) (Int32.ofNat acc) =
      Int32.ofNat (acc + (ws.map popcount).sum) := by
    intro ws
    induction ws with
    | nil => intro acc; rfl
    | cons w ws ih =>
      intro acc
      rw [foldl_cons, map_cons, sum_cons, ← add_assoc]
      by_cases hw : w = 0
      · rw [if_neg (not_not_intro hw), ih, (popcount_eq_zero_iff w).mpr hw, add_zero]
      · rw [if_pos hw, bmw_popcount, ← Int32.ofNat_add, ih]
  have h := hacc ws 0
  rw [zero_add] at h
  exact h

/-- `bms_num_members` is the number of members, in `int`. -/
theorem bms_num_members_eq : bms_num_members a = Int32.ofNat (memberSet a).card := by
  rw [memberSet, card_members bits_pos]
  cases a with
  | none => rfl
  | some a => exact countLoop_eq a.words

open BMS_Membership

/-- The answer of `bms_membership` for a number of members. -/
def membershipOf : ℕ → BMS_Membership
  | 0 => BMS_EMPTY_SET
  | 1 => BMS_SINGLETON
  | _ => BMS_MULTIPLE

/-- `bms_membership` classifies the number of members. -/
theorem bms_membership_eq : bms_membership a = membershipOf (memberSet a).card := by
  have hloop : ∀ (ws : List bitmapword) (n : ℕ), n ≤ 1 →
      membershipLoop ws (membershipOf n) = membershipOf (n + (ws.map popcount).sum) := by
    intro ws
    induction ws with
    | nil => intro n _; rfl
    | cons w ws ih =>
      intro n hn
      rw [membershipLoop, map_cons, sum_cons, ← add_assoc]
      by_cases hw : w = 0
      · rw [if_neg (not_not_intro hw), ih n hn, (popcount_eq_zero_iff w).mpr hw, add_zero]
      · rw [if_pos hw]
        have hpos : popcount w ≠ 0 := fun h => hw ((popcount_eq_zero_iff w).mp h)
        by_cases hmany : 1 < n + popcount w
        · have hcond : membershipOf n ≠ BMS_EMPTY_SET ∨ HAS_MULTIPLE_ONES w = true := by
            rcases Nat.eq_zero_or_pos n with rfl | hpos
            · exact .inr ((HAS_MULTIPLE_ONES_iff w).mpr (by omega))
            · obtain rfl : n = 1 := by omega
              exact .inl (by decide)
          obtain ⟨k, hk⟩ : ∃ k, n + popcount w + (ws.map popcount).sum = k + 2 :=
            ⟨n + popcount w + (ws.map popcount).sum - 2, by omega⟩
          rw [if_pos hcond, hk]
          rfl
        · obtain rfl : n = 0 := by omega
          have hone : popcount w = 1 := by omega
          have hcond : ¬ (membershipOf 0 ≠ BMS_EMPTY_SET ∨ HAS_MULTIPLE_ONES w = true) := by
            rw [HAS_MULTIPLE_ONES_iff, hone]
            simp [membershipOf]
          rw [if_neg hcond, hone]
          exact ih 1 le_rfl
  rw [memberSet, card_members bits_pos]
  cases a with
  | none => rfl
  | some a =>
    have h := hloop a.words 0 (Nat.zero_le 1)
    rw [zero_add] at h
    exact h

end FdPostgres
