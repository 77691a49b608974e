import Mathlib

/-!
# Sets of Numbers as Lists of Machine Words

A list of `w`-bit words represents a finite set of natural numbers: number `n` is a member
when bit `n % w` of word `n / w` is set. Words behind the end of the list count as zero, so
lists of different lengths may represent one set.

* `word`, `bit`, `members`: the words with the padding, the bits, and the set.
* `update` changes the words of a range.
* `members_of_word_or`, `members_of_word_and`, `members_of_word_and_not`: the set that an
  operation gives, from the words of its result.
* `members_subset_iff`, `members_eq_iff`, `disjoint_members_iff`, `members_eq_empty_iff`:
  relations between sets, word by word.
* `card_members`: the number of members as a sum of population counts.
* `toColex_lt_of_word_lt`: the highest word that differs decides the colexicographic order.
-/

namespace BitWords

open List Nat

variable {w : ℕ} (ws : List (BitVec w))

/-- The word at an index, zero behind the end. -/
def word (i : ℕ) : BitVec w :=
  ws.getD i 0#w

/-- The bit of a number. -/
def bit (n : ℕ) : Bool :=
  (word ws (n / w)).getLsbD (n % w)

/-- The set that a list of words represents. -/
def members : Finset ℕ :=
  (Finset.range (w * ws.length)).filter (fun n => bit ws n = true)

variable {i : ℕ} {ws : List (BitVec w)} {x : BitVec w} {j n : ℕ} {a b c : List (BitVec w)}

theorem word_of_length_le (h : ws.length ≤ i) : word ws i = 0#w := by
  rw [word, getD_eq_getElem?_getD, getElem?_eq_none h]
  rfl

theorem word_cons_succ (x : BitVec w) (ws : List (BitVec w)) (i : ℕ) :
    word (x :: ws) (i + 1) = word ws i :=
  rfl

/-- Every nonzero word is in the list. -/
theorem mem_of_word_ne_zero (h : word ws i ≠ 0#w) : word ws i ∈ ws := by
  have hlt : i < ws.length := by
    by_contra hge
    exact h (word_of_length_le (by omega))
  rw [word, getD_eq_getElem _ _ hlt]
  exact getElem_mem hlt

/-- Every element of the list is one of its words. -/
theorem exists_word_of_mem (h : x ∈ ws) : ∃ i < ws.length, word ws i = x := by
  obtain ⟨i, hi, rfl⟩ := getElem_of_mem h
  exact ⟨i, hi, getD_eq_getElem _ _ hi⟩

/-- The bits of a word are the bits of the set from the word's start on. -/
theorem bit_mul_add (ws : List (BitVec w)) (h : j < w) :
    bit ws (w * i + j) = (word ws i).getLsbD j := by
  have hw : 0 < w := by omega
  rw [bit, mul_add_div hw, mul_add_mod, div_eq_of_lt h, mod_eq_of_lt h, add_zero]

section Width

variable (hw : 0 < w)

include hw

/-- A number is a member when its bit is set. -/
theorem mem_members : n ∈ members ws ↔ bit ws n = true := by
  rw [members, Finset.mem_filter, Finset.mem_range, and_iff_right_iff_imp]
  intro hbit
  by_contra hge
  have hlen : ws.length ≤ n / w := by
    rw [le_div_iff_mul_le hw, mul_comm]
    omega
  rw [bit, word_of_length_le hlen] at hbit
  simp at hbit

omit hw in
theorem mul_add_mem_members (h : j < w) :
    w * i + j ∈ members ws ↔ (word ws i).getLsbD j = true := by
  rw [mem_members (by omega), bit_mul_add ws h]

/-! ### Operations, word by word -/

/-- A list whose words are the disjunctions represents the union. -/
theorem members_of_word_or (h : ∀ i, word c i = word a i ||| word b i) :
    members c = members a ∪ members b := by
  ext n
  rw [Finset.mem_union, mem_members hw, mem_members hw, mem_members hw, bit, h,
    BitVec.getLsbD_or, Bool.or_eq_true]
  rfl

/-- A list whose words are the conjunctions represents the intersection. -/
theorem members_of_word_and (h : ∀ i, word c i = word a i &&& word b i) :
    members c = members a ∩ members b := by
  ext n
  rw [Finset.mem_inter, mem_members hw, mem_members hw, mem_members hw, bit, h,
    BitVec.getLsbD_and, Bool.and_eq_true]
  rfl

/-- A list whose words are the conjunctions with the complements represents the
difference. -/
theorem members_of_word_and_not (h : ∀ i, word c i = word a i &&& ~~~ word b i) :
    members c = members a \ members b := by
  ext n
  have hlt : n % w < w := mod_lt _ hw
  rw [Finset.mem_sdiff, mem_members hw, mem_members hw, mem_members hw, bit, h]
  simp [hlt, bit]

/-- The bit of a number within its word. -/
theorem getLsbD_one_shiftLeft {m : ℕ} (hdiv : m / w = n / w) :
    (1#w <<< (n % w)).getLsbD (m % w) = decide (m = n) := by
  rw [← BitVec.twoPow_eq, BitVec.getLsbD_twoPow, decide_eq_true (mod_lt n hw)]
  refine decide_eq_decide.mpr ⟨fun heq => ?_, fun heq => by rw [heq]⟩
  rw [← div_add_mod m w, ← div_add_mod n w, hdiv, heq]

/-- A list with one more bit represents the set with one more member. -/
theorem members_of_word_set
    (h : ∀ i, word c i = if i = n / w then word a i ||| 1#w <<< (n % w) else word a i) :
    members c = insert n (members a) := by
  ext m
  rw [Finset.mem_insert, mem_members hw, mem_members hw, bit, h, bit]
  split
  · rename_i hdiv
    rw [BitVec.getLsbD_or, getLsbD_one_shiftLeft hw hdiv]
    simp [or_comm]
  · rename_i hdiv
    have hne : m ≠ n := fun heq => hdiv (by rw [heq])
    simp [hne]

/-- A list with one bit cleared represents the set without the member. -/
theorem members_of_word_clear
    (h : ∀ i, word c i = if i = n / w then word a i &&& ~~~ (1#w <<< (n % w)) else word a i) :
    members c = (members a).erase n := by
  ext m
  rw [Finset.mem_erase, mem_members hw, mem_members hw, bit, h, bit]
  split
  · rename_i hdiv
    rw [BitVec.getLsbD_and, BitVec.getLsbD_not, getLsbD_one_shiftLeft hw hdiv]
    simp [mod_lt m hw, and_comm]
  · rename_i hdiv
    have hne : m ≠ n := fun heq => hdiv (by rw [heq])
    simp [hne]

/-- What holds for all numbers holds for the bits of all words. -/
theorem forall_bit_iff {p : Bool → Bool → Prop} : (∀ n, p (bit a n) (bit b n)) ↔
    ∀ i, ∀ j < w, p ((word a i).getLsbD j) ((word b i).getLsbD j) := by
  refine ⟨fun h i j hj => ?_, fun h n => h (n / w) (n % w) (mod_lt n hw)⟩
  rw [← bit_mul_add a hj, ← bit_mul_add b hj]
  exact h _

/-- One set is inside another when no word has a bit outside. -/
theorem members_subset_iff : members a ⊆ members b ↔ ∀ i, word a i &&& ~~~ word b i = 0#w := by
  simp only [Finset.subset_iff, mem_members hw, BitVec.eq_of_getLsbD_eq_iff]
  refine (forall_bit_iff hw (p := fun x y => x = true → y = true)).trans ?_
  refine forall_congr' fun i => forall₂_congr fun j hj => ?_
  simp [hj]

/-- Two lists represent one set when their words agree. -/
theorem members_eq_iff : members a = members b ↔ ∀ i, word a i = word b i := by
  simp only [Finset.ext_iff, mem_members hw, BitVec.eq_of_getLsbD_eq_iff, ← Bool.eq_iff_iff]
  exact forall_bit_iff hw

/-- Two sets are disjoint when no word has a common bit. -/
theorem disjoint_members_iff :
    Disjoint (members a) (members b) ↔ ∀ i, word a i &&& word b i = 0#w := by
  simp only [Finset.disjoint_left, mem_members hw, BitVec.eq_of_getLsbD_eq_iff]
  refine (forall_bit_iff hw (p := fun x y => x = true → ¬ y = true)).trans ?_
  simp

/-- A set is empty when all words are zero. -/
theorem members_eq_empty_iff : members a = ∅ ↔ ∀ x ∈ a, x = 0#w := by
  have hnil : members ([] : List (BitVec w)) = ∅ := by simp [members]
  rw [← hnil, members_eq_iff hw]
  constructor
  · intro h x hx
    obtain ⟨i, -, rfl⟩ := exists_word_of_mem hx
    rw [h i]
    rfl
  · intro h i
    by_contra hne
    exact hne (h _ (mem_of_word_ne_zero hne))

end Width

/-! ### Changing a range of words -/

/-- The words of a range changed, each by a function of its index. -/
def update (lo hi : ℕ) (f : ℕ → BitVec w → BitVec w) (ws : List (BitVec w)) :
    List (BitVec w) :=
  ws.mapIdx (fun i x => if lo ≤ i ∧ i < hi then f i x else x)

/-- A change keeps the number of words. -/
@[simp]
theorem length_update (lo hi : ℕ) (f : ℕ → BitVec w → BitVec w) (ws : List (BitVec w)) :
    (update lo hi f ws).length = ws.length :=
  length_mapIdx

/-- The words after a change. -/
theorem word_update (lo hi : ℕ) (f : ℕ → BitVec w → BitVec w) (ws : List (BitVec w)) (i : ℕ) :
    word (update lo hi f ws) i =
      if lo ≤ i ∧ i < hi ∧ i < ws.length then f i (word ws i) else word ws i := by
  by_cases hlt : i < ws.length
  · rw [word, word]
    simp [update, hlt]
  · rw [word_of_length_le (by simpa using hlt), word_of_length_le (by omega), if_neg (by omega)]

/-- Zero words at the end change no word. -/
theorem word_append_replicate (ws : List (BitVec w)) (n i : ℕ) :
    word (ws ++ replicate n 0#w) i = word ws i := by
  rcases lt_or_ge i ws.length with hlt | hge
  · rw [word, word, getD_append _ _ _ _ hlt]
  · rw [word, getD_append_right _ _ _ _ hge, word_of_length_le hge,
      getD_eq_getElem?_getD, getElem?_replicate]
    split <;> rfl

/-! ### Counting -/

/-- The number of set bits of a word. -/
def popcount (x : BitVec w) : ℕ :=
  x.cpop.toNat

/-- Counting bit by bit, up to a position. -/
theorem cpopNatRec_eq_count (x : BitVec w) (n acc : ℕ) :
    x.cpopNatRec n acc = acc + count (fun i => x.getLsbD i = true) n := by
  induction n generalizing acc with
  | zero => simp
  | succ n ih =>
    rw [BitVec.cpopNatRec_succ, ih, count_succ]
    cases x.getLsbD n <;> simp [add_assoc, add_comm]

/-- The population count counts the set bits. -/
theorem popcount_eq_count (x : BitVec w) :
    popcount x = count (fun i => x.getLsbD i = true) w := by
  rw [popcount, BitVec.toNat_cpop, cpopNatRec_eq_count, zero_add]

/-- Counting depends on the numbers below the bound only. -/
theorem count_congr {p q : ℕ → Prop} [DecidablePred p] [DecidablePred q] (h : ∀ k < n, p k ↔ q k) :
    count p n = count q n := by
  rw [count_eq_card_filter_range, count_eq_card_filter_range]
  congr 1
  exact Finset.filter_congr (fun k hk => h k (Finset.mem_range.mp hk))

theorem bit_cons_of_lt {k : ℕ} (h : k < w) : bit (x :: ws) k = x.getLsbD k := by
  have hbit := bit_mul_add (x :: ws) (i := 0) h
  rwa [mul_zero, zero_add] at hbit

theorem bit_cons_add (hw : 0 < w) (x : BitVec w) (ws : List (BitVec w)) (k : ℕ) :
    bit (x :: ws) (w + k) = bit ws k := by
  rw [bit, bit, add_div_left _ hw, add_mod_left, word_cons_succ]

/-- The number of members below a position, word by word. -/
theorem count_bit_mul_add (hw : 0 < w) (ws : List (BitVec w)) (hj : j ≤ w) :
    count (fun n => bit ws n = true) (w * i + j) = ((ws.take i).map popcount).sum +
        count (fun k => (word ws i).getLsbD k = true) j := by
  induction ws generalizing i with
  | nil =>
    have hbits : count (fun n => bit ([] : List (BitVec w)) n = true) (w * i + j) = 0 :=
      count_of_forall_not (fun n _ => by simp [bit, word])
    have hword : count (fun k => (word ([] : List (BitVec w)) i).getLsbD k = true) j =
        0 := count_of_forall_not (fun n _ => by simp [word])
    rw [hbits, hword, take_nil, map_nil, sum_nil]
  | cons x ws ih =>
    cases i with
    | zero =>
      rw [mul_zero, zero_add, take_zero, map_nil, sum_nil, zero_add]
      exact count_congr (fun k hk => by rw [bit_cons_of_lt (by omega)]; rfl)
    | succ i =>
      have hhead : count (fun n => bit (x :: ws) n = true) w = popcount x := by
        rw [popcount_eq_count]
        exact count_congr (fun k hk => by rw [bit_cons_of_lt hk])
      have htail : count (fun k => bit (x :: ws) (w + k) = true) (w * i + j) =
          count (fun k => bit ws k = true) (w * i + j) :=
        count_congr (fun k _ => by rw [bit_cons_add hw])
      rw [mul_succ, add_right_comm, add_comm _ w, count_add, hhead, htail, ih,
        take_succ_cons, map_cons, sum_cons, add_assoc]
      rfl

/-- The number of members is the sum of the population counts. -/
theorem card_members (hw : 0 < w) (ws : List (BitVec w)) :
    (members ws).card = (ws.map popcount).sum := by
  have hcount := count_bit_mul_add hw ws (i := ws.length) (zero_le w)
  rw [add_zero, count_zero, add_zero, take_length] at hcount
  rw [members, ← count_eq_card_filter_range, hcount]

/-! ### The colexicographic order -/

/-- A larger word has a bit above which the words agree and that only it has. -/
theorem exists_bit_of_lt {y : BitVec w} (h : x < y) :
    ∃ j < w, y.getLsbD j = true ∧ x.getLsbD j = false ∧ ∀ k, j < k → x.getLsbD k = y.getLsbD k := by
  have hne : x.toNat ^^^ y.toNat ≠ 0 := by
    rw [Ne, xor_eq_zero_iff]
    have hlt : x.toNat < y.toNat := h
    omega
  obtain ⟨j, hj, habove⟩ := exists_most_significant_bit hne
  have hagree : ∀ k, j < k → x.toNat.testBit k = y.toNat.testBit k := by
    intro k hk
    have hxor := habove k hk
    simpa using hxor
  have hbits : y.toNat.testBit j = true ∧ x.toNat.testBit j = false := by
    cases hx : x.toNat.testBit j with
    | false => simp [hx] at hj; exact ⟨hj, rfl⟩
    | true =>
      have hy : y.toNat.testBit j = false := by simpa [hx] using hj
      have hlt := lt_of_testBit j hy hx (fun k hk => (hagree k hk).symm)
      have hle : x.toNat < y.toNat := h
      omega
  have hjw : j < w := by
    by_contra hge
    have hout : y.getLsbD j = false := BitVec.getLsbD_of_ge y j (by omega)
    rw [BitVec.getLsbD] at hout
    rw [hout] at hbits
    exact Bool.false_ne_true hbits.1
  exact ⟨j, hjw, hbits.1, hbits.2, hagree⟩

/-- The highest word in which two sets differ decides their colexicographic order. -/
theorem toColex_lt_of_word_lt (hlt : word a i < word b i)
    (habove : ∀ k, i < k → word a k = word b k) : toColex (members a) < toColex (members b) := by
  obtain ⟨j, hj, hb, ha, hagree⟩ := exists_bit_of_lt hlt
  have hw : 0 < w := by omega
  rw [Finset.Colex.toColex_lt_toColex_iff_exists_forall_lt]
  refine ⟨w * i + j, (mul_add_mem_members hj).mpr hb, ?_, ?_⟩
  · rw [mul_add_mem_members hj, ha]
    exact Bool.false_ne_true
  · intro n hn hnot
    by_contra hge
    have hsame : bit a n = bit b n := by
      have hdiv : i ≤ n / w := by
        rw [le_div_iff_mul_le hw, mul_comm]
        omega
      rcases eq_or_lt_of_le hdiv with heq | hlt
      · have hmod : n = w * i + n % w := by
          rw [heq, mul_comm]
          exact (div_add_mod' n w).symm
        have hle : j ≤ n % w := by omega
        rw [bit, bit, ← heq]
        rcases eq_or_lt_of_le hle with heqj | hltj
        · exfalso
          apply hnot
          rw [hmod, ← heqj, mul_add_mem_members hj]
          exact hb
        · exact hagree _ hltj
      · rw [bit, bit, habove _ hlt]
    rw [mem_members hw] at hn hnot
    exact hnot (hsame ▸ hn)

end BitWords
