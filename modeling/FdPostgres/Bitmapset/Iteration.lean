import FdPostgres.Bitmapset.Results

/-!
# Iterating Over and Hashing Bitmapsets

`bms_next_member` finds the smallest member from a position on, and `bms_prev_member` the
largest one below a position. Both compute positions in `int`. A set may have the largest
`int` as a member; asked for the member after it, `bms_next_member` overflows and starts in
front of the array. So the ascending iteration is right for the sets without that member, and
for these only.

* `IsNext`, `IsPrev`: what the two searches return.
* `finds_next`, `finds_prev`: the searches find the members in order.
* `enumerates_next`, `not_enumerates_next`: the largest `int` makes the difference.
* `bms_hash_value_congr`: equal sets have equal hash values.
-/

namespace FdPostgres

open BitWords List Int32

/-! ### The two searches -/

/-- The smallest element from a position on, if any. -/
def IsNext (s : Finset ℕ) (k : ℕ) : Option ℕ → Prop
  | none => ∀ m ∈ s, m < k
  | some n => n ∈ s ∧ k ≤ n ∧ ∀ m ∈ s, k ≤ m → n ≤ m

/-- The largest element below a position, if any. -/
def IsPrev (s : Finset ℕ) (k : ℕ) : Option ℕ → Prop
  | none => ∀ m ∈ s, k ≤ m
  | some n => n ∈ s ∧ n < k ∧ ∀ m ∈ s, m < k → m ≤ n

theorem mem_members_iff {ws : List bitmapword} {m : ℕ} :
    m ∈ members ws ↔ (word ws (m / 64)).getLsbD (m % 64) = true := by
  rw [mem_members bits_pos, bit]

/-- The lowest set bit of a word that is not zero. -/
theorem bmw_rightmost_one_pos_spec {x : bitmapword} (h : x ≠ 0) :
    bmw_rightmost_one_pos x < 64 ∧ x.getLsbD (bmw_rightmost_one_pos x) = true ∧
      ∀ j, x.getLsbD j = true → bmw_rightmost_one_pos x ≤ j := by
  have hset := BitVec.getLsbD_true_ctz_of_ne_zero h
  refine ⟨BitVec.lt_of_getLsbD hset, hset, fun j hj => ?_⟩
  by_contra hlt
  rw [BitVec.getLsbD_false_of_lt_ctz (not_le.mp hlt)] at hj
  exact Bool.false_ne_true hj

/-- The highest set bit of a word that is not zero. -/
theorem bmw_leftmost_one_pos_spec {x : bitmapword} (h : x ≠ 0) :
    bmw_leftmost_one_pos x < 64 ∧ x.getLsbD (bmw_leftmost_one_pos x) = true ∧
      ∀ j, x.getLsbD j = true → j ≤ bmw_leftmost_one_pos x := by
  have hset : x.getLsbD (64 - 1 - x.clz.toNat) = true :=
    BitVec.getLsbD_true_clz_of_ne_zero (by decide) h
  refine ⟨BitVec.lt_of_getLsbD hset, hset, fun j hj => ?_⟩
  by_contra hgt
  have hbound : x.toNat < 2 ^ (64 - x.clz.toNat) := BitVec.toNat_lt_two_pow_sub_clz
  have hle : 64 - x.clz.toNat ≤ j := by
    simp only [bmw_leftmost_one_pos] at hgt
    omega
  have hfalse : x.toNat.testBit j = false :=
    Nat.testBit_lt_two_pow (hbound.trans_le (Nat.pow_le_pow_right (by decide) hle))
  exact Bool.false_ne_true (hfalse.symm.trans hj)

/-- The full mask. -/
theorem getLsbD_fullMask {j : ℕ} (hj : j < 64) : (~~~ (0 : bitmapword)).getLsbD j = true := by
  rw [BitVec.getLsbD_not]
  simp [hj]

section Masked

variable {ws : List bitmapword} {wordnum : ℕ} {mask : bitmapword} {p : ℕ → Prop} [DecidablePred p]
  (hmask : ∀ j < 64, mask.getLsbD j = decide (p j))

include hmask

/-- A member of a word that the mask keeps. -/
theorem getLsbD_masked {m : ℕ}
    (hm : m ∈ members ws) (hdiv : m / 64 = wordnum) (hp : p (m % 64)) :
    (word ws wordnum &&& mask).getLsbD (m % 64) = true := by
  rw [mem_members_iff, hdiv] at hm
  rw [BitVec.getLsbD_and, hm, hmask _ (Nat.mod_lt m (by decide)), decide_eq_true hp, Bool.and_self]

/-- No member of a word is kept. -/
theorem not_mem_masked
    (hzero : word ws wordnum &&& mask = 0) {m : ℕ} (hm : m ∈ members ws) (hdiv : m / 64 = wordnum) :
    ¬ p (m % 64) := by
  intro hp
  have hset := getLsbD_masked hmask hm hdiv hp
  rw [hzero] at hset
  simp at hset

/-- A bit that the mask keeps is a member. -/
theorem mem_of_masked {j : ℕ} (hj : j < 64)
    (hset : (word ws wordnum &&& mask).getLsbD j = true) : wordnum * 64 + j ∈ members ws ∧ p j := by
  rw [BitVec.getLsbD_and, hmask j hj, Bool.and_eq_true, decide_eq_true_eq] at hset
  rw [mul_comm, mul_add_mem_members hj]
  exact hset

end Masked

/-- The loop of `bms_next_member` finds the next member. -/
theorem nextLoop_spec (ws : List bitmapword) :
    ∀ (fuel wordnum : ℕ) (mask : bitmapword) (b : ℕ), b < 64 →
      (∀ j < 64, mask.getLsbD j = decide (b ≤ j)) → ws.length ≤ wordnum + fuel →
      IsNext (members ws) (64 * wordnum + b) (nextLoop ws fuel wordnum mask)
  | 0, wordnum, mask, b, hb, hmask, hlen => by
      intro m hm
      rw [mem_members_iff] at hm
      by_contra hge
      rw [word_of_length_le (by omega)] at hm
      simp at hm
  | fuel + 1, wordnum, mask, b, hb, hmask, hlen => by
      simp only [nextLoop]
      by_cases hzero : word ws wordnum &&& mask = 0
      · rw [if_neg (not_not_intro hzero)]
        have hrest := nextLoop_spec ws fuel (wordnum + 1) (~~~ 0) 0 (by decide)
          (fun j hj => by rw [getLsbD_fullMask hj, decide_eq_true (Nat.zero_le j)]) (by omega)
        have hskip : ∀ m ∈ members ws, 64 * wordnum + b ≤ m → 64 * (wordnum + 1) + 0 ≤ m := by
          intro m hm hle
          by_contra hlt
          exact not_mem_masked hmask hzero hm (by omega) (by omega)
        cases hnext : nextLoop ws fuel (wordnum + 1) (~~~ 0) with
        | none =>
          rw [hnext] at hrest
          intro m hm
          by_contra hge
          have h1 := hskip m hm (by omega)
          have h2 := hrest m hm
          omega
        | some n =>
          rw [hnext] at hrest
          obtain ⟨hn, hle, hmin⟩ := hrest
          exact ⟨hn, by omega, fun m hm hge => hmin m hm (hskip m hm hge)⟩
      · rw [if_pos hzero]
        obtain ⟨hlt, hset, hmin⟩ := bmw_rightmost_one_pos_spec hzero
        simp only [BITS_PER_BITMAPWORD]
        obtain ⟨hmem, hb'⟩ := mem_of_masked hmask hlt hset
        refine ⟨hmem, by omega, fun m hm hle => ?_⟩
        by_contra hgt
        have hp := hmin (m % 64) (getLsbD_masked hmask hm (by omega) (by omega))
        omega

/-- One round of `bms_prev_member`: the word decides, or the words below it. -/
theorem prevLoop_step (ws : List bitmapword) (wordnum b : ℕ) (mask : bitmapword) (hb : b < 64)
    (hmask : ∀ j < 64, mask.getLsbD j = decide (j ≤ b))
    (hrest : IsPrev (members ws) (64 * wordnum) (prevLoop ws wordnum (~~~ 0))) :
    IsPrev (members ws) (64 * wordnum + b + 1) (prevLoop ws (wordnum + 1) mask) := by
  simp only [prevLoop]
  by_cases hzero : word ws wordnum &&& mask = 0
  · rw [if_neg (not_not_intro hzero)]
    have hskip : ∀ m ∈ members ws, m < 64 * wordnum + b + 1 → m < 64 * wordnum := by
      intro m hm hlt
      by_contra hge
      exact not_mem_masked hmask hzero hm (by omega) (by omega)
    cases hprev : prevLoop ws wordnum (~~~ 0) with
    | none =>
      rw [hprev] at hrest
      intro m hm
      by_contra hlt
      have h1 := hskip m hm (by omega)
      have h2 := hrest m hm
      omega
    | some n =>
      rw [hprev] at hrest
      obtain ⟨hn, hlt, hmax⟩ := hrest
      exact ⟨hn, by omega, fun m hm hlt' => hmax m hm (hskip m hm hlt')⟩
  · rw [if_pos hzero]
    obtain ⟨hlt, hset, hmax⟩ := bmw_leftmost_one_pos_spec hzero
    simp only [BITS_PER_BITMAPWORD]
    obtain ⟨hmem, hb'⟩ := mem_of_masked hmask hlt hset
    refine ⟨hmem, by omega, fun m hm hle => ?_⟩
    by_contra hgt
    have hp := hmax (m % 64) (getLsbD_masked hmask hm (by omega) (by omega))
    omega

/-- The loop of `bms_prev_member` over whole words. -/
theorem prevLoop_full (ws : List bitmapword) (n : ℕ) :
    IsPrev (members ws) (64 * n) (prevLoop ws n (~~~ 0)) := by
  induction n with
  | zero => exact fun m _ => Nat.zero_le m
  | succ n ih =>
    have hstep := prevLoop_step ws n 63 (~~~ 0) (by decide)
      (fun j hj => by rw [getLsbD_fullMask hj, decide_eq_true (by omega)]) ih
    exact hstep

/-! ### Positions in `int` -/

/-- The largest `int`. -/
def INT_MAX : ℕ := 2 ^ 31 - 1

variable {a : Option Bitmapset}

/-- Members fit in `int`. -/
theorem memberSet_le_INT_MAX {n : ℕ} (h : n ∈ memberSet a) : n ≤ INT_MAX := by
  cases a with
  | none => exact absurd h (Finset.notMem_empty n)
  | some a =>
    have hlt := (Finset.mem_filter.mp h).1
    have hfits := a.fits
    rw [Finset.mem_range, wordsOf] at hlt
    simp only [maxWords, INT_MAX] at hfits ⊢
    omega

/-- The result that the searches report for what they found. -/
def report (r : Option ℕ) : Int32 :=
  match r with
  | some n => ofNat n
  | none => -2

variable {x : Int32}

/-- `bms_next_member` reports the next member, when the position does not overflow. -/
theorem bms_next_member_spec (a : Bitmapset) {k : ℕ} (hx : x.toInt + 1 = k) (hk : k ≤ INT_MAX) :
    ∃ r, IsNext (memberSet (some a)) k r ∧ bms_next_member (some a) x = some (report r) := by
  have hnext : x + 1 = ofNat k := by
    rw [← toInt_inj, toInt_add, toInt_ofNat_of_lt (by
      simp only [INT_MAX] at hk; omega)]
    have hone : (1 : Int32).toInt = 1 := rfl
    rw [hone, hx]
    simp only [INT_MAX] at hk
    rw [Int.bmod_eq_of_le (by omega) (by omega)]
  have hlt : k < 2 ^ 31 := by
    simp only [INT_MAX] at hk
    omega
  have hnat : (ofNat k).toNatClampNeg = k := toNatClampNeg_ofNat_of_lt hlt
  have hpos : ¬ Int32.ofNat k < 0 := Int32.not_lt.mpr (Int32.zero_le_ofNat_of_lt hlt)
  have hspec := nextLoop_spec a.words (a.nwords - WORDNUM k) (WORDNUM k)
    ((~~~ (0 : bitmapword)) <<< BITNUM k) (BITNUM k) (Nat.mod_lt _ (by decide))
    (fun j hj => by
      rw [BitVec.getLsbD_shiftLeft]
      by_cases hle : BITNUM k ≤ j
      · rw [getLsbD_fullMask (by omega)]
        simp [hj, hle]
      · simp [hle])
    (by simp only [Bitmapset.nwords]; omega)
  have hdecomp : 64 * WORDNUM k + BITNUM k = k := Nat.div_add_mod k 64
  rw [hdecomp] at hspec
  refine ⟨_, hspec, ?_⟩
  simp only [bms_next_member, hnext, if_neg hpos, hnat]
  cases nextLoop a.words (a.nwords - WORDNUM k) (WORDNUM k)
    ((~~~ (0 : bitmapword)) <<< BITNUM k) <;> rfl

/-- After the largest `int`, `bms_next_member` is undefined. -/
theorem bms_next_member_INT_MAX (a : Bitmapset) :
    bms_next_member (some a) (ofNat INT_MAX) = none := by
  have hneg : ofNat INT_MAX + 1 < 0 := by decide
  simp only [bms_next_member, if_pos hneg]

/-- `bms_prev_member` reports the previous member; -1 stands for the position behind all. -/
theorem bms_prev_member_spec (a : Bitmapset) {k : ℕ}
    (hx : (x = -1 ∧ k = 64 * a.nwords) ∨ (x = ofNat k ∧ k < 2 ^ 31 ∧ k ≤ 64 * a.nwords)) :
    ∃ r, IsPrev (memberSet (some a)) k r ∧ bms_prev_member (some a) x = some (report r) := by
  have hpos := a.pos
  have hfits := a.fits
  have hnw : a.nwords = a.words.length := rfl
  simp only [maxWords] at hfits
  by_cases hzero : k = 0
  · obtain ⟨rfl, -, -⟩ : x = ofNat k ∧ k < 2 ^ 31 ∧ k ≤ 64 * a.nwords :=
      hx.resolve_left (by omega)
    subst hzero
    exact ⟨none, fun m _ => Nat.zero_le m, rfl⟩
  · have hstart : x ≠ 0 ∧ (if x = -1
        then ofNat a.nwords * ofNat BITS_PER_BITMAPWORD - 1 else x - 1) =
        ofNat (k - 1) ∧ k - 1 < 2 ^ 31 ∧ k ≤ 64 * a.nwords := by
      rcases hx with ⟨rfl, rfl⟩ | ⟨rfl, hlt, hle⟩
      · refine ⟨by decide, ?_, by omega, le_rfl⟩
        rw [← ofNat_mul, ofNat_sub _ _ (by omega), mul_comm]
        rfl
      · have htoInt := toInt_ofNat_of_lt hlt
        have hne : ∀ y : Int32, y.toInt ≤ 0 → ofNat k ≠ y := by
          intro y hy heq
          rw [← heq] at hy
          omega
        refine ⟨hne 0 (by decide), ?_, by omega, hle⟩
        rw [if_neg (hne (-1) (by decide)), ofNat_sub _ _ (by omega)]
        rfl
    obtain ⟨hne, hprev, hlt, hle⟩ := hstart
    have hnat : (ofNat (k - 1)).toNatClampNeg = k - 1 := toNatClampNeg_ofNat_of_lt hlt
    have hin : ¬ (ofNat (k - 1) < 0 ∨ WORDNUM (k - 1) ≥ a.nwords) := by
      rintro (hneg | hge)
      · exact Int32.not_lt.mpr (Int32.zero_le_ofNat_of_lt hlt) hneg
      · simp only [WORDNUM, BITS_PER_BITMAPWORD] at hge
        omega
    have hspec := prevLoop_step a.words (WORDNUM (k - 1)) (BITNUM (k - 1))
      ((~~~ (0 : bitmapword)) >>> (BITS_PER_BITMAPWORD - (BITNUM (k - 1) + 1)))
      (Nat.mod_lt _ (by decide))
      (fun j _ => getLsbD_upToMask (Nat.mod_lt _ (by decide))) (prevLoop_full a.words _)
    have hdecomp : 64 * WORDNUM (k - 1) + BITNUM (k - 1) = k - 1 := Nat.div_add_mod _ 64
    rw [hdecomp, Nat.sub_add_cancel (by omega)] at hspec
    refine ⟨_, hspec, ?_⟩
    simp only [bms_prev_member, if_neg hne, hprev, hnat, if_neg hin]
    cases prevLoop a.words (WORDNUM (k - 1) + 1)
      ((~~~ (0 : bitmapword)) >>> (BITS_PER_BITMAPWORD - (BITNUM (k - 1) + 1))) <;> rfl

/-! ### Iterations -/

/-- A search finds the numbers of a list one after the other. -/
def Finds (step : Int32 → Option Int32) : Int32 → List ℕ → Prop
  | x, [] => step x = some (-2)
  | x, n :: L => n < 2 ^ 31 ∧ step x = some (ofNat n) ∧ Finds step (ofNat n) L

/-- An iteration visits what the search finds. -/
theorem Finds.iterate {step : Int32 → Option Int32} :
    ∀ {L : List ℕ} {x : Int32} {fuel : ℕ}, Finds step x L → L.length < fuel →
      iterateFrom step fuel x = some (L.map ofNat ++ [-2])
  | L, x, 0, _, hfuel => absurd hfuel (by omega)
  | [], x, fuel + 1, h, _ => by
      rw [iterateFrom, show step x = some (-2) from h]
      rfl
  | n :: L, x, fuel + 1, ⟨hlt, hstep, hrest⟩, hfuel => by
      rw [iterateFrom, hstep, Option.bind_some, if_pos (zero_le_ofNat_of_lt hlt),
        hrest.iterate (by rw [length_cons] at hfuel; omega)]
      rfl

/-- A search that finds the first number ahead of each position finds them all, in order. -/
theorem finds_of_first {step : Int32 → Option Int32} {r : ℕ → ℕ → Prop} {s : Finset ℕ}
    {P : Int32 → (ℕ → Prop) → Prop} (hirrefl : ∀ n, ¬ r n n)
    (hstep : ∀ x ahead, P x ahead → (step x = some (-2) ∧ ∀ m ∈ s, ¬ ahead m) ∨
      ∃ n ∈ s, n < 2 ^ 31 ∧ step x = some (ofNat n) ∧ ahead n ∧
        (∀ m ∈ s, ahead m → ¬ r m n) ∧ P (ofNat n) (r n) ∧ ∀ i, r n i → ahead i) :
    ∀ (L : List ℕ) (x : Int32) (ahead : ℕ → Prop), P x ahead → L.Pairwise r →
      (∀ n, n ∈ L ↔ n ∈ s ∧ ahead n) → Finds step x L
  | [], x, ahead, hx, _, hL => by
      rcases hstep x ahead hx with ⟨hend, -⟩ | ⟨n, hn, -, -, hahead, -⟩
      · exact hend
      · exact absurd ((hL n).mpr ⟨hn, hahead⟩) not_mem_nil
  | m :: L, x, ahead, hx, hpair, hL => by
      obtain ⟨hm, hahead⟩ := (hL m).mp mem_cons_self
      obtain ⟨hrel, htail⟩ := pairwise_cons.mp hpair
      rcases hstep x ahead hx with ⟨-, hnone⟩ | ⟨n, hn, hlt, hfound, hn', hfirst, hnext, hmono⟩
      · exact absurd hahead (hnone m hm)
      · obtain rfl := (mem_cons.mp ((hL n).mpr ⟨hn, hn'⟩)).resolve_right fun hmem =>
          hfirst m hm hahead (hrel n hmem)
        refine ⟨hlt, hfound, finds_of_first hirrefl hstep L _ _ hnext htail fun i => ⟨fun hi =>
          ⟨((hL i).mp (mem_cons_of_mem n hi)).1, hrel i hi⟩, fun ⟨hi, hni⟩ => ?_⟩⟩
        refine (mem_cons.mp ((hL i).mpr ⟨hi, hmono i hni⟩)).resolve_left ?_
        rintro rfl
        exact hirrefl i hni

section Searches

variable {a : Bitmapset} {L : List ℕ} (hL : ∀ n, n ∈ L ↔ n ∈ memberSet (some a))

include hL

/-- The ascending search finds the members in order. -/
theorem finds_next (hmax : INT_MAX ∉ memberSet (some a)) (hpair : L.Pairwise (· < ·)) :
    Finds (bms_next_member (some a)) (-1) L := by
  refine finds_of_first (P := fun x ahead => ∃ k : ℕ, x.toInt + 1 = k ∧ k ≤ INT_MAX ∧
    ahead = (k ≤ ·)) Nat.lt_irrefl ?_ L (-1) _ ⟨0, rfl, Nat.zero_le _, rfl⟩ hpair
    fun n => (hL n).trans (iff_self_and.mpr fun _ => Nat.zero_le n)
  rintro x _ ⟨k, hx, hk, rfl⟩
  obtain ⟨r, hr, hstep⟩ := bms_next_member_spec a hx hk
  cases r with
  | none => exact .inl ⟨hstep, fun m hm => not_le.mpr (hr m hm)⟩
  | some n =>
    obtain ⟨hn, hkn, hmin⟩ := hr
    have hint := memberSet_le_INT_MAX hn
    have hne : n ≠ INT_MAX := fun heq => hmax (heq ▸ hn)
    have hlt : n < 2 ^ 31 := by
      simp only [INT_MAX] at hint
      omega
    refine .inr ⟨n, hn, hlt, hstep, hkn, fun m hm hle => not_lt.mpr (hmin m hm hle),
      ⟨n + 1, ?_, by omega, rfl⟩, fun i hi => hkn.trans (Nat.le_of_lt hi)⟩
    rw [toInt_ofNat_of_lt hlt]
    rfl

/-- The descending search finds the members in order. -/
theorem finds_prev (hpair : L.Pairwise (· > ·)) : Finds (bms_prev_member (some a)) (-1) L := by
  have hword : ∀ n ∈ memberSet (some a), n < 64 * a.nwords :=
    fun n hn => Finset.mem_range.mp (Finset.mem_filter.mp hn).1
  refine finds_of_first (r := (· > ·)) (P := fun x ahead => ∃ k : ℕ,
    ((x = -1 ∧ k = 64 * a.nwords) ∨ (x = ofNat k ∧ k < 2 ^ 31 ∧ k ≤ 64 * a.nwords)) ∧
    ahead = (· < k)) Nat.lt_irrefl ?_ L (-1) _ ⟨_, .inl ⟨rfl, rfl⟩, rfl⟩ hpair
    fun n => (hL n).trans (iff_self_and.mpr (hword n))
  rintro x _ ⟨k, hx, rfl⟩
  obtain ⟨r, hr, hstep⟩ := bms_prev_member_spec a hx
  cases r with
  | none => exact .inl ⟨hstep, fun m hm => not_lt.mpr (hr m hm)⟩
  | some n =>
    obtain ⟨hn, hnk, hlast⟩ := hr
    have hint := memberSet_le_INT_MAX hn
    have hlt : n < 2 ^ 31 := by
      simp only [INT_MAX] at hint
      omega
    exact .inr ⟨n, hn, hlt, hstep, hnk, fun m hm hmk => not_lt.mpr (hlast m hm hmk),
      ⟨n, .inr ⟨rfl, hlt, (hword n hn).le⟩, rfl⟩, fun i hi => Nat.lt_trans hi hnk⟩

end Searches

/-- An iteration step by step visits the numbers of a set in the order of a relation, and
then ends with -2. -/
def Enumerates (step : Int32 → Option Int32) (r : ℕ → ℕ → Prop) (s : Finset ℕ) : Prop :=
  ∃ L : List ℕ, L.Pairwise r ∧ L.toFinset = s ∧
    ∀ fuel, L.length < fuel → iterateFrom step fuel (-1) = some (L.map ofNat ++ [-2])

/-- The ascending iteration, for a set without the largest `int`. -/
theorem enumerates_next (hmax : INT_MAX ∉ memberSet a) :
    Enumerates (bms_next_member a) (· < ·) (memberSet a) := by
  cases a with
  | none => exact ⟨[], .nil, memberSet_none.symm, fun _ => Finds.iterate rfl⟩
  | some a =>
    have hpair := (Finset.sortedLT_sort (memberSet (some a))).pairwise
    exact ⟨_, hpair, Finset.sort_toFinset _ _, fun _ =>
      (finds_next (fun n => Finset.mem_sort _) hmax hpair).iterate⟩

/-- The descending iteration. -/
theorem enumerates_prev (a : Option Bitmapset) :
    Enumerates (bms_prev_member a) (· > ·) (memberSet a) := by
  cases a with
  | none => exact ⟨[], .nil, memberSet_none.symm, fun _ => Finds.iterate rfl⟩
  | some a =>
    have hpair := pairwise_reverse.mpr (Finset.sortedLT_sort (memberSet (some a))).pairwise
    refine ⟨_, hpair, ?_, fun _ => (finds_prev (fun n => ?_) hpair).iterate⟩
    · rw [toFinset_reverse, Finset.sort_toFinset]
    · rw [mem_reverse, Finset.mem_sort]

/-- An iteration that ends has taken a step from every number that it visits. -/
theorem step_ne_none_of_iterate {step : Int32 → Option Int32} {fuel : ℕ} {l : List Int32}
    (h : iterateFrom step fuel x = some l) {y : Int32} (hy : y ∈ l) (hpos : 0 ≤ y) :
    step y ≠ none := by
  induction fuel generalizing x l with
  | zero => exact absurd h (by simp [iterateFrom])
  | succ fuel ih =>
    rw [iterateFrom, Option.bind_eq_some_iff] at h
    obtain ⟨z, -, hz⟩ := h
    by_cases hnn : 0 ≤ z
    · rw [if_pos hnn, Option.map_eq_some_iff] at hz
      obtain ⟨l', hl', rfl⟩ := hz
      rcases mem_cons.mp hy with rfl | htail
      · intro hnone
        cases fuel with
        | zero => simp [iterateFrom] at hl'
        | succ fuel => simp [iterateFrom, hnone] at hl'
      · exact ih hl' htail
    · rw [if_neg hnn, Option.some.injEq] at hz
      subst hz
      exact absurd (mem_singleton.mp hy ▸ hpos) hnn

/-- The ascending iteration over a set with the largest `int` does not end properly. -/
theorem not_enumerates_next (h : INT_MAX ∈ memberSet a) :
    ¬ Enumerates (bms_next_member a) (· < ·) (memberSet a) := by
  rintro ⟨L, -, hset, hiter⟩
  have hmem : ofNat INT_MAX ∈ L.map ofNat ++ [-2] := by
    refine mem_append_left _ (mem_map_of_mem ?_)
    rwa [← hset, mem_toFinset] at h
  have hstep := step_ne_none_of_iterate (hiter (L.length + 1) (Nat.lt_succ_self _)) hmem
    (by decide)
  cases a with
  | none => exact absurd h (Finset.notMem_empty _)
  | some a => exact hstep (bms_next_member_INT_MAX a)

/-! ### Hashing -/

/-- The loop of `bms_hash_value` finds the last word that is not zero. -/
theorem lastwordLoop_spec (ws : List bitmapword) (n : ℕ) :
    match lastwordLoop ws n with
    | none => ∀ i < n, word ws i = 0
    | some i => i < n ∧ word ws i ≠ 0 ∧ ∀ k, i < k → k < n → word ws k = 0 := by
  induction n with
  | zero => exact fun i hi => absurd hi (Nat.not_lt_zero i)
  | succ n ih =>
    rw [lastwordLoop]
    by_cases hzero : word ws n = 0
    · rw [if_neg (not_not_intro hzero)]
      cases hrest : lastwordLoop ws n with
      | none =>
        rw [hrest] at ih
        intro i hi
        rcases eq_or_lt_of_le (Nat.lt_succ_iff.mp hi) with rfl | hlt
        · exact hzero
        · exact ih i hlt
      | some i =>
        rw [hrest] at ih
        obtain ⟨hlt, hne, habove⟩ := ih
        refine ⟨by omega, hne, fun k hik hk => ?_⟩
        rcases eq_or_lt_of_le (Nat.lt_succ_iff.mp hk) with rfl | hlt'
        · exact hzero
        · exact habove k hik hlt'
    · rw [if_pos hzero]
      exact ⟨Nat.lt_succ_self n, hzero, fun k h1 h2 => absurd h1 (by omega)⟩

/-- The hash value by the last word that is not zero. -/
theorem bms_hash_value_cases (hash_any : List bitmapword → BitVec 32) (a : Option Bitmapset) :
    (bms_hash_value hash_any a = 0 ∧ ∀ i, word (wordsOf a) i = 0) ∨
      ∃ i, i < (wordsOf a).length ∧ word (wordsOf a) i ≠ 0 ∧ (∀ k, i < k → word (wordsOf a) k = 0) ∧
        bms_hash_value hash_any a = hash_any ((wordsOf a).take (i + 1)) := by
  cases a with
  | none => exact .inl ⟨rfl, fun i => word_nil i⟩
  | some a =>
    have hspec := lastwordLoop_spec a.words a.nwords
    simp only [bms_hash_value]
    cases hlast : lastwordLoop a.words a.nwords with
    | none =>
      rw [hlast] at hspec
      refine .inl ⟨rfl, fun i => ?_⟩
      rcases lt_or_ge i a.nwords with hlt | hge
      · exact hspec i hlt
      · exact word_of_nwords_le hge
    | some i =>
      rw [hlast] at hspec
      obtain ⟨hlt, hne, habove⟩ := hspec
      refine .inr ⟨i, hlt, hne, fun k hk => ?_, rfl⟩
      rcases lt_or_ge k a.nwords with hlt' | hge
      · exact habove k hk hlt'
      · exact word_of_nwords_le hge

/-- **Equal sets have equal hash values**, whatever their trailing words. -/
theorem bms_hash_value_congr (hash_any : List bitmapword → BitVec 32) {b : Option Bitmapset}
    (h : memberSet a = memberSet b) : bms_hash_value hash_any a = bms_hash_value hash_any b := by
  have hwords : ∀ i, word (wordsOf a) i = word (wordsOf b) i := (members_eq_iff bits_pos).mp h
  rcases bms_hash_value_cases hash_any a with ⟨ha, hzero⟩ | ⟨i, hi, hne, habove, ha⟩ <;>
    rcases bms_hash_value_cases hash_any b with ⟨hb, hzero'⟩ | ⟨j, hj, hne', habove', hb⟩
  · rw [ha, hb]
  · exact absurd (hwords j ▸ hzero j) hne'
  · exact absurd (hwords i ▸ hzero' i) hne
  · have hij : i = j := by
      rcases lt_trichotomy i j with hlt | heq | hgt
      · exact absurd (hwords j ▸ habove j hlt) hne'
      · exact heq
      · exact absurd ((hwords i).symm ▸ habove' i hgt) hne
    rw [ha, hb]
    congr 1
    refine ext_getElem (by simp; omega) (fun k hk hk' => ?_)
    rw [length_take] at hk hk'
    have hword := hwords k
    rw [word, word, getD_eq_getElem _ _ (by omega), getD_eq_getElem _ _ (by omega)]
      at hword
    simpa using hword

end FdPostgres
