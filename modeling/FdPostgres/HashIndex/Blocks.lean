import FdPostgres.HashIndex.Buckets
import FdPostgres.Lib.Interleaving

/-!
# Blocks of Buckets and of Overflow Pages

The file of a hash index interleaves two kinds of pages. At every split point a batch of
bucket pages is allocated, and the overflow and bitmap pages added until the next split point
follow it. `hashm_spares` counts the overflow pages up to each split point, and
`_hash_get_totalbuckets` the buckets, so the file is a layout in the sense of
`FdPostgres.Lib.Interleaving`. The split points come in four phases per doubling from the
tenth on.

* `hash_spareindex_eq_iff` inverts the phase computation: a number of buckets belongs to the
  phase at whose end it is allocated first.
* `BlockInv` is the invariant of a run on the spares, the overflow point and the highest
  bucket; `BlockInv.layout` is the layout it gives.
* `bucket_to_blkno` and `bitno_to_blkno` are the positions of the two kinds in that layout
  (`firstAt_bucket_to_blkno`, `secondAt_bitno_to_blkno`).

## Main results

* `blockInv_of_reachable`: the invariant holds along every run.
* `hash_index_pages_disjoint`: **pages never collide** — the blocks of the allocated buckets
  and of the overflow pages handed out are distinct, fill the file behind the metapage without
  a gap, and the inverse mapping recovers overflow pages and rejects buckets.
-/

namespace FdPostgres

open Function Interleaving Nat

/-! ### The phases of the split points -/

/-- The constants of the split points, for rewriting. -/
theorem splitpoint_constants :
    HASH_SPLITPOINT_PHASE_BITS = 2 ∧ HASH_SPLITPOINT_PHASE_MASK = 3 ∧
      HASH_SPLITPOINT_GROUPS_WITH_ONE_PHASE = 10 :=
  ⟨rfl, rfl, rfl⟩

theorem and_three (n : ℕ) : n &&& 3 = n % 4 := and_two_pow_sub_one_eq_mod n 2

variable {p n : ℕ}

/-- Up to the tenth split point, the buckets double. -/
theorem totalbuckets_of_lt (hp : p < 10) : hash_get_totalbuckets p = 2 ^ p := by
  obtain ⟨-, -, hgrps⟩ := splitpoint_constants
  rw [hash_get_totalbuckets, hgrps, if_pos hp, one_shiftLeft]

/-- From the tenth split point on, phase `q` of group `g` adds a quarter of the buckets that
exist before the group. -/
theorem totalbuckets_group (g : ℕ) {q : ℕ} (hq : q < 4) :
    hash_get_totalbuckets (10 + 4 * g + q) = 2 ^ (g + 7) * (5 + q) := by
  obtain ⟨hbits, hmask, hgrps⟩ := splitpoint_constants
  have hsub : 10 + 4 * g + q - 10 = 4 * g + q := by omega
  have hshift : (4 * g + q) >>> 2 = g := by
    omega
  have hand : (4 * g + q) &&& 3 = q := by
    rw [and_three]
    omega
  have hpow : 2 ^ (10 + g - 1) = 2 ^ (g + 7) * 4 := by
    rw [show 10 + g - 1 = g + 7 + 2 by omega, pow_add]
    norm_num
  have hquarter : (2 ^ (g + 7) * 4) >>> 2 = 2 ^ (g + 7) := by
    rw [Nat.shiftRight_eq_div_pow]
    exact Nat.mul_div_cancel _ (by norm_num)
  rw [hash_get_totalbuckets, hbits, hmask, hgrps, if_neg (by omega)]
  simp only [hsub, hshift, hand, Nat.one_shiftLeft, hpow, hquarter]
  ring

/-- Every split point from the tenth on is a phase of a group. -/
theorem exists_group (hp : 10 ≤ p) : ∃ g q, q < 4 ∧ p = 10 + 4 * g + q :=
  ⟨(p - 10) / 4, (p - 10) % 4, mod_lt _ (by norm_num), by omega⟩

/-- Every split point allocates buckets. -/
theorem totalbuckets_lt_succ (p : ℕ) : hash_get_totalbuckets p < hash_get_totalbuckets (p + 1) := by
  rcases lt_or_ge p 9 with hp | hp
  · rw [totalbuckets_of_lt (by omega), totalbuckets_of_lt (by omega)]
    exact Nat.pow_lt_pow_right (by norm_num) (by omega)
  · rcases eq_or_lt_of_le hp with rfl | hp
    · rw [totalbuckets_of_lt (by norm_num), totalbuckets_group 0 (q := 0) (by norm_num)]
      norm_num
    · obtain ⟨g, q, hq, rfl⟩ := exists_group hp
      have hpos := Nat.two_pow_pos (g + 7)
      rcases lt_or_ge q 3 with hq3 | hq3
      · rw [totalbuckets_group g hq, add_assoc, totalbuckets_group g (by omega)]
        exact Nat.mul_lt_mul_of_pos_left (by omega) hpos
      · obtain rfl : q = 3 := by omega
        have hnext : 10 + 4 * g + 3 + 1 = 10 + 4 * (g + 1) + 0 := by ring
        have hpow : 2 ^ (g + 1 + 7) = 2 ^ (g + 7) * 2 := by
          rw [← pow_succ]
        rw [totalbuckets_group g hq, hnext, totalbuckets_group (g + 1) (by norm_num)]
        omega

/-- The buckets at the split points increase strictly. -/
theorem totalbuckets_strictMono : StrictMono hash_get_totalbuckets :=
  strictMono_nat_of_lt_succ totalbuckets_lt_succ

/-- The rounded-up logarithm of a number above one. -/
theorem pg_ceil_log2_32_eq {g : ℕ} (hlo : 2 ^ g < n) (hhi : n ≤ 2 ^ (g + 1)) :
    pg_ceil_log2_32 n = g + 1 := by
  have hlog : log2 (n - 1) = g := by
    rw [log2_eq_iff (by omega)]
    omega
  rw [pg_ceil_log2_32, ceilLog2, if_neg (by omega), hlog]

/-- Every number above one lies between two powers of two. -/
theorem exists_two_pow_lt_le (hn : 2 ≤ n) : ∃ g, 2 ^ g < n ∧ n ≤ 2 ^ (g + 1) := by
  have h1 : 2 ^ log2 (n - 1) ≤ n - 1 := log2_self_le (by omega)
  have h2 : n - 1 < 2 ^ (log2 (n - 1) + 1) := lt_log2_self
  exact ⟨log2 (n - 1), by omega, by omega⟩

/-- The buckets before the first phase of a group. -/
theorem totalbuckets_before_group (g : ℕ) :
    before hash_get_totalbuckets (10 + 4 * g) = 2 ^ (g + 9) := by
  rw [before, if_neg (by omega)]
  cases g with
  | zero => exact totalbuckets_of_lt (by norm_num)
  | succ g =>
    rw [show 10 + 4 * (g + 1) - 1 = 10 + 4 * g + 3 by omega, totalbuckets_group g (by norm_num)]
    ring

/-- The phase of a number of buckets that belongs to a group of four phases. -/
theorem hash_spareindex_group {g : ℕ} (hlo : 2 ^ (g + 9) < n) (hhi : n ≤ 2 ^ (g + 10)) :
    ∃ q < 4, hash_spareindex n = 10 + 4 * g + q ∧
      2 ^ (g + 7) * (4 + q) < n ∧ n ≤ 2 ^ (g + 7) * (5 + q) := by
  obtain ⟨hbits, hmask, hgrps⟩ := splitpoint_constants
  have hpos := Nat.two_pow_pos (g + 7)
  have hlow : 2 ^ (g + 9) = 2 ^ (g + 7) * 4 := by
    rw [show g + 9 = g + 7 + 2 by ring, pow_add]
    norm_num
  have hhigh : 2 ^ (g + 10) = 2 ^ (g + 7) * 8 := by
    rw [show g + 10 = g + 7 + 3 by ring, pow_add]
    norm_num
  obtain ⟨r, hr⟩ : ∃ r, r = (n - 1) / 2 ^ (g + 7) := ⟨_, rfl⟩
  have hr4 : 4 ≤ r := by
    rw [hr, Nat.le_div_iff_mul_le hpos]
    omega
  have hr8 : r < 8 := by
    rw [hr, Nat.div_lt_iff_lt_mul hpos]
    omega
  have hmul : 2 ^ (g + 7) * r ≤ n - 1 := by
    rw [hr]
    exact Nat.mul_div_le _ _
  have hlt : n - 1 < 2 ^ (g + 7) * (r + 1) := by
    rw [hr]
    exact Nat.lt_mul_div_succ _ hpos
  refine ⟨r - 4, by omega, ?_, ?_, ?_⟩
  · have hshift : (g + 9 + 1 - 10) <<< 2 = 4 * g := by
      omega
    have hphase : ((n - 1) >>> (g + 9 + 1 - (2 + 1))) &&& 3 = r - 4 := by
      rw [and_three, show g + 9 + 1 - (2 + 1) = g + 7 by omega]
      omega
    rw [hash_spareindex, pg_ceil_log2_32_eq hlo hhi, hgrps, hbits, hmask,
      if_neg (by omega), hshift, hphase]
  · rw [show 4 + (r - 4) = r by omega]
    omega
  · rw [show 5 + (r - 4) = r + 1 by omega]
    omega

/-- The phase of a number of buckets has at least that many buckets, and the phase before it
has fewer. -/
theorem hash_spareindex_bounds (hn : 1 ≤ n) : before hash_get_totalbuckets (hash_spareindex n) < n ∧
      n ≤ hash_get_totalbuckets (hash_spareindex n) := by
  obtain ⟨hbits, hmask, hgrps⟩ := splitpoint_constants
  rcases eq_or_lt_of_le hn with rfl | hn
  · have hzero : hash_spareindex 1 = 0 := by decide
    rw [hzero, totalbuckets_of_lt (by norm_num)]
    exact ⟨by simp [before], by norm_num⟩
  · obtain ⟨g, hlo, hhi⟩ := exists_two_pow_lt_le hn
    rcases lt_or_ge g 9 with hg | hg
    · have hindex : hash_spareindex n = g + 1 := by
        rw [hash_spareindex, pg_ceil_log2_32_eq hlo hhi, if_pos (by omega)]
      rw [hindex, totalbuckets_of_lt (by omega), before, totalbuckets_of_lt (by omega)]
      exact ⟨hlo, hhi⟩
    · obtain ⟨g, rfl⟩ : ∃ g', g = g' + 9 := ⟨g - 9, by omega⟩
      obtain ⟨q, hq, hindex, hbef, hafter⟩ := hash_spareindex_group hlo hhi
      rw [hindex, totalbuckets_group g hq]
      refine ⟨?_, hafter⟩
      cases q with
      | zero =>
        rw [add_zero, totalbuckets_before_group]
        exact hlo
      | succ q =>
        rw [before, show 10 + 4 * g + (q + 1) - 1 = 10 + 4 * g + q by omega,
          totalbuckets_group g (by omega), show 5 + q = 4 + (q + 1) by ring]
        exact hbef

/-- **The phase computation inverted**: a number of buckets belongs to the phase by whose end
that many buckets are allocated, but not before. -/
theorem hash_spareindex_eq_iff (hn : 1 ≤ n) : hash_spareindex n = p ↔
      before hash_get_totalbuckets p < n ∧ n ≤ hash_get_totalbuckets p := by
  have hbnds := hash_spareindex_bounds hn
  constructor
  · rintro rfl
    exact hbnds
  · rintro ⟨hlo, hhi⟩
    have hstep : ∀ last i, i < last → hash_get_totalbuckets i ≤ hash_get_totalbuckets (i + 1) :=
      fun _ i _ => (totalbuckets_lt_succ i).le
    rcases lt_trichotomy (hash_spareindex n) p with h | h | h
    · have hle := le_before_of_lt (hstep p) h le_rfl
      omega
    · exact h
    · have hle := le_before_of_lt (hstep (hash_spareindex n)) h le_rfl
      omega

/-- A phase with enough buckets is at least the phase of their number. -/
theorem hash_spareindex_le (hn : 1 ≤ n) (h : n ≤ hash_get_totalbuckets p) :
    hash_spareindex n ≤ p := by
  by_contra hcon
  have hle := le_before_of_lt (fun i _ => (totalbuckets_lt_succ i).le) (not_le.mp hcon) le_rfl
  have hbnds := hash_spareindex_bounds hn
  omega

/-- More than one bucket is more than the first phase has. -/
theorem one_le_hash_spareindex (hn : 2 ≤ n) : 1 ≤ hash_spareindex n := by
  by_contra hcon
  have hbnds := (hash_spareindex_bounds (n := n) (by omega)).2
  rw [show hash_spareindex n = 0 by omega, totalbuckets_of_lt (by norm_num)] at hbnds
  omega

/-! ### The invariant -/

/-- **The invariant of a run** on the metapage: the overflow point is the phase of the
buckets in use, the spares are a cumulative count up to there that starts at zero, and all
blocks have valid numbers. -/
structure BlockInv (metap : HashMetaPage) : Prop where
  phase : hash_spareindex (metap.hashm_maxbucket + 1) = metap.hashm_ovflpoint
  one_le : 1 ≤ metap.hashm_ovflpoint
  spares_zero : metap.hashm_spares 0 = 0
  spares_le : ∀ i, i < metap.hashm_ovflpoint → metap.hashm_spares i ≤ metap.hashm_spares (i + 1)
  fits : hash_get_totalbuckets metap.hashm_ovflpoint +
    metap.hashm_spares metap.hashm_ovflpoint < InvalidBlockNumber

variable {metap : HashMetaPage}

/-- The layout of the file that a metapage describes. -/
def BlockInv.layout (h : BlockInv metap) : Layout where
  a := hash_get_totalbuckets
  b := metap.hashm_spares
  last := metap.hashm_ovflpoint
  a_le i _ := (totalbuckets_lt_succ i).le
  b_le := h.spares_le

/-- The initial number of buckets is that of its own phase, at least two, and within the
limit. -/
theorem initialBuckets_spec (dnumbuckets : ℚ) :
    2 ≤ initialBuckets dnumbuckets ∧ initialBuckets dnumbuckets ≤ 2 ^ 30 ∧
      hash_get_totalbuckets (hash_spareindex (initialBuckets dnumbuckets)) =
        initialBuckets dnumbuckets := by
  have hmax : hash_get_totalbuckets 93 = 2 ^ 30 := totalbuckets_group 20 (q := 3) (by norm_num)
  rw [initialBuckets]
  split
  · have hone : hash_spareindex 2 = 1 := by decide
    rw [hone, totalbuckets_of_lt (by norm_num)]
    norm_num
  · split
    · have hphase : hash_spareindex 0x40000000 = 93 := by
        rw [hash_spareindex_eq_iff (by norm_num), hmax, before,
          show 93 - 1 = 10 + 4 * 20 + 2 by norm_num, totalbuckets_group 20 (by norm_num)]
        norm_num
      rw [hphase, hmax]
      norm_num
    · have hfloor : 2 ≤ ⌊dnumbuckets⌋₊ := le_floor (by push_cast; linarith)
      have hceil : ⌊dnumbuckets⌋₊ ≤ 2 ^ 30 := floor_le_of_le (by push_cast; linarith)
      have hbnds := hash_spareindex_bounds (n := ⌊dnumbuckets⌋₊) (by omega)
      have hphase : hash_spareindex ⌊dnumbuckets⌋₊ ≤ 93 :=
        hash_spareindex_le (by omega) (by exact hceil)
      have htotal : hash_get_totalbuckets (hash_spareindex ⌊dnumbuckets⌋₊) ≤ 2 ^ 30 := by
        exact totalbuckets_strictMono.monotone hphase
      refine ⟨by omega, htotal, ?_⟩
      have hself : hash_spareindex (hash_get_totalbuckets (hash_spareindex ⌊dnumbuckets⌋₊)) =
          hash_spareindex ⌊dnumbuckets⌋₊ :=
        (hash_spareindex_eq_iff (by omega)).mpr ⟨by omega, le_rfl⟩
      rw [hself]

/-- The invariant holds in a new index. -/
theorem blockInv_hash_init (bsize : ℕ) (dnumbuckets : ℚ) :
    BlockInv (hash_init bsize dnumbuckets) := by
  obtain ⟨htwo, hmax, htotal⟩ := initialBuckets_spec dnumbuckets
  have hindex := one_le_hash_spareindex htwo
  refine ⟨?_, hindex, ?_, ?_, ?_⟩
  · simp only [hash_init, hash_init_metabuffer]
    rw [Nat.sub_add_cancel (by omega)]
  · simp only [hash_init, hash_init_metabuffer]
    exact update_of_ne (by omega) _ _
  · intro i hi
    simp only [hash_init, hash_init_metabuffer] at hi ⊢
    rw [update_of_ne (by omega)]
    exact Nat.zero_le _
  · simp only [hash_init, hash_init_metabuffer, update_self, InvalidBlockNumber]
    omega

/-! ### The mapping of buckets and overflow pages -/

namespace BlockInv

variable {metap : HashMetaPage} (hi : BlockInv metap)

include hi

/-- The spares of any split point in use are at most those of the last one. -/
theorem spares_le_last {i : ℕ} (h : i ≤ metap.hashm_ovflpoint) :
    metap.hashm_spares i ≤ metap.hashm_spares metap.hashm_ovflpoint :=
  le_of_step_le hi.spares_le h le_rfl

/-- The block of a bucket is its position in the layout. -/
theorem firstAt_bucket_to_blkno {B : ℕ} (hB : B < hash_get_totalbuckets metap.hashm_ovflpoint) :
    hi.layout.FirstAt B (bucket_to_blkno metap B) := by
  have hphase : hash_spareindex (B + 1) ≤ metap.hashm_ovflpoint := hash_spareindex_le (by omega) hB
  have hbnds := hash_spareindex_bounds (n := B + 1) (by omega)
  have hbef : (if B ≠ 0 then metap.hashm_spares (hash_spareindex (B + 1) - 1) else 0) =
      before metap.hashm_spares (hash_spareindex (B + 1)) := by
    by_cases hzero : B = 0
    · subst hzero
      rfl
    · have hone := one_le_hash_spareindex (n := B + 1) (by omega)
      rw [if_pos hzero, before, if_neg (by omega)]
  have hspar : before metap.hashm_spares (hash_spareindex (B + 1)) ≤
      metap.hashm_spares metap.hashm_ovflpoint :=
    (before_le hi.spares_le hphase).trans (hi.spares_le_last hphase)
  have hfits := hi.fits
  simp only [InvalidBlockNumber] at hfits
  refine ⟨hash_spareindex (B + 1), hphase, Nat.lt_succ_iff.mp hbnds.1, hbnds.2, ?_⟩
  rw [bucket_to_blkno, hbef, Nat.mod_eq_of_lt (by omega)]
  rfl

omit hi in
/-- The loop of `bitno_to_blkno` passes exactly the split points with too few pages. -/
theorem splitnumLoop_spec (metap : HashMetaPage) (ovflbitnum fuel i : ℕ) :
    i ≤ splitnumLoop metap ovflbitnum fuel i ∧ splitnumLoop metap ovflbitnum fuel i ≤ i + fuel ∧
      (∀ k, i ≤ k → k < splitnumLoop metap ovflbitnum fuel i → metap.hashm_spares k < ovflbitnum) ∧
      (splitnumLoop metap ovflbitnum fuel i < i + fuel →
        ovflbitnum ≤ metap.hashm_spares (splitnumLoop metap ovflbitnum fuel i)) := by
  induction fuel generalizing i with
  | zero =>
    simp only [splitnumLoop]
    exact ⟨le_rfl, le_rfl, fun k hk hlt => absurd hlt (by omega), fun h => absurd h (by omega)⟩
  | succ fuel ih =>
    simp only [splitnumLoop]
    split
    · rename_i hgt
      obtain ⟨hlo, hhi, hpassed, hstop⟩ := ih (i + 1)
      refine ⟨by omega, by omega, ?_, fun h => hstop (by omega)⟩
      intro k hk hlt
      rcases eq_or_lt_of_le hk with rfl | hk
      · exact hgt
      · exact hpassed k hk hlt
    · rename_i hle
      exact ⟨le_rfl, by omega, fun k hk hlt => absurd hlt (by omega), fun _ => by omega⟩

variable {b : ℕ} {metap' : HashMetaPage}

/-- The block of an overflow page is its position in the layout. -/
theorem secondAt_bitno_to_blkno (hb : b < metap.hashm_spares metap.hashm_ovflpoint) :
    hi.layout.SecondAt (b + 1) (bitno_to_blkno metap b) := by
  obtain ⟨hlo, hhi, hpassed, hstop⟩ := splitnumLoop_spec metap (b + 1) (metap.hashm_ovflpoint - 1) 1
  have hone := hi.one_le
  have hfits := hi.fits
  simp only [bitno_to_blkno]
  generalize splitnumLoop metap (b + 1) (metap.hashm_ovflpoint - 1) 1 = i at *
  have htotal := totalbuckets_strictMono.monotone (show i ≤ metap.hashm_ovflpoint by omega)
  simp only [InvalidBlockNumber] at hfits
  have hupper : b + 1 ≤ metap.hashm_spares i := by
    rcases eq_or_lt_of_le (show i ≤ metap.hashm_ovflpoint by omega) with heq | hlt
    · rw [heq]
      exact hb
    · exact hstop (by omega)
  have hlower : before metap.hashm_spares i < b + 1 := by
    rw [before, if_neg (by omega)]
    rcases eq_or_lt_of_le hlo with heq | hlt
    · rw [← heq, hi.spares_zero]
      omega
    · exact hpassed (i - 1) (by omega) (by omega)
  refine ⟨i, by change i ≤ metap.hashm_ovflpoint; omega, hlower, hupper, ?_⟩
  rw [Nat.mod_eq_of_lt (by omega)]
  rfl

/-- The block of the page behind the last overflow page, or of the second one behind it. -/
theorem bitno_to_blkno_new (hb : metap.hashm_spares metap.hashm_ovflpoint ≤ b) :
    bitno_to_blkno metap b = (hash_get_totalbuckets metap.hashm_ovflpoint + (b + 1)) % 2 ^ 32 := by
  obtain ⟨hlo, hhi, -, hstop⟩ := splitnumLoop_spec metap (b + 1) (metap.hashm_ovflpoint - 1) 1
  have hone := hi.one_le
  simp only [bitno_to_blkno]
  generalize splitnumLoop metap (b + 1) (metap.hashm_ovflpoint - 1) 1 = i at *
  have hlast : i = metap.hashm_ovflpoint := by
    have hspar := hi.spares_le_last (i := i) (by omega)
    omega
  rw [hlast]

/-- The search of `_hash_ovflblkno_to_bitno` finds an overflow page again. -/
theorem bitnoLoop_eq_some {y i : ℕ} (hlast : i ≤ metap.hashm_ovflpoint)
    (hlo : before metap.hashm_spares i < n) (hhi : n ≤ metap.hashm_spares i)
    (hy : y = hash_get_totalbuckets i + n) : ∀ (fuel k : ℕ), 1 ≤ k → k ≤ i → i < k + fuel →
      bitnoLoop metap y fuel k = some (n - 1)
  | 0, k, _, hk, hfuel => absurd hfuel (by omega)
  | fuel + 1, k, hone, hk, hfuel => by
      have htotal := totalbuckets_strictMono.monotone hk
      rw [bitnoLoop, if_neg (by omega)]
      rcases eq_or_lt_of_le hk with rfl | hlt
      · rw [before, if_neg (by omega)] at hlo
        rw [if_pos ⟨by omega, by omega⟩]
        congr 1
        omega
      · have hspar := le_before_of_lt hi.spares_le hlt hlast
        rw [if_neg (by omega)]
        exact bitnoLoop_eq_some hlast hlo hhi hy fuel (k + 1) (by omega) hlt (by omega)

/-- The search of `_hash_ovflblkno_to_bitno` does not find a bucket. -/
theorem bitnoLoop_eq_none {x y : ℕ} (hfirst : hi.layout.FirstAt x y) :
    ∀ (fuel k : ℕ), 1 ≤ k → k + fuel ≤ metap.hashm_ovflpoint + 1 → bitnoLoop metap y fuel k = none
  | 0, _, _, _ => rfl
  | fuel + 1, k, hone, hfuel => by
      have hnot := Layout.firstAt_not_in_second hfirst
        (show k ≤ metap.hashm_ovflpoint by omega)
      simp only [layout, before, if_neg (show k ≠ 0 by omega)] at hnot
      rw [bitnoLoop]
      split
      · rfl
      · rw [if_neg (by omega)]
        exact bitnoLoop_eq_none hfirst fuel (k + 1) (by omega) (by omega)

/-- The bit number of an overflow page comes back from its block. -/
theorem bitno_of_blkno (hb : b < metap.hashm_spares metap.hashm_ovflpoint) :
    hash_ovflblkno_to_bitno metap (bitno_to_blkno metap b) = some b := by
  obtain ⟨i, hlast, hlo, hhi, hy⟩ := hi.secondAt_bitno_to_blkno hb
  have hpos : 1 ≤ i := by
    by_contra hcon
    rw [show i = 0 by omega] at hhi
    exact absurd (hhi.trans_eq hi.spares_zero) (by omega)
  have hfound := hi.bitnoLoop_eq_some hlast hlo hhi hy metap.hashm_ovflpoint 1 le_rfl hpos
    (by change i ≤ metap.hashm_ovflpoint at hlast; omega)
  exact hfound

/-- The block of a bucket is no overflow page. -/
theorem bitno_of_bucket {B : ℕ} (hB : B < hash_get_totalbuckets metap.hashm_ovflpoint) :
    hash_ovflblkno_to_bitno metap (bucket_to_blkno metap B) = none :=
  hi.bitnoLoop_eq_none (hi.firstAt_bucket_to_blkno hB) _ 1 le_rfl (by omega)

/-! ### Steps keep the invariant -/

/-- A table expansion within the phase keeps the invariant. -/
theorem expand_same (hmax : metap'.hashm_maxbucket = metap.hashm_maxbucket + 1)
    (hspare : hash_spareindex (metap.hashm_maxbucket + 2) ≤ metap.hashm_ovflpoint)
    (hspar : metap'.hashm_spares = metap.hashm_spares)
    (hpoint : metap'.hashm_ovflpoint = metap.hashm_ovflpoint) : BlockInv metap' := by
  have hbnds := hash_spareindex_bounds (n := metap.hashm_maxbucket + 1) (by omega)
  have hbnds' := hash_spareindex_bounds (n := metap.hashm_maxbucket + 2) (by omega)
  have htotal := totalbuckets_strictMono.monotone hspare
  rw [hi.phase] at hbnds
  have hphase : hash_spareindex (metap.hashm_maxbucket + 1 + 1) = metap.hashm_ovflpoint :=
    (hash_spareindex_eq_iff (by omega)).mpr ⟨by omega, by omega⟩
  refine ⟨?_, ?_, ?_, ?_, ?_⟩
  · rw [hmax, hpoint, hphase]
  · rw [hpoint]
    exact hi.one_le
  · rw [hspar]
    exact hi.spares_zero
  · rw [hspar, hpoint]
    exact hi.spares_le
  · rw [hspar, hpoint]
    exact hi.fits

/-- The first expansion behind a phase has used up its buckets, and enters the next one. -/
theorem next_phase (hspare : metap.hashm_ovflpoint < hash_spareindex (metap.hashm_maxbucket + 2)) :
    metap.hashm_maxbucket + 1 = hash_get_totalbuckets metap.hashm_ovflpoint ∧
      hash_spareindex (metap.hashm_maxbucket + 2) = metap.hashm_ovflpoint + 1 := by
  have hbnds := hash_spareindex_bounds (n := metap.hashm_maxbucket + 1) (by omega)
  rw [hi.phase] at hbnds
  have hfull : metap.hashm_maxbucket + 1 = hash_get_totalbuckets metap.hashm_ovflpoint := by
    by_contra hne
    have hle : hash_spareindex (metap.hashm_maxbucket + 2) ≤ metap.hashm_ovflpoint :=
      hash_spareindex_le (by omega) (by omega)
    omega
  refine ⟨hfull, (hash_spareindex_eq_iff (by omega)).mpr ⟨?_, ?_⟩⟩
  · rw [before, if_neg (by omega), Nat.add_sub_cancel]
    omega
  · have hlt := totalbuckets_lt_succ metap.hashm_ovflpoint
    omega

omit hi in
/-- The buckets of every phase that an expansion can enter are at most `2 ^ 31`. -/
theorem totalbuckets_expand_le {maxbucket : ℕ} (h : maxbucket < 0x7FFFFFFE) :
    hash_get_totalbuckets (hash_spareindex (maxbucket + 2)) ≤ 2 ^ 31 := by
  have hmax : hash_get_totalbuckets 97 = 2 ^ 31 := totalbuckets_group 21 (q := 3) (by norm_num)
  rw [← hmax]
  exact totalbuckets_strictMono.monotone (hash_spareindex_le (by omega) (by omega))

/-- The check of `_hash_alloc_buckets` keeps the blocks of a new phase valid. -/
theorem fits_of_alloc (hlimit : metap.hashm_maxbucket < 0x7FFFFFFE)
    (hspare : metap.hashm_ovflpoint < hash_spareindex (metap.hashm_maxbucket + 2))
    (halloc : NextPhaseFits metap) :
    hash_get_totalbuckets (hash_spareindex (metap.hashm_maxbucket + 2)) +
      metap.hashm_spares metap.hashm_ovflpoint < InvalidBlockNumber := by
  obtain ⟨hfull, hnext⟩ := hi.next_phase hspare
  have hfits := hi.fits
  have hle := totalbuckets_expand_le hlimit
  simp only [InvalidBlockNumber] at hfits ⊢
  have hfirst : bucket_to_blkno metap (metap.hashm_maxbucket + 1) =
      metap.hashm_maxbucket + 1 + metap.hashm_spares metap.hashm_ovflpoint + 1 := by
    rw [bucket_to_blkno, if_pos (by omega), hnext, Nat.add_sub_cancel, Nat.mod_eq_of_lt (by omega)]
  rw [NextPhaseFits, hash_alloc_buckets] at halloc
  simp only [InvalidBlockNumber, Bool.not_eq_true', Bool.or_eq_false_iff,
    decide_eq_false_iff_not, beq_eq_false_iff_ne] at halloc
  omega

/-- A table expansion that enters a new phase keeps the invariant. -/
theorem expand_next (hlimit : metap.hashm_maxbucket < 0x7FFFFFFE)
    (hmax : metap'.hashm_maxbucket = metap.hashm_maxbucket + 1)
    (hspare : metap.hashm_ovflpoint < hash_spareindex (metap.hashm_maxbucket + 2))
    (halloc : NextPhaseFits metap) (hspar : metap'.hashm_spares = update metap.hashm_spares
      (hash_spareindex (metap.hashm_maxbucket + 2)) (metap.hashm_spares metap.hashm_ovflpoint))
    (hpoint : metap'.hashm_ovflpoint = hash_spareindex (metap.hashm_maxbucket + 2)) :
    BlockInv metap' := by
  have hfits := hi.fits_of_alloc hlimit hspare halloc
  obtain ⟨-, hnext⟩ := hi.next_phase hspare
  rw [hnext] at hspar hpoint hfits
  refine ⟨?_, by omega, ?_, ?_, ?_⟩
  · rw [hmax, hpoint, ← hnext]
  · rw [hspar]
    exact hi.spares_zero
  · intro i hlt
    rw [hpoint] at hlt
    rw [hspar, update_of_ne (by omega)]
    rcases eq_or_lt_of_le (Nat.lt_succ_iff.mp hlt) with rfl | hlt
    · rw [update_self]
    · rw [update_of_ne (by omega)]
      exact hi.spares_le i hlt
  · rw [hpoint, hspar, update_self]
    exact hfits

/-- Raising the spares at the overflow point keeps the invariant while the blocks are
valid. -/
theorem raise_spares (hmax : metap'.hashm_maxbucket = metap.hashm_maxbucket)
    (hpoint : metap'.hashm_ovflpoint = metap.hashm_ovflpoint)
    (hspar : metap'.hashm_spares = update metap.hashm_spares metap.hashm_ovflpoint n)
    (hle : metap.hashm_spares metap.hashm_ovflpoint ≤ n)
    (hfits : hash_get_totalbuckets metap.hashm_ovflpoint + n < InvalidBlockNumber) :
    BlockInv metap' := by
  have hone := hi.one_le
  refine ⟨?_, by omega, ?_, ?_, ?_⟩
  · rw [hmax, hpoint, hi.phase]
  · rw [hspar, update_of_ne (by omega)]
    exact hi.spares_zero
  · intro i hlt
    rw [hpoint] at hlt
    have hstep := hi.spares_le i hlt
    rw [hspar, update_of_ne (by omega)]
    by_cases hend : i + 1 = metap.hashm_ovflpoint
    · rw [hend, update_self]
      rw [hend] at hstep
      omega
    · rw [update_of_ne hend]
      exact hstep
  · rw [hpoint, hspar, update_self]
    exact hfits

/-- `_hash_addovflpage` keeps the invariant: the file grows by one page, or by a bitmap page
and one page, and both must have a valid block number. -/
theorem addovflpage {found : Option ℕ} {unmoved : Bool} {bits : List ℕ}
    (h : hash_addovflpage metap found unmoved = some (bits, metap')) : BlockInv metap' := by
  have hfits := hi.fits
  obtain ⟨hmasks, hpoint, ⟨bit, -, -, hspar⟩ | ⟨last, hlow, hhigh, hmem, hblk, hspar⟩⟩ :=
    hash_addovflpage_cases h
  · have hmax : metap'.hashm_maxbucket = metap.hashm_maxbucket :=
      congrArg LinearHashing.Masks.maxBucket hmasks
    exact ⟨by rw [hmax, hpoint]; exact hi.phase, by rw [hpoint]; exact hi.one_le,
      by rw [hspar]; exact hi.spares_zero, by rw [hspar, hpoint]; exact hi.spares_le,
      by rw [hspar, hpoint]; exact hi.fits⟩
  · have hfirst := hblk _ ((hmem _).mpr ⟨le_rfl, hlow⟩)
    have hlast := hblk _ ((hmem _).mpr ⟨hlow, le_rfl⟩)
    rw [hi.bitno_to_blkno_new le_rfl] at hfirst
    rw [hi.bitno_to_blkno_new hlow] at hlast
    refine hi.raise_spares (congrArg LinearHashing.Masks.maxBucket hmasks) hpoint hspar
      (by omega) ?_
    simp only [InvalidBlockNumber] at hfits hfirst hlast ⊢
    omega

end BlockInv

/-- The invariant holds along every run. -/
theorem blockInv_of_reachable {s : HashIndex} (h : s.Reachable) : BlockInv s.metap := by
  induction h with
  | init bsize dnumbuckets => exact blockInv_hash_init bsize dnumbuckets
  | @step s _ _ hstep hi =>
    cases hstep with
    | expand hfree hexp =>
      obtain ⟨hlimit, hmasks, hcases⟩ := hash_expand_metapage_cases hexp
      have hmax := congrArg LinearHashing.Masks.maxBucket hmasks
      rw [LinearHashing.Masks.Valid.maxBucket_grow] at hmax
      rcases hcases with ⟨hspare, hspar, hpoint⟩ | ⟨hspare, halloc, hspar, hpoint⟩
      · exact hi.expand_same hmax hspare hspar hpoint
      · exact hi.expand_next hlimit hmax hspare halloc hspar hpoint
    | finishSplit split => exact hi
    | addOvflPage found unmoved _ hadd => exact hi.addovflpage hadd

/-- The bits that `_hash_addovflpage` hands out are the next ones, if the page was not found. -/
theorem mem_bits_of_addovflpage {found : Option ℕ} {unmoved : Bool} {bits : List ℕ}
    (hfound : ∀ bit ∈ found, bit < metap.hashm_spares metap.hashm_ovflpoint)
    (h : hash_addovflpage metap found unmoved = some (bits, metap')) (b : ℕ) :
    b ∈ bits ∨ b < metap.hashm_spares metap.hashm_ovflpoint ↔
      b < metap'.hashm_spares metap'.hashm_ovflpoint := by
  obtain ⟨-, hpoint, ⟨bit, rfl, rfl, hspar⟩ | ⟨last, hlow, -, hmem, -, hspar⟩⟩ :=
    hash_addovflpage_cases h
  · have hlt := hfound bit rfl
    rw [hspar, hpoint, List.mem_singleton]
    exact ⟨fun h => h.elim (fun heq => heq ▸ hlt) id, .inr⟩
  · rw [hspar, hpoint, update_self, hmem]
    omega

/-- **The bits that were handed out are all bits below the number of overflow pages.** -/
theorem mem_bits_of_reachable {s : HashIndex} (h : s.Reachable) (b : ℕ) :
    b ∈ s.bits ↔ b < s.metap.hashm_spares s.metap.hashm_ovflpoint := by
  induction h with
  | init bsize dnumbuckets =>
    simp only [hash_init, hash_init_metabuffer, update_self, List.mem_singleton]
    omega
  | @step s _ hreach hstep ih =>
    cases hstep with
    | expand hfree hexp =>
      obtain ⟨-, -, ⟨-, hspar, hpoint⟩ | ⟨-, -, hspar, hpoint⟩⟩ := hash_expand_metapage_cases hexp
      · simp only [hspar, hpoint]
        exact ih
      · simp only [hspar, hpoint, update_self]
        exact ih
    | finishSplit split => exact ih
    | addOvflPage found unmoved hfound hadd =>
      rw [List.mem_append, ih]
      exact mem_bits_of_addovflpage hfound hadd b

/-! ### The file -/

/-- The block of a page of the index: of a bucket on the left, of an overflow or bitmap page
on the right. -/
def HashMetaPage.pageBlock (metap : HashMetaPage) : ℕ ⊕ ℕ → ℕ
  | .inl bucket => bucket_to_blkno metap bucket
  | .inr ovflbitnum => bitno_to_blkno metap ovflbitnum

/-- The pages of the index: the buckets allocated up to the current split point, and the
overflow bit numbers handed out. -/
def HashMetaPage.allocated (metap : HashMetaPage) : Set (ℕ ⊕ ℕ) :=
  Sum.elim (fun bucket => bucket < hash_get_totalbuckets metap.hashm_ovflpoint)
    (fun ovflbitnum => ovflbitnum < metap.hashm_spares metap.hashm_ovflpoint)

/-- No two allocated pages have one block. -/
theorem BlockInv.pageBlock_injOn (hi : BlockInv metap) :
    Set.InjOn metap.pageBlock metap.allocated := by
  rintro (B | b) hp (B' | b') hp' heq
  · have hfirst := hi.firstAt_bucket_to_blkno hp
    have hfirst' := hi.firstAt_bucket_to_blkno hp'
    simp only [HashMetaPage.pageBlock] at heq
    rw [← heq] at hfirst'
    rw [Layout.firstAt_inj hfirst hfirst']
  · exact absurd heq (Layout.firstAt_ne_secondAt (hi.firstAt_bucket_to_blkno hp)
      (hi.secondAt_bitno_to_blkno hp'))
  · exact absurd heq.symm (Layout.firstAt_ne_secondAt (hi.firstAt_bucket_to_blkno hp')
      (hi.secondAt_bitno_to_blkno hp))
  · have hsec := hi.secondAt_bitno_to_blkno hp
    have hsec' := hi.secondAt_bitno_to_blkno hp'
    simp only [HashMetaPage.pageBlock] at heq
    rw [← heq] at hsec'
    rw [add_right_cancel (Layout.secondAt_inj hsec hsec')]

/-- The allocated pages fill the file behind the metapage. -/
theorem BlockInv.image_pageBlock (hi : BlockInv metap) :
    metap.pageBlock '' metap.allocated = Set.Icc 1 (hash_get_totalbuckets metap.hashm_ovflpoint +
        metap.hashm_spares metap.hashm_ovflpoint) := by
  ext y
  constructor
  · rintro ⟨B | b, hp, rfl⟩
    · exact (Layout.firstAt_mem_Icc (hi.firstAt_bucket_to_blkno hp)).2
    · exact (Layout.secondAt_mem_Icc (hi.secondAt_bitno_to_blkno hp)).2.2
  · rintro ⟨hpos, hle⟩
    rcases Layout.exists_item (L := hi.layout) hpos hle with ⟨B, hfirst⟩ | ⟨n, hsec⟩
    · have hB := (Layout.firstAt_mem_Icc hfirst).1
      exact ⟨.inl B, hB, Layout.firstAt_fun (hi.firstAt_bucket_to_blkno hB) hfirst⟩
    · obtain ⟨hn, hlast, -⟩ := Layout.secondAt_mem_Icc hsec
      have hb : n - 1 < metap.hashm_spares metap.hashm_ovflpoint := by
        change n ≤ metap.hashm_spares metap.hashm_ovflpoint at hlast
        omega
      have hblock := hi.secondAt_bitno_to_blkno hb
      rw [Nat.sub_add_cancel hn] at hblock
      exact ⟨.inr (n - 1), hb, Layout.secondAt_fun hblock hsec⟩

/-- **Pages never collide.** In every reachable index, the blocks of the allocated buckets and
of the overflow pages handed out are distinct and are exactly the blocks from 1 to the number
of both; the bit number of an overflow page comes back from its block, and the block of a
bucket is rejected. The bit numbers that were handed out in the run are those that the metapage
counts. -/
theorem hash_index_pages_disjoint {s : HashIndex} (h : s.Reachable) :
    Set.InjOn s.metap.pageBlock s.metap.allocated ∧
      (∀ page ∈ s.metap.allocated, s.metap.pageBlock page ≠ 0) ∧
      s.metap.pageBlock '' s.metap.allocated =
        Set.Icc 1 (hash_get_totalbuckets s.metap.hashm_ovflpoint +
          s.metap.hashm_spares s.metap.hashm_ovflpoint) ∧
      (∀ b < s.metap.hashm_spares s.metap.hashm_ovflpoint,
        hash_ovflblkno_to_bitno s.metap (bitno_to_blkno s.metap b) = some b) ∧
      (∀ B < hash_get_totalbuckets s.metap.hashm_ovflpoint,
        hash_ovflblkno_to_bitno s.metap (bucket_to_blkno s.metap B) = none) ∧
      ∀ b, b ∈ s.bits ↔ b < s.metap.hashm_spares s.metap.hashm_ovflpoint := by
  have hi := blockInv_of_reachable h
  refine ⟨hi.pageBlock_injOn, ?_, hi.image_pageBlock, fun b hb => hi.bitno_of_blkno hb,
    fun B hB => hi.bitno_of_bucket hB, mem_bits_of_reachable h⟩
  intro page hp hzero
  have hmem := hi.image_pageBlock.subset (Set.mem_image_of_mem _ hp)
  exact absurd hmem.1 (by omega)

/-- A new index of two buckets with one overflow page, before and after an expansion and with
another overflow page behind it. -/
def withOvflPage : HashMetaPage :=
  ((hash_addovflpage (hash_init 8152 0) none true).map Prod.snd).getD (hash_init 8152 0)

def withOvflPageExpanded : HashMetaPage := (hash_expand_metapage withOvflPage).getD withOvflPage

def withTwoOvflPages : HashMetaPage :=
  ((hash_addovflpage withOvflPageExpanded none true).map Prod.snd).getD withOvflPageExpanded

theorem withTwoOvflPages_reachable :
    HashIndex.Reachable ⟨withTwoOvflPages, [(0, 2)], [2, 1, 0]⟩ := by
  have hadd : hash_addovflpage (hash_init 8152 0) none true = some ([1], withOvflPage) := rfl
  have hadd' : hash_addovflpage withOvflPageExpanded none true = some ([2], withTwoOvflPages) := rfl
  have hfirst := (HashIndex.Reachable.init 8152 0).step (.addOvflPage none true (by simp) hadd)
  have hexpand : HashIndex.Reachable ⟨withOvflPageExpanded, [(0, 2)], [1, 0]⟩ :=
    hfirst.step (.expand (fun new => List.not_mem_nil) rfl)
  have hsecond := hexpand.step (.addOvflPage none true (by simp) hadd')
  exact hsecond

/-- The pages of that index take the blocks 1 to 7. The last overflow page is in block 7, with
bit number 2, and block 5, of the bucket that the expansion has added, is not an overflow page. -/
theorem withTwoOvflPages_disjoint :
    withTwoOvflPages.pageBlock '' withTwoOvflPages.allocated = Set.Icc 1 7 ∧
      bitno_to_blkno withTwoOvflPages 2 = 7 ∧ hash_ovflblkno_to_bitno withTwoOvflPages 7 = some 2 ∧
      bucket_to_blkno withTwoOvflPages 2 = 5 ∧
      hash_ovflblkno_to_bitno withTwoOvflPages 5 = none := by
  obtain ⟨-, -, himage, hbits, hbuckets, -⟩ := hash_index_pages_disjoint withTwoOvflPages_reachable
  have hbit : bitno_to_blkno withTwoOvflPages 2 = 7 := rfl
  have hbucket : bucket_to_blkno withTwoOvflPages 2 = 5 := rfl
  refine ⟨himage, hbit, ?_, hbucket, ?_⟩
  · rw [← hbit]
    exact hbits 2 (Nat.lt_succ_self 2)
  · rw [← hbucket]
    exact hbuckets 2 (show 2 < 4 by decide)

end FdPostgres
