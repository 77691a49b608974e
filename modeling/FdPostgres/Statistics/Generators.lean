import FdPostgres.Lib.Combinations
import FdPostgres.Statistics.Serialize

/-!
# Candidate Dependencies and Column Combinations

`ANALYZE` goes over all candidate dependencies of a given number of columns, and over all
combinations of columns for which it stores an ndistinct coefficient. Both are enumerated beforehand
by a recursion over a shared buffer, into arrays whose sizes are computed by closed formulas.

A request for memory can be refused. An access outside an array is undefined, and so is a counter
that does not fit its type. The products of `n_choose_k` are of type `int` and wrap around.

* `dependency_generator_exact`: **each dependency is returned once**, and nothing else.
* `ndistinct_build_exact`: **when the combinations are exact**: binomial coefficients by exact
  divisions, each subset once in lexicographic order, and the array of items filled to its last
  place with the items of all combinations.
-/

namespace FdPostgres.Statistics

open Combinations List

/-! ### Candidate dependencies -/

/-- `DependencyGeneratorData`, with a row of the array for each dependency. The number of rows is an
`AttrNumber`. -/
structure DependencyGenerator where
  k : ℕ
  n : ℕ
  current : ℕ
  dependencies : List (List ℕ)

/-- The array is requested anew for each dependency, and the counter must stay below `2 ^ 15`. -/
def growDependencies (k ndependencies : ℕ) : Except MemoryError Unit := do
  palloc (k * ndependencies * 2)
  if ndependencies < 2 ^ 15 then pure () else throw .undefined

/-- The last loop of `generate_dependencies_recurse`: every value that is not among the first
ones. -/
def addImplied (n k : ℕ) (current : List ℕ) (rows : List (List ℕ)) :
    Except MemoryError (List ℕ × List (List ℕ)) :=
  (range n).foldlM (fun (r : List ℕ × List (List ℕ)) i =>
    let current := r.1.set (k - 1) i
    if (current.take (k - 1)).contains i then .ok (current, r.2)
    else (addRow (growDependencies k) r.2 current).map (current, ·)) (current, rows)

variable (n k : ℕ)

def generate_dependencies_recurse :=
  forAscending (addImplied n k) n (k - 1)

/-- Both the array for the first dependency and the buffer `current` take `k` attribute numbers. -/
def DependencyGenerator_init : Except MemoryError DependencyGenerator := do
  palloc (k * 2)
  let (_, dependencies) ← generate_dependencies_recurse n k 0 0 (replicate k 0) []
  pure ⟨k, n, 0, dependencies⟩

def DependencyGenerator_next (g : DependencyGenerator) : Option (List ℕ) × DependencyGenerator :=
  if g.current = g.dependencies.length then (none, g)
  else (g.dependencies[g.current]?, { g with current := g.current + 1 })

/-- What the call number `j` returns, counted from 0. -/
def DependencyGenerator.call (g : DependencyGenerator) (j : ℕ) : Option (List ℕ) :=
  (DependencyGenerator_next ((fun g => (DependencyGenerator_next g).2)^[j] g)).1

/-- The dependencies whose first columns are given. -/
def implied (n : ℕ) (first : List ℕ) : List (List ℕ) :=
  ((range n).filter fun i => !first.contains i).map fun i => first ++ [i]

/-- The last loop adds the dependencies whose first columns are in the buffer. -/
theorem addImplied_eq (n : ℕ) {k : ℕ} (hk : 0 < k) (current : List ℕ) (rows : List (List ℕ))
    (hcur : current.length = k) :
    ∃ current', current'.length = k ∧ current'.take (k - 1) = current.take (k - 1) ∧
      addImplied n k current rows =
        ((implied n (current.take (k - 1))).foldlM (addRow (growDependencies k)) rows).map
          (current', ·) := by
  rw [addImplied, implied]
  generalize range n = is
  induction is generalizing current rows with
  | nil => exact ⟨current, hcur, rfl, rfl⟩
  | cons i is ih =>
    have hfirst : (current.set (k - 1) i).take (k - 1) = current.take (k - 1) :=
      take_set_of_le le_rfl
    have hrow : current.set (k - 1) i = current.take (k - 1) ++ [i] := by
      rw [set_eq_take_append_cons_drop, if_pos (by omega), drop_eq_nil_of_le (by omega)]
    have hlen : (current.set (k - 1) i).length = k := by rwa [length_set]
    rw [foldlM_cons, filter_cons]
    dsimp only
    rw [hfirst]
    have hrest := fun rows => ih (current.set (k - 1) i) rows hlen
    simp only [hfirst] at hrest
    by_cases hi : (current.take (k - 1)).contains i
    · rw [hi]
      exact hrest rows
    · rw [Bool.eq_false_iff.mpr hi, Bool.not_false, if_pos rfl, map_cons,
        foldlM_cons, ← hrow]
      cases addRow (growDependencies k) rows (current.set (k - 1) i) with
      | error e => exact ⟨current, hcur, rfl, rfl⟩
      | ok rows => exact hrest rows

/-- All candidate dependencies. -/
def allDependencies : List (List ℕ) := (ascending n (k - 1) 0).flatMap (implied n)

theorem mem_allDependencies {n k : ℕ} {row : List ℕ} :
    row ∈ allDependencies n k ↔ ∃ S z, row = S ++ [z] ∧ S.length = k - 1 ∧ S.Pairwise (· < ·) ∧
      (∀ x ∈ S, x < n) ∧ z < n ∧ z ∉ S := by
  simp only [allDependencies, mem_flatMap, mem_ascending, implied, mem_map,
    mem_filter, mem_range, Bool.not_eq_true', contains_eq_mem, decide_eq_false_iff_not]
  constructor
  · rintro ⟨S, ⟨hlen, hasc, hS⟩, z, ⟨hz, hzS⟩, rfl⟩
    exact ⟨S, z, rfl, hlen, hasc, fun x hx => (hS x hx).2, hz, hzS⟩
  · rintro ⟨S, z, rfl, hlen, hasc, hS, hz, hzS⟩
    exact ⟨S, ⟨hlen, hasc, fun x hx => ⟨Nat.zero_le x, hS x hx⟩⟩, z, ⟨hz, hzS⟩, rfl⟩

theorem nodup_allDependencies : (allDependencies n k).Nodup := by
  refine nodup_flatMap.mpr ⟨fun S _ => (nodup_range.filter _).map fun i j h => ?_,
    (pairwise_ascending (k - 1) 0).imp fun {S T} hST => ?_⟩
  · exact singleton_inj.mp (append_cancel_left h)
  · intro row hS hT
    obtain ⟨i, -, rfl⟩ := mem_map.mp hS
    obtain ⟨j, -, hj⟩ := mem_map.mp hT
    exact absurd (append_inj_left' hj rfl) (Ne.symm (ne_of_lt hST))

/-- The calls return the rows one after the other. -/
theorem DependencyGenerator.call_eq {n k : ℕ} (rows : List (List ℕ)) (j : ℕ) :
    (⟨k, n, 0, rows⟩ : DependencyGenerator).call j = rows[j]? := by
  have hstate : (fun g => (DependencyGenerator_next g).2)^[j] ⟨k, n, 0, rows⟩ =
      ⟨k, n, min j rows.length, rows⟩ := by
    induction j with
    | zero => simp
    | succ j ih =>
      rw [Function.iterate_succ_apply', ih, DependencyGenerator_next]
      split
      · rename_i h
        simp only at h
        rw [show min (j + 1) rows.length = min j rows.length by omega]
      · rename_i h
        simp only at h
        rw [show min (j + 1) rows.length = min j rows.length + 1 by omega]
  rw [call, hstate, DependencyGenerator_next]
  split
  · rename_i h
    exact (getElem?_eq_none (by simp only at h; omega)).symm
  · rename_i h
    simp only at h
    rw [show min j rows.length = j by omega]

/-- The rows are those of all candidate dependencies, appended in order. -/
theorem generate_dependencies_recurse_eq {k : ℕ} (hk : 0 < k) :
    ∃ current, generate_dependencies_recurse n k 0 0 (replicate k 0) [] =
      ((allDependencies n k).foldlM (addRow (growDependencies k)) []).map (current, ·) := by
  obtain ⟨current, -, -, heq⟩ := forAscending_eq (addImplied n k)
    (fun rows first => (implied n first).foldlM (addRow (growDependencies k)) rows) n
    (fun current rows => addImplied_eq n hk current rows) (Nat.sub_le k 1) (k - 1) 0 0
    (replicate k 0) [] (zero_add _) length_replicate
  refine ⟨current, ?_⟩
  rw [generate_dependencies_recurse, heq]
  simp only [take_zero, nil_append, map_id']
  exact congrArg (Except.map _) (foldlM_bind (addRow (growDependencies k))
    (fun S => .ok (implied n S)) (implied n) (fun _ _ => rfl) [])

/-- **Candidate dependencies are enumerated completely and without repetition**: as long as their
number fits the counter and the memory for them can be requested, the calls return the arrays of an
ascending list of `k - 1` columns and one further column, each of them once. If the memory cannot be
requested, that is what `DependencyGenerator_init` reports. -/
theorem dependency_generator_exact (n k : ℕ) (hk : 2 ≤ k)
    (hcount : (allDependencies n k).length < 2 ^ 15) :
    (allDependencies n k).Nodup ∧
      (∀ row, row ∈ allDependencies n k ↔ ∃ S z, row = S ++ [z] ∧ S.length = k - 1 ∧
        S.Pairwise (· < ·) ∧ (∀ x ∈ S, x < n) ∧ z < n ∧ z ∉ S) ∧
      if k * max 1 (allDependencies n k).length * 2 ≤ MaxAllocSize then
        ∃ g, DependencyGenerator_init n k = .ok g ∧ ∀ j, g.call j = (allDependencies n k)[j]?
      else ∃ size, DependencyGenerator_init n k = .error (.invalidAlloc size) := by
  refine ⟨nodup_allDependencies n k, fun row => mem_allDependencies, ?_⟩
  obtain ⟨current, heq⟩ := generate_dependencies_recurse_eq n (k := k) (by omega)
  generalize allDependencies n k = rows at hcount heq ⊢
  rw [DependencyGenerator_init, heq]
  by_cases hfirst : k * 2 ≤ MaxAllocSize
  · rw [palloc_of_le hfirst]
    rcases foldlM_addRow (growDependencies k) rows [] with
      ⟨hfold, hall⟩ | ⟨i, e, hi, hle, he, hfold⟩
    · rw [hfold, nil_append]
      have hmem : k * max 1 rows.length * 2 ≤ MaxAllocSize := by
        rcases rows.length.eq_zero_or_pos with hzero | hpos
        · simpa [hzero] using hfirst
        · have hlast := hall rows.length hpos (by simp)
          rw [max_eq_right hpos]
          by_contra hlt
          rw [growDependencies, palloc_of_lt (Nat.not_le.mp hlt)] at hlast
          cases hlast
      rw [if_pos hmem]
      exact ⟨⟨k, n, 0, rows⟩, rfl, fun j => DependencyGenerator.call_eq rows j⟩
    · rw [length_nil, zero_add] at hle
      have hlt : MaxAllocSize < k * i * 2 := by
        by_contra hfits
        rw [growDependencies, palloc_of_le (Nat.not_lt.mp hfits)] at he
        simp only [bind, Except.bind, if_pos (show i < 2 ^ 15 by omega)] at he
        cases he
      have hsize : growDependencies k i = .error (.invalidAlloc (k * i * 2)) := by
        rw [growDependencies, palloc_of_lt hlt]
        rfl
      have hgrow : k * i * 2 ≤ k * max 1 rows.length * 2 := by gcongr; omega
      obtain rfl := Except.error.inj (he.symm.trans hsize)
      rw [if_neg (by omega), hfold]
      exact ⟨_, rfl⟩
  · have hgrow : k * 1 * 2 ≤ k * max 1 rows.length * 2 := by gcongr; omega
    rw [palloc_of_lt (Nat.not_le.mp hfirst), if_neg (by omega)]
    exact ⟨_, rfl⟩

/-- The twelve dependencies of one out of four columns on two others. -/
theorem dependency_generator_exact_four :
    ∃ g, DependencyGenerator_init 4 3 = .ok g ∧ ∀ j, g.call j = (allDependencies 4 3)[j]? := by
  have h := (dependency_generator_exact 4 3 (by decide) (by decide)).2.2
  rwa [if_pos (by decide)] at h

/-! ### Combinations -/

/-- One turn of the loop of `n_choose_k`, on its variables `d`, `n` and `r`. -/
def chooseTurn : ℕ × ℕ × ℤ → ℕ × ℕ × ℤ
  | (d, n, r) => (d + 1, n - 1, ((r * n).bmod (2 ^ 32)).tdiv d)

/-- The variables after a number of turns. -/
def chooseTurns (n : ℕ) : ℕ → ℕ × ℕ × ℤ
  | 0 => (1, n, 1)
  | turns + 1 => chooseTurn (chooseTurns n turns)

def n_choose_k : ℤ := (chooseTurns n (min k (n - k))).2.2

/-- The shift is undefined if the result does not fit an `int`. -/
def num_combinations (n : ℕ) : Except MemoryError ℕ :=
  if n < 31 then .ok (2 ^ n - (n + 1)) else .error .undefined

/-- The places of an array. -/
def places (size count : ℕ) : Except MemoryError Unit :=
  if count ≤ size then .ok () else .error .undefined

def generate_combinations_recurse (n k size : ℕ) :=
  forAscending (fun current rows => (addRow (places size) rows current).map (current, ·)) n k

/-- The generator for `k` out of `n` columns, as the rows that `generator_next` returns until their
number is reached. The size of the array is computed in 64 unsigned bits, so that a negative number
of combinations is refused. A row that was not filled must not be read. -/
def generator_init : Except MemoryError (List (List ℕ)) := do
  let ncombinations := n_choose_k n k
  let size := (4 * k * ncombinations % 2 ^ 64).toNat
  palloc size
  let (_, combinations) ←
    generate_combinations_recurse n k (size / (4 * k)) 0 0 (replicate k 0) []
  if combinations.length = ncombinations then pure combinations else throw .undefined

/-- The items of `statext_ndistinct_build` for columns with the given numbers and with the given
estimates. An `MVNDistinctItem` has 24 bytes. -/
def statext_ndistinct_build (n : ℕ) (attnums : ℕ → AttrNumber)
    (ndistinct_for_combination : List ℕ → BitVec 64) : Except MemoryError (List StatItem) := do
  let numcombs ← num_combinations n
  palloc (16 + numcombs * 24)
  (range' 2 (n - 1)).foldlM (fun items k => do
    let combinations ← generator_init n k
    (combinations.map fun combination =>
      ⟨ndistinct_for_combination combination, combination.map attnums⟩).foldlM
        (addRow (places numcombs)) items) []

/-- The last product in `n_choose_k` fits an `int`. -/
def FitsInt : Prop := min k (n - k) * n.choose k < 2 ^ 31

variable {n k : ℕ}

/-- Up to the middle, the binomial coefficients grow. -/
theorem choose_le_choose {i j : ℕ} (hij : i ≤ j) (hj : j ≤ n / 2) : n.choose i ≤ n.choose j := by
  induction j, hij using Nat.le_induction with
  | base => exact le_rfl
  | succ j _ ih => exact (ih (by omega)).trans (Nat.choose_le_succ_of_lt_half_left (by omega))

theorem choose_min (hk : k ≤ n) : n.choose (min k (n - k)) = n.choose k := by
  rcases le_total k (n - k) with h | h
  · rw [min_eq_left h]
  · rw [min_eq_right h, Nat.choose_symm hk]

/-- All products fit if the last one does. -/
theorem FitsInt.product_lt {i : ℕ} (hk : k ≤ n) (hfit : FitsInt n k) (hi : i < min k (n - k)) :
    n.choose i * (n - i) < 2 ^ 31 := by
  calc n.choose i * (n - i) = n.choose (i + 1) * (i + 1) := (Nat.choose_succ_right_eq n i).symm
    _ ≤ n.choose (min k (n - k)) * min k (n - k) :=
        Nat.mul_le_mul (choose_le_choose hi (by omega)) hi
    _ < 2 ^ 31 := by rwa [choose_min hk, mul_comm]

/-- After `i` turns the variables hold `i + 1`, `n - i` and a binomial coefficient. -/
theorem chooseTurns_eq {i : ℕ} (hk : k ≤ n) (hfit : FitsInt n k) (hi : i ≤ min k (n - k)) :
    chooseTurns n i = (i + 1, n - i, ↑(n.choose i)) := by
  induction i with
  | zero => simp [chooseTurns]
  | succ i ih =>
    have hlt := hfit.product_lt hk hi
    rw [chooseTurns, ih (by omega), chooseTurn, ← Nat.cast_mul, Int.bmod_eq_of_le (by omega)
      (by omega), ← Int.ofNat_tdiv, ← Nat.choose_succ_right_eq, Nat.mul_div_cancel _ (by omega)]
    rfl

theorem chooseTurns_fst (n i : ℕ) : (chooseTurns n i).1 = i + 1 := by
  induction i with
  | zero => rfl
  | succ i ih => exact congrArg (· + 1) ih

/-- A quotient of an `int` that is not negative, times the divisor, is an `int`. -/
theorem mul_lt_of_bmod_tdiv {x : ℤ} {d q : ℕ} (hd : 0 < d)
    (h : (x.bmod (2 ^ 32)).tdiv d = q) : d * q < 2 ^ 31 := by
  have hlt : x.bmod (2 ^ 32) < 2 ^ 31 := Int.bmod_lt (by decide)
  rcases le_or_gt 0 (x.bmod (2 ^ 32)) with hpos | hneg
  · rw [Int.tdiv_eq_ediv_of_nonneg hpos] at h
    have hle := Int.ediv_mul_le (x.bmod (2 ^ 32)) (show (d : ℤ) ≠ 0 by omega)
    rw [h, mul_comm] at hle
    exact_mod_cast hle.trans_lt hlt
  · have hquot := Int.tdiv_nonneg (neg_nonneg.mpr hneg.le) (Int.natCast_nonneg d)
    rw [Int.neg_tdiv, h] at hquot
    have hzero : q = 0 := by omega
    simp [hzero]

/-- **The binomial coefficient is right exactly if the last product fits.** -/
theorem n_choose_k_eq_iff (hk : k ≤ n) : n_choose_k n k = n.choose k ↔ FitsInt n k := by
  constructor
  · intro h
    rw [FitsInt]
    cases hturns : min k (n - k) with
    | zero => simp
    | succ d =>
      rw [n_choose_k, hturns, chooseTurns, chooseTurn, chooseTurns_fst] at h
      exact mul_lt_of_bmod_tdiv d.succ_pos h
  · intro hfit
    rw [n_choose_k, chooseTurns_eq hk hfit le_rfl, choose_min hk]

/-- The array that is granted for the combinations has the places of all of them only if they fit
into what can be requested; then no product of `n_choose_k` has wrapped around. -/
theorem FitsInt.of_alloc (h : 4 * k * n.choose k ≤ MaxAllocSize) : FitsInt n k := by
  have hle : min k (n - k) * n.choose k ≤ k * n.choose k :=
    Nat.mul_le_mul_right _ (min_le_left _ _)
  rw [mul_assoc] at h
  simp only [FitsInt, MaxAllocSize] at h ⊢
  omega

/-- As many rows as there are places, or fewer. -/
theorem foldlM_places {α : Type} {l : List α} {size : ℕ} (h : l.length ≤ size) :
    l.foldlM (addRow (places size)) [] = .ok l :=
  foldlM_addRow_ok fun i _ hi => if_pos (by rw [length_nil] at hi; omega)

/-- The recursion appends the combinations in lexicographic order. -/
theorem generate_combinations_recurse_eq (n k size : ℕ) :
    ∃ current, generate_combinations_recurse n k size 0 0 (replicate k 0) [] =
      ((ascending n k 0).foldlM (addRow (places size)) []).map (current, ·) := by
  obtain ⟨current, -, -, heq⟩ := forAscending_eq
    (fun current rows => (addRow (places size) rows current).map (current, ·))
    (addRow (places size)) n (fun current rows hcur => ⟨current, hcur, rfl, by
      rw [take_of_length_le (by omega)]⟩) (le_refl k) k 0 0 (replicate k 0) []
    (zero_add k) length_replicate
  simp only [take_zero, nil_append, map_id'] at heq
  exact ⟨current, heq⟩

theorem generator_init_eq (hk : 2 ≤ k) (hkn : k ≤ n) (h : 4 * k * n.choose k ≤ MaxAllocSize) :
    generator_init n k = .ok (ascending n k 0) := by
  have hlen : (ascending n k 0).length = n.choose k := length_ascending k 0
  have hsize : (4 * (k : ℤ) * n_choose_k n k % 2 ^ 64).toNat = 4 * k * n.choose k := by
    have hcast : 4 * (k : ℤ) * n.choose k = (4 * k * n.choose k : ℕ) := by push_cast; rfl
    rw [(n_choose_k_eq_iff hkn).mpr (.of_alloc h), hcast]
    simp only [MaxAllocSize] at h
    omega
  obtain ⟨current, heq⟩ := generate_combinations_recurse_eq n k (n.choose k)
  rw [foldlM_places hlen.le] at heq
  simp only [generator_init, hsize, palloc_of_le h,
    Nat.mul_div_cancel_left _ (show 0 < 4 * k by omega), heq]
  simp [bind, Except.bind, Except.map, pure, Except.pure, hlen,
    (n_choose_k_eq_iff hkn).mpr (.of_alloc h)]

/-- A generator returns rows only if the array for all combinations can be requested. -/
theorem alloc_of_generator_init {rows : List (List ℕ)} (hk : 2 ≤ k) (hkn : k ≤ n)
    (h : generator_init n k = .ok rows) : 4 * k * n.choose k ≤ MaxAllocSize := by
  rw [generator_init] at h
  generalize (4 * (k : ℤ) * n_choose_k n k % 2 ^ 64).toNat = size at h
  by_cases hsize : size ≤ MaxAllocSize
  · obtain ⟨current, heq⟩ := generate_combinations_recurse_eq n k (size / (4 * k))
    have hlen : (ascending n k 0).length = n.choose k := length_ascending k 0
    rcases foldlM_addRow (places (size / (4 * k))) (ascending n k 0) [] with
      ⟨-, hall⟩ | ⟨i, e, -, -, -, hfold⟩
    · have hplaces := hall (n.choose k) (Nat.choose_pos hkn) (by rw [hlen, length_nil]; omega)
      have hle : n.choose k ≤ size / (4 * k) := by
        by_contra hlt
        rw [places, if_neg hlt] at hplaces
        cases hplaces
      exact ((Nat.le_div_iff_mul_le (by omega)).mp hle |>.trans_eq' (mul_comm _ _)).trans hsize
    · rw [palloc_of_le hsize, heq, hfold] at h
      cases h
  · rw [palloc_of_lt (Nat.not_le.mp hsize)] at h
    cases h

/-- All combinations of at least two columns. -/
def allCombinations (n : ℕ) : List (List ℕ) :=
  (range' 2 (n - 1)).flatMap fun k => ascending n k 0

theorem length_allCombinations (n : ℕ) : (allCombinations n).length = 2 ^ n - (n + 1) := by
  have hsum := Nat.sum_range_choose n
  rw [allCombinations, length_flatMap]
  simp only [length_ascending, Nat.sub_zero]
  cases n with
  | zero => rfl
  | succ p =>
    rw [Finset.sum_range_succ', Finset.sum_range_succ', Nat.choose_zero_right,
      Nat.choose_one_right] at hsum
    have hlist : ((range' 2 p).map fun k => (p + 1).choose k).sum =
        ∑ i ∈ Finset.range p, (p + 1).choose (i + 1 + 1) := by
      rw [range'_eq_map_range, map_map]
      exact congrArg sum (map_congr_left fun i _ => by
        rw [Function.comp_apply, add_comm 2 i])
    rw [Nat.add_sub_cancel]
    omega

/-- The arrays for up to 25 columns can be requested. -/
theorem alloc_of_le (hn : n ≤ 25) (hk : k ≤ n) : 4 * k * n.choose k ≤ MaxAllocSize := by
  have hmax : n.choose k ≤ Nat.choose 25 12 :=
    (Nat.choose_le_choose k hn).trans (Nat.choose_le_middle k 25)
  calc 4 * k * n.choose k ≤ 4 * 25 * Nat.choose 25 12 := Nat.mul_le_mul (by omega) hmax
    _ ≤ MaxAllocSize := by decide

/-- The items of up to 25 columns are those of all combinations, and for more columns the array of
items is refused. -/
theorem statext_ndistinct_build_eq (hn : n < 31) (attnums : ℕ → AttrNumber)
    (estimate : List ℕ → BitVec 64) :
    statext_ndistinct_build n attnums estimate = if n ≤ 25 then
      .ok ((allCombinations n).map fun combination =>
        ⟨estimate combination, combination.map attnums⟩)
      else .error (.invalidAlloc (16 + (2 ^ n - (n + 1)) * 24)) := by
  have hlen := length_allCombinations n
  let item (combination : List ℕ) : StatItem := ⟨estimate combination, combination.map attnums⟩
  rw [statext_ndistinct_build, num_combinations, if_pos hn]
  by_cases hsmall : n ≤ 25
  · have hpow : 2 ^ n ≤ 2 ^ 25 := Nat.pow_le_pow_right (by decide) hsmall
    have hmem : 16 + (2 ^ n - (n + 1)) * 24 ≤ MaxAllocSize := by
      simp only [MaxAllocSize]
      omega
    have hturn : ∀ items k, (do
        let combinations ← generator_init n k
        (combinations.map item).foldlM (addRow (places (2 ^ n - (n + 1)))) items) =
        ((generator_init n k).map (map item)).bind
          (·.foldlM (addRow (places (2 ^ n - (n + 1)))) items) := by
      intro items k
      cases generator_init n k with
      | error e | ok rows => rfl
    have hitems := foldlM_bind (addRow (places (2 ^ n - (n + 1))))
      (fun k => (generator_init n k).map (map item)) (fun k => (ascending n k 0).map item)
      (l := range' 2 (n - 1)) (fun k hk => by
        rw [mem_range'_1] at hk
        rw [generator_init_eq hk.1 (by omega) (alloc_of_le hsmall (by omega))]
        rfl) []
    rw [← map_flatMap, ← allCombinations,
      foldlM_places (by rw [length_map]; exact hlen.le)] at hitems
    simp only [if_pos hsmall, bind, Except.bind, palloc_of_le hmem]
    exact (congrFun (congrFun (congrArg foldlM (funext₂ hturn)) _) _).trans hitems
  · have hpow : 2 ^ 26 ≤ 2 ^ n := Nat.pow_le_pow_right (by decide) (by omega)
    have hmem : MaxAllocSize < 16 + (2 ^ n - (n + 1)) * 24 := by
      simp only [MaxAllocSize]
      omega
    rw [if_neg hsmall]
    simp only [bind, Except.bind, palloc_of_lt hmem]

/-- **When the combination generator is exact.** `n_choose_k` is the binomial coefficient exactly if
its last product fits an `int`, and then all its divisions are exact. The generator returns rows
exactly if the array for the combinations can be requested, and then they are the subsets of `k`
columns in lexicographic order, each of them once. For up to 25 columns, the array of items that
`num_combinations` sizes is filled to its last place with the items of all combinations; for more it
is refused. -/
theorem ndistinct_build_exact :
    (∀ n k, 2 ≤ k → k ≤ n →
      (n_choose_k n k = n.choose k ↔ min k (n - k) * n.choose k < 2 ^ 31) ∧
      (n_choose_k n k = n.choose k → ∀ i < min k (n - k), ∃ r : ℕ,
        chooseTurns n i = (i + 1, n - i, ↑r) ∧ r * (n - i) < 2 ^ 31 ∧ i + 1 ∣ r * (n - i)) ∧
      ((∃ rows, generator_init n k = .ok rows) ↔ 4 * k * n.choose k ≤ MaxAllocSize) ∧
      ∀ rows, generator_init n k = .ok rows → rows.length = n.choose k ∧ rows.Pairwise (· < ·) ∧
        ∀ l, l ∈ rows ↔ l.length = k ∧ l.Pairwise (· < ·) ∧ ∀ x ∈ l, x < n) ∧
    ∀ n < 31, num_combinations n = .ok (2 ^ n - n - 1) ∧
      (allCombinations n).length = 2 ^ n - n - 1 ∧
      ∀ attnums ndistinct_for_combination,
        statext_ndistinct_build n attnums ndistinct_for_combination =
          if n ≤ 25 then .ok ((allCombinations n).map fun combination =>
            ⟨ndistinct_for_combination combination, combination.map attnums⟩)
          else .error (.invalidAlloc (16 + (2 ^ n - n - 1) * 24)) := by
  refine ⟨fun n k hk hkn => ⟨n_choose_k_eq_iff hkn, fun hchoose i hi => ?_, ⟨?_, ?_⟩, ?_⟩,
    fun n hn => ?_⟩
  · have hfit := (n_choose_k_eq_iff hkn).mp hchoose
    refine ⟨n.choose i, chooseTurns_eq hkn hfit hi.le, hfit.product_lt hkn hi, ?_⟩
    rw [← Nat.choose_succ_right_eq]
    exact Nat.dvd_mul_left _ _
  · rintro ⟨rows, hrows⟩
    exact alloc_of_generator_init hk hkn hrows
  · exact fun halloc => ⟨_, generator_init_eq hk hkn halloc⟩
  · intro rows hrows
    rw [generator_init_eq hk hkn (alloc_of_generator_init hk hkn hrows)] at hrows
    obtain rfl := Except.ok.inj hrows
    exact ⟨length_ascending k 0, pairwise_ascending k 0, fun l => by simp [mem_ascending]⟩
  · rw [Nat.sub_sub]
    exact ⟨if_pos hn, length_allCombinations n, statext_ndistinct_build_eq hn⟩

/-- The eleven combinations of four columns. -/
theorem ndistinct_build_exact_four :
    n_choose_k 4 2 = Nat.choose 4 2 ∧
      statext_ndistinct_build 4 (fun i => .ofNat 16 (i + 1)) (fun _ => 0) =
        .ok ((allCombinations 4).map fun combination =>
          ⟨0, combination.map fun i => .ofNat 16 (i + 1)⟩) ∧ (allCombinations 4).length = 11 :=
  ⟨(ndistinct_build_exact.1 4 2 (by decide) (by decide)).1.mpr (by decide),
    (ndistinct_build_exact.2 4 (by decide)).2.2 _ _, (ndistinct_build_exact.2 4 (by decide)).2.1⟩

/-- **A product wraps around although the coefficient fits an `int`**: the number of the subsets of
15 out of 30 columns comes out negative, and the request for their array is refused. -/
theorem n_choose_k_wraps :
    Nat.choose 30 15 = 155117520 ∧ n_choose_k 30 15 = -131213633 ∧
      generator_init 30 15 = .error (.invalidAlloc (2 ^ 64 - 60 * 131213633)) := by
  have hwraps : n_choose_k 30 15 = -131213633 := by simp [n_choose_k, chooseTurns, chooseTurn]
  refine ⟨by norm_num [Nat.choose], hwraps, ?_⟩
  rw [generator_init, hwraps]
  rfl

end FdPostgres.Statistics
