import FdPostgres.Dynahash.Map

/-!
# Runs of a Dynamic Hash Table

A table is created and then used by any sequence of operations, in any surroundings
(`TableRun`). Bucket numbers have 32 bits, and `expand_table` does not check that the next one
fits.

* `hash_create_inv`: a new table has the invariant.
* `TableRun.inv`: so has every table reached while the bucket numbers fit (`SplitFits`).
* `dynahash_is_map`: such a table is a map.
-/

namespace FdPostgres

open LinkedChain LinearHashing HASHACTION Option Nat

variable {K : Type} {ks : HashedKeys K} {t : HTAB K} {live : Finset ℕ} {f : List ℕ}
  {c : ℕ → List ℕ}

/-! ### New tables -/

/-- `choose_nelem_alloc` ends with at least 32 elements. -/
theorem chooseLoop_ge {elementSize : ℕ} (hpos : 0 < elementSize) (fuel allocSize : ℕ)
    (hfuel : 32 * elementSize ≤ 2 ^ (fuel + 1) * allocSize) :
    32 ≤ chooseLoop elementSize fuel allocSize := by
  induction fuel generalizing allocSize with
  | zero =>
    rw [chooseLoop, le_div_iff_mul_le hpos]
    omega
  | succ fuel ih =>
    rw [chooseLoop]
    split_ifs with hlt
    · refine ih _ (le_of_le_of_eq hfuel ?_)
      rw [shiftLeft_eq, pow_succ 2 (fuel + 1), mul_assoc, mul_comm 2 allocSize]
    · omega

/-- `choose_nelem_alloc` is at least 32. -/
theorem choose_nelem_alloc_ge (entrysize : ℕ) : 32 ≤ choose_nelem_alloc entrysize := by
  rw [choose_nelem_alloc]
  generalize helement : 16 + (entrysize + 7) / 8 * 8 = elementSize
  have hlt : elementSize < 2 ^ elementSize := Nat.lt_two_pow_self
  refine chooseLoop_ge (by omega) _ _ ?_
  omega

/-- `next_pow2_int` is a power of two up to `2 ^ 30`, and not less than a number of that size. -/
theorem next_pow2_int_spec (num : ℕ) :
    ∃ k ≤ 30, next_pow2_int num = 2 ^ k ∧ (num ≤ 2 ^ 30 → num ≤ 2 ^ k) := by
  have hmin : min (min num (2 ^ 30 - 1)) (2 ^ 62 - 1) = min num (2 ^ 30 - 1) :=
    min_eq_left (le_trans (min_le_right _ _) (by decide))
  rw [next_pow2_int, my_log2, hmin, pg_ceil_log2_64, ceilLog2, one_shiftLeft]
  generalize hm : min num (2 ^ 30 - 1) = m
  by_cases hlt : m < 2
  · refine ⟨0, by omega, by rw [if_pos hlt], fun _ => ?_⟩
    omega
  · have hlog : log2 (m - 1) < 30 := (log2_lt (by omega)).mpr (by omega)
    have hself : m - 1 < 2 ^ (log2 (m - 1) + 1) := lt_log2_self
    refine ⟨log2 (m - 1) + 1, by omega, by rw [if_neg hlt], fun hle => ?_⟩
    by_cases hcap : num ≤ 2 ^ 30 - 1
    · omega
    · have hfull : log2 (m - 1) = 29 := by
        obtain rfl : m = 2 ^ 30 - 1 := by omega
        decide
      rw [hfull]
      omega

/-- A table without elements has the invariant, if its shape is right. -/
theorem TableShape.inv (h : TableShape t) (hstore : t.store = fun _ => none)
    (hent : t.nentries 0 = 0) : TableInv ks t ∅ [] (fun _ => []) := by
  refine ⟨h, ⟨fun b _ => ?_, ?_, fun _ => List.nodup_nil, List.nodup_nil, fun b e => ?_,
    fun e he => absurd he (Finset.notMem_empty e), fun e he => absurd he (Finset.notMem_empty e),
    fun e he => absurd he List.not_mem_nil, hent⟩,
    fun e he => absurd he (Finset.notMem_empty e), fun e he => absurd he (Finset.notMem_empty e)⟩
  · exact ⟨trivial, by rw [hstore]⟩
  · exact ⟨trivial, by rw [hstore]⟩
  · simp

/-- The buckets of an unpartitioned table. -/
theorem partitionBuckets_zero (fuel nbuckets : ℕ) :
    partitionBuckets 0 fuel nbuckets = nbuckets := by
  cases fuel with
  | zero => rfl
  | succ fuel => rw [partitionBuckets, if_neg (not_lt_zero _)]

/-- `init_htab` makes a table of the right shape without elements. -/
theorem init_htab_spec {info : HASHCTL} (hpart : info.num_partitions = 0)
    (h : init_htab info = some t) :
    TableShape t ∧ (t.store = fun _ => none) ∧ t.nentries 0 = 0 := by
  rw [init_htab, hpart, partitionBuckets_zero] at h
  obtain ⟨k, hk, hbuckets, -⟩ := next_pow2_int_spec info.nelem
  obtain ⟨j, -, hsegs, hge⟩ := next_pow2_int_spec ((2 ^ k - 1) / 2 ^ info.sshift + 1)
  have hpos : 0 < 2 ^ k := Nat.two_pow_pos k
  have hpow : 2 ^ k ≤ 2 ^ 30 := Nat.pow_le_pow_right (by decide) hk
  have hdiv : (2 ^ k - 1) / 2 ^ info.sshift ≤ 2 ^ k - 1 := Nat.div_le_self _ _
  rw [hbuckets, hsegs] at h
  split at h
  · cases h
  · obtain rfl := some.inj h
    refine ⟨⟨rfl, ⟨k, ?_⟩, ?_, ?_, ?_, ?_, ?_⟩, rfl, rfl⟩
    · refine ⟨?_, ?_, le_rfl, ?_⟩
      · change 2 ^ k - 1 + 1 = 2 ^ k
        omega
      · change (2 ^ k) <<< 1 - 1 + 1 = 2 ^ (k + 1)
        omega
      · change 2 ^ k - 1 ≤ (2 ^ k) <<< 1 - 1
        omega
    · change 2 ^ k - 1 < 2 ^ 32
      omega
    · change (2 ^ k - 1) >>> info.sshift < 2 ^ j
      omega
    · exact le_max_left _ _
    · intro i hi
      exact decide_eq_true hi
    · exact lt_of_lt_of_le (by decide) (choose_nelem_alloc_ge info.entrysize)

/-- **A new table has the invariant**, without live elements. -/
theorem hash_create_inv (ks : HashedKeys K) {env : HashEnv} {info : HASHCTL}
    (hpart : info.num_partitions = 0) (h : hash_create env info = some t) :
    ∃ f c, TableInv ks t ∅ f c := by
  obtain ⟨t₀, hinit, h⟩ := bind_eq_some_iff.mp h
  obtain ⟨hshape, hstore, hent⟩ := init_htab_spec hpart hinit
  have hinv : TableInv ks t₀ ∅ [] (fun _ => []) := hshape.inv hstore hent
  have hfixed : ∀ {t₁ : HTAB K} {f : List ℕ}, TableInv ks t₁ ∅ f (fun _ => []) →
      TableInv ks { t₁ with isfixed := info.isfixed } ∅ f (fun _ => []) :=
    fun hinv => ⟨{ hinv.shape with }, { hinv.chains with }, { hinv.keys with }⟩
  simp only [hshape.isPartitioned_eq, Bool.false_eq_true, if_false, Nat.div_one, mul_one,
    map_eq_some_iff] at h
  obtain ⟨t₁, hfill, rfl⟩ := h
  split at hfill
  · obtain ⟨t₂, halloc, ht₂⟩ := bind_eq_some_iff.mp hfill
    obtain rfl := some.inj ht₂
    rw [if_neg (not_lt.mpr (le_max_right _ _)), element_alloc] at halloc
    split at halloc
    · cases halloc
    · split at halloc
      · obtain rfl := some.inj halloc
        exact ⟨_, _, hfixed (hinv.alloc (lt_of_lt_of_le one_pos (le_max_left _ _)))⟩
      · cases halloc
  · obtain rfl := some.inj hfill
    exact ⟨_, _, hfixed hinv⟩

/-! ### Runs -/

/-- The tables that are reached by a creation without partitions and any sequence of operations
that meet a condition. -/
inductive TableRun (ks : HashedKeys K) (ok : HashEnv → HTAB K → HashOp K → Prop) :
    HTAB K → Prop where
  | create {env : HashEnv} {info : HASHCTL} {t : HTAB K} (hpart : info.num_partitions = 0)
      (h : hash_create env info = some t) : TableRun ks ok t
  | step {t : HTAB K} (env : HashEnv) (op : HashOp K) (h : TableRun ks ok t)
      (hok : ok env t op) : TableRun ks ok (op.run ks env t)

/-- An operation that splits a bucket finds a number for the new one. -/
def SplitFits (env : HashEnv) (t : HTAB K) : HashOp K → Prop
  | .search _ action => expandDue env t action = true → t.max_bucket + 1 < 2 ^ 32
  | .updateKey _ _ => True
  | .freeze => True

/-- **The invariant holds along every run** in which the bucket numbers fit. -/
theorem TableRun.inv (h : TableRun ks SplitFits t) : ∃ live f c, TableInv ks t live f c := by
  induction h with
  | create hpart h =>
    obtain ⟨f, c, hinv⟩ := hash_create_inv ks hpart h
    exact ⟨∅, f, c, hinv⟩
  | step env op h hok ih =>
    obtain ⟨live, f, c, hinv⟩ := ih
    cases op with
    | search k action =>
      obtain ⟨live', f', c', hinv', -⟩ := hinv.search_answer env k action hok
      exact ⟨live', f', c', hinv'⟩
    | updateKey e newKey =>
      obtain ⟨⟨c', hinv'⟩, -⟩ := hinv.update_answer e newKey
      exact ⟨live, f, c', hinv'⟩
    | freeze =>
      rw [HashOp.run]
      split
      · exact ⟨live, f, c, hinv⟩
      · exact ⟨live, f, c, { hinv.shape with }, { hinv.chains with }, { hinv.keys with }⟩

/-! ### A table is a map -/

/-- What holds in a table that is a map: every stored element is in the chain of its bucket and
in no other one, once, with the hash value of its key; no key is stored twice; the number of
entries is the number of stored elements; and the masks cover the buckets. -/
structure IsMap (ks : HashedKeys K) (t : HTAB K) : Prop where
  chain : ∀ b ≤ t.max_bucket,
    IsChain HashLoc.link t.store (t.bucketLoc b) (t.chain b) ∧ (t.chain b).Nodup
  placed : ∀ e ∈ t.elements, ∀ b ≤ t.max_bucket,
    e ∈ t.chain b ↔ b = calc_bucket t (t.hashvalue e)
  keyed : ∀ e ∈ t.elements, ∃ k, t.entry e = some k ∧ t.hashvalue e = ks.hash k
  once : ∀ e e' k, Holds ks t.entry k e → Holds ks t.entry k e' → e = e'
  entries : hash_get_num_entries t = t.elements.card
  masks : t.low_mask ≤ t.max_bucket ∧ t.max_bucket ≤ t.high_mask ∧
    t.high_mask = 2 * t.low_mask + 1 ∧ ∃ k, t.low_mask + 1 = 2 ^ k

/-- A table with the invariant is a map. -/
theorem TableInv.isMap (h : TableInv ks t live f c) : IsMap ks t where
  chain b hb := by
    rw [h.chain_eq hb]
    exact ⟨h.chains.chain b (h.shape.segs_of_le hb), h.chains.nodup b⟩
  placed e he b hb := by
    rw [h.elements_eq] at he
    rw [h.chain_eq hb, h.chains.mem, eq_comm]
    exact and_iff_right he
  keyed e he := by
    rw [h.elements_eq] at he
    obtain ⟨k, hkey, hhash⟩ := h.keys.keyed e he
    exact ⟨k, by rw [h.entry_eq, keysOf, if_pos he, hkey], hhash⟩
  once e e' k he he' := by
    rw [h.entry_eq] at he he'
    exact (holds_keysOf.mp he).unique h.keys (holds_keysOf.mp he')
  entries := by
    rw [hash_get_num_entries, h.shape.isPartitioned_eq, if_neg Bool.false_ne_true,
      h.elements_eq, h.chains.count]
  masks := by
    obtain ⟨k, hk⟩ := h.shape.masks
    exact ⟨hk.low_le, hk.le_high, hk.high_eq, k, hk.low⟩

/-- **A dynamic hash table is a map** in every run in which the bucket numbers fit: the stored
elements are where a search looks for them, and the operations answer as on a finite map from
elements to keys. A change of a key that does not succeed changes nothing. -/
theorem dynahash_is_map (h : TableRun ks SplitFits t) :
    IsMap ks t ∧
    (∀ env k action, SplitFits env t (.search k action) →
      SearchAnswer ks t.frozen t.isshared (t.isfixed = true ∨ env.elemOk = false) t.entry k
        action (hash_search ks env t k action).1 (hash_search ks env t k action).2.entry) ∧
    (∀ e newKey, UpdateAnswer ks t.frozen t.entry e newKey (hash_update_hash_key ks t e newKey).1
        (hash_update_hash_key ks t e newKey).2.entry ∧
      ((hash_update_hash_key ks t e newKey).1 ≠ .ok true →
        (hash_update_hash_key ks t e newKey).2 = t)) := by
  obtain ⟨live, f, c, hinv⟩ := h.inv
  refine ⟨hinv.isMap, ?_, ?_⟩
  · intro env k action hfits
    obtain ⟨live', f', c', hinv', hans⟩ := hinv.search_answer env k action hfits
    rw [hinv.entry_eq, hinv'.entry_eq]
    exact hans
  · intro e newKey
    obtain ⟨⟨c', hinv'⟩, hans, hfailed⟩ := hinv.update_answer e newKey
    rw [hinv.entry_eq, hinv'.entry_eq]
    exact ⟨hans, hfailed⟩

/-- Surroundings without scans in which every allocation succeeds. -/
def plainEnv : HashEnv :=
  { has_seq_scans := false, dirOk := true, segOk := true, elemOk := true }

/-- The parameters of a table for one entry. -/
def oneEntry : HASHCTL :=
  { nelem := 1, entrysize := 8, num_partitions := 0, sshift := DEF_SEGSIZE_SHIFT,
    dirsize := none, isshared := false, isfixed := false }

/-- Numbers as keys that all have the hash value zero. -/
def collidingKeys : HashedKeys ℕ where
  hash _ := 0
  same k k' := k == k'
  hash_lt _ := by decide
  same_refl k := beq_self_eq_true k
  same_symm h := by rw [beq_iff_eq] at h ⊢; exact h.symm
  same_trans h h' := by rw [beq_iff_eq] at h h' ⊢; exact h.trans h'
  hash_same _ := rfl

/-- Two entries with the same hash value are made, and the first one is removed. -/
def threeOps : List (HashOp ℕ) :=
  [.search 7 HASH_ENTER, .search 8 HASH_ENTER, .search 7 HASH_REMOVE]

theorem threeOps_run : ∃ t, hash_create plainEnv oneEntry = some t ∧
    TableRun collidingKeys SplitFits (threeOps.foldl (HashOp.run collidingKeys plainEnv) t) := by
  refine ⟨_, rfl, ?_⟩
  have hnew := @TableRun.create _ collidingKeys SplitFits plainEnv oneEntry _ rfl rfl
  have hfirst := hnew.step plainEnv (.search 7 HASH_ENTER) (fun _ => by decide)
  have hsecond := hfirst.step plainEnv (.search 8 HASH_ENTER) (fun _ => by decide)
  exact hsecond.step plainEnv (.search 7 HASH_REMOVE) (fun _ => by decide)

/-- The table is a map then. -/
theorem threeOps_is_map : ∃ t, hash_create plainEnv oneEntry = some t ∧
    IsMap collidingKeys (threeOps.foldl (HashOp.run collidingKeys plainEnv) t) := by
  obtain ⟨t, ht, hrun⟩ := threeOps_run
  exact ⟨t, ht, (dynahash_is_map hrun).1⟩

end FdPostgres
