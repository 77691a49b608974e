import FdPostgres.Dynahash.Runs

/-!
# The Last Bucket of a Dynamic Hash Table

Bucket numbers are 32-bit numbers. In a table with `2 ^ 32` buckets the number of the next one
wraps around to zero: `expand_table` then splits bucket zero into itself, which clears it, and
sets `max_bucket` to zero while the masks stay.

* `expand_table_last`: what the split does.
* `exists_filled`: a table for one entry reaches every number of buckets, one per insertion.
* `dynahash_split_overflow`: the insertion after that loses the entries of bucket zero.
-/

namespace FdPostgres

open Function LinkedChain LinearHashing HASHACTION

variable {K : Type} {ks : HashedKeys K} {t : HTAB K} {live : Finset ℕ} {f : List ℕ}
  {c : ℕ → List ℕ}

/-! ### The split after the last bucket -/

/-- The table that is left of a full one. -/
def wrapped (t : HTAB K) : HTAB K :=
  { t with
    max_bucket := 0
    store := update t.store (t.bucketLoc 0) none }

/-- Zero is the bucket of the hash value zero. -/
theorem calc_bucket_zero (t : HTAB K) : calc_bucket t 0 = 0 := by
  simp [calc_bucket]

/-- **The split after the last bucket**, when the elements of bucket zero have the hash value
zero: bucket zero is cleared. -/
theorem TableInv.expand_table_last (h : TableInv ks t live f c) (env : HashEnv)
    (hmax : t.max_bucket = 2 ^ 32 - 1) (hzero : ∀ e ∈ live, t.hashvalue e = 0) :
    (expand_table env t).1 = wrapped t := by
  have hmod : (t.max_bucket + 1) % 2 ^ 32 = 0 := by omega
  have hseg : expandSegment env t (0 >>> t.sshift) = (t, true) := by
    have hlt := h.shape.segs_of_le (Nat.zero_le _)
    rw [expandSegment, if_neg (not_le.mpr hlt)]
  have hkeep : ∀ e ∈ c 0, (calc_bucket { t with max_bucket := 0 } (t.hashvalue e) == 0) = true := by
    intro e he
    rw [hzero e ((h.chains.mem 0 e).mp he).1, calc_bucket_zero]
    rfl
  have hrelink := relink_of_keep (t.bucketLoc 0)
    (h.chains.chain 0 (h.shape.segs_of_le (Nat.zero_le _))) hkeep
    (Nat.lt_succ_of_le (h.chains.length_le 0))
  simp only [expand_table, hmod, hseg, Nat.zero_and, wrapped]
  rw [← hrelink]
  rfl

/-- The masks of a table with all buckets are not those of a table with one. -/
theorem TableShape.low_mask_pos (h : TableShape t) (hmax : t.max_bucket = 2 ^ 32 - 1) :
    0 < t.low_mask := by
  obtain ⟨k, hk⟩ := h.masks
  have hlow : t.low_mask + 1 = 2 ^ k := hk.low
  have hhigh : t.high_mask + 1 = 2 ^ (k + 1) := hk.high
  have hle : t.max_bucket ≤ t.high_mask := hk.le_high
  omega

/-! ### Filling a table -/

/-- A table that can grow. -/
structure Growable (t : HTAB K) : Prop where
  frozen : t.frozen = false
  isfixed : t.isfixed = false
  max_dsize : t.max_dsize = none

theorem SameEntries.growable {t' : HTAB K} (hsame : SameEntries t t') (h : Growable t) :
    Growable t' :=
  ⟨hsame.frozen.trans h.frozen, hsame.isfixed.trans h.isfixed, hsame.max_dsize.trans h.max_dsize⟩

/-- In plain surroundings there is always a segment for the next bucket. -/
theorem expandSegment_plain (h : Growable t) (n : ℕ) : (expandSegment plainEnv t n).2 = true := by
  by_cases hseg : n ≥ t.nsegs
  · by_cases hdir : n ≥ t.dsize
    · simp [expandSegment, hseg, hdir, dir_realloc, h.max_dsize, plainEnv, seg_alloc]
    · simp [expandSegment, hseg, hdir, plainEnv, seg_alloc]
  · simp [expandSegment, hseg]

/-- In plain surroundings a table that can grow gets its next bucket. -/
theorem TableInv.expand_plain (h : TableInv ks t live f c) (hgrow : Growable t)
    (hmax : t.max_bucket + 1 < 2 ^ 32) :
    (∃ c', TableInv ks (expand_table plainEnv t).1 live f c') ∧
      SameEntries t (expand_table plainEnv t).1 ∧
      (expand_table plainEnv t).1.max_bucket = t.max_bucket + 1 := by
  have hok : (expand_table plainEnv t).2 = true := by
    have hseg := expandSegment_plain hgrow (((t.max_bucket + 1) % 2 ^ 32) >>> t.sshift)
    simp only [expand_table]
    generalize expandSegment plainEnv t (((t.max_bucket + 1) % 2 ^ 32) >>> t.sshift) = r at hseg ⊢
    obtain ⟨t₁, ok⟩ := r
    obtain rfl : ok = true := hseg
    rfl
  obtain ⟨t₁, hinv, hsame, heqmax, heq | ⟨heq, hseg⟩⟩ := h.expand_cases plainEnv hmax
  · rw [heq] at hok
    cases hok
  · rw [heq]
    refine ⟨⟨_, hinv.split (heqmax ▸ hmax) hseg⟩, { hsame with }, ?_⟩
    rw [← heqmax]
    exact Masks.Valid.maxBucket_grow t₁.masks

/-- In plain surroundings a key that no element has gets one. -/
theorem TableInv.searchBucket_plain (h : TableInv ks t live f c) (hgrow : Growable t) {k : K}
    (habs : ∀ e, ¬ KeyOf ks t live k e) :
    ∃ e f' c', e ∉ live ∧
      TableInv ks (searchBucket ks plainEnv t k (ks.hash k) HASH_ENTER).2 (insert e live) f' c' ∧
      (searchBucket ks plainEnv t k (ks.hash k) HASH_ENTER).2.key = update t.key e (some k) ∧
      (searchBucket ks plainEnv t k (ks.hash k) HASH_ENTER).2.max_bucket = t.max_bucket ∧
      Growable (searchBucket ks plainEnv t k (ks.hash k) HASH_ENTER).2 := by
  rcases h.find_key k with ⟨_, e, _, -, hkey, -⟩ | ⟨-, hend⟩
  · exact absurd hkey (habs e)
  · rw [h.searchBucket_enter plainEnv (.inl rfl) hend]
    rcases h.enterEntry_cases plainEnv habs HASH_ENTER rfl with
      ⟨hfroz, -⟩ | ⟨-, hfull, -⟩ | ⟨-, t₁, e, f', c', hlive, hsame, hmasks, hinv, heq⟩
    · exact absurd (hgrow.frozen.symm.trans hfroz) Bool.false_ne_true
    · rcases hfull with hfixed | helem
      · exact absurd (hgrow.isfixed.symm.trans hfixed) Bool.false_ne_true
      · cases helem
    · rw [heq]
      refine ⟨e, f', c', hlive, hinv, ?_, congrArg Masks.maxBucket hmasks, ?_⟩
      · exact congrArg (fun key => update key e (some k)) hsame.key
      · exact ⟨(hsame.growable hgrow).frozen, (hsame.growable hgrow).isfixed,
          (hsame.growable hgrow).max_dsize⟩

/-- A table with the keys up to `n` in as many buckets. -/
structure Filled (n : ℕ) (t : HTAB ℕ) (live : Finset ℕ) : Prop where
  growable : Growable t
  max_bucket : t.max_bucket = n
  card : live.card = n + 1
  keys : ∀ e ∈ live, ∀ k, t.key e = some k → k ≤ n
  zero : ∃ e, KeyOf collidingKeys t live 0 e

/-- Inserting the next key fills the next bucket. -/
theorem Filled.insert {n : ℕ} {t t₁ t' : HTAB ℕ} {e : ℕ} (h : Filled n t live)
    (hkey₁ : t₁.key = t.key) (he : e ∉ live)
    (hkey : t'.key = update t₁.key e (some (n + 1))) (hmax : t'.max_bucket = n + 1)
    (hgrow : Growable t') : Filled (n + 1) t' (insert e live) := by
  rw [hkey₁] at hkey
  have hother : ∀ e' ∈ live, t'.key e' = t.key e' := by
    intro e' he'
    have hne : e' ≠ e := fun heq => he (heq ▸ he')
    rw [hkey, update_of_ne hne]
  refine ⟨hgrow, hmax, ?_, ?_, ?_⟩
  · rw [Finset.card_insert_of_notMem he, h.card]
  · intro e' he' k hk
    rcases Finset.mem_insert.mp he' with rfl | hlive
    · rw [hkey, update_self] at hk
      exact (Option.some.inj hk).ge
    · rw [hother e' hlive] at hk
      exact Nat.le_succ_of_le (h.keys e' hlive k hk)
  · obtain ⟨e₀, hlive, k, hk, hsame⟩ := h.zero
    exact ⟨e₀, Finset.mem_insert_of_mem hlive, k, by rw [hother e₀ hlive, hk], hsame⟩

/-- The next key is not in the table. -/
theorem Filled.absent {n : ℕ} {t t₁ : HTAB ℕ} (h : Filled n t live) (hkey : t₁.key = t.key) :
    ∀ e, ¬ KeyOf collidingKeys t₁ live (n + 1) e := by
  rintro e ⟨hlive, k, hk, hsame⟩
  rw [hkey] at hk
  have hle := h.keys e hlive k hk
  have heq : k = n + 1 := beq_iff_eq.mp hsame
  omega

/-- **A run can fill any number of buckets.** -/
theorem exists_filled (n : ℕ) (hn : n < 2 ^ 32) :
    ∃ t live f c, TableRun collidingKeys (fun _ _ _ => True) t ∧
      TableInv collidingKeys t live f c ∧ Filled n t live := by
  induction n with
  | zero =>
    obtain ⟨t, hcreate, hmax, hgrow⟩ : ∃ t : HTAB ℕ,
        hash_create plainEnv oneEntry = some t ∧ t.max_bucket = 0 ∧ Growable t :=
      ⟨_, rfl, rfl, rfl, rfl, rfl⟩
    obtain ⟨f, c, hinv⟩ := hash_create_inv collidingKeys rfl hcreate
    obtain ⟨e, f', c', he, hinv', hkey, hmax', hgrow'⟩ := hinv.searchBucket_plain hgrow
      (fun e (hkey : KeyOf collidingKeys t ∅ 0 e) => Finset.notMem_empty e hkey.1)
    have hdue : expandDue plainEnv t HASH_ENTER = false := by
      have hcount : t.nentries 0 = 0 := hinv.chains.count
      simp [expandDue, hcount]
    have hrun : HashOp.run collidingKeys plainEnv t (.search 0 HASH_ENTER) =
        (searchBucket collidingKeys plainEnv t 0 (collidingKeys.hash 0) HASH_ENTER).2 := by
      rw [HashOp.run, hash_search, hash_search_with_hash_value, if_neg (by simp [hdue])]
    refine ⟨_, _, f', c', .step plainEnv (.search 0 HASH_ENTER) (.create rfl hcreate) trivial,
      hrun ▸ hinv', ?_⟩
    rw [hrun]
    refine ⟨hgrow', hmax'.trans hmax, by simp, ?_, e, Finset.mem_insert_self e ∅, 0, ?_, rfl⟩
    · intro e' he' k hk
      obtain rfl : e' = e := by simpa using he'
      rw [hkey, update_self] at hk
      exact (Option.some.inj hk).ge
    · rw [hkey, update_self]
  | succ n ih =>
    obtain ⟨t, live, f, c, hreach, hinv, hfill⟩ := ih (by omega)
    have hmax : t.max_bucket + 1 < 2 ^ 32 := by rw [hfill.max_bucket]; exact hn
    obtain ⟨⟨c₁, hinv₁⟩, hsame, hmax₁⟩ := hinv.expand_plain hfill.growable hmax
    obtain ⟨e, f', c', he, hinv', hkey, hmax', hgrow'⟩ := hinv₁.searchBucket_plain
      (hsame.growable hfill.growable) (hfill.absent hsame.key)
    have hdue : expandDue plainEnv t HASH_ENTER = true := by
      have hcount : t.nentries 0 = n + 1 := by
        rw [hinv.chains.count, hfill.card]
        rfl
      simp [expandDue, hcount, hfill.max_bucket, hfill.growable.frozen,
        hinv.shape.isPartitioned_eq, plainEnv]
    have hrun : HashOp.run collidingKeys plainEnv t (.search (n + 1) HASH_ENTER) =
        (searchBucket collidingKeys plainEnv (expand_table plainEnv t).1 (n + 1)
          (collidingKeys.hash (n + 1)) HASH_ENTER).2 := by
      rw [HashOp.run, hash_search, hash_search_with_hash_value, if_pos hdue]
    refine ⟨_, _, f', c', .step plainEnv (.search (n + 1) HASH_ENTER) hreach trivial,
      hrun ▸ hinv', ?_⟩
    rw [hrun]
    refine hfill.insert hsame.key he hkey ?_ hgrow'
    rw [hmax', hmax₁, hfill.max_bucket]

/-! ### The insertion after the last bucket -/

/-- What a search of the chain of bucket zero finds after the insertion of a key: this key or
nothing. -/
structure OnlyKey (t : HTAB ℕ) (k : ℕ) : Prop where
  dir : t.dir 0 = true
  chain : t.store (t.bucketLoc 0) = none ∨ ∃ e, t.store (t.bucketLoc 0) = some e ∧
    t.store (.link e) = none ∧ t.key e = some k

/-- `get_hash_entry` changes the free list and its elements only. -/
theorem get_hash_entry_frame (env : HashEnv) (hpart : t.isPartitioned = false) :
    (get_hash_entry env t 0).2.masks = t.masks ∧ (get_hash_entry env t 0).2.sshift = t.sshift ∧
      (get_hash_entry env t 0).2.dir = t.dir ∧
      ∀ b, (get_hash_entry env t 0).2.store (t.bucketLoc b) = t.store (t.bucketLoc b) := by
  have hfree : ∀ b, t.bucketLoc b ≠ .freeList 0 := fun b => bucketLoc_ne_freeList t b 0
  have hchain : ∀ b store first nelem,
      chainElements store first nelem 0 (t.bucketLoc b) = store (t.bucketLoc b) :=
    fun _ _ _ _ => rfl
  cases hstore : t.store (.freeList 0) with
  | some e => simp [get_hash_entry, hstore, takeElement, HTAB.masks, hfree]
  | none =>
    cases hfixed : t.isfixed with
    | true => simp [get_hash_entry, hstore, element_alloc, hfixed, hpart]
    | false =>
      cases helem : env.elemOk with
      | true =>
        simp [get_hash_entry, hstore, element_alloc, hfixed, helem, takeElement,
          HTAB.masks, hfree, hchain]
      | false => simp [get_hash_entry, hstore, element_alloc, helem, hpart]

/-- A search for another key finds nothing. -/
theorem OnlyKey.find_none {t : HTAB ℕ} {k k' : ℕ} (h : OnlyKey t k) (hne : k ≠ k')
    (env : HashEnv) : (hash_search collidingKeys env t k' HASH_FIND).1 = .ok (none, false) := by
  have hnone : (t.findIn (t.hasKey collidingKeys k' 0) 0).2 = none := by
    rw [HTAB.findIn]
    rcases h.chain with hempty | ⟨e, he, hend, hkey⟩
    · simp only [search, hempty]
    · have hother : t.hasKey collidingKeys k' 0 e = false := by
        simp [HTAB.hasKey, hkey, collidingKeys, hne]
      cases hfuel : t.nelements with
      | zero => simp [search, he, hother]
      | succ n => simp [search, he, hother, hend]
  have hhash : collidingKeys.hash k' = 0 := rfl
  simp [hash_search, hash_search_with_hash_value, expandDue, searchBucket, hhash,
    calc_bucket_zero, h.dir, hnone]

/-- An insertion into what is left of a full table leaves its key alone in bucket zero, and the
masks as they are. -/
theorem wrapped_enter {t : HTAB ℕ} (env : HashEnv) (k : ℕ) (hdir : t.dir 0 = true)
    (hpart : t.isPartitioned = false) :
    OnlyKey (searchBucket collidingKeys env (wrapped t) k 0 HASH_ENTER).2 k ∧
      (searchBucket collidingKeys env (wrapped t) k 0 HASH_ENTER).2.masks = (wrapped t).masks := by
  have hpart' : (wrapped t).isPartitioned = false := hpart
  have hempty : (wrapped t).store ((wrapped t).bucketLoc 0) = none := update_self _ _ _
  have henter : searchBucket collidingKeys env (wrapped t) k 0 HASH_ENTER =
      enterEntry env (wrapped t) ((wrapped t).bucketLoc 0) k 0 0 HASH_ENTER := by
    have hdir' : (wrapped t).dir 0 = true := hdir
    simp [searchBucket, calc_bucket_zero, hdir', HTAB.findIn, search, hempty, HTAB.freelistIdx,
      hpart']
  obtain ⟨hmasks, hsshift, hdir₂, hstore⟩ := get_hash_entry_frame env hpart'
  rw [henter, enterEntry]
  split
  · exact ⟨⟨hdir, .inl hempty⟩, rfl⟩
  · generalize hget : get_hash_entry env (wrapped t) 0 = r at hmasks hsshift hdir₂ hstore
    obtain ⟨r, t₂⟩ := r
    have hloc : t₂.bucketLoc 0 = (wrapped t).bucketLoc 0 := by
      rw [HTAB.bucketLoc, HTAB.bucketLoc, hsshift]
    have hdir₃ : t₂.dir 0 = true := by
      rw [hdir₂]
      exact hdir
    cases r with
    | none =>
      refine ⟨⟨hdir₃, .inl ?_⟩, hmasks⟩
      simp only [reduceCtorEq, if_false]
      rw [hloc, hstore, hempty]
    | some e =>
      refine ⟨⟨hdir₃, .inr ⟨e, ?_, ?_, ?_⟩⟩, hmasks⟩
      · change (linkEntry t₂ ((wrapped t).bucketLoc 0) e k 0).store (t₂.bucketLoc 0) = some e
        simp only [linkEntry]
        rw [update_of_ne (bucketLoc_isHead t₂ 0 e), hloc, update_self]
      · exact update_self _ _ _
      · exact update_self _ _ _

/-- **A table with `2 ^ 32` buckets is no map after the next insertion**: `max_bucket` is below
`low_mask`, and an entry is lost. -/
theorem dynahash_split_overflow :
    ∃ (t : HTAB ℕ) (e : ℕ), TableRun collidingKeys (fun _ _ _ => True) t ∧
      Holds collidingKeys t.entry 0 e ∧
      ¬ IsMap collidingKeys (hash_search collidingKeys plainEnv t (2 ^ 32) HASH_ENTER).2 ∧
      (hash_search collidingKeys plainEnv
        (hash_search collidingKeys plainEnv t (2 ^ 32) HASH_ENTER).2 0 HASH_FIND).1 =
        .ok (none, false) := by
  obtain ⟨t, live, f, c, hrun, hinv, hfill⟩ := exists_filled (2 ^ 32 - 1) (by decide)
  obtain ⟨e, hzero⟩ := hfill.zero
  have hholds : Holds collidingKeys t.entry 0 e := by
    rw [hinv.entry_eq]
    exact holds_keysOf.mpr hzero
  have hhash : ∀ e ∈ live, t.hashvalue e = 0 := by
    intro e he
    obtain ⟨k, -, hhash⟩ := hinv.keys.keyed e he
    exact hhash
  have hdue : expandDue plainEnv t HASH_ENTER = true := by
    have hcount : t.nentries 0 = 2 ^ 32 := by
      rw [hinv.chains.count, hfill.card]
      rfl
    simp [expandDue, hcount, hfill.max_bucket, hfill.growable.frozen,
      hinv.shape.isPartitioned_eq, plainEnv]
  have hsea : (hash_search collidingKeys plainEnv t (2 ^ 32) HASH_ENTER).2 =
      (searchBucket collidingKeys plainEnv (wrapped t) (2 ^ 32) 0 HASH_ENTER).2 := by
    rw [hash_search, hash_search_with_hash_value, if_pos hdue,
      hinv.expand_table_last plainEnv hfill.max_bucket hhash]
    rfl
  have hdir : t.dir 0 = true := hinv.shape.dir 0 (lt_of_le_of_lt (Nat.zero_le _) hinv.shape.segs)
  obtain ⟨honly, hmasks⟩ := wrapped_enter plainEnv (2 ^ 32) hdir hinv.shape.isPartitioned_eq
  refine ⟨t, e, hrun, hholds, ?_, ?_⟩
  · intro hmap
    have hle := hmap.masks.1
    rw [hsea] at hle
    have hmax : (searchBucket collidingKeys plainEnv (wrapped t) (2 ^ 32) 0
        HASH_ENTER).2.max_bucket = 0 := congrArg Masks.maxBucket hmasks
    have hlow : (searchBucket collidingKeys plainEnv (wrapped t) (2 ^ 32) 0
        HASH_ENTER).2.low_mask = t.low_mask := congrArg Masks.lowMask hmasks
    have hpos := hinv.shape.low_mask_pos hfill.max_bucket
    omega
  · rw [hsea]
    exact honly.find_none (by decide) plainEnv

end FdPostgres
