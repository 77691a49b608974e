import FdPostgres.HashIndex.Meta

/-!
# Hash Keys and Buckets

The hash index distributes its keys by linear hashing: the metapage holds the highest bucket
and two masks, and an expansion adds one bucket that takes over part of one old bucket. The
reasoning about the masks is that of `FdPostgres.Lib.LinearHashing`; this module connects
the metapage to it and draws the conclusions for every reachable index.

* `HashMetaPage.masks` reads the masks off the metapage, and the functions of the source are
  those of the library at these masks (`hashkey2bucket_eq_bucket`).
* `BucketInv` is the invariant of a run: valid masks, and every split in progress is the
  latest one of its old bucket.

## Main results

* `valid_hash_init`: every initial number of buckets gives valid masks.
* `hash_expand_metapage_cases`: an expansion is one growth step of the masks.
* `bucketInv_of_reachable`: the invariant holds along every run.
* `hash_index_mapping_consistent`: **the mapping stays consistent** — in every reachable
  index the masks are consecutive around the highest bucket, no key maps behind it, an
  expansion moves keys from the old to the new bucket only, namely those that the high mask
  reduces to it, and the two partner computations name the buckets of every split in progress.
-/

namespace FdPostgres

open LinearHashing

variable (metap : HashMetaPage)

/-- The masks of a metapage. -/
def HashMetaPage.masks : Masks :=
  ⟨metap.hashm_maxbucket, metap.hashm_highmask, metap.hashm_lowmask⟩

/-- `_hash_hashkey2bucket` is the bucket function of linear hashing. -/
theorem hashkey2bucket_eq_bucket (hashkey : ℕ) :
    hash_hashkey2bucket hashkey metap.hashm_maxbucket metap.hashm_highmask
      metap.hashm_lowmask = metap.masks.bucket hashkey :=
  rfl

/-! ### The initial masks -/

/-- Some buckets are allocated at every split point. -/
theorem hash_get_totalbuckets_pos (phase : ℕ) : 0 < hash_get_totalbuckets phase := by
  rw [hash_get_totalbuckets]
  split
  · rw [Nat.one_shiftLeft]
    exact Nat.two_pow_pos _
  · simp only [Nat.one_shiftLeft]
    have hpos := Nat.two_pow_pos (HASH_SPLITPOINT_GROUPS_WITH_ONE_PHASE +
      ((phase - HASH_SPLITPOINT_GROUPS_WITH_ONE_PHASE) >>> HASH_SPLITPOINT_PHASE_BITS) - 1)
    omega

/-- A new index has at least one bucket. -/
theorem initialBuckets_pos (dnumbuckets : ℚ) : 0 < initialBuckets dnumbuckets := by
  rw [initialBuckets]
  split
  · omega
  · split
    · omega
    · exact hash_get_totalbuckets_pos _

/-- **Every initial number of buckets gives valid masks.** -/
theorem valid_hash_init (bsize : ℕ) (dnumbuckets : ℚ) :
    (hash_init bsize dnumbuckets).masks.Valid := by
  have hpos := initialBuckets_pos dnumbuckets
  obtain ⟨k, hk, hle, hlt⟩ := nextPower2_spec (Nat.succ_pos (initialBuckets dnumbuckets))
  cases k with
  | zero => omega
  | succ j =>
    refine ⟨j, ?_, ?_, ?_, ?_⟩
    all_goals
      simp only [HashMetaPage.masks, hash_init, hash_init_metabuffer, pg_nextpower2_32, hk]
      omega

/-! ### Expansion -/

/-- The buckets of the phase that the next bucket is in fit into the block numbers. -/
def NextPhaseFits : Prop :=
  hash_alloc_buckets (bucket_to_blkno metap (metap.hashm_maxbucket + 1))
    (hash_get_totalbuckets (hash_spareindex (metap.hashm_maxbucket + 2)) -
      (metap.hashm_maxbucket + 1)) = true

/-- Everything an expansion does to the metapage. -/
theorem hash_expand_metapage_cases {metap metap' : HashMetaPage}
    (h : hash_expand_metapage metap = some metap') :
    metap.hashm_maxbucket < 0x7FFFFFFE ∧
    metap'.masks = metap.masks.grow ∧
    ((hash_spareindex (metap.hashm_maxbucket + 2) ≤ metap.hashm_ovflpoint ∧
        metap'.hashm_spares = metap.hashm_spares ∧ metap'.hashm_ovflpoint = metap.hashm_ovflpoint) ∨
      (metap.hashm_ovflpoint < hash_spareindex (metap.hashm_maxbucket + 2) ∧ NextPhaseFits metap ∧
        metap'.hashm_spares = Function.update metap.hashm_spares
          (hash_spareindex (metap.hashm_maxbucket + 2)) (metap.hashm_spares metap.hashm_ovflpoint) ∧
        metap'.hashm_ovflpoint = hash_spareindex (metap.hashm_maxbucket + 2))) := by
  simp only [hash_expand_metapage, add_assoc, Nat.reduceAdd] at h
  split at h
  · cases h
  · rename_i hmax
    split at h
    · cases h
    · rename_i hfit
      refine ⟨by omega, ?_, ?_⟩
      · by_cases hnew : metap.hashm_highmask < metap.hashm_maxbucket + 1
        · split at h <;> cases h <;> simp only [HashMetaPage.masks, Masks.grow, hnew, if_true]
        · split at h <;> cases h <;> simp only [HashMetaPage.masks, Masks.grow, hnew, if_false]
      · split at h
        · rename_i hspare
          have halloc : NextPhaseFits metap := by simpa [NextPhaseFits, hspare] using hfit
          cases h
          exact .inr ⟨hspare, halloc, rfl, rfl⟩
        · cases h
          refine .inl ⟨by omega, ?_, ?_⟩ <;> split <;> rfl

/-- Everything that adding an overflow page does to the metapage and the bits. A page that was found
leaves the file; otherwise the bits up to a new last one are handed out. -/
theorem hash_addovflpage_cases {metap metap' : HashMetaPage} {found : Option ℕ} {unmoved : Bool}
    {bits : List ℕ} (h : hash_addovflpage metap found unmoved = some (bits, metap')) :
    metap'.masks = metap.masks ∧ metap'.hashm_ovflpoint = metap.hashm_ovflpoint ∧
    ((∃ bit, found = some bit ∧ bits = [bit] ∧ metap'.hashm_spares = metap.hashm_spares) ∨
      ∃ last, metap.hashm_spares metap.hashm_ovflpoint ≤ last ∧
        last ≤ metap.hashm_spares metap.hashm_ovflpoint + 1 ∧
        (∀ b, b ∈ bits ↔ metap.hashm_spares metap.hashm_ovflpoint ≤ b ∧ b ≤ last) ∧
        (∀ b ∈ bits, bitno_to_blkno metap b ≠ InvalidBlockNumber) ∧
        metap'.hashm_spares =
          Function.update metap.hashm_spares metap.hashm_ovflpoint (last + 1)) := by
  cases found with
  | some bit =>
    simp only [hash_addovflpage, Option.some.injEq, Prod.mk.injEq] at h
    obtain ⟨rfl, rfl⟩ := h
    exact ⟨rfl, rfl, .inl ⟨bit, rfl, rfl, rfl⟩⟩
  | none =>
    simp only [hash_addovflpage, decide_eq_true_eq] at h
    by_cases hnew : (metap.hashm_spares metap.hashm_ovflpoint - 1) &&&
        (metap.bmpgsz_bit - 1) = metap.bmpgsz_bit - 1
    · -- a bitmap page as well
      simp only [hnew, true_and, if_true, Option.ite_none_left_eq_some] at h
      obtain ⟨-, hmap, hpage, h⟩ := h
      cases h
      refine ⟨rfl, rfl, .inr ⟨_, by omega, le_rfl, fun b => ?_, ?_, rfl⟩⟩
      · rw [List.mem_pair]
        omega
      · exact List.forall_mem_cons.mpr ⟨hpage, List.forall_mem_singleton.mpr hmap⟩
    · simp only [hnew, false_and, if_false, Option.ite_none_left_eq_some] at h
      obtain ⟨hpage, h⟩ := h
      cases h
      refine ⟨rfl, rfl, .inr ⟨_, le_rfl, by omega, fun b => ?_, ?_, rfl⟩⟩
      · rw [List.mem_singleton]
        omega
      · exact List.forall_mem_singleton.mpr hpage

/-! ### Splits in progress -/

/-- The old bucket computed from the new one is the new bucket without its highest bit. -/
theorem hash_get_oldbucket_eq {old j : ℕ} (h : old < 2 ^ j) :
    hash_get_oldbucket_from_newbucket (old + 2 ^ j) = old := by
  have hlog : Nat.log2 (old + 2 ^ j) = j := by
    rw [Nat.log2_eq_iff (by omega)]
    omega
  rw [hash_get_oldbucket_from_newbucket, fls, if_neg (by omega), hlog, Nat.add_sub_cancel,
    Nat.one_shiftLeft, Nat.and_two_pow_sub_one_eq_mod, Nat.add_mod_right, Nat.mod_eq_of_lt h]

/-- **The invariant of a run**: the masks are valid, and every split in progress is the
latest one of its old bucket. -/
structure BucketInv (s : HashIndex) : Prop where
  valid : s.metap.masks.Valid
  latest : ∀ p ∈ s.splits, s.metap.masks.LatestSplit p.1 p.2

/-- The invariant is kept by every step. -/
theorem BucketInv.step {s s' : HashIndex} (hi : BucketInv s) (hs : s.Step s') : BucketInv s' := by
  cases hs with
  | expand hfree hexp =>
    obtain ⟨-, hmasks, -⟩ := hash_expand_metapage_cases hexp
    refine ⟨?_, ?_⟩
    · simp only [hmasks]
      exact hi.valid.grow
    · intro p hp
      simp only [hmasks]
      rcases List.mem_cons.mp hp with rfl | hp
      · exact Masks.LatestSplit.of_grow hi.valid
      · refine Masks.LatestSplit.grow hi.valid (hi.latest p hp) ?_
        intro heq
        have hold : s.metap.oldBucket = p.1 := heq
        exact hfree p.2 (by rw [hold]; exact hp)
  | finishSplit split =>
    exact ⟨hi.valid, fun p hp => hi.latest p (List.mem_of_mem_erase hp)⟩
  | addOvflPage found unmoved _ hadd =>
    have hmasks := (hash_addovflpage_cases hadd).1
    refine ⟨?_, ?_⟩
    · simp only [hmasks]
      exact hi.valid
    · intro p hp
      simp only [hmasks]
      exact hi.latest p hp

/-- The invariant holds along every run. -/
theorem bucketInv_of_reachable {s : HashIndex} (h : s.Reachable) : BucketInv s := by
  induction h with
  | init bsize dnumbuckets =>
    exact ⟨valid_hash_init bsize dnumbuckets, fun p hp => absurd hp List.not_mem_nil⟩
  | step _ hstep ih => exact ih.step hstep

/-- **The key-to-bucket mapping stays consistent.** In every reachable index:
the masks are `2 ^ k - 1` and `2 ^ (k + 1) - 1` around the highest bucket; no hash key maps to
a bucket behind it; an expansion only moves keys from the old bucket to the new one, and those
in the new bucket are exactly the keys that the new high mask reduces to it; and the partner
computations name the new and the old bucket of every split in progress. -/
theorem hash_index_mapping_consistent {s : HashIndex} (h : s.Reachable) :
    (s.metap.hashm_lowmask ≤ s.metap.hashm_maxbucket ∧
      s.metap.hashm_maxbucket ≤ s.metap.hashm_highmask ∧
      s.metap.hashm_highmask = 2 * s.metap.hashm_lowmask + 1 ∧
      ∃ k, s.metap.hashm_lowmask = 2 ^ k - 1 ∧ s.metap.hashm_highmask = 2 ^ (k + 1) - 1) ∧
    (∀ hashkey, hash_hashkey2bucket hashkey s.metap.hashm_maxbucket s.metap.hashm_highmask
      s.metap.hashm_lowmask ≤ s.metap.hashm_maxbucket) ∧
    (∀ metap', hash_expand_metapage s.metap = some metap' →
      metap'.hashm_maxbucket = s.metap.hashm_maxbucket + 1 ∧
      s.metap.oldBucket = metap'.hashm_maxbucket &&& metap'.hashm_lowmask ∧ ∀ hashkey,
        (hash_hashkey2bucket hashkey metap'.hashm_maxbucket metap'.hashm_highmask
            metap'.hashm_lowmask =
          hash_hashkey2bucket hashkey s.metap.hashm_maxbucket s.metap.hashm_highmask
            s.metap.hashm_lowmask ∨
        (hash_hashkey2bucket hashkey s.metap.hashm_maxbucket s.metap.hashm_highmask
            s.metap.hashm_lowmask = s.metap.oldBucket ∧
          hash_hashkey2bucket hashkey metap'.hashm_maxbucket metap'.hashm_highmask
            metap'.hashm_lowmask = metap'.hashm_maxbucket)) ∧
        (hash_hashkey2bucket hashkey metap'.hashm_maxbucket metap'.hashm_highmask
            metap'.hashm_lowmask = metap'.hashm_maxbucket ↔
          hashkey &&& metap'.hashm_highmask = metap'.hashm_maxbucket)) ∧ (∀ p ∈ s.splits,
      hash_get_newbucket_from_oldbucket p.1 s.metap.hashm_lowmask s.metap.hashm_maxbucket = p.2 ∧
      hash_get_oldblock_from_newbucket s.metap p.2 = bucket_to_blkno s.metap p.1) := by
  have hinv := bucketInv_of_reachable h
  obtain ⟨k, hk⟩ := hinv.valid
  refine ⟨⟨hk.low_le, hk.le_high, hk.high_eq, k, ?_, ?_⟩, hk.bucket_le, ?_, ?_⟩
  · have := hk.low
    simp only [HashMetaPage.masks] at this
    omega
  · have := hk.high
    simp only [HashMetaPage.masks] at this
    omega
  · intro metap' hexp
    obtain ⟨-, hmasks, -⟩ := hash_expand_metapage_cases hexp
    have hmax : metap'.hashm_maxbucket = s.metap.hashm_maxbucket + 1 := by
      have := congrArg Masks.maxBucket hmasks
      rwa [Masks.Valid.maxBucket_grow] at this
    refine ⟨hmax, ?_, fun hashkey => ?_⟩
    · have hsrc := hinv.valid.source_eq_and_grow
      rw [← hmasks] at hsrc
      rw [hmax]
      exact hsrc
    · have hmove := hinv.valid.bucket_grow hashkey
      have hnew := hinv.valid.bucket_grow_eq_new hashkey
      rw [← hmasks] at hmove hnew
      rw [hmax]
      have hbuck := hashkey2bucket_eq_bucket metap' hashkey
      rw [hmax] at hbuck
      rw [hbuck]
      exact ⟨hmove, hnew⟩
  · intro p hp
    have hlat := hinv.latest p hp
    refine ⟨hlat.partner_eq hinv.valid, ?_⟩
    obtain ⟨j, hlt, hnew, -, -⟩ := hlat
    rw [hash_get_oldblock_from_newbucket, hnew, hash_get_oldbucket_eq hlt]

/-- An index for no tuples after some expansions. -/
def expanded : ℕ → HashMetaPage
  | 0 => hash_init 8152 0
  | n + 1 => (hash_expand_metapage (expanded n)).getD (expanded n)

/-- Buckets 0 and 1 are split into 2 and 3, and when the first of these splits is finished,
bucket 0 is split once more, into bucket 4. -/
theorem expanded_reachable : HashIndex.Reachable ⟨expanded 3, [(0, 4), (1, 3)], [0]⟩ := by
  have hinit := HashIndex.Reachable.init 8152 0
  have hfirst : HashIndex.Reachable ⟨expanded 1, [(0, 2)], [0]⟩ :=
    hinit.step (.expand (fun new => List.not_mem_nil) rfl)
  have hsecond : HashIndex.Reachable ⟨expanded 2, [(1, 3), (0, 2)], [0]⟩ := by
    have hold : (expanded 1).oldBucket = 1 := rfl
    refine hfirst.step (.expand (fun new hmem => ?_) rfl)
    cases hold.symm.trans (congrArg Prod.fst (List.mem_singleton.mp hmem))
  have hfinish : HashIndex.Reachable ⟨expanded 2, [(1, 3)], [0]⟩ :=
    hsecond.step (.finishSplit (0, 2))
  have hold : (expanded 2).oldBucket = 0 := rfl
  refine hfinish.step (.expand (fun new hmem => ?_) rfl)
  cases hold.symm.trans (congrArg Prod.fst (List.mem_singleton.mp hmem))

/-- The partners of both splits: bucket 4 is in the new half of the table, bucket 3 in the one
before. -/
theorem expanded_mapping_consistent :
    hash_get_newbucket_from_oldbucket 0 (expanded 3).hashm_lowmask (expanded 3).hashm_maxbucket =
        4 ∧
      hash_get_newbucket_from_oldbucket 1 (expanded 3).hashm_lowmask (expanded 3).hashm_maxbucket =
        3 := by
  have hsplits := (hash_index_mapping_consistent expanded_reachable).2.2.2
  exact ⟨(hsplits (0, 4) (by decide)).1, (hsplits (1, 3) (by decide)).1⟩

end FdPostgres
