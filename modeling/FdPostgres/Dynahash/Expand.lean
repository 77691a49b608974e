import FdPostgres.Dynahash.Invariant

/-!
# Expanding a Dynamic Hash Table

`expand_table` adds a segment when the new bucket needs one, adds the bucket to the masks, and
distributes the chain of one old bucket over the old and the new one. By linear hashing these
are the only elements whose bucket changes.

* `TableInv.segment`: a new segment keeps the invariant.
* `TableInv.split`: the split of a bucket keeps the invariant.
* `TableInv.expand`: so does the whole expansion, as long as the number of the new bucket
  fits in 32 bits.
-/

namespace FdPostgres

open LinkedChain LinearHashing Nat

variable {K : Type} {ks : HashedKeys K} {t : HTAB K} {live : Finset ℕ} {f : List ℕ}
  {c : ℕ → List ℕ}

/-! ### A new segment -/

/-- The next bucket is in an existing segment, or in the one behind the last. -/
theorem TableShape.next_segment_le (h : TableShape t) :
    (t.max_bucket + 1) >>> t.sshift ≤ t.nsegs := by
  have hsegs := h.segs
  have hpos : 0 < 2 ^ t.sshift := Nat.two_pow_pos _
  have hle : (t.max_bucket + 1) / 2 ^ t.sshift ≤ (t.max_bucket + 2 ^ t.sshift) / 2 ^ t.sshift :=
    Nat.div_le_div_right (by omega)
  rw [Nat.add_div_right _ hpos] at hle
  omega

/-- The table with segments up to `nsegs + 1`: the directory may have grown, and the buckets of
the new segment are empty. -/
def addSegment (t : HTAB K) (dsize : ℕ) (dir : ℕ → Bool) : HTAB K :=
  { t with
    dsize := dsize
    nsegs := t.nsegs + 1
    dir := Function.update dir t.nsegs true
    store := clearSegment t.nsegs t.store }

/-- `expandSegment` for the next bucket: nothing to do, the directory doubled without a new
segment, or a new segment in the old or the doubled directory. -/
theorem expandSegment_cases (env : HashEnv) (h : TableShape t) :
    ((t.max_bucket + 1) >>> t.sshift < t.nsegs ∧
      expandSegment env t ((t.max_bucket + 1) >>> t.sshift) = (t, true)) ∨
    ∃ dsize dir, t.nsegs + 1 ≤ dsize ∧ (∀ i < t.nsegs, dir i = t.dir i) ∧
      (expandSegment env t ((t.max_bucket + 1) >>> t.sshift) =
          ({ t with dsize := dsize, dir := dir }, false) ∨
        expandSegment env t ((t.max_bucket + 1) >>> t.sshift) = (t, false) ∨
        (expandSegment env t ((t.max_bucket + 1) >>> t.sshift) = (addSegment t dsize dir, true) ∧
          (t.max_bucket + 1) >>> t.sshift = t.nsegs)) := by
  have hle := h.next_segment_le
  have hdsize := h.nsegs_le
  have hpos : 0 < t.nsegs := lt_of_le_of_lt (zero_le _) h.segs
  generalize (t.max_bucket + 1) >>> t.sshift = n at hle ⊢
  by_cases hn : n < t.nsegs
  · left
    rw [expandSegment, if_neg (not_le.mpr hn)]
    exact ⟨hn, rfl⟩
  · right
    obtain rfl : n = t.nsegs := le_antisymm hle (not_lt.mp hn)
    rw [expandSegment, if_pos le_rfl]
    by_cases hd : t.nsegs ≥ t.dsize
    · refine ⟨t.dsize <<< 1, fun i => if i < t.dsize then t.dir i else false, ?_, ?_, ?_⟩
      · omega
      · intro i hi
        exact if_pos (by omega)
      · rw [if_pos hd, dir_realloc]
        by_cases hmax : t.max_dsize ≠ none
        · rw [if_pos hmax]
          exact .inr (.inl rfl)
        · rw [if_neg hmax]
          cases hdir : env.dirOk with
          | false => exact .inr (.inl rfl)
          | true =>
            cases hseg : env.segOk with
            | false =>
              simp [seg_alloc, hseg]
            | true =>
              simp [seg_alloc, hseg, addSegment]
    · refine ⟨t.dsize, t.dir, by omega, fun i _ => rfl, ?_⟩
      rw [if_neg hd]
      cases hseg : env.segOk with
      | false =>
        simp [seg_alloc, hseg]
      | true =>
        simp [seg_alloc, hseg, addSegment]

/-- A larger directory keeps the invariant. -/
theorem TableInv.directory (h : TableInv ks t live f c) {dsize : ℕ} {dir : ℕ → Bool}
    (hdsize : t.nsegs + 1 ≤ dsize) (hdir : ∀ i < t.nsegs, dir i = t.dir i) :
    TableInv ks { t with dsize := dsize, dir := dir } live f c where
  shape :=
    { h.shape with
      nsegs_le := le_of_succ_le hdsize
      dir := fun i hi => (hdir i hi).trans (h.shape.dir i hi) }
  chains := { h.chains with }
  keys := { h.keys with }

/-- A new segment with empty buckets keeps the invariant. -/
theorem TableInv.segment (h : TableInv ks t live f c) {dsize : ℕ} {dir : ℕ → Bool}
    (hdsize : t.nsegs + 1 ≤ dsize) (hdir : ∀ i < t.nsegs, dir i = t.dir i) :
    TableInv ks (addSegment t dsize dir) live f c where
  shape :=
    { h.shape with
      segs := Nat.lt_succ_of_lt h.shape.segs
      nsegs_le := hdsize
      dir := by
        intro i hi
        change Function.update dir t.nsegs true i = true
        by_cases heq : i = t.nsegs
        · rw [heq, Function.update_self]
        · have hlt : i < t.nsegs := lt_of_le_of_ne (Nat.lt_succ_iff.mp hi) heq
          rw [Function.update_of_ne heq, hdir i hlt, h.shape.dir i hlt] }
  chains :=
    { h.chains with
      chain := by
        intro b hb
        by_cases hnew : b >>> t.sshift = t.nsegs
        · have hempty : c b = [] := by
            refine List.eq_nil_iff_forall_not_mem.mpr (fun e he => ?_)
            have hle := h.shape.calc_bucket_segs (t.hashvalue e)
            rw [((h.chains.mem b e).mp he).2] at hle
            exact absurd hnew (Nat.ne_of_lt hle)
          rw [hempty]
          exact ⟨trivial, if_pos hnew⟩
        · have hold : b >>> t.sshift < t.nsegs :=
            lt_of_le_of_ne (Nat.lt_succ_iff.mp hb) hnew
          exact (h.chains.chain b hold).congr (if_neg hnew) (fun i _ => rfl)
      free := h.chains.free.congr rfl (fun i _ => rfl) }
  keys := { h.keys with }

/-! ### Splitting a bucket -/

/-- The table with one more bucket: the masks are grown, and the chain of the source bucket is
distributed. -/
def splitBucket (t : HTAB K) : HTAB K :=
  { t with
    max_bucket := t.masks.grow.maxBucket
    high_mask := t.masks.grow.highMask
    low_mask := t.masks.grow.lowMask
    store := relink HashLoc.link
      (fun e => t.masks.grow.bucket (t.hashvalue e) == t.masks.source) (t.nelements + 1) t.store
      (t.store (t.bucketLoc t.masks.source)) (t.bucketLoc t.masks.source)
      (t.bucketLoc (t.max_bucket + 1)) }

/-- The last part of `expand_table`, in the terms of linear hashing. -/
theorem relocate_eq_splitBucket (t : HTAB K) :
    relocate (adjustMasks { t with max_bucket := t.max_bucket + 1 } (t.max_bucket + 1))
      ((t.max_bucket + 1) &&& t.low_mask) (t.max_bucket + 1) = splitBucket t := by
  rw [adjustMasks]
  by_cases hgrow : t.max_bucket + 1 > t.high_mask
  · have hmasks : t.masks.grow =
        ⟨t.max_bucket + 1, (t.max_bucket + 1) ||| t.high_mask, t.high_mask⟩ := if_pos hgrow
    rw [if_pos hgrow, splitBucket, hmasks]
    rfl
  · have hmasks : t.masks.grow = ⟨t.max_bucket + 1, t.high_mask, t.low_mask⟩ := if_neg hgrow
    rw [if_neg hgrow, splitBucket, hmasks]
    rfl

/-- The chains after a split. -/
def splitChains (t : HTAB K) (c : ℕ → List ℕ) (b : ℕ) : List ℕ :=
  let stays := fun e => t.masks.grow.bucket (t.hashvalue e) == t.masks.source
  if b = t.max_bucket + 1 then (c t.masks.source).filter (fun e => !stays e)
  else if b = t.masks.source then (c t.masks.source).filter stays
  else c b

/-- A live element is in the chain of its new bucket after a split, and in no other. -/
theorem TableInv.mem_splitChains (h : TableInv ks t live f c) (b e : ℕ) :
    e ∈ splitChains t c b ↔ e ∈ live ∧ t.masks.grow.bucket (t.hashvalue e) = b := by
  have hle : t.masks.bucket (t.hashvalue e) ≤ t.max_bucket :=
    h.shape.masks.bucket_le (t.hashvalue e)
  have hgrow : t.masks.grow.bucket (t.hashvalue e) = t.masks.bucket (t.hashvalue e) ∨
      t.masks.bucket (t.hashvalue e) = t.masks.source ∧
        t.masks.grow.bucket (t.hashvalue e) = t.max_bucket + 1 :=
    h.shape.masks.bucket_grow (t.hashvalue e)
  have hmem : ∀ b, e ∈ c b ↔ e ∈ live ∧ t.masks.bucket (t.hashvalue e) = b :=
    fun b => h.chains.mem b e
  by_cases hnew : b = t.max_bucket + 1
  · have hchain : splitChains t c b = (c t.masks.source).filter (fun e =>
        !(t.masks.grow.bucket (t.hashvalue e) == t.masks.source)) := if_pos hnew
    rw [hchain, List.mem_filter, hmem, Bool.not_eq_true', beq_eq_false_iff_ne, and_assoc]
    refine and_congr_right (fun _ => ?_)
    omega
  · by_cases hold : b = t.masks.source
    · have hchain : splitChains t c b = (c t.masks.source).filter (fun e =>
          t.masks.grow.bucket (t.hashvalue e) == t.masks.source) :=
        (if_neg hnew).trans (if_pos hold)
      rw [hchain, List.mem_filter, hmem, beq_iff_eq, and_assoc]
      refine and_congr_right (fun _ => ?_)
      omega
    · have hchain : splitChains t c b = c b := (if_neg hnew).trans (if_neg hold)
      rw [hchain, hmem]
      refine and_congr_right (fun _ => ?_)
      omega

/-- **The split of a bucket keeps the invariant**, with the same live elements. -/
theorem TableInv.split (h : TableInv ks t live f c) (hmax : t.max_bucket + 1 < 2 ^ 32)
    (hseg : (t.max_bucket + 1) >>> t.sshift < t.nsegs) :
    TableInv ks (splitBucket t) live f (splitChains t c) := by
  have hsrc : t.masks.source ≤ t.max_bucket := h.shape.masks.source_le
  have hne : t.bucketLoc t.masks.source ≠ t.bucketLoc (t.max_bucket + 1) := by
    intro heq
    have := bucketLoc_inj heq
    omega
  obtain ⟨hold, hnew, hother⟩ := relink_spec link_injective
    (fun e => t.masks.grow.bucket (t.hashvalue e) == t.masks.source)
    (bucketLoc_isHead t _) (bucketLoc_isHead t _) hne (a := []) (b := [])
    ⟨trivial, trivial, (h.chains.chain _ (h.shape.segs_of_le hsrc)).startsAt, h.chains.nodup _⟩
    (lt_succ_of_le (h.chains.length_le _))
  have hlink : ∀ i, i ∉ c t.masks.source → (splitBucket t).store (.link i) = t.store (.link i) := by
    intro i hi
    refine hother _ (bucketLoc_isHead t _ i).symm (bucketLoc_isHead t _ i).symm ?_
    exact fun j hj heq => hi (link_injective heq ▸ hj)
  have hgrow : (splitBucket t).max_bucket = t.max_bucket + 1 := Masks.Valid.maxBucket_grow t.masks
  refine ⟨⟨h.shape.unpartitioned, h.shape.masks.grow, ?_, ?_, h.shape.nsegs_le, h.shape.dir,
    h.shape.nelem_pos⟩, ⟨?_, ?_, ?_, h.chains.free_nodup, h.mem_splitChains, h.chains.free_disj,
    h.chains.live_lt, h.chains.free_lt, h.chains.count⟩, ⟨h.keys.keyed, h.keys.distinct⟩⟩
  · rw [hgrow]
    exact hmax
  · rw [hgrow]
    exact hseg
  · intro b hb
    by_cases hbnew : b = t.max_bucket + 1
    · rw [splitChains, if_pos hbnew, hbnew]
      exact hnew
    · rw [splitChains, if_neg hbnew]
      split_ifs with hbold
      · rw [hbold]
        exact hold
      · refine (h.chains.chain b hb).congr ?_ (fun i hi => hlink i (fun hmem => hbold ?_))
        · exact hother _ (fun heq => hbold (bucketLoc_inj heq))
            (fun heq => hbnew (bucketLoc_inj heq)) (fun i _ => bucketLoc_isHead t b i)
        · rw [← ((h.chains.mem b i).mp hi).2, ((h.chains.mem _ i).mp hmem).2]
  · refine h.chains.free.congr ?_ (fun i hi => hlink i (fun hmem => ?_))
    · refine hother _ (bucketLoc_ne_freeList t _ 0).symm (bucketLoc_ne_freeList t _ 0).symm ?_
      exact fun i _ => freeList_isHead 0 i
    · exact h.chains.free_disj i ((h.chains.mem _ i).mp hmem).1 hi
  · intro b
    rw [splitChains]
    split
    · exact (h.chains.nodup _).filter _
    · split
      · exact (h.chains.nodup _).filter _
      · exact h.chains.nodup b

/-! ### The whole expansion -/

/-- What an expansion leaves alone. -/
structure SameEntries (t t' : HTAB K) : Prop where
  key : t'.key = t.key
  hashvalue : t'.hashvalue = t.hashvalue
  nentries : t'.nentries = t.nentries
  frozen : t'.frozen = t.frozen
  isfixed : t'.isfixed = t.isfixed
  isshared : t'.isshared = t.isshared
  max_dsize : t'.max_dsize = t.max_dsize

theorem SameEntries.refl (t : HTAB K) : SameEntries t t := ⟨rfl, rfl, rfl, rfl, rfl, rfl, rfl⟩

/-- `expand_table` in cases: no room for the bucket, or a split. -/
theorem TableInv.expand_cases (h : TableInv ks t live f c) (env : HashEnv)
    (hmax : t.max_bucket + 1 < 2 ^ 32) :
    ∃ t₁, TableInv ks t₁ live f c ∧ SameEntries t t₁ ∧ t₁.max_bucket = t.max_bucket ∧
      (expand_table env t = (t₁, false) ∨ (expand_table env t = (splitBucket t₁, true) ∧
          (t₁.max_bucket + 1) >>> t₁.sshift < t₁.nsegs)) := by
  have hmod : (t.max_bucket + 1) % 2 ^ 32 = t.max_bucket + 1 := mod_eq_of_lt hmax
  rcases expandSegment_cases env h.shape with
    ⟨hseg, heq⟩ | ⟨dsize, dir, hdsize, hdir, heq | heq | ⟨heq, hseg⟩⟩
  · refine ⟨t, h, .refl t, rfl, .inr ⟨?_, hseg⟩⟩
    simp only [expand_table, hmod, heq, relocate_eq_splitBucket]
  · refine ⟨_, h.directory hdsize hdir, ⟨rfl, rfl, rfl, rfl, rfl, rfl, rfl⟩, rfl, .inl ?_⟩
    simp only [expand_table, hmod, heq]
  · refine ⟨t, h, .refl t, rfl, .inl ?_⟩
    simp only [expand_table, hmod, heq]
  · refine ⟨addSegment t dsize dir, h.segment hdsize hdir,
      ⟨rfl, rfl, rfl, rfl, rfl, rfl, rfl⟩, rfl, .inr ⟨?_, hseg.trans_lt (lt_succ_self _)⟩⟩
    have hmax' : (addSegment t dsize dir).max_bucket = t.max_bucket := rfl
    have hsplit := relocate_eq_splitBucket (addSegment t dsize dir)
    rw [hmax'] at hsplit
    simp only [expand_table, hmod, heq, hmax', hsplit]

/-- **`expand_table` keeps the invariant and the entries.** -/
theorem TableInv.expand (h : TableInv ks t live f c) (env : HashEnv)
    (hmax : t.max_bucket + 1 < 2 ^ 32) :
    (∃ c', TableInv ks (expand_table env t).1 live f c') ∧
      SameEntries t (expand_table env t).1 := by
  obtain ⟨t₁, hinv, hsame, heqmax, heq | ⟨heq, hseg⟩⟩ := h.expand_cases env hmax
  · rw [heq]
    exact ⟨⟨c, hinv⟩, hsame⟩
  · rw [heq]
    exact ⟨⟨_, hinv.split (heqmax ▸ hmax) hseg⟩, { hsame with }⟩

end FdPostgres
