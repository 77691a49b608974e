import FdPostgres.Dynahash.Table
import FdPostgres.Lib.LinearHashing

/-!
# The Invariant of a Dynamic Hash Table

An unpartitioned table keeps its live elements in chains, one per bucket, and the others in one
free list. The invariant is in three parts: the shape of the directory and the masks
(`TableShape`), the chains (`TableChains`) and the keys (`TableKeys`). `live` is the set of live
elements, `f` the free list, and `c` the chains by bucket.

* `TableChains.find_key`: a search finds the live element of a key, if there is one.
* `TableInv.expand`: `expand_table` keeps the invariant with the same live elements.
* `TableInv.enter`, `TableInv.remove`, `TableInv.rekey`: the changes of the operations.

The only condition is on `expand_table`: the number of the new bucket must fit in 32 bits.
-/

namespace FdPostgres

open LinkedChain LinearHashing HashLoc

variable {K : Type}

/-- The masks of a table. -/
def HTAB.masks (t : HTAB K) : Masks :=
  ⟨t.max_bucket, t.high_mask, t.low_mask⟩

/-- The shape of an unpartitioned table. -/
structure TableShape (t : HTAB K) : Prop where
  unpartitioned : t.num_partitions = 0
  masks : t.masks.Valid
  max_lt : t.max_bucket < 2 ^ 32
  segs : t.max_bucket >>> t.sshift < t.nsegs
  nsegs_le : t.nsegs ≤ t.dsize
  dir : ∀ i < t.nsegs, t.dir i = true
  nelem_pos : 0 < t.nelem_alloc

/-- The chains and the free list of a table. Every bucket that has a segment has a chain; that of
a bucket behind `max_bucket` is empty, by `mem`. -/
structure TableChains (t : HTAB K) (live : Finset ℕ) (f : List ℕ) (c : ℕ → List ℕ) :
    Prop where
  chain : ∀ b, b >>> t.sshift < t.nsegs → IsChain link t.store (t.bucketLoc b) (c b)
  free : IsChain link t.store (.freeList 0) f
  nodup : ∀ b, (c b).Nodup
  free_nodup : f.Nodup
  mem : ∀ b e, e ∈ c b ↔ e ∈ live ∧ calc_bucket t (t.hashvalue e) = b
  free_disj : ∀ e ∈ live, e ∉ f
  live_lt : ∀ e ∈ live, e < t.nelements
  free_lt : ∀ e ∈ f, e < t.nelements
  count : t.nentries 0 = live.card

/-- The keys of the live elements. -/
structure TableKeys (ks : HashedKeys K) (t : HTAB K) (live : Finset ℕ) : Prop where
  keyed : ∀ e ∈ live, ∃ k, t.key e = some k ∧ t.hashvalue e = ks.hash k
  distinct : ∀ e ∈ live, ∀ e' ∈ live, ∀ k k', t.key e = some k → t.key e' = some k' →
    ks.same k k' = true → e = e'

/-- **The invariant of a table**: its directory, its chains and free list, and the keys that they
hold fit together. -/
structure TableInv (ks : HashedKeys K) (t : HTAB K) (live : Finset ℕ) (f : List ℕ)
    (c : ℕ → List ℕ) : Prop where
  shape : TableShape t
  chains : TableChains t live f c
  keys : TableKeys ks t live

/-! ### Locations -/

theorem link_injective : Function.Injective link := fun _ _ h => link.inj h

theorem bucketLoc_isHead (t : HTAB K) (b : ℕ) : IsHead link (t.bucketLoc b) :=
  fun _ h => HashLoc.noConfusion h

theorem freeList_isHead (i : ℕ) : IsHead link (.freeList i) :=
  fun _ h => HashLoc.noConfusion h

theorem bucketLoc_ne_freeList (t : HTAB K) (b i : ℕ) : t.bucketLoc b ≠ .freeList i :=
  fun h => HashLoc.noConfusion h

variable {b : ℕ} {t : HTAB K} {ks : HashedKeys K} {live : Finset ℕ}

/-- Buckets have their own heads. -/
theorem bucketLoc_inj {b' : ℕ} (h : t.bucketLoc b = t.bucketLoc b') : b = b' := by
  simp only [HTAB.bucketLoc, bucket.injEq, Nat.shiftRight_eq_div_pow,
    Nat.and_two_pow_sub_one_eq_mod] at h
  rw [← Nat.div_add_mod b (2 ^ t.sshift), ← Nat.div_add_mod b' (2 ^ t.sshift), h.1, h.2]

/-- A bucket that is in use has a segment. -/
theorem TableShape.segs_of_le (h : TableShape t) (hb : b ≤ t.max_bucket) :
    b >>> t.sshift < t.nsegs := by
  refine lt_of_le_of_lt ?_ h.segs
  simp only [Nat.shiftRight_eq_div_pow]
  exact Nat.div_le_div_right hb

theorem TableShape.calc_bucket_le (h : TableShape t) (hash_val : ℕ) :
    calc_bucket t hash_val ≤ t.max_bucket :=
  h.masks.bucket_le hash_val

/-- The bucket of a hash value has a segment. -/
theorem TableShape.calc_bucket_segs (h : TableShape t) (hash_val : ℕ) :
    calc_bucket t hash_val >>> t.sshift < t.nsegs :=
  h.segs_of_le (h.calc_bucket_le hash_val)

/-- An unpartitioned table is not partitioned. -/
theorem TableShape.isPartitioned_eq (h : TableShape t) : t.isPartitioned = false := by
  rw [HTAB.isPartitioned, h.unpartitioned]
  rfl

/-- An unpartitioned table uses one free list. -/
theorem TableShape.freelistIdx_eq (h : TableShape t) (hashcode : ℕ) :
    t.freelistIdx hashcode = 0 := by
  rw [HTAB.freelistIdx, h.isPartitioned_eq]
  rfl

/-! ### Searching -/

namespace TableChains

variable {t : HTAB K} {live : Finset ℕ} {f : List ℕ} {c : ℕ → List ℕ}

/-- A chain has at most all elements. -/
theorem length_le (h : TableChains t live f c) (b : ℕ) : (c b).length ≤ t.nelements := by
  have hsub : (c b).toFinset ⊆ Finset.range t.nelements := by
    intro e he
    rw [List.mem_toFinset, h.mem b] at he
    exact Finset.mem_range.mpr (h.live_lt e he.1)
  have hcard := Finset.card_le_card hsub
  rwa [List.toFinset_card_of_nodup (h.nodup b), Finset.card_range] at hcard

/-- A walk along a chain finds an element or reaches the end. -/
theorem find_cases (h : TableChains t live f c) (hb : b >>> t.sshift < t.nsegs) (p : ℕ → Bool) :
    (∃ l₁ e l₂, c b = l₁ ++ e :: l₂ ∧ p e = true ∧
      t.findIn p b = (lastLoc link (t.bucketLoc b) l₁, some e)) ∨
    ((∀ e ∈ c b, p e = false) ∧
      t.findIn p b = (lastLoc link (t.bucketLoc b) (c b), none)) :=
  (h.chain b hb).search_cases p (Nat.lt_succ_of_le (h.length_le b))

end TableChains

/-- The live element of a key. -/
def KeyOf (ks : HashedKeys K) (t : HTAB K) (live : Finset ℕ) (k : K) (e : ℕ) : Prop :=
  e ∈ live ∧ ∃ k', t.key e = some k' ∧ ks.same k' k = true

/-- A live element passes the test of a search exactly when it has the key. -/
theorem hasKey_iff (h : TableKeys ks t live) {k : K} {e : ℕ} (he : e ∈ live) :
    t.hasKey ks k (ks.hash k) e = true ↔ KeyOf ks t live k e := by
  obtain ⟨k', hk', hhash⟩ := h.keyed e he
  rw [HTAB.hasKey, Bool.and_eq_true, beq_iff_eq, hk', hhash]
  constructor
  · rintro ⟨-, hsame⟩
    exact ⟨he, k', hk', hsame⟩
  · rintro ⟨-, k'', hk'', hsame⟩
    obtain rfl : k' = k'' := Option.some.inj (hk'.symm.trans hk'')
    exact ⟨ks.hash_same hsame, hsame⟩

/-- **A search finds the live element of a key**, with its place in the chain, or the end of
the chain when there is none. -/
theorem TableInv.find_key {f : List ℕ} {c : ℕ → List ℕ} (h : TableInv ks t live f c) (k : K) :
    (∃ l₁ e l₂, c (calc_bucket t (ks.hash k)) = l₁ ++ e :: l₂ ∧ KeyOf ks t live k e ∧
      t.findIn (t.hasKey ks k (ks.hash k)) (calc_bucket t (ks.hash k)) =
        (lastLoc link (t.bucketLoc (calc_bucket t (ks.hash k))) l₁, some e)) ∨
    ((∀ e, ¬ KeyOf ks t live k e) ∧
      t.findIn (t.hasKey ks k (ks.hash k)) (calc_bucket t (ks.hash k)) =
        (lastLoc link (t.bucketLoc (calc_bucket t (ks.hash k)))
          (c (calc_bucket t (ks.hash k))), none)) := by
  have hb := h.shape.calc_bucket_segs (ks.hash k)
  rcases h.chains.find_cases hb (t.hasKey ks k (ks.hash k)) with
    ⟨l₁, e, l₂, hl, hp, hfound⟩ | ⟨hall, hend⟩
  · refine .inl ⟨l₁, e, l₂, hl, ?_, hfound⟩
    have he : e ∈ live := by
      have hmem : e ∈ c (calc_bucket t (ks.hash k)) := by
        rw [hl]
        exact List.mem_append_right _ List.mem_cons_self
      exact ((h.chains.mem _ e).mp hmem).1
    exact (hasKey_iff h.keys he).mp hp
  · refine .inr ⟨?_, hend⟩
    intro e hkey
    obtain ⟨k', hk', hsame⟩ := hkey.2
    obtain ⟨k'', hk'', hhash⟩ := h.keys.keyed e hkey.1
    obtain rfl : k' = k'' := Option.some.inj (hk'.symm.trans hk'')
    have hmem : e ∈ c (calc_bucket t (ks.hash k)) := by
      rw [h.chains.mem]
      exact ⟨hkey.1, by rw [hhash, ks.hash_same hsame]⟩
    have htrue := (hasKey_iff h.keys hkey.1).mpr hkey
    exact Bool.false_ne_true ((hall e hmem).symm.trans htrue)

/-- Two live elements of one key are the same. -/
theorem KeyOf.unique (h : TableKeys ks t live) {k : K} {e e' : ℕ} (he : KeyOf ks t live k e)
    (he' : KeyOf ks t live k e') : e = e' := by
  obtain ⟨hlive, k₁, hk₁, hsame₁⟩ := he
  obtain ⟨hlive', k₂, hk₂, hsame₂⟩ := he'
  exact h.distinct e hlive e' hlive' k₁ k₂ hk₁ hk₂
    (ks.same_trans hsame₁ (ks.same_symm hsame₂))

end FdPostgres
