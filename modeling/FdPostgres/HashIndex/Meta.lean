import FdPostgres.Lib.LinearHashing
import FdPostgres.Port.BitUtils

/-!
# The Metapage of a Hash Index

A hash index keeps in its metapage everything that maps a hash key to a bucket and a bucket
or an overflow page to a block of the index file. This module is that part of the metapage
and the functions that read and change it:

* `hash_hashkey2bucket`, `hash_spareindex`, `hash_get_totalbuckets` and the block numbers
  `bucket_to_blkno`, `bitno_to_blkno` and `hash_ovflblkno_to_bitno`;
* `hash_init_metabuffer` and `hash_init`, which set the metapage up for an estimated number
  of buckets;
* `hash_expand_metapage`, the changes that `_hash_expandtable` makes to the metapage;
* `hash_addovflpage`, the changes made when an overflow page is added, with or without a new
  bitmap page.

`HashIndex.Step` puts them together with the splits that are in progress: a bucket is split
only when no split of it is in progress, any number of other splits may be, and a split in
progress may be finished at any later time.

Bucket numbers stay below `2 ^ 31` because the source refuses to grow further; block numbers
are computed modulo `2 ^ 32` as in the source.
-/

namespace FdPostgres

open Function

/-! ### Buckets and split points -/

def HASH_SPLITPOINT_PHASE_BITS : ℕ := 2

def HASH_SPLITPOINT_PHASE_MASK : ℕ := 3

def HASH_SPLITPOINT_GROUPS_WITH_ONE_PHASE : ℕ := 10

def HASH_MAX_BITMAPS : ℕ := 1024

def InvalidBlockNumber : ℕ := 2 ^ 32 - 1

/-- `_hash_hashkey2bucket`: the bucket of a hash key. -/
def hash_hashkey2bucket (hashkey maxbucket highmask lowmask : ℕ) : ℕ :=
  let bucket := hashkey &&& highmask
  if bucket > maxbucket then bucket &&& lowmask else bucket

/-- `_hash_spareindex`: the split point phase of a number of buckets. -/
def hash_spareindex (num_bucket : ℕ) : ℕ :=
  let splitpoint_group := pg_ceil_log2_32 num_bucket
  if splitpoint_group < HASH_SPLITPOINT_GROUPS_WITH_ONE_PHASE then splitpoint_group
  else
    HASH_SPLITPOINT_GROUPS_WITH_ONE_PHASE +
      ((splitpoint_group - HASH_SPLITPOINT_GROUPS_WITH_ONE_PHASE) <<< HASH_SPLITPOINT_PHASE_BITS) +
      (((num_bucket - 1) >>> (splitpoint_group - (HASH_SPLITPOINT_PHASE_BITS + 1))) &&&
        HASH_SPLITPOINT_PHASE_MASK)

/-- `_hash_get_totalbuckets`: the number of buckets allocated up to a split point phase. -/
def hash_get_totalbuckets (splitpoint_phase : ℕ) : ℕ :=
  if splitpoint_phase < HASH_SPLITPOINT_GROUPS_WITH_ONE_PHASE then 1 <<< splitpoint_phase
  else
    let splitpoint_group := HASH_SPLITPOINT_GROUPS_WITH_ONE_PHASE +
      ((splitpoint_phase - HASH_SPLITPOINT_GROUPS_WITH_ONE_PHASE) >>> HASH_SPLITPOINT_PHASE_BITS)
    let phases_within_splitpoint_group :=
      ((splitpoint_phase - HASH_SPLITPOINT_GROUPS_WITH_ONE_PHASE) &&&
        HASH_SPLITPOINT_PHASE_MASK) + 1
    1 <<< (splitpoint_group - 1) + ((1 <<< (splitpoint_group - 1)) >>> HASH_SPLITPOINT_PHASE_BITS) *
        phases_within_splitpoint_group

/-- The bucket that a new bucket was split from: the new bucket without its most significant
bit. This is the computation in `_hash_get_oldblock_from_newbucket`. -/
def hash_get_oldbucket_from_newbucket (new_bucket : ℕ) : ℕ :=
  new_bucket &&& (1 <<< (fls new_bucket - 1) - 1)

/-- `_hash_get_newbucket_from_oldbucket`: the bucket that an old bucket is being split
into. -/
def hash_get_newbucket_from_oldbucket (old_bucket lowmask maxbucket : ℕ) : ℕ :=
  let new_bucket := old_bucket ||| (lowmask + 1)
  if new_bucket > maxbucket then old_bucket ||| ((lowmask >>> 1) + 1) else new_bucket

/-! ### The metapage -/

/-- The fields of the metapage that take part in the mapping. -/
structure HashMetaPage where
  hashm_maxbucket : ℕ
  hashm_highmask : ℕ
  hashm_lowmask : ℕ
  hashm_ovflpoint : ℕ
  hashm_firstfree : ℕ
  hashm_nmaps : ℕ
  hashm_bmsize : ℕ
  hashm_spares : ℕ → ℕ
  hashm_mapp : ℕ → ℕ

variable (metap : HashMetaPage)

/-- `BUCKET_TO_BLKNO`: the block of a bucket's primary page. -/
def bucket_to_blkno (B : ℕ) : ℕ :=
  (B + (if B ≠ 0 then metap.hashm_spares (hash_spareindex (B + 1) - 1) else 0) + 1) % 2 ^ 32

/-- The loop of `bitno_to_blkno`: the first split point at or after `i` that has the page,
or the last one. -/
def splitnumLoop (metap : HashMetaPage) (ovflbitnum : ℕ) : ℕ → ℕ → ℕ
  | 0, i => i
  | fuel + 1, i =>
      if ovflbitnum > metap.hashm_spares i then splitnumLoop metap ovflbitnum fuel (i + 1)
      else i

/-- `bitno_to_blkno`: the block of an overflow page, from its bit number. The loop runs from
split point 1 to `hashm_ovflpoint`. -/
def bitno_to_blkno (ovflbitnum : ℕ) : ℕ :=
  let i := splitnumLoop metap (ovflbitnum + 1) (metap.hashm_ovflpoint - 1) 1
  (hash_get_totalbuckets i + (ovflbitnum + 1)) % 2 ^ 32

/-- The loop of `_hash_ovflblkno_to_bitno` from split point `i`, over `fuel` split points. -/
def bitnoLoop (metap : HashMetaPage) (ovflblkno : ℕ) : ℕ → ℕ → Option ℕ
  | 0, _ => none
  | fuel + 1, i =>
      if ovflblkno ≤ hash_get_totalbuckets i then none
      else
        let bitnum := ovflblkno - hash_get_totalbuckets i
        if bitnum > metap.hashm_spares (i - 1) ∧ bitnum ≤ metap.hashm_spares i then
          some (bitnum - 1)
        else bitnoLoop metap ovflblkno fuel (i + 1)

/-- `_hash_ovflblkno_to_bitno`: the bit number of an overflow page, from its block. `none` is
the error `invalid overflow block number`. -/
def hash_ovflblkno_to_bitno (ovflblkno : ℕ) : Option ℕ :=
  bitnoLoop metap ovflblkno metap.hashm_ovflpoint 1

/-- `_hash_get_oldblock_from_newbucket`: the block of the bucket a new bucket is split
from. -/
def hash_get_oldblock_from_newbucket (new_bucket : ℕ) : ℕ :=
  bucket_to_blkno metap (hash_get_oldbucket_from_newbucket new_bucket)

/-- The number of buckets that `_hash_init_metabuffer` starts with, for the estimated number
of tuples divided by the fill factor. -/
def initialBuckets (dnumbuckets : ℚ) : ℕ :=
  if dnumbuckets ≤ 2 then 2
  else if dnumbuckets ≥ 0x40000000 then 0x40000000
  else hash_get_totalbuckets (hash_spareindex ⌊dnumbuckets⌋₊)

/-- `_hash_init_metabuffer`: buckets `0 .. N - 1` in blocks `1 .. N`, and the first bitmap
page behind them. `bsize` is the space for a bitmap in a page. -/
def hash_init_metabuffer (bsize : ℕ) (dnumbuckets : ℚ) : HashMetaPage :=
  let num_buckets := initialBuckets dnumbuckets
  let spare_index := hash_spareindex num_buckets
  { hashm_maxbucket := num_buckets - 1
    hashm_highmask := pg_nextpower2_32 (num_buckets + 1) - 1
    hashm_lowmask := (pg_nextpower2_32 (num_buckets + 1) - 1) >>> 1
    hashm_ovflpoint := spare_index
    hashm_firstfree := 0
    hashm_nmaps := 0
    hashm_bmsize := 1 <<< pg_leftmost_one_pos32 bsize
    hashm_spares := update (fun _ => 0) spare_index 1
    hashm_mapp := fun _ => 0 }

/-- The metapage as `_hash_init` leaves it: set up, and with the first bitmap page, in the
block behind the buckets, registered. -/
def hash_init (bsize : ℕ) (dnumbuckets : ℚ) : HashMetaPage :=
  let metap := hash_init_metabuffer bsize dnumbuckets
  { metap with
    hashm_mapp := update metap.hashm_mapp metap.hashm_nmaps
      (initialBuckets dnumbuckets + 1)
    hashm_nmaps := metap.hashm_nmaps + 1 }

/-- `_hash_alloc_buckets`: whether a run of bucket pages fits into the block numbers. -/
def hash_alloc_buckets (firstblock nblocks : ℕ) : Bool :=
  let lastblock := (firstblock + nblocks - 1) % 2 ^ 32
  !(lastblock < firstblock || lastblock == InvalidBlockNumber)

/-- The changes of `_hash_expandtable` to the metapage, or `none` when the table cannot be
split: at the maximum bucket number, or when the bucket pages of a new split point do not
fit. -/
def hash_expand_metapage : Option HashMetaPage :=
  if metap.hashm_maxbucket ≥ 0x7FFFFFFE then none
  else
    let new_bucket := metap.hashm_maxbucket + 1
    let start_nblkno := bucket_to_blkno metap new_bucket
    let spare_ndx := hash_spareindex (new_bucket + 1)
    if spare_ndx > metap.hashm_ovflpoint ∧
        hash_alloc_buckets start_nblkno (hash_get_totalbuckets spare_ndx - new_bucket) = false
    then none
    else
      let masks : HashMetaPage :=
        if new_bucket > metap.hashm_highmask then
          { metap with
            hashm_maxbucket := new_bucket
            hashm_lowmask := metap.hashm_highmask
            hashm_highmask := new_bucket ||| metap.hashm_highmask }
        else { metap with hashm_maxbucket := new_bucket }
      if spare_ndx > metap.hashm_ovflpoint then
        some { masks with
          hashm_spares := update metap.hashm_spares spare_ndx
            (metap.hashm_spares metap.hashm_ovflpoint)
          hashm_ovflpoint := spare_ndx }
      else some masks

/-- `BMPGSZ_BIT`: the number of bits in a bitmap page. -/
def HashMetaPage.bmpgsz_bit : ℕ :=
  metap.hashm_bmsize <<< 3

/-- The bit numbers that `_hash_addovflpage` hands out, and its changes to the metapage. The
search of the bitmap pages has found a free page (`found`), or the file is extended by one page,
preceded by a new bitmap page when the last one is full; then the bit of the bitmap page follows
that of the page itself. `unmoved` says that nobody moved `hashm_firstfree` during the search.
`none` is an error: no room for a bitmap page, or no block number left. -/
def hash_addovflpage (found : Option ℕ) (unmoved : Bool) : Option (List ℕ × HashMetaPage) :=
  match found with
  | some bit => some ([bit], { metap with
      hashm_firstfree := if unmoved then bit + 1 else metap.hashm_firstfree })
  | none =>
      let splitnum := metap.hashm_ovflpoint
      let max_ovflpg := metap.hashm_spares splitnum - 1
      let newmap : Bool := max_ovflpg &&& (metap.bmpgsz_bit - 1) = metap.bmpgsz_bit - 1
      let bit := if newmap then metap.hashm_spares splitnum + 1
        else metap.hashm_spares splitnum
      if newmap ∧ metap.hashm_nmaps ≥ HASH_MAX_BITMAPS then none
      else if newmap ∧ bitno_to_blkno metap (metap.hashm_spares splitnum) = InvalidBlockNumber
      then none
      else if bitno_to_blkno metap bit = InvalidBlockNumber then none
      else some (if newmap then [bit, metap.hashm_spares splitnum] else [bit], { metap with
        hashm_spares := update metap.hashm_spares splitnum (bit + 1)
        hashm_mapp := if newmap then update metap.hashm_mapp metap.hashm_nmaps
          (bitno_to_blkno metap (metap.hashm_spares splitnum)) else metap.hashm_mapp
        hashm_nmaps := if newmap then metap.hashm_nmaps + 1 else metap.hashm_nmaps
        hashm_firstfree := if unmoved then bit + 1 else metap.hashm_firstfree })

/-! ### Runs -/

/-- The metapage together with the splits in progress, as pairs of the old and the new
bucket, and with the bit numbers that were handed out, the latest ones first. -/
structure HashIndex where
  metap : HashMetaPage
  splits : List (ℕ × ℕ)
  bits : List ℕ

/-- The bucket that the next expansion splits. -/
def HashMetaPage.oldBucket : ℕ :=
  (metap.hashm_maxbucket + 1) &&& metap.hashm_lowmask

/-- One step of the index. An expansion needs the old bucket to have no split in progress;
it starts one. An overflow page that is found free exists already: the bits behind the last one
are set. -/
inductive HashIndex.Step : HashIndex → HashIndex → Prop
  | expand {s : HashIndex} {metap : HashMetaPage} :
      (∀ new, (s.metap.oldBucket, new) ∉ s.splits) →
      hash_expand_metapage s.metap = some metap →
      Step s ⟨metap, (s.metap.oldBucket, s.metap.hashm_maxbucket + 1) :: s.splits, s.bits⟩
  | finishSplit {s : HashIndex} (split : ℕ × ℕ) :
      Step s ⟨s.metap, s.splits.erase split, s.bits⟩
  | addOvflPage {s : HashIndex} {metap : HashMetaPage} {bits : List ℕ} (found : Option ℕ)
      (unmoved : Bool) :
      (∀ bit ∈ found, bit < s.metap.hashm_spares s.metap.hashm_ovflpoint) →
      hash_addovflpage s.metap found unmoved = some (bits, metap) →
      Step s ⟨metap, s.splits, bits ++ s.bits⟩

/-- The states that are reached from a new index, in which bit 0 stands for the first bitmap
page. -/
inductive HashIndex.Reachable : HashIndex → Prop
  | init (bsize : ℕ) (dnumbuckets : ℚ) :
      Reachable ⟨hash_init bsize dnumbuckets, [], [0]⟩
  | step {s s' : HashIndex} : Reachable s → Step s s' → Reachable s'

end FdPostgres
