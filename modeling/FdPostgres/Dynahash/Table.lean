import FdPostgres.Lib.HashedKeys
import FdPostgres.Lib.LinkedChain
import FdPostgres.Port.BitUtils

/-!
# Dynamic Hash Tables

The tables of `dynahash.c`. A table has a directory of segments, each an array of bucket
heads; a bucket is a chain of elements that are linked through their headers. Elements that are
not in use are in free lists. Linear hashing adds one bucket at a time: `expand_table` splits
one bucket when there are more entries than buckets.

The memory of a table is a store of links (`HashLoc`): of bucket heads, of element headers and
of free lists. Elements are numbered in the order of their allocation, and a segment has the
number of its directory slot. What an operation asks of its surroundings (whether allocations
succeed, whether scans are active on the table) is a `HashEnv`.

* `calc_bucket`, `expand_table`: linear hashing.
* `hash_search_with_hash_value`, `hash_update_hash_key`, `hash_get_num_entries`: the operations.
* `hash_create`: a new table.
* `HashOp.run` runs an operation for its effect on the table.

The bucket numbers and masks are 32-bit numbers; counters of type `long` are integers.
-/

namespace FdPostgres

open Function LinkedChain

def DEF_SEGSIZE_SHIFT : ℕ := 8

def DEF_DIRSIZE : ℕ := 256

def NUM_FREELISTS : ℕ := 32

/-- The places that hold a link to an element. -/
inductive HashLoc where
  | bucket (segment ndx : ℕ)
  | link (element : ℕ)
  | freeList (idx : ℕ)
  deriving Repr, DecidableEq

/-- `HTAB` and `HASHHDR`, with the memory of the table. -/
structure HTAB (K : Type) where
  /-- The number of live entries of each free list. -/
  nentries : ℕ → ℤ
  dsize : ℕ
  nsegs : ℕ
  max_bucket : ℕ
  high_mask : ℕ
  low_mask : ℕ
  num_partitions : ℕ
  /-- The limit of `dsize`, if the directory is of fixed size. -/
  max_dsize : Option ℕ
  sshift : ℕ
  nelem_alloc : ℕ
  isshared : Bool
  isfixed : Bool
  frozen : Bool
  /-- Whether a directory slot points to a segment. -/
  dir : ℕ → Bool
  store : HashLoc → Option ℕ
  hashvalue : ℕ → ℕ
  key : ℕ → Option K
  /-- The number of elements allocated so far. -/
  nelements : ℕ

/-- What an operation finds in its surroundings. -/
structure HashEnv where
  has_seq_scans : Bool
  /-- Whether the allocation of a directory succeeds. -/
  dirOk : Bool
  /-- Whether the allocation of a segment succeeds. -/
  segOk : Bool
  /-- Whether the allocation of elements succeeds. -/
  elemOk : Bool

/-- The errors that the operations raise. -/
inductive HashError where
  | corrupted
  | frozenInsert
  | frozenUpdate
  | notInTable
  | outOfMemory
  | outOfSharedMemory
  deriving Repr, DecidableEq

/-- The texts of the errors, for a table name. -/
def HashError.message (tabname : String) : HashError → String
  | corrupted => "hash table \"" ++ tabname ++ "\" corrupted"
  | frozenInsert => "cannot insert into frozen hashtable \"" ++ tabname ++ "\""
  | frozenUpdate => "cannot update in frozen hashtable \"" ++ tabname ++ "\""
  | notInTable => "hash_update_hash_key argument is not in hashtable \"" ++ tabname ++ "\""
  | outOfMemory => "out of memory"
  | outOfSharedMemory => "out of shared memory"

variable {K : Type} (t : HTAB K)

/-- `IS_PARTITIONED`. -/
def HTAB.isPartitioned : Bool := t.num_partitions != 0

/-- `FREELIST_IDX`. -/
def HTAB.freelistIdx (hashcode : ℕ) : ℕ :=
  if t.isPartitioned then hashcode % NUM_FREELISTS else 0

/-- `calc_bucket`: the bucket of a hash value. -/
def calc_bucket (hash_val : ℕ) : ℕ :=
  let bucket := hash_val &&& t.high_mask
  if bucket > t.max_bucket then bucket &&& t.low_mask else bucket

/-- The place of a bucket head: its segment, and its index there. -/
def HTAB.bucketLoc (bucket : ℕ) : HashLoc :=
  .bucket (bucket >>> t.sshift) (bucket &&& (2 ^ t.sshift - 1))

/-! ### Expanding the table -/

variable (env : HashEnv) (t : HTAB K)

/-- `dir_realloc`: the directory doubled; `none` when it cannot be. -/
def dir_realloc : Option (HTAB K) :=
  if t.max_dsize ≠ none then none
  else if env.dirOk then
    some { t with
      dsize := t.dsize <<< 1
      dir := fun i => if i < t.dsize then t.dir i else false }
  else none

/-- A store with the bucket heads of a segment cleared. -/
def clearSegment (segnum : ℕ) (store : HashLoc → Option ℕ) : HashLoc → Option ℕ
  | .bucket s ndx => if s = segnum then none else store (.bucket s ndx)
  | loc => store loc

/-- `seg_alloc`: a new segment in a directory slot, with empty buckets. -/
def seg_alloc (segnum : ℕ) : Option (HTAB K) :=
  if env.segOk then
    some { t with
      dir := update t.dir segnum true
      store := clearSegment segnum t.store }
  else none

/-- The segment that a new bucket needs. -/
def expandSegment (new_segnum : ℕ) : HTAB K × Bool :=
  if new_segnum ≥ t.nsegs then
    match if new_segnum ≥ t.dsize then dir_realloc env t else some t with
    | none => (t, false)
    | some t =>
        match seg_alloc env t new_segnum with
        | none => (t, false)
        | some t => ({ t with nsegs := t.nsegs + 1 }, true)
  else (t, true)

/-- The masks after a new bucket, readjusted when it crosses a power of two. -/
def adjustMasks (new_bucket : ℕ) : HTAB K :=
  if new_bucket > t.high_mask then
    { t with low_mask := t.high_mask, high_mask := new_bucket ||| t.high_mask }
  else t

/-- The chain of the old bucket, distributed over the old and the new bucket. -/
def relocate (old_bucket new_bucket : ℕ) : HTAB K :=
  { t with
    store := relink HashLoc.link (fun e => calc_bucket t (t.hashvalue e) == old_bucket)
      (t.nelements + 1) t.store (t.store (t.bucketLoc old_bucket)) (t.bucketLoc old_bucket)
      (t.bucketLoc new_bucket) }

/-- `expand_table`: one more bucket, and whether there was room for it. -/
def expand_table : HTAB K × Bool :=
  let new_bucket := (t.max_bucket + 1) % 2 ^ 32
  match expandSegment env t (new_bucket >>> t.sshift) with
  | (t, false) => (t, false)
  | (t, true) =>
      let old_bucket := new_bucket &&& t.low_mask
      let t := { t with max_bucket := (t.max_bucket + 1) % 2 ^ 32 }
      (relocate (adjustMasks t new_bucket) old_bucket new_bucket, true)

/-! ### Elements and free lists -/

/-- A store with `nelem` elements from `first` on chained to each other: the first of them to the
free list, and each of the others to the one before it. -/
def chainElements (store : HashLoc → Option ℕ) (first nelem freelist_idx : ℕ) :
    HashLoc → Option ℕ
  | .link e =>
      if e = first then store (.freeList freelist_idx)
      else if first < e ∧ e < first + nelem then some (e - 1)
      else store (.link e)
  | loc => store loc

/-- `element_alloc`: `nelem` new elements in front of a free list; `none` when there is no
memory for them. -/
def element_alloc (nelem freelist_idx : ℕ) : Option (HTAB K) :=
  if t.isfixed then none
  else if env.elemOk then
    some { t with
      store := update (chainElements t.store t.nelements nelem freelist_idx)
        (.freeList freelist_idx) (some (t.nelements + nelem - 1))
      nelements := t.nelements + nelem }
  else none

/-- The first element taken off a free list, and counted for a free list. -/
def takeElement (e fromIdx countIdx : ℕ) : HTAB K :=
  { t with
    store := update t.store (.freeList fromIdx) (t.store (.link e))
    nentries := update t.nentries countIdx (t.nentries countIdx + 1) }

/-- The loop of `get_hash_entry` that borrows from the other free lists of a partitioned
table. -/
def borrowLoop (t : HTAB K) (freelist_idx : ℕ) : ℕ → ℕ → Option ℕ × HTAB K
  | 0, _ => (none, t)
  | fuel + 1, borrow_from_idx =>
      let borrow_from_idx := (borrow_from_idx + 1) % NUM_FREELISTS
      if borrow_from_idx = freelist_idx then (none, t)
      else
        match t.store (.freeList borrow_from_idx) with
        | some e => (some e, takeElement t e borrow_from_idx freelist_idx)
        | none => borrowLoop t freelist_idx fuel borrow_from_idx

/-- `get_hash_entry`: an element for a new entry; `none` when there is no memory. -/
def get_hash_entry (freelist_idx : ℕ) : Option ℕ × HTAB K :=
  match t.store (.freeList freelist_idx) with
  | some e => (some e, takeElement t e freelist_idx freelist_idx)
  | none =>
      match element_alloc env t t.nelem_alloc freelist_idx with
      | some t =>
          match t.store (.freeList freelist_idx) with
          | some e => (some e, takeElement t e freelist_idx freelist_idx)
          | none => (none, t)
      | none =>
          if t.isPartitioned then borrowLoop t freelist_idx NUM_FREELISTS freelist_idx
          else (none, t)

/-! ### Searching -/

inductive HASHACTION where
  | HASH_FIND
  | HASH_ENTER
  | HASH_REMOVE
  | HASH_ENTER_NULL
  deriving Repr, DecidableEq

open HASHACTION

variable (ks : HashedKeys K)

/-- Whether an element has a key: the hash values agree, and the keys are the same. -/
def HTAB.hasKey (t : HTAB K) (k : K) (hashvalue e : ℕ) : Bool :=
  t.hashvalue e == hashvalue && (t.key e).any (fun k' => ks.same k' k)

/-- The walk along a chain: the place that leads to the element found, or to the end. -/
def HTAB.findIn (p : ℕ → Bool) (bucket : ℕ) : HashLoc × Option ℕ :=
  search HashLoc.link t.store p (t.nelements + 1) (t.bucketLoc bucket)

/-- Whether `hash_search_with_hash_value` splits a bucket first: an insertion into a table with
more entries than buckets that is not partitioned, not frozen and not being scanned. -/
def expandDue (action : HASHACTION) : Bool :=
  (action == HASH_ENTER || action == HASH_ENTER_NULL) && decide (t.nentries 0 > t.max_bucket) &&
    !t.isPartitioned && !t.frozen && !env.has_seq_scans

variable (prevBucketPtr : HashLoc)

/-- An entry removed: out of its chain, and in front of a free list. -/
def removeEntry (e freelist_idx : ℕ) : HTAB K :=
  let unlinked := update t.store prevBucketPtr (t.store (.link e))
  { t with
    nentries := update t.nentries freelist_idx (t.nentries freelist_idx - 1)
    store := update
      (update unlinked (.link e) (unlinked (.freeList freelist_idx)))
      (.freeList freelist_idx) (some e) }

/-- An entry linked at the end of a chain, with its key. -/
def linkEntry (e : ℕ) (k : K) (hashvalue : ℕ) : HTAB K :=
  { t with
    store := update (update t.store prevBucketPtr (some e)) (.link e) none
    hashvalue := update t.hashvalue e hashvalue
    key := update t.key e (some k) }

/-- The insertion of a key that was not found; `HASH_ENTER_NULL` returns nothing where
`HASH_ENTER` raises an error for lack of memory. -/
def enterEntry (k : K) (hashvalue freelist_idx : ℕ) (action : HASHACTION) :
    Except HashError (Option ℕ × Bool) × HTAB K :=
  if t.frozen then (.error .frozenInsert, t)
  else
    match get_hash_entry env t freelist_idx with
    | (none, t) =>
        if action = HASH_ENTER_NULL then (.ok (none, false), t)
        else (.error (if t.isshared then .outOfSharedMemory else .outOfMemory), t)
    | (some e, t) => (.ok (some e, false), linkEntry t prevBucketPtr e k hashvalue)

/-- The search in the bucket of a hash value, with the effect of the action. -/
def searchBucket (env : HashEnv) (t : HTAB K) (k : K) (hashvalue : ℕ) (action : HASHACTION) :
    Except HashError (Option ℕ × Bool) × HTAB K :=
  let freelist_idx := t.freelistIdx hashvalue
  let bucket := calc_bucket t hashvalue
  if t.dir (bucket >>> t.sshift) = false then (.error .corrupted, t)
  else
    let prevBucketPtr := (t.findIn (t.hasKey ks k hashvalue) bucket).1
    match action, (t.findIn (t.hasKey ks k hashvalue) bucket).2 with
    | HASH_FIND, currBucket => (.ok (currBucket, currBucket.isSome), t)
    | HASH_REMOVE, none => (.ok (none, false), t)
    | HASH_REMOVE, some e => (.ok (some e, true), removeEntry t prevBucketPtr e freelist_idx)
    | _, some e => (.ok (some e, true), t)
    | action, none => enterEntry env t prevBucketPtr k hashvalue freelist_idx action

/-- `hash_search_with_hash_value`: the entry with its `found` flag, and the table. -/
def hash_search_with_hash_value (env : HashEnv) (t : HTAB K) (k : K) (hashvalue : ℕ)
    (action : HASHACTION) : Except HashError (Option ℕ × Bool) × HTAB K :=
  if expandDue env t action then
    searchBucket ks env (expand_table env t).1 k hashvalue action
  else searchBucket ks env t k hashvalue action

def hash_search (env : HashEnv) (t : HTAB K) (k : K) (action : HASHACTION) :
    Except HashError (Option ℕ × Bool) × HTAB K :=
  hash_search_with_hash_value ks env t k (ks.hash k) action

/-- An entry moved from one chain to the end of another one. -/
def moveEntry (oldPrevPtr prevBucketPtr : HashLoc) (e : ℕ) : HTAB K :=
  { t with
    store := update
      (update (update t.store oldPrevPtr (t.store (.link e))) prevBucketPtr
        (some e)) (.link e) none }

/-- Another key and hash value for an element. -/
def setKey (e : ℕ) (k : K) (hashvalue : ℕ) : HTAB K :=
  { t with
    hashvalue := update t.hashvalue e hashvalue
    key := update t.key e (some k) }

def hash_update_hash_key (t : HTAB K) (existingElement : ℕ) (newKey : K) :
    Except HashError Bool × HTAB K :=
  if t.frozen then (.error .frozenUpdate, t)
  else
    let bucket := calc_bucket t (t.hashvalue existingElement)
    if t.dir (bucket >>> t.sshift) = false then (.error .corrupted, t)
    else
      let old := t.findIn (fun e => e == existingElement) bucket
      if old.2 = none then (.error .notInTable, t)
      else
        let newhashvalue := ks.hash newKey
        let newbucket := calc_bucket t newhashvalue
        if t.dir (newbucket >>> t.sshift) = false then (.error .corrupted, t)
        else
          let new := t.findIn (t.hasKey ks newKey newhashvalue) newbucket
          if new.2 ≠ none then (.ok false, t)
          else
            let t := if bucket ≠ newbucket then moveEntry t old.1 new.1 existingElement else t
            (.ok true, setKey t existingElement newKey newhashvalue)

def hash_get_num_entries : ℤ :=
  if t.isPartitioned then
    ((List.range NUM_FREELISTS).map t.nentries).sum
  else t.nentries 0

/-! ### Creating a table -/

def my_log2 (num : ℕ) : ℕ := pg_ceil_log2_64 (min num (2 ^ 62 - 1))

def next_pow2_int (num : ℕ) : ℕ := 1 <<< my_log2 (min num (2 ^ 30 - 1))

/-- The loop of `choose_nelem_alloc`. -/
def chooseLoop (elementSize : ℕ) : ℕ → ℕ → ℕ
  | 0, allocSize => (allocSize <<< 1) / elementSize
  | fuel + 1, allocSize =>
      if (allocSize <<< 1) / elementSize < 32 then chooseLoop elementSize fuel (allocSize <<< 1)
      else (allocSize <<< 1) / elementSize

/-- `choose_nelem_alloc`, for the size of an entry rounded up to its alignment. -/
def choose_nelem_alloc (entrysize : ℕ) : ℕ :=
  let elementSize := 16 + (entrysize + 7) / 8 * 8
  chooseLoop elementSize elementSize (32 * 4)

/-- The parameters of a new table. -/
structure HASHCTL where
  nelem : ℕ
  entrysize : ℕ
  num_partitions : ℕ
  sshift : ℕ
  /-- The size and the limit of a directory of fixed size. -/
  dirsize : Option (ℕ × ℕ)
  isshared : Bool
  isfixed : Bool

/-- The loop of `init_htab` that makes room for all partitions. -/
def partitionBuckets (num_partitions : ℕ) : ℕ → ℕ → ℕ
  | 0, nbuckets => nbuckets
  | fuel + 1, nbuckets =>
      if nbuckets < num_partitions then partitionBuckets num_partitions fuel (nbuckets <<< 1)
      else nbuckets

/-- `init_htab`: the masks, the directory and the segments of a new table; `none` when a
directory of fixed size is too small. -/
def init_htab (info : HASHCTL) : Option (HTAB K) :=
  let nbuckets := partitionBuckets info.num_partitions 31 (next_pow2_int info.nelem)
  let nsegs := next_pow2_int ((nbuckets - 1) / 2 ^ info.sshift + 1)
  let dsize := (info.dirsize.map Prod.fst).getD DEF_DIRSIZE
  if nsegs > dsize ∧ info.isshared then none
  else
    some
      { nentries := fun _ => 0
        dsize := max nsegs dsize
        nsegs := nsegs
        max_bucket := nbuckets - 1
        high_mask := (nbuckets <<< 1) - 1
        low_mask := nbuckets - 1
        num_partitions := info.num_partitions
        max_dsize := info.dirsize.map Prod.snd
        sshift := info.sshift
        nelem_alloc := choose_nelem_alloc info.entrysize
        isshared := info.isshared
        isfixed := false
        frozen := false
        dir := fun i => i < nsegs
        store := fun _ => none
        hashvalue := fun _ => 0
        key := fun _ => none
        nelements := 0 }

/-- The elements that `hash_create` allocates for the free lists from `i` on. -/
def preallocate (env : HashEnv) (nelem_alloc : ℕ) : ℕ → ℕ → HTAB K → Option (HTAB K)
  | 0, _, t => some t
  | n + 1, i, t => (element_alloc env t nelem_alloc i).bind (preallocate env nelem_alloc n (i + 1))

/-- `hash_create`: a new table; `none` when the directory is too small or there is no
memory. -/
def hash_create (info : HASHCTL) : Option (HTAB K) :=
  (init_htab info).bind fun t =>
    let freelist_partitions := if t.isPartitioned then NUM_FREELISTS else 1
    let nelem_alloc := max 1 (info.nelem / freelist_partitions)
    let nelem_alloc_first :=
      if nelem_alloc * freelist_partitions < info.nelem then
        info.nelem - nelem_alloc * (freelist_partitions - 1)
      else nelem_alloc
    let filled :=
      if info.isshared ∨ info.nelem < t.nelem_alloc then
        (element_alloc env t nelem_alloc_first 0).bind
          (preallocate env nelem_alloc (freelist_partitions - 1) 1)
      else some t
    filled.map fun t => { t with isfixed := info.isfixed }

/-! ### Operations -/

/-- The operations on a table after its creation; a search may also enter or remove. -/
inductive HashOp (K : Type) where
  | search (k : K) (action : HASHACTION)
  | updateKey (existingElement : ℕ) (newKey : K)
  | freeze

/-- The table after an operation. -/
def HashOp.run (ks : HashedKeys K) (env : HashEnv) (t : HTAB K) : HashOp K → HTAB K
  | search k action => (hash_search ks env t k action).2
  | updateKey e newKey => (hash_update_hash_key ks t e newKey).2
  | freeze => if t.isshared ∨ (t.frozen = false ∧ env.has_seq_scans) then t
      else { t with frozen := true }

end FdPostgres
