import FdPostgres.Fsm.Page
import FdPostgres.HashIndex.Meta

/-!
# The Free Space Map

The free space map of a relation (`freespace.c`) is a tree of pages of three levels. A slot of a
bottom page has the category of a heap block, and a slot of an upper page the maximum of the page
below it, as of the last time somebody looked. The pages are stored in depth-first order in one
file.

* `fsm_space_avail_to_cat`, `fsm_space_needed_to_cat`: categories of space.
* `fsm_logical_to_physical`: where a page is stored.
* `fsm_search`: the search, which repairs what it finds to be stale and restarts.
* `fsm_vacuum_page`: the update of the upper pages.
-/

namespace FdPostgres

/-! ### Categories -/

def FSM_CATEGORIES : ℕ := 256

def FSM_CAT_STEP : ℕ := BLCKSZ / FSM_CATEGORIES

/-- `MaxHeapTupleSize`: a page without its aligned header and one line pointer. -/
def MaxHeapTupleSize : ℕ := BLCKSZ - (24 + 4 + 7) / 8 * 8

def MaxFSMRequestSize : ℕ := MaxHeapTupleSize

/-- `fsm_space_avail_to_cat` rounds down. -/
def fsm_space_avail_to_cat (avail : ℕ) : ℕ :=
  if avail ≥ MaxFSMRequestSize then 255
  else
    let cat := avail / FSM_CAT_STEP
    if cat > 254 then 254 else cat

/-- `fsm_space_needed_to_cat` rounds up. -/
def fsm_space_needed_to_cat (needed : ℕ) : Except String ℕ :=
  if needed > MaxFSMRequestSize then .error ("invalid FSM request size " ++ toString needed)
  else if needed = 0 then .ok 1
  else
    let cat := (needed + FSM_CAT_STEP - 1) / FSM_CAT_STEP
    .ok (if cat > 255 then 255 else cat)

/-! ### Addresses -/

def FSM_TREE_DEPTH : ℕ := if SlotsPerFSMPage ≥ 1626 then 3 else 4

def FSM_ROOT_LEVEL : ℕ := FSM_TREE_DEPTH - 1

def FSM_BOTTOM_LEVEL : ℕ := 0

structure FSMAddress where
  level : ℕ
  logpageno : ℕ
  deriving Repr, DecidableEq

def FSM_ROOT_ADDRESS : FSMAddress := ⟨FSM_ROOT_LEVEL, 0⟩

/-- The first loop of `fsm_logical_to_physical`: the first leaf page below a page. -/
def firstLeafBelow : ℕ → ℕ → ℕ
  | 0, leafno => leafno
  | level + 1, leafno => firstLeafBelow level (leafno * SlotsPerFSMPage)

/-- The second loop of `fsm_logical_to_physical`: the pages up to a leaf page, level by level. -/
def countPages : ℕ → ℕ → ℕ
  | 0, _ => 0
  | depth + 1, leafno => leafno + 1 + countPages depth (leafno / SlotsPerFSMPage)

def fsm_logical_to_physical (addr : FSMAddress) : ℕ :=
  countPages FSM_TREE_DEPTH (firstLeafBelow addr.level addr.logpageno) - addr.level - 1

/-- `fsm_get_location`: the bottom page and the slot of a heap block. -/
def fsm_get_location (heapblk : ℕ) : FSMAddress × ℕ :=
  (⟨FSM_BOTTOM_LEVEL, heapblk / SlotsPerFSMPage⟩, heapblk % SlotsPerFSMPage)

def fsm_get_heap_blk (addr : FSMAddress) (slot : ℕ) : ℕ :=
  (addr.logpageno * SlotsPerFSMPage + slot) % 2 ^ 32

def fsm_get_parent (child : FSMAddress) : FSMAddress × ℕ :=
  (⟨child.level + 1, child.logpageno / SlotsPerFSMPage⟩, child.logpageno % SlotsPerFSMPage)

def fsm_get_child (parent : FSMAddress) (slot : ℕ) : FSMAddress :=
  ⟨parent.level - 1, parent.logpageno * SlotsPerFSMPage + slot⟩

/-! ### Reading and writing -/

/-- The fork of a relation that holds its free space map. -/
structure FsmMap where
  nblocks : ℕ
  page : ℕ → FSMPage

/-- No fork yet. -/
def FsmMap.empty : FsmMap := ⟨0, fun _ => .zero⟩

variable (map : FsmMap)

/-- `fsm_readbuf` for a caller that does not extend: the block of a page, if it exists. -/
def fsm_readbuf (addr : FSMAddress) : Option ℕ :=
  let blkno := fsm_logical_to_physical addr
  if blkno ≥ map.nblocks then none else some blkno

/-- `fsm_extend`: pages of zeroes up to a size. -/
def fsm_extend (fsm_nblocks : ℕ) : FsmMap where
  nblocks := max map.nblocks fsm_nblocks
  page i := if map.nblocks ≤ i ∧ i < fsm_nblocks then .zero else map.page i

/-- A page is written. -/
def FsmMap.write (blkno : ℕ) (page : FSMPage) : FsmMap :=
  { map with page := Function.update map.page blkno page }

/-- `fsm_set_and_search`, which extends the map. -/
def fsm_set_and_search (addr : FSMAddress) (slot newValue minValue : ℕ) : Option ℕ × FsmMap :=
  let blkno := fsm_logical_to_physical addr
  let map := if blkno ≥ map.nblocks then fsm_extend map (blkno + 1) else map
  let page := (fsm_set_avail (map.page blkno) slot newValue).2
  if minValue ≠ 0 then
    let r := fsm_search_avail page minValue (addr.level = FSM_BOTTOM_LEVEL)
    (r.1, map.write blkno r.2)
  else (none, map.write blkno page)

/-! ### Searching -/

/-- The search within a page: the slot, the maximum that is left to report, and the map. -/
def searchPage (min_cat : ℕ) (addr : FSMAddress) : Option ℕ × ℕ × FsmMap :=
  match fsm_readbuf map addr with
  | some blkno =>
      let r := fsm_search_avail (map.page blkno) min_cat (addr.level = FSM_BOTTOM_LEVEL)
      match r.1 with
      | some slot => (some slot, 0, map.write blkno r.2)
      | none => (none, fsm_get_max_avail r.2, map.write blkno r.2)
  | none => (none, 0, map)

/-- The loop of `fsm_search`, at a page and after a number of restarts. -/
def searchFrom (min_cat : ℕ) (map : FsmMap) (restarts : ℕ) (addr : FSMAddress) : ℕ × FsmMap :=
  match searchPage map min_cat addr with
  | (some slot, _, map) =>
      if _h : addr.level = FSM_BOTTOM_LEVEL then (fsm_get_heap_blk addr slot, map)
      else searchFrom min_cat map restarts (fsm_get_child addr slot)
  | (none, max_avail, map) =>
      if addr.level = FSM_ROOT_LEVEL then (InvalidBlockNumber, map)
      else
        -- the parent promised too much
        let parent := fsm_get_parent addr
        let map := (fsm_set_and_search map parent.1 parent.2 max_avail 0).2
        if _h : restarts > 10000 then (InvalidBlockNumber, map)
        else searchFrom min_cat map (restarts + 1) FSM_ROOT_ADDRESS
termination_by (10001 - restarts, addr.level)
decreasing_by
  · refine Prod.Lex.right _ ?_
    rw [FSM_BOTTOM_LEVEL] at _h
    simp only [fsm_get_child]
    omega
  · refine Prod.Lex.left _ _ ?_
    omega

def fsm_search (min_cat : ℕ) : ℕ × FsmMap :=
  searchFrom min_cat map 0 FSM_ROOT_ADDRESS

/-! ### Vacuum -/

/-- The location of a heap block on a level: the page and the slot. -/
def locationAt (heapblk : ℕ) : ℕ → FSMAddress × ℕ
  | 0 => fsm_get_location heapblk
  | level + 1 => fsm_get_parent (locationAt heapblk level).1

/-- The first slot that `fsm_vacuum_page` updates on a page. -/
def startSlot (start : ℕ) (addr : FSMAddress) : ℕ :=
  let fsm_start := locationAt start addr.level
  if fsm_start.1.logpageno = addr.logpageno then fsm_start.2
  else if fsm_start.1.logpageno > addr.logpageno then SlotsPerFSMPage
  else 0

/-- One more than the last slot that `fsm_vacuum_page` updates on a page. -/
def stopSlotOf (stop : ℕ) (addr : FSMAddress) : ℕ :=
  let fsm_end := locationAt ((stop + (2 ^ 32 - 1)) % 2 ^ 32) addr.level
  if fsm_end.1.logpageno = addr.logpageno then fsm_end.2 + 1
  else if fsm_end.1.logpageno > addr.logpageno then SlotsPerFSMPage
  else 0

/-- The information about a child is updated, if it has changed. -/
def setSlot (blkno slot child_avail : ℕ) (map : FsmMap) : FsmMap :=
  if fsm_get_avail (map.page blkno) slot ≠ child_avail then
    map.write blkno (fsm_set_avail (map.page blkno) slot child_avail).2
  else map

/-- The loop of `fsm_vacuum_page` over slots; `child` is its recursive call. -/
def vacuumSlots (child : ℕ → FsmMap → ℕ × Bool × FsmMap) (blkno : ℕ) :
    List ℕ → Bool → FsmMap → FsmMap
  | [], _, map => map
  | slot :: slots, eof, map =>
      let r := if !eof then child slot map else (0, eof, map)
      vacuumSlots child blkno slots r.2.1 (setSlot blkno slot r.1 r.2.2)

/-- `fsm_vacuum_page`: the maximum on the page, whether the page is past the end, and the map. -/
def fsm_vacuum_page (start stop : ℕ) : ℕ → ℕ → FsmMap → ℕ × Bool × FsmMap
  | level, logpageno, map =>
      match fsm_readbuf map ⟨level, logpageno⟩ with
      | none => (0, true, map)
      | some blkno =>
          let map :=
            match level with
            | 0 => map
            | below + 1 =>
                let addr : FSMAddress := ⟨below + 1, logpageno⟩
                let start_slot := startSlot start addr
                vacuumSlots
                  (fun slot map =>
                    fsm_vacuum_page start stop below (fsm_get_child addr slot).logpageno map)
                  blkno (List.range' start_slot (stopSlotOf stop addr - start_slot)) false map
          let page := map.page blkno
          (fsm_get_max_avail page, false, map.write blkno { page with fp_next_slot := 0 })

/-! ### The interface -/

def GetPageWithFreeSpace (spaceNeeded : ℕ) : Except String (ℕ × FsmMap) := do
  let min_cat ← fsm_space_needed_to_cat spaceNeeded
  return fsm_search map min_cat

def RecordPageWithFreeSpace (heapBlk spaceAvail : ℕ) : FsmMap :=
  let new_cat := fsm_space_avail_to_cat spaceAvail
  let loc := fsm_get_location heapBlk
  (fsm_set_and_search map loc.1 loc.2 new_cat 0).2

def RecordAndGetPageWithFreeSpace (oldPage oldSpaceAvail spaceNeeded : ℕ) :
    Except String (ℕ × FsmMap) := do
  let old_cat := fsm_space_avail_to_cat oldSpaceAvail
  let search_cat ← fsm_space_needed_to_cat spaceNeeded
  let loc := fsm_get_location oldPage
  let r := fsm_set_and_search map loc.1 loc.2 old_cat search_cat
  match r.1 with
  | some search_slot => return (fsm_get_heap_blk loc.1 search_slot, r.2)
  | none => return fsm_search r.2 search_cat

/-- The category that is recorded for a heap block, as `GetRecordedFreeSpace` reads it. -/
def recordedCat (heapBlk : ℕ) : ℕ :=
  let loc := fsm_get_location heapBlk
  match fsm_readbuf map loc.1 with
  | some blkno => fsm_get_avail (map.page blkno) loc.2
  | none => 0

/-- `FreeSpaceMapPrepareTruncateRel`: the new size of the map, if it has to be truncated. -/
def FreeSpaceMapPrepareTruncateRel (nblocks : ℕ) : Option ℕ × FsmMap :=
  let first_removed := fsm_get_location nblocks
  if first_removed.2 > 0 then
    match fsm_readbuf map first_removed.1 with
    | none => (none, map)
    | some blkno =>
        (some (blkno + 1), map.write blkno (fsm_truncate_avail (map.page blkno) first_removed.2).2)
  else
    let new_nfsmblocks := fsm_logical_to_physical first_removed.1
    if map.nblocks ≤ new_nfsmblocks then (none, map) else (some new_nfsmblocks, map)

/-- The truncation of a relation: its map is prepared, and its file is truncated. -/
def truncateRel (nblocks : ℕ) : FsmMap :=
  let r := FreeSpaceMapPrepareTruncateRel map nblocks
  match r.1 with
  | some new_nfsmblocks => { r.2 with nblocks := new_nfsmblocks }
  | none => r.2

def FreeSpaceMapVacuumRange (start stop : ℕ) : FsmMap :=
  if stop > start then (fsm_vacuum_page start stop FSM_ROOT_LEVEL 0 map).2.2 else map

def FreeSpaceMapVacuum : FsmMap :=
  (fsm_vacuum_page 0 InvalidBlockNumber FSM_ROOT_LEVEL 0 map).2.2

end FdPostgres
