import FdPostgres.Heap.Visibility

/-!
# Pruning a Heap Page

A heap page has an array of line pointers. A line pointer is unused, dead, holds a tuple, or
redirects to another one. An update that keeps the new version on the page and touches no index
makes a heap-only tuple: the index goes on pointing to the line pointer of the old version, the
root, and the new version is found by following `t_ctid`. `heap_page_prune` removes the versions no
one can see any more from the beginning of such chains, and redirects the root to the first version
that is kept, or marks it dead.

The page is only looked at first. The changes are collected in three lists, with an array that
says which line pointers are in them, and are made at the end.

* `Page`, `ItemId`, `PageTuple`: a page by what its line pointers hold. Where the tuples are stored
  in the page is left out, and with it `PageRepairFragmentation`, which only moves them.
* `heap_prune_chain`: the changes for one root, or for one heap-only tuple.
* `heap_page_prune`: all changes, and the page after them. The results of
  `heap_prune_satisfies_vacuum` are an argument, and the hints it sets are taken as set.

A result of `none` stands for an assertion that fails or a loop that does not end.
-/

namespace FdPostgres

open HTSV_Result

/-! ### Pages -/

/-- `HEAP_HOT_UPDATED`, in `t_infomask2`. -/
def HEAP_HOT_UPDATED : BitVec 16 := 0x4000#16

/-- `HEAP_ONLY_TUPLE`, in `t_infomask2`. -/
def HEAP_ONLY_TUPLE : BitVec 16 := 0x8000#16

/-- A tuple on a page. Of `t_ctid` the offset number is kept: a tuple that is HOT-updated has its
successor on the same page. -/
structure PageTuple (δ : Type) extends HeapTupleHeader where
  t_infomask2 : BitVec 16
  t_ctid : ℕ
  /-- The attributes. -/
  data : δ

/-- A line pointer, with the tuple it points to. -/
inductive ItemId (δ : Type) where
  | LP_UNUSED
  | LP_NORMAL (htup : PageTuple δ)
  | LP_REDIRECT (offnum : ℕ)
  | LP_DEAD

open ItemId

/-- `MaxHeapTuplesPerPage`, for pages of 8192 bytes. -/
def MaxHeapTuplesPerPage : ℕ := 291

/-- A heap page: its line pointers, from offset number 1 on, and two hints of its header. -/
structure Page (δ : Type) where
  items : List (ItemId δ)
  pd_prune_xid : ℕ
  /-- `PD_PAGE_FULL`. -/
  pageFull : Bool
  fits : items.length ≤ MaxHeapTuplesPerPage

variable {δ : Type}

def HeapTupleHeaderIsHeapOnly (tup : PageTuple δ) : Bool := has tup.t_infomask2 HEAP_ONLY_TUPLE

def HeapTupleHeaderIsHotUpdated (tup : PageTuple δ) : Bool :=
  has tup.t_infomask2 HEAP_HOT_UPDATED && !has tup.t_infomask HEAP_XMAX_INVALID &&
    !HeapTupleHeaderXminInvalid tup.toHeapTupleHeader

def HeapTupleHeaderGetXmin (tup : HeapTupleHeader) : ℕ :=
  if HeapTupleHeaderXminFrozen tup then FrozenTransactionId else tup.t_xmin

def HeapTupleHeaderAdvanceLatestRemovedXid (b : XactView) (tuple : HeapTupleHeader)
    (latestRemovedXid : ℕ) : ℕ :=
  let xmin := HeapTupleHeaderGetXmin tuple
  let xmax := HeapTupleHeaderGetUpdateXid b tuple
  let xvac := HeapTupleHeaderGetXvac tuple
  let latest :=
    if has tuple.t_infomask HEAP_MOVED && TransactionIdPrecedes latestRemovedXid xvac then xvac
    else latestRemovedXid
  if HeapTupleHeaderXminCommitted tuple ||
      (!HeapTupleHeaderXminInvalid tuple && TransactionIdDidCommit b xmin) then
    if xmax != xmin && TransactionIdPrecedes latest xmax then xmax else latest
  else latest

variable (page : Page δ)

def PageGetMaxOffsetNumber : ℕ := page.items.length

/-- `PageGetItemId`: offset numbers begin at 1. -/
def PageGetItemId (page : Page δ) : ℕ → ItemId δ
  | 0 => LP_UNUSED
  | i + 1 => page.items.getD i LP_UNUSED

def ItemIdIsNormal : ItemId δ → Bool
  | LP_NORMAL _ => true
  | _ => false

def ItemIdIsRedirected : ItemId δ → Bool
  | LP_REDIRECT _ => true
  | _ => false

/-- A change of a line pointer: `ItemIdSetRedirect`, `ItemIdSetDead` or `ItemIdSetUnused`. -/
def setItemId (offnum : ℕ) (lp : ItemId δ) : Page δ where
  items := page.items.set (offnum - 1) lp
  pd_prune_xid := page.pd_prune_xid
  pageFull := page.pageFull
  fits := by
    rw [List.length_set]
    exact page.fits

/-! ### The planned changes -/

/-- `PruneState`: the planned changes and the hints collected on the way. -/
structure PruneState where
  new_prune_xid : ℕ
  latestRemovedXid : ℕ
  redirected : List (ℕ × ℕ)
  nowdead : List ℕ
  nowunused : List ℕ
  marked : ℕ → Bool

/-- The state at the beginning of `heap_page_prune`. -/
def PruneState.init : PruneState where
  new_prune_xid := InvalidTransactionId
  latestRemovedXid := InvalidTransactionId
  redirected := []
  nowdead := []
  nowunused := []
  marked := fun _ => false

/-- `marked[offnum] = true`. -/
def setMarked (marked : ℕ → Bool) (offnum : ℕ) : ℕ → Bool := fun i => i == offnum || marked i

def heap_prune_record_prunable (new_prune_xid xid : ℕ) : ℕ :=
  if !TransactionIdIsValid new_prune_xid || TransactionIdPrecedes xid new_prune_xid then xid
  else new_prune_xid

variable (prstate : PruneState)

def heap_prune_record_redirect (offnum rdoffnum : ℕ) : Option PruneState :=
  if prstate.redirected.length < MaxHeapTuplesPerPage ∧ prstate.marked offnum = false ∧
      setMarked prstate.marked offnum rdoffnum = false then
    some { prstate with
      redirected := prstate.redirected ++ [(offnum, rdoffnum)]
      marked := setMarked (setMarked prstate.marked offnum) rdoffnum }
  else none

def heap_prune_record_dead (offnum : ℕ) : Option PruneState :=
  if prstate.nowdead.length < MaxHeapTuplesPerPage ∧ prstate.marked offnum = false then
    some { prstate with
      nowdead := prstate.nowdead ++ [offnum]
      marked := setMarked prstate.marked offnum }
  else none

def heap_prune_record_unused (offnum : ℕ) : Option PruneState :=
  if prstate.nowunused.length < MaxHeapTuplesPerPage ∧ prstate.marked offnum = false then
    some { prstate with
      nowunused := prstate.nowunused ++ [offnum]
      marked := setMarked prstate.marked offnum }
  else none

/-! ### One chain -/

/-- The local variables of the loop in `heap_prune_chain`, and what it changes of the state.
`latestdead` is 0 as long as there is none. -/
structure ChainState where
  chainitems : List ℕ
  latestdead : ℕ
  new_prune_xid : ℕ
  latestRemovedXid : ℕ

section Prune

variable (b : XactView) (page : Page δ) (htsv : ℕ → Option HTSV_Result)

/-- A member of the chain is entered, and its status looked at. -/
def chainMember (cs : ChainState) (offnum : ℕ) (htup : PageTuple δ) (res : HTSV_Result) :
    ChainState where
  chainitems := cs.chainitems ++ [offnum]
  latestdead := if res = DEAD then offnum else cs.latestdead
  new_prune_xid := if res = RECENTLY_DEAD ∨ res = DELETE_IN_PROGRESS then
      heap_prune_record_prunable cs.new_prune_xid
        (HeapTupleHeaderGetUpdateXid b htup.toHeapTupleHeader)
    else cs.new_prune_xid
  latestRemovedXid := if res = DEAD then
      HeapTupleHeaderAdvanceLatestRemovedXid b htup.toHeapTupleHeader cs.latestRemovedXid
    else cs.latestRemovedXid

/-- The loop of `heap_prune_chain`: it follows the chain while its members are dead or dying. On
a circle of links it would not end, and the fuel runs out. -/
def chainLoop (marked : ℕ → Bool) : ℕ → ℕ → ℕ → ChainState → Option ChainState
  | 0, _, _, _ => none
  | fuel + 1, offnum, priorXmax, cs =>
      if offnum < 1 ∨ offnum > PageGetMaxOffsetNumber page then some cs
      else if marked offnum then some cs
      else
        match PageGetItemId page offnum with
        | LP_UNUSED => some cs
        | LP_REDIRECT rdoffnum =>
            -- only at the start of the chain, where this is the root
            if cs.chainitems.length > 0 then some cs
            else chainLoop marked fuel rdoffnum priorXmax
              { cs with chainitems := cs.chainitems ++ [offnum] }
        | LP_DEAD => some cs
        | LP_NORMAL htup =>
            if TransactionIdIsValid priorXmax &&
                HeapTupleHeaderGetXmin htup.toHeapTupleHeader != priorXmax then some cs
            else
              match htsv offnum with
              | none => none
              | some res =>
                  let cs := chainMember b cs offnum htup res
                  if (res = DEAD ∨ res = RECENTLY_DEAD) ∧ HeapTupleHeaderIsHotUpdated htup then
                    chainLoop marked fuel htup.t_ctid
                      (HeapTupleHeaderGetUpdateXid b htup.toHeapTupleHeader) cs
                  else some cs

/-- The loop that marks the intermediate items as unused, behind an item: how many they are, the
rest of the chain, and the state. -/
def recordUnused (latestdead : ℕ) :
    ℕ → List ℕ → PruneState → Option (ℕ × List ℕ × PruneState)
  | _, [], prstate => some (0, [], prstate)
  | prev, item :: rest, prstate =>
      if prev ≠ latestdead then
        match heap_prune_record_unused prstate item with
        | none => none
        | some prstate =>
            match recordUnused latestdead item rest prstate with
            | none => none
            | some (ndeleted, rest, prstate) => some (ndeleted + 1, rest, prstate)
      else some (0, item :: rest, prstate)

variable (rootoffnum : ℕ)

/-- The end of `heap_prune_chain`: the changes for the items of the chain. -/
def recordChain (cs : ChainState) (prstate : PruneState) : Option (ℕ × PruneState) :=
  let rootlp := PageGetItemId page rootoffnum
  let count := fun ndeleted : ℕ => if ItemIdIsNormal rootlp then ndeleted + 1 else ndeleted
  if cs.latestdead ≠ 0 then
    match recordUnused cs.latestdead (cs.chainitems.headD 0) cs.chainitems.tail prstate with
    | none => none
    | some (ndeleted, [], prstate) =>
        (heap_prune_record_dead prstate rootoffnum).map fun prstate => (count ndeleted, prstate)
    | some (ndeleted, item :: _, prstate) =>
        (heap_prune_record_redirect prstate rootoffnum item).map fun prstate =>
          (count ndeleted, prstate)
  else if cs.chainitems.length < 2 ∧ ItemIdIsRedirected rootlp then
    (heap_prune_record_dead prstate rootoffnum).map fun prstate => (0, prstate)
  else some (0, prstate)

/-- `heap_prune_chain` for a root. -/
def pruneRoot (prstate : PruneState) : Option (ℕ × PruneState) :=
  let start : ChainState := ⟨[], 0, prstate.new_prune_xid, prstate.latestRemovedXid⟩
  match chainLoop b page htsv prstate.marked (PageGetMaxOffsetNumber page + 2) rootoffnum
      InvalidTransactionId start with
  | none => none
  | some cs =>
      recordChain page rootoffnum cs
        { prstate with
          new_prune_xid := cs.new_prune_xid
          latestRemovedXid := cs.latestRemovedXid }

/-- `heap_prune_chain` for a heap-only tuple: it is removed if it is dead and has no successor. -/
def pruneHeapOnly (htup : PageTuple δ) (prstate : PruneState) : Option (ℕ × PruneState) :=
  match htsv rootoffnum with
  | none => none
  | some res =>
      if res = DEAD ∧ HeapTupleHeaderIsHotUpdated htup = false then
        (heap_prune_record_unused prstate rootoffnum).map fun prstate =>
          (1, { prstate with
            latestRemovedXid := HeapTupleHeaderAdvanceLatestRemovedXid b htup.toHeapTupleHeader
              prstate.latestRemovedXid })
      else some (0, prstate)

/-- `heap_prune_chain`: the number of tuples to be deleted, and the state. -/
def heap_prune_chain (prstate : PruneState) : Option (ℕ × PruneState) :=
  match PageGetItemId page rootoffnum with
  | LP_NORMAL htup =>
      if HeapTupleHeaderIsHeapOnly htup then pruneHeapOnly b htsv rootoffnum htup prstate
      else pruneRoot b page htsv rootoffnum prstate
  | _ => pruneRoot b page htsv rootoffnum prstate

/-- The scan of `heap_page_prune` over the line pointers. -/
def pruneScan : List ℕ → ℕ → PruneState → Option (ℕ × PruneState)
  | [], ndeleted, prstate => some (ndeleted, prstate)
  | offnum :: rest, ndeleted, prstate =>
      if prstate.marked offnum then pruneScan rest ndeleted prstate
      else
        match PageGetItemId page offnum with
        | LP_UNUSED => pruneScan rest ndeleted prstate
        | LP_DEAD => pruneScan rest ndeleted prstate
        | _ =>
            match heap_prune_chain b page htsv offnum prstate with
            | none => none
            | some (n, prstate) => pruneScan rest (ndeleted + n) prstate

end Prune

/-! ### The page -/

def heap_page_prune_execute (redirected : List (ℕ × ℕ)) (nowdead nowunused : List ℕ) : Page δ :=
  let page := redirected.foldl (fun page r => setItemId page r.1 (LP_REDIRECT r.2)) page
  let page := nowdead.foldl (fun page off => setItemId page off LP_DEAD) page
  nowunused.foldl (fun page off => setItemId page off LP_UNUSED) page

/-- The array `htsv` of `heap_page_prune`: the status of each line pointer that holds a tuple. -/
def htsvOf (status : ℕ → HTSV_Result) (offnum : ℕ) : Option HTSV_Result :=
  if ItemIdIsNormal (PageGetItemId page offnum) then some (status offnum) else none

/-- `heap_page_prune`: the number of tuples deleted, the planned changes, and the page after
them. -/
def heap_page_prune (b : XactView) (page : Page δ) (status : ℕ → HTSV_Result) :
    Option (ℕ × PruneState × Page δ) :=
  match pruneScan b page (htsvOf page status) (List.range' 1 (PageGetMaxOffsetNumber page)) 0
      PruneState.init with
  | none => none
  | some (ndeleted, prstate) =>
      let page :=
        if prstate.redirected.length > 0 ∨ prstate.nowdead.length > 0 ∨
            prstate.nowunused.length > 0 then
          heap_page_prune_execute page prstate.redirected prstate.nowdead prstate.nowunused
        else page
      some (ndeleted, prstate,
        { page with pd_prune_xid := prstate.new_prune_xid, pageFull := false })

end FdPostgres
