import FdPostgres.Procarray.Window

/-!
# Transactions and Subtransactions

The steps by which transactions come and go in the process array: ids are assigned to top
transactions and to subtransactions, subtransactions are rolled back, and transactions end. The
array has room for 64 subtransactions of each backend. The parent of a subtransaction is recorded in
`pg_subtrans`, which is kept as far back as the snapshots of the calling backend reach.

Next to shared memory a state holds what really happened, in 64-bit ids: which transactions are
live, which parent each one has and to which top transaction it belongs.

* `XactState`, `XactEvent`, `XactState.step`: the steps.
* `XactState.Inv`: shared memory agrees with what happened.
-/

namespace FdPostgres

/-! ### The state -/

/-- Shared memory as the functions see it, and beside it what really happened: which transactions
run, and whose subtransactions they are. -/
structure XactState where
  arrayP : ProcArray
  /-- `nextXid`. -/
  nextXid : ℕ
  /-- `xactCompletionCount`. -/
  xactCompletionCount : ℕ
  /-- The parents in `pg_subtrans`. -/
  pg_subtrans : ℕ → ℕ
  /-- `TransactionXmin` of the calling backend, as a 64-bit id. -/
  transactionXmin : ℕ
  /-- `oldestXid`, as a 64-bit id. -/
  oldest : ℕ
  /-- The transactions that run and are not rolled back. -/
  live : ℕ → Bool
  /-- The parent of a transaction, zero for a top transaction. -/
  parent : ℕ → ℕ
  /-- The top transaction of a transaction. -/
  top : ℕ → ℕ

def TransactionIdLatest (mainxid : ℕ) (xids : List ℕ) : ℕ :=
  xids.foldr (fun xid result => if TransactionIdPrecedes result xid then xid else result) mainxid

def MaintainLatestCompletedXid (cur_latest latestXid : ℕ) : ℕ :=
  if TransactionIdPrecedes (XidFromFullTransactionId cur_latest) latestXid then
    FullXidRelativeTo cur_latest latestXid
  else cur_latest

/-- The removal of one id in `XidCacheRemoveRunningXids`: the array is searched from its end, and
the last entry moves into the gap. -/
def removeSubxid (subxids : List ℕ) (anxid : ℕ) : List ℕ :=
  match subxids.reverse with
  | [] => []
  | last :: rest =>
      if last = anxid then rest.reverse
      else if anxid ∈ rest then (rest.set (rest.idxOf anxid) last).reverse
      else subxids

/-- The loops of `XidCacheRemoveRunningXids`: the children from the last one on, and then the
subtransaction itself. -/
def removeSubxids (subxids : List ℕ) (xid : ℕ) (xids : List ℕ) : List ℕ :=
  removeSubxid (xids.foldr (fun anxid subxids => removeSubxid subxids anxid) subxids) xid

/-- What `GetNewTransactionId` does with the id of a subtransaction. -/
def cacheSubxid (proc : PGPROC) (xid : ℕ) : PGPROC :=
  if proc.subxids.length < PGPROC_MAX_CACHED_SUBXIDS then
    { proc with subxids := proc.subxids ++ [xid] }
  else { proc with overflowed := true }

/-- What `ProcArrayEndTransactionInternal` does with a backend. -/
def endProc (proc : PGPROC) : PGPROC :=
  { proc with
    xid := InvalidTransactionId, xmin := InvalidTransactionId, subxids := [], overflowed := false }

/-! ### The steps -/

/-- What may happen. Ids are 64-bit ids; backends are places in the array. -/
inductive XactEvent where
  /-- A backend assigns an id to its top transaction. -/
  | assignXid (pgxactoff : ℕ)
  /-- A backend assigns an id to a subtransaction of a transaction of its own. -/
  | assignSubXid (pgxactoff parent : ℕ)
  /-- A backend rolls a subtransaction back, with the subtransactions below it. -/
  | abortSub (pgxactoff xid : ℕ) (children : List ℕ)
  /-- A backend commits or rolls back its top transaction, with its live subtransactions. -/
  | endTransaction (pgxactoff xid : ℕ) (children : List ℕ)
  /-- The calling backend gives up snapshots, and `pg_subtrans` may be truncated. -/
  | truncate (transactionXmin : ℕ) (pg_subtrans : ℕ → ℕ)
  /-- `oldestXid` moves on. -/
  | freeze (oldest : ℕ)

namespace XactState

variable (s : XactState)

/-- An id that has been assigned and may still be in use. -/
structure Assigned (x : ℕ) : Prop where
  oldest_le : s.oldest ≤ x
  lt_next : x < s.nextXid
  normal : FirstNormalTransactionId ≤ XidFromFullTransactionId x

/-- The next id can be assigned, `xidStopLimit` is not reached. -/
def MayAssign : Prop :=
  FullTransactionIdAdvance s.nextXid + 3000000 ≤ s.oldest + MaxTransactionId / 2 ∧
    s.nextXid + 4 < 2 ^ 64

/-- The next id is assigned to a transaction. -/
def assign (proc : PGPROC → PGPROC) (pgxactoff parent top : ℕ) : XactState :=
  { s with
    arrayP := { s.arrayP with procs := s.arrayP.procs.modify pgxactoff proc }
    nextXid := FullTransactionIdAdvance s.nextXid
    pg_subtrans := Function.update s.pg_subtrans (XidFromFullTransactionId s.nextXid)
      (XidFromFullTransactionId parent)
    live := Function.update s.live s.nextXid true
    parent := Function.update s.parent s.nextXid parent
    top := Function.update s.top s.nextXid top }

/-- Some transactions are over, the latest of which is given. -/
def complete (proc : PGPROC → PGPROC) (pgxactoff latestXid : ℕ) (xids : List ℕ) : XactState :=
  { s with
    arrayP :=
      { s.arrayP with
        procs := s.arrayP.procs.modify pgxactoff proc
        latestCompletedXid := MaintainLatestCompletedXid s.arrayP.latestCompletedXid latestXid }
    xactCompletionCount := s.xactCompletionCount + 1
    live := fun x => s.live x && !xids.contains x }

/-- The step of an event: what it does to shared memory, and what happened. -/
def effect : XactEvent → XactState
  | .assignXid pgxactoff =>
      s.assign (fun proc => { proc with xid := XidFromFullTransactionId s.nextXid }) pgxactoff 0
        s.nextXid
  | .assignSubXid pgxactoff parent =>
      s.assign (fun proc => cacheSubxid proc (XidFromFullTransactionId s.nextXid)) pgxactoff parent
        (s.top parent)
  | .abortSub pgxactoff xid children =>
      let words := children.map XidFromFullTransactionId
      s.complete
        (fun proc =>
          { proc with subxids := removeSubxids proc.subxids (XidFromFullTransactionId xid) words })
        pgxactoff (TransactionIdLatest (XidFromFullTransactionId xid) words) (xid :: children)
  | .endTransaction pgxactoff xid children =>
      s.complete endProc pgxactoff
        (TransactionIdLatest (XidFromFullTransactionId xid)
          (children.map XidFromFullTransactionId)) (xid :: children)
  | .truncate transactionXmin pg_subtrans =>
      { s with
        transactionXmin := transactionXmin
        pg_subtrans := fun xid =>
          if Word32.sub xid transactionXmin < s.nextXid - transactionXmin then s.pg_subtrans xid
          else pg_subtrans xid }
  | .freeze oldest =>
      { s with
        arrayP := { s.arrayP with oldestXid := XidFromFullTransactionId oldest }
        oldest := oldest }

/-- When an event may happen: the backend is in the transaction that the event is about. -/
def Enabled : XactEvent → Prop
  | .assignXid pgxactoff =>
      s.MayAssign ∧ ∃ proc, s.arrayP.procs[pgxactoff]? = some proc ∧ proc.xid = InvalidTransactionId
  | .assignSubXid pgxactoff parent =>
      s.MayAssign ∧ s.live parent = true ∧ ∃ proc, s.arrayP.procs[pgxactoff]? = some proc ∧
        proc.xid = XidFromFullTransactionId (s.top parent)
  | .abortSub pgxactoff xid children =>
      (∃ proc, s.arrayP.procs[pgxactoff]? = some proc ∧
        proc.xid = XidFromFullTransactionId (s.top xid)) ∧
      (∀ x ∈ xid :: children, s.live x = true ∧ s.top x = s.top xid ∧ x ≠ s.top x) ∧
      ∀ x, s.live x = true → s.parent x ∈ xid :: children → x ∈ xid :: children
  | .endTransaction pgxactoff xid children =>
      (∃ proc, s.arrayP.procs[pgxactoff]? = some proc ∧
        proc.xid = XidFromFullTransactionId xid) ∧ s.live xid = true ∧ s.top xid = xid ∧
      ∀ x, x ∈ xid :: children ↔ s.live x = true ∧ s.top x = xid
  | .truncate transactionXmin _ =>
      s.transactionXmin ≤ transactionXmin ∧
        FirstNormalTransactionId ≤ XidFromFullTransactionId transactionXmin ∧
        transactionXmin ≤ s.nextXid ∧ ∀ x, s.live x = true → transactionXmin ≤ x
  | .freeze oldest =>
      s.oldest ≤ oldest ∧ oldest ≤ s.transactionXmin ∧ oldest ≤ s.arrayP.latestCompletedXid + 1

/-- A step: some event that may happen in the state does. -/
def Step (s' : XactState) : Prop := ∃ e, s.Enabled e ∧ s' = s.effect e

/-! ### Shared memory agrees with what happened -/

/-- The ids that a backend with a given top transaction caches. -/
def Cached (top xid : ℕ) : Prop :=
  ∃ x, s.live x = true ∧ s.top x = top ∧ x ≠ top ∧ xid = XidFromFullTransactionId x

/-- A backend without a transaction shows nothing. A backend with one shows its top transaction, and
unless it has too many, all of its live subtransactions. -/
def BackendOk (proc : PGPROC) : Prop :=
  (proc.xid = InvalidTransactionId ∧ proc.subxids = [] ∧ proc.overflowed = false) ∨
    ∃ top, s.live top = true ∧ s.top top = top ∧ proc.xid = XidFromFullTransactionId top ∧
      (proc.overflowed = false → proc.subxids.Nodup ∧ ∀ xid, xid ∈ proc.subxids ↔ s.Cached top xid)

/-- **Shared memory agrees with what happened**, in a server that is not in recovery and where
nobody vacuums or decodes. -/
structure Inv : Prop where
  stop : s.nextXid + 3000000 ≤ s.oldest + MaxTransactionId / 2
  normal : FirstNormalTransactionId ≤ s.nextXid % 2 ^ 32
  next_lt : s.nextXid < 2 ^ 64
  recovery : s.arrayP.recoveryInProgress = false
  flags : ∀ (i : ℕ) (proc : PGPROC), s.arrayP.procs[i]? = some proc →
    proc.inVacuum = false ∧ proc.inLogicalDecoding = false
  latest_lt : s.arrayP.latestCompletedXid < s.nextXid
  latest_normal : FirstNormalTransactionId ≤ XidFromFullTransactionId s.arrayP.latestCompletedXid ∨
    s.arrayP.latestCompletedXid < FirstNormalTransactionId
  oldest_le : s.oldest ≤ s.transactionXmin
  oldest_le_latest : s.oldest ≤ s.arrayP.latestCompletedXid + 1
  xmin_normal : FirstNormalTransactionId ≤ XidFromFullTransactionId s.transactionXmin
  xmin_le : s.transactionXmin ≤ s.nextXid
  live : ∀ x, s.live x = true → s.Assigned x ∧ s.transactionXmin ≤ x
  completed : ∀ x, s.Assigned x → s.live x = false → x ≤ s.arrayP.latestCompletedXid
  backend : ∀ (i : ℕ) (proc : PGPROC), s.arrayP.procs[i]? = some proc → s.BackendOk proc
  distinct : ∀ (i j : ℕ) (p q : PGPROC), s.arrayP.procs[i]? = some p → s.arrayP.procs[j]? = some q →
    p.xid = q.xid → p.xid ≠ InvalidTransactionId → i = j
  top : ∀ x, s.live x = true → s.live (s.top x) = true ∧ s.top (s.top x) = s.top x ∧ s.top x ≤ x ∧
    ∃ (i : ℕ) (proc : PGPROC), s.arrayP.procs[i]? = some proc ∧
      proc.xid = XidFromFullTransactionId (s.top x)
  top_le : ∀ x, x < s.nextXid → FirstNormalTransactionId ≤ XidFromFullTransactionId x → s.top x ≤ x
  parent : ∀ x, s.live x = true → x ≠ s.top x → s.live (s.parent x) = true
  history : ∀ x, s.Assigned x → s.transactionXmin ≤ x → (x = s.top x → s.parent x = 0) ∧
    (x ≠ s.top x → s.parent x < x ∧ x < s.parent x + 2 ^ 31 ∧ s.top (s.parent x) = s.top x ∧
      FirstNormalTransactionId ≤ XidFromFullTransactionId (s.parent x))
  subtrans : ∀ x, s.Assigned x → s.transactionXmin ≤ x →
    s.pg_subtrans (XidFromFullTransactionId x) = XidFromFullTransactionId (s.parent x) ∨
      (s.live x = false ∧ s.pg_subtrans (XidFromFullTransactionId x) = InvalidTransactionId)

variable {s}

/-! ### Ids and their low words -/

variable {x : ℕ}

/-- The id after a normal one. -/
theorem fullAdvance_spec (hx : FirstNormalTransactionId ≤ x % 2 ^ 32) (hlt : x + 4 < 2 ^ 64) :
    x < FullTransactionIdAdvance x ∧
      FirstNormalTransactionId ≤ FullTransactionIdAdvance x % 2 ^ 32 ∧
      FullTransactionIdAdvance x ≤ x + 4 ∧
      ∀ z, x < z → FirstNormalTransactionId ≤ z % 2 ^ 32 → FullTransactionIdAdvance x ≤ z := by
  have hmod : ∀ k, k ≤ 4 → (x + k) % 2 ^ 64 = x + k := fun k hk => Nat.mod_eq_of_lt (by omega)
  by_cases hlast : x % 2 ^ 32 = 2 ^ 32 - 1
  · -- the special ids are stepped over
    have hspec : ∀ k, 1 ≤ k → k ≤ 3 → (x + k) % 2 ^ 32 < 3 := fun k _ _ => by omega
    have hadv : FullTransactionIdAdvance x = x + 4 := by
      simp only [FullTransactionIdAdvance, fullAdvanceLoop, XidFromFullTransactionId,
        FirstNormalTransactionId, hmod 1, Nat.reduceLeDiff, hmod 2,
        hmod 3, hmod 4, hspec, if_true]
      rw [if_neg (by omega), if_neg (by omega)]
    rw [FirstNormalTransactionId] at hx ⊢
    refine ⟨by omega, by omega, by omega, ?_⟩
    omega
  · have hadv : FullTransactionIdAdvance x = x + 1 := by
      rw [FirstNormalTransactionId] at hx
      simp only [FullTransactionIdAdvance, fullAdvanceLoop, XidFromFullTransactionId,
        FirstNormalTransactionId, hmod 1 (by omega)]
      rw [if_neg (by omega), if_neg (by omega)]
    rw [hadv]
    exact ⟨by omega, by omega, by omega, fun z hz _ => hz⟩

/-- The low word of a normal id. -/
theorem idOf (hx : FirstNormalTransactionId ≤ XidFromFullTransactionId x) :
    IdOf (XidFromFullTransactionId x) x where
  normal := hx
  word := by
    simp only [XidFromFullTransactionId]
    omega

/-- Ids in use are told apart by their low words. -/
theorem Inv.word_inj (h : s.Inv) {y : ℕ} (hx : s.oldest ≤ x) (hxle : x ≤ s.nextXid)
    (hy : s.oldest ≤ y) (hyle : y ≤ s.nextXid)
    (heq : XidFromFullTransactionId x = XidFromFullTransactionId y) : x = y := by
  have hstop := h.stop
  simp only [XidFromFullTransactionId, MaxTransactionId] at heq hstop
  omega

/-- A live transaction has a normal id. -/
theorem Inv.word_ne (h : s.Inv) (hx : s.live x = true) :
    XidFromFullTransactionId x ≠ InvalidTransactionId := by
  have hnorm := (h.live x hx).1.normal
  rw [FirstNormalTransactionId] at hnorm
  rw [InvalidTransactionId]
  omega

/-- Live transactions are told apart by their low words. -/
theorem Inv.live_inj (h : s.Inv) {y : ℕ} (hx : s.live x = true) (hy : s.live y = true)
    (heq : XidFromFullTransactionId x = XidFromFullTransactionId y) : x = y :=
  h.word_inj (h.live x hx).1.oldest_le (h.live x hx).1.lt_next.le (h.live y hy).1.oldest_le
    (h.live y hy).1.lt_next.le heq

/-- A backend that shows an id has it as its top transaction. -/
theorem Inv.backend_top (h : s.Inv) {i : ℕ} {proc : PGPROC} {top : ℕ}
    (hproc : s.arrayP.procs[i]? = some proc) (htop : s.live top = true)
    (hxid : proc.xid = XidFromFullTransactionId top) :
    s.top top = top ∧ (proc.overflowed = false →
      proc.subxids.Nodup ∧ ∀ xid, xid ∈ proc.subxids ↔ s.Cached top xid) := by
  rcases h.backend i proc hproc with ⟨hnone, -, -⟩ | ⟨top', hlive, htoptop, hxid', hcache⟩
  · exact absurd (hxid.symm.trans hnone) (h.word_ne htop)
  · obtain rfl := h.live_inj htop hlive (hxid.symm.trans hxid')
    exact ⟨htoptop, hcache⟩

end XactState

end FdPostgres
