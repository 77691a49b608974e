import FdPostgres.Lib.QueueOrder

/-!
# The Lock Table as the Deadlock Detector Reads It

The detector reads, for each process, the lock it waits for and in which mode, and for each
lock who holds it in which modes and the queue of those who wait for it. Processes and locks
are numbers here, in place of pointers into shared memory, and no process belongs to a lock
group, so that every process is its own leader.

The waits-for graph is the one whose edges the search follows: from a waiting process to the
holders of conflicting modes (`HardEdge`), and to the processes ahead of it in the wait queue
whose requests conflict with its own (`SoftEdge`). A wait for a relation extension lock or for
a page lock has no edges. The soft edges depend on the orders of the wait queues, the hard
ones do not.
-/

namespace FdPostgres

open Relation QueueOrder

/-- The kinds of lockable objects, `LockTagType`. -/
inductive LockTagType where
  | LOCKTAG_RELATION
  | LOCKTAG_RELATION_EXTEND
  | LOCKTAG_DATABASE_FROZEN_IDS
  | LOCKTAG_PAGE
  | LOCKTAG_TUPLE
  | LOCKTAG_TRANSACTION
  | LOCKTAG_VIRTUALTRANSACTION
  | LOCKTAG_SPECULATIVE_TOKEN
  | LOCKTAG_OBJECT
  | LOCKTAG_USERLOCK
  | LOCKTAG_ADVISORY
  deriving DecidableEq, Repr

/-- What one process holds of a lock, `PROCLOCK`. -/
structure PROCLOCK where
  /-- The holder, `tag.myProc`. -/
  myProc : ℕ
  /-- The modes it holds, one bit each. -/
  holdMask : ℕ
  deriving DecidableEq, Repr

/-- The bit of a lock mode. -/
def LOCKBIT_ON (lockmode : ℕ) : ℕ := 1 <<< lockmode

/-- **A lock table** without lock groups. Every process that waits stands once in the queue of
the lock it waits for, and in no other queue. -/
structure LockTable where
  /-- All processes of the server. -/
  allProcs : List ℕ
  /-- The lock a process waits for: `waitLock`, `none` for a process that does not wait. -/
  waitLock : ℕ → Option ℕ
  /-- The mode it waits for. -/
  waitLockMode : ℕ → ℕ
  /-- The bit `PROC_IS_AUTOVACUUM` of the status flags. -/
  isAutovacuum : ℕ → Bool
  /-- The type in the tag of a lock, `LOCK_LOCKTAG`. -/
  locktag : ℕ → LockTagType
  /-- What is held of a lock. -/
  procLocks : ℕ → List PROCLOCK
  /-- The queue of those who wait for a lock. -/
  waitProcs : ℕ → List ℕ
  /-- `numLockModes` of the method table of a lock. -/
  numLockModes : ℕ → ℕ
  /-- `conflictTab` of the method table of a lock: the modes that conflict with a mode. -/
  conflictTab : ℕ → ℕ → ℕ
  waitProcs_nodup : ∀ lock, (waitProcs lock).Nodup
  mem_waitProcs : ∀ lock p, p ∈ waitProcs lock ↔ waitLock p = some lock
  waiter_mem : ∀ p lock, waitLock p = some lock → p ∈ allProcs
  holder_mem : ∀ lock, ∀ proclock ∈ procLocks lock, proclock.myProc ∈ allProcs

namespace LockTable

variable (t : LockTable)

/-- Waits for a lock of these types are not followed. -/
def Unfollowed (lock : ℕ) : Prop :=
  t.locktag lock = .LOCKTAG_RELATION_EXTEND ∨ t.locktag lock = .LOCKTAG_PAGE

instance (lock : ℕ) : Decidable (t.Unfollowed lock) :=
  inferInstanceAs (Decidable (_ ∨ _))

/-- The modes that conflict with the request of a process. -/
def conflictMask (checkProc lock : ℕ) : ℕ := t.conflictTab lock (t.waitLockMode checkProc)

/-- Some mode held conflicts: the scan over the modes `1 .. numLockModes`. -/
def holdsConflict (checkProc lock holdMask : ℕ) : Bool :=
  (List.range' 1 (t.numLockModes lock)).any fun lm =>
    holdMask &&& LOCKBIT_ON lm != 0 && t.conflictMask checkProc lock &&& LOCKBIT_ON lm != 0

/-- The request of a process in the queue conflicts. -/
def requestConflicts (checkProc lock proc : ℕ) : Bool :=
  LOCKBIT_ON (t.waitLockMode proc) &&& t.conflictMask checkProc lock != 0

/-- **A hard edge**: the second process holds a mode that the first one waits for. -/
def HardEdge (p q : ℕ) : Prop :=
  ∃ lock, t.waitLock p = some lock ∧ ¬ t.Unfollowed lock ∧
    ∃ proclock ∈ t.procLocks lock, proclock.myProc = q ∧ q ≠ p ∧
      t.holdsConflict p lock proclock.holdMask = true

variable (queue : ℕ → List ℕ)

/-- **A soft edge**: the second process stands before the first one in the queue of the lock,
in the order given, and requests a conflicting mode. -/
def SoftEdge (p q lock : ℕ) : Prop :=
  t.waitLock p = some lock ∧ ¬ t.Unfollowed lock ∧ Ahead (queue lock) q p ∧
    t.requestConflicts p lock q = true

/-- **The waits-for graph** under given orders of the wait queues. -/
def WaitsFor (p q : ℕ) : Prop :=
  t.HardEdge p q ∨ ∃ lock, t.SoftEdge queue p q lock

/-- Orders of the wait queues: each is a permutation of the queue of the lock. -/
def Orders : Prop := ∀ lock, (queue lock).Perm (t.waitProcs lock)

variable {t} {queue queue' : ℕ → List ℕ} {p q lock : ℕ}

theorem Orders.nodup (h : t.Orders queue) (lock : ℕ) : (queue lock).Nodup :=
  (h lock).nodup_iff.mpr (t.waitProcs_nodup lock)

/-- The members of a queue are the processes that wait for the lock. -/
theorem Orders.mem_iff (h : t.Orders queue) : p ∈ queue lock ↔ t.waitLock p = some lock := by
  rw [(h lock).mem_iff, t.mem_waitProcs]

theorem orders_waitProcs (t : LockTable) : t.Orders t.waitProcs := fun _ => List.Perm.refl _

/-- A soft edge that other orders do not have is turned round by them. -/
theorem SoftEdge.ahead_of_not (h : t.SoftEdge queue p q lock) (hq : t.Orders queue)
    (hq' : t.Orders queue') (hno : ¬ t.SoftEdge queue' p q lock) : Ahead (queue' lock) p q := by
  obtain ⟨hwait, hfol, hahead, hconf⟩ := h
  have hmem : ∀ x, x ∈ queue lock → x ∈ queue' lock := fun x hx =>
    hq'.mem_iff.mpr (hq.mem_iff.mp hx)
  rcases ahead_or_ahead (hmem q hahead.left_mem) (hmem p hahead.right_mem)
    (hahead.ne (hq.nodup lock)) with h | h
  · exact absurd ⟨hwait, hfol, h, hconf⟩ hno
  · exact h

end LockTable

end FdPostgres
