import FdPostgres.Lib.LogReader
import FdPostgres.Sinval.Queue

/-!
# Backends that Share the Invalidation Queue

Backends register, send messages, read messages, clean the queue and exit. Writers hold
`SInvalWriteLock`; readers hold `SInvalReadLock` in shared mode, and `SICleanupQueue` holds both in
exclusive mode. A step is what a backend does between two points at which others can come in
between: to take or release a lock, to read or write a message in the buffer, to access `maxMsgNum`
under its spinlock, or to access a flag `hasMessages` without a lock.

* `Pc`: where a backend is.
* `Sys`: the segment and the backends. The log of all messages, the amount by which message numbers
  have been reduced, and what the backends have read are kept for reference only.
* `Step`: the steps.
-/

namespace FdPostgres.Sinval

variable {μ : Type*}

/-- A call of `SIGetDataEntries` that has returned. -/
structure Read (μ : Type*) where
  /-- When it was called, there were messages of a completed insertion to be read, or a reset. -/
  due : Bool
  datasize : ℕ
  /-- The messages, or `none` for a reset. -/
  result : Option (List μ)

/-- The value that `SIGetDataEntries` returns. -/
def Read.value (r : Read μ) : ℤ :=
  match r.result with
  | none => -1
  | some data => data.length

/-- Where a backend is in the functions, with the values of its local variables. -/
inductive Pc (μ : Type*) where
  | unregistered
  /-- Outside of the functions. -/
  | ready
  /-- In `SIInsertDataEntries`, about to take the write lock. -/
  | insertWait (data : List μ)
  /-- At the top of the loop that looks for space. -/
  | insertCheck (group rest : List μ)
  /-- In `SICleanupQueue`, about to take the read lock. -/
  | insertClean (group rest : List μ)
  /-- In `SICleanupQueue`, about to take the write lock again after a signal. -/
  | insertRelock (group rest : List μ)
  /-- Some messages have been put into the buffer. -/
  | insertCopy (group rest : List μ) (k : ℕ) (max : ℤ)
  /-- The messages are visible and the backends are being told. -/
  | insertKick (rest : List μ) (i : ℕ)
  /-- In `SICleanupQueue` on its own, about to take the read lock. -/
  | cleanup (minFree : ℤ)
  /-- In `SIGetDataEntries`, about to take the read lock. -/
  | readLock (datasize : ℕ) (due : Bool)
  /-- About to clear `hasMessages`. -/
  | readClear (datasize : ℕ) (due : Bool)
  /-- About to read `maxMsgNum`. -/
  | readMax (datasize : ℕ) (due : Bool)
  /-- About to look at `resetState`. -/
  | readTest (datasize : ℕ) (due : Bool) (max : ℤ)
  /-- Some messages have been taken from the buffer. -/
  | readCopy (datasize : ℕ) (due : Bool) (max : ℤ) (data : List μ)

/-- The backend holds `SInvalWriteLock`. -/
def Pc.holdsWrite : Pc μ → Prop
  | .insertCheck _ _ | .insertClean _ _ | .insertCopy _ _ _ _ | .insertKick _ _ | .cleanup _ => True
  | _ => False

/-- The backend holds `SInvalReadLock` in shared mode. -/
def Pc.holdsRead : Pc μ → Prop
  | .readClear _ _ | .readMax _ _ | .readTest _ _ _ | .readCopy _ _ _ _ => True
  | _ => False

/-- A backend: where it is, its place in the segment, and a history of what it has read. -/
structure Backend (μ : Type*) where
  pc : Pc μ
  /-- `MyBackendId - 1`. -/
  slot : ℕ
  /-- The length of the log when it registered. -/
  start : ℕ
  /-- What it has read since. -/
  reads : List (Read μ)

/-- The segment and the backends, by process id. -/
structure Sys (μ : Type*) where
  seg : SISeg μ
  backends : ℕ → Backend μ
  /-- All messages. -/
  log : List μ
  /-- The amount by which message numbers have been reduced. -/
  base : ℤ
  /-- The number of messages whose insertion is complete. -/
  completed : ℕ

namespace Sys

variable (s : Sys μ) (p : ℕ)

/-- Where a backend is. -/
def pc : Pc μ := (s.backends p).pc

/-- The shared entry of a backend. -/
def state : ProcState := s.seg.procState (s.backends p).slot

/-- The segment changes. -/
def setSeg (seg : SISeg μ) : Sys μ := { s with seg := seg }

/-- A backend changes. -/
def setBackend (b : Backend μ) : Sys μ :=
  { s with backends := Function.update s.backends p b }

/-- A backend goes on. -/
def setPc (pc : Pc μ) : Sys μ :=
  s.setBackend p { s.backends p with pc := pc }

/-- A backend changes its shared entry. -/
def setState (st : ProcState) : Sys μ :=
  s.setSeg (s.seg.setState (s.backends p).slot st)

/-- `SIGetDataEntries` returns. -/
def finishRead (r : Read μ) : Sys μ :=
  s.setBackend p { s.backends p with pc := .ready, reads := (s.backends p).reads ++ [r] }

/-- A backend has messages of a completed insertion to read, or a reset. -/
def due : Bool :=
  (s.state p).resetState || decide (s.base + (s.state p).nextMsgNum < s.completed)

/-- `SICleanupQueue` under both locks. -/
def cleanup (minFree : ℤ) : Sys μ :=
  let seg := (SICleanupQueue s.seg minFree).1
  { s with seg := seg, base := s.base + (s.seg.maxMsgNum - seg.maxMsgNum) }

/-- New messages become visible to the readers, and are appended to the log. -/
def publish (max : ℤ) (group : List μ) : Sys μ :=
  { s with seg := { s.seg with maxMsgNum := max }, log := s.log ++ group }

/-- An insertion is complete. -/
def complete : Sys μ := { s with completed := s.log.length }

/-- Nobody holds `SInvalWriteLock`. -/
def WriteFree : Prop := ∀ p, ¬ (s.pc p).holdsWrite

/-- Nobody holds `SInvalReadLock`. -/
def ReadFree : Prop := ∀ p, ¬ (s.pc p).holdsRead

end Sys

/-- The test for `SICleanupQueue` in `SIInsertDataEntries`. -/
def SISeg.Full (seg : SISeg μ) (nthistime : ℕ) : Prop :=
  seg.maxMsgNum - seg.minMsgNum + nthistime > MAXNUMMESSAGES ∨
    seg.maxMsgNum - seg.minMsgNum ≥ seg.nextThreshold

/-- The steps of the backends. Each one is what a function does between two points at which others
can see or change what it works on. -/
inductive Step (s : Sys μ) : Sys μ → Prop
  /-- `SharedInvalBackendInit`. -/
  | register {p slot : ℕ} {sendOnly : Bool} {seg : SISeg μ} (hpid : p ≠ 0)
      (hpc : s.pc p = .unregistered) (hlock : s.WriteFree)
      (hinit : SharedInvalBackendInit s.seg p sendOnly = some (seg, slot)) :
      Step s ((s.setSeg seg).setBackend p ⟨.ready, slot, s.log.length, []⟩)
  /-- `CleanupInvalidationState`. -/
  | exit {p nextLocalTransactionId : ℕ} (hpc : s.pc p = .ready) (hlock : s.WriteFree) :
      Step s ((s.setSeg (CleanupInvalidationState s.seg (s.backends p).slot
        nextLocalTransactionId)).setPc p .unregistered)
  /-- `SIInsertDataEntries` is called. -/
  | insert {p : ℕ} {data : List μ} (hpc : s.pc p = .ready) (hdata : data ≠ []) :
      Step s (s.setPc p (.insertWait data))
  | insertLock {p : ℕ} {data : List μ} (hpc : s.pc p = .insertWait data) (hlock : s.WriteFree) :
      Step s (s.setPc p (.insertCheck (data.take WRITE_QUANTUM) (data.drop WRITE_QUANTUM)))
  | insertFull {p : ℕ} {group rest : List μ} (hpc : s.pc p = .insertCheck group rest)
      (hfull : s.seg.Full group.length) : Step s (s.setPc p (.insertClean group rest))
  | insertRoom {p : ℕ} {group rest : List μ} (hpc : s.pc p = .insertCheck group rest)
      (hfull : ¬ s.seg.Full group.length) :
      Step s (s.setPc p (.insertCopy group rest 0 s.seg.maxMsgNum))
  /-- `SICleanupQueue` without a signal. -/
  | insertClean {p : ℕ} {group rest : List μ} (hpc : s.pc p = .insertClean group rest)
      (hlock : s.ReadFree) (hsig : (SICleanupQueue s.seg group.length).2 = none) :
      Step s ((s.cleanup group.length).setPc p (.insertCheck group rest))
  /-- `SICleanupQueue` with a signal, which releases the write lock. -/
  | insertSignal {p i : ℕ} {group rest : List μ} (hpc : s.pc p = .insertClean group rest)
      (hlock : s.ReadFree) (hsig : (SICleanupQueue s.seg group.length).2 = some i) :
      Step s ((s.cleanup group.length).setPc p (.insertRelock group rest))
  | insertRelock {p : ℕ} {group rest : List μ} (hpc : s.pc p = .insertRelock group rest)
      (hlock : s.WriteFree) : Step s (s.setPc p (.insertCheck group rest))
  /-- A message is put into the buffer. -/
  | insertCopy {p k : ℕ} {group rest : List μ} {max : ℤ} {m : μ}
      (hpc : s.pc p = .insertCopy group rest k max) (hk : group[k]? = some m) :
      Step s ((s.setSeg (s.seg.put max m)).setPc p (.insertCopy group rest (k + 1) (max + 1)))
  /-- The messages become visible. -/
  | insertMax {p k : ℕ} {group rest : List μ} {max : ℤ}
      (hpc : s.pc p = .insertCopy group rest k max) (hk : group.length ≤ k) :
      Step s ((s.publish max group).setPc p (.insertKick rest 0))
  /-- A backend is told. -/
  | insertKick {p i : ℕ} {rest : List μ} (hpc : s.pc p = .insertKick rest i)
      (hi : i < s.seg.lastBackend) :
      Step s ((s.setSeg (s.seg.setState i { s.seg.procState i with hasMessages := true })).setPc p
        (.insertKick rest (i + 1)))
  /-- All backends have been told. -/
  | insertNext {p i : ℕ} {rest : List μ} (hpc : s.pc p = .insertKick rest i)
      (hi : s.seg.lastBackend ≤ i) (hrest : rest ≠ []) :
      Step s (s.complete.setPc p (.insertWait rest))
  | insertDone {p i : ℕ} (hpc : s.pc p = .insertKick [] i) (hi : s.seg.lastBackend ≤ i) :
      Step s (s.complete.setPc p .ready)
  /-- `SICleanupQueue` is called without the write lock. -/
  | cleanup {p : ℕ} {minFree : ℤ} (hpc : s.pc p = .ready) (hlock : s.WriteFree)
      (hfree : 0 ≤ minFree ∧ minFree ≤ MAXNUMMESSAGES) : Step s (s.setPc p (.cleanup minFree))
  | cleanupDone {p : ℕ} {minFree : ℤ} (hpc : s.pc p = .cleanup minFree) (hlock : s.ReadFree) :
      Step s ((s.cleanup minFree).setPc p .ready)
  /-- `SIGetDataEntries` is called and finds nothing. -/
  | readNone {p datasize : ℕ} (hpc : s.pc p = .ready) (hrecv : (s.state p).sendOnly = false)
      (hhas : (s.state p).hasMessages = false) :
      Step s (s.finishRead p ⟨s.due p, datasize, some []⟩)
  /-- `SIGetDataEntries` is called and goes on. -/
  | readSome {p datasize : ℕ} (hpc : s.pc p = .ready) (hrecv : (s.state p).sendOnly = false)
      (hhas : (s.state p).hasMessages = true) : Step s (s.setPc p (.readLock datasize (s.due p)))
  | readLock {p datasize : ℕ} {due : Bool} (hpc : s.pc p = .readLock datasize due) :
      Step s (s.setPc p (.readClear datasize due))
  | readClear {p datasize : ℕ} {due : Bool} (hpc : s.pc p = .readClear datasize due) :
      Step s ((s.setState p { s.state p with hasMessages := false }).setPc p
        (.readMax datasize due))
  | readMax {p datasize : ℕ} {due : Bool} (hpc : s.pc p = .readMax datasize due) :
      Step s (s.setPc p (.readTest datasize due s.seg.maxMsgNum))
  /-- A reset. -/
  | readReset {p datasize : ℕ} {due : Bool} {max : ℤ} (hpc : s.pc p = .readTest datasize due max)
      (hreset : (s.state p).resetState = true) :
      Step s ((s.setState p { s.state p with
        nextMsgNum := max, resetState := false, signaled := false }).finishRead p
        ⟨due, datasize, none⟩)
  | readStart {p datasize : ℕ} {due : Bool} {max : ℤ} (hpc : s.pc p = .readTest datasize due max)
      (hreset : (s.state p).resetState = false) :
      Step s (s.setPc p (.readCopy datasize due max []))
  /-- A message is taken from the buffer. -/
  | readCopy {p datasize : ℕ} {due : Bool} {max : ℤ} {data : List μ}
      (hpc : s.pc p = .readCopy datasize due max data) (hlen : data.length < datasize)
      (hlt : (s.state p).nextMsgNum < max) :
      Step s ((s.setState p { s.state p with nextMsgNum := (s.state p).nextMsgNum + 1 }).setPc p
        (.readCopy datasize due max (data ++ [s.seg.get (s.state p).nextMsgNum])))
  /-- All messages have been read. -/
  | readAll {p datasize : ℕ} {due : Bool} {max : ℤ} {data : List μ}
      (hpc : s.pc p = .readCopy datasize due max data) (hge : max ≤ (s.state p).nextMsgNum) :
      Step s ((s.setState p { s.state p with signaled := false }).finishRead p
        ⟨due, datasize, some data⟩)
  /-- The buffer of the caller is full. -/
  | readPart {p datasize : ℕ} {due : Bool} {max : ℤ} {data : List μ}
      (hpc : s.pc p = .readCopy datasize due max data) (hlen : datasize ≤ data.length)
      (hlt : (s.state p).nextMsgNum < max) :
      Step s ((s.setState p { s.state p with hasMessages := true }).finishRead p
        ⟨due, datasize, some data⟩)

/-- `CreateSharedInvalidationState`, before any backend has registered. -/
structure Initial (s : Sys μ) : Prop where
  minMsgNum : s.seg.minMsgNum = 0
  maxMsgNum : s.seg.maxMsgNum = 0
  nextThreshold : s.seg.nextThreshold = CLEANUP_MIN
  lastBackend : s.seg.lastBackend = 0
  procState : ∀ i, s.seg.procState i = {}
  pc : ∀ p, s.pc p = .unregistered
  log : s.log = []
  base : s.base = 0
  completed : s.completed = 0

/-- The states that can be reached. -/
inductive Reachable : Sys μ → Prop
  | initial {s : Sys μ} (h : Initial s) : Reachable s
  | step {s s' : Sys μ} (h : Reachable s) (hstep : Step s s') : Reachable s'

end FdPostgres.Sinval
