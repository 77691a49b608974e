import Mathlib

/-!
# The Shared Invalidation Queue

Messages that tell backends to invalidate their caches are kept in a circular buffer in shared
memory. Messages are numbered; each backend has the number of the next message it has to read, and
the queue has the number of the oldest message that somebody still needs and of the next message to
be added. A backend that is too far behind is marked to be reset, and `SICleanupQueue` reduces all
numbers before they get too large.

* `SISeg`, `ProcState`: the shared memory segment.
* `SharedInvalBackendInit`, `CleanupInvalidationState`: backends come and go.
* `SICleanupQueue`: space is made in the buffer.

The other functions release locks in between and are modelled by their steps.
-/

namespace FdPostgres.Sinval

open Function List

def MAXNUMMESSAGES : ℤ := 4096

def MSGNUMWRAPAROUND : ℤ := MAXNUMMESSAGES * 262144

def CLEANUP_MIN : ℤ := MAXNUMMESSAGES / 2

def CLEANUP_QUANTUM : ℤ := MAXNUMMESSAGES / 16

def SIG_THRESHOLD : ℤ := MAXNUMMESSAGES / 2

def WRITE_QUANTUM : ℕ := 64

structure ProcState where
  /-- Zero if the entry is inactive. -/
  procPid : ℕ := 0
  nextMsgNum : ℤ := 0
  resetState : Bool := false
  signaled : Bool := false
  hasMessages : Bool := false
  sendOnly : Bool := false
  nextLXID : ℕ := 0
  deriving Repr, DecidableEq

/-- `SISeg`. Of the buffer, the entries from 0 to `MAXNUMMESSAGES` are used. -/
structure SISeg (μ : Type*) where
  minMsgNum : ℤ
  maxMsgNum : ℤ
  nextThreshold : ℤ
  lastBackend : ℕ
  maxBackends : ℕ
  buffer : ℤ → μ
  procState : ℕ → ProcState

variable {μ : Type*} (seg : SISeg μ)

/-- An entry of `procState` is replaced. -/
def SISeg.setState (i : ℕ) (st : ProcState) : SISeg μ :=
  { seg with procState := update seg.procState i st }

/-- A message is put into the circular buffer. -/
def SISeg.put (num : ℤ) (m : μ) : SISeg μ :=
  { seg with buffer := update seg.buffer (num % MAXNUMMESSAGES) m }

/-- A message is taken from the circular buffer. -/
def SISeg.get (num : ℤ) : μ := seg.buffer (num % MAXNUMMESSAGES)

/-! ### Backends come and go -/

/-- The entry that `SharedInvalBackendInit` takes, and `lastBackend` then. -/
def freeEntry : Option (ℕ × ℕ) :=
  match (range seg.lastBackend).find? fun index => (seg.procState index).procPid == 0 with
  | some index => some (index, seg.lastBackend)
  | none =>
      if seg.lastBackend < seg.maxBackends then some (seg.lastBackend, seg.lastBackend + 1)
      else none

/-- `SharedInvalBackendInit`: the segment and the entry, or `none` if there are too many clients. -/
def SharedInvalBackendInit (myProcPid : ℕ) (sendOnly : Bool) : Option (SISeg μ × ℕ) :=
  match freeEntry seg with
  | none => none
  | some (index, lastBackend) =>
      some ({ seg with lastBackend := lastBackend }.setState index
        { seg.procState index with
          procPid := myProcPid
          nextMsgNum := seg.maxMsgNum
          resetState := false
          signaled := false
          hasMessages := false
          sendOnly := sendOnly }, index)

/-- The index of the last active entry, plus one. -/
def lastActive (procState : ℕ → ProcState) : ℕ → ℕ
  | 0 => 0
  | i + 1 => if (procState i).procPid ≠ 0 then i + 1 else lastActive procState i

def CleanupInvalidationState (index nextLocalTransactionId : ℕ) : SISeg μ :=
  let seg := seg.setState index
    { seg.procState index with
      nextLXID := nextLocalTransactionId
      procPid := 0
      nextMsgNum := 0
      resetState := false
      signaled := false }
  { seg with lastBackend := lastActive seg.procState seg.lastBackend }

/-! ### Space is made -/

/-- What the loop of `SICleanupQueue` over the backends computes. -/
structure CleanupLoop where
  procState : ℕ → ProcState
  min : ℤ
  minsig : ℤ
  needSig : Option ℕ

/-- One turn of the loop of `SICleanupQueue`. -/
def cleanupTurn (lowbound : ℤ) (acc : CleanupLoop) (i : ℕ) : CleanupLoop :=
  let st := acc.procState i
  let n := st.nextMsgNum
  if st.procPid = 0 ∨ st.resetState = true ∨ st.sendOnly = true then acc
  else if n < lowbound then
    { acc with procState := update acc.procState i { st with resetState := true } }
  else
    let min := if n < acc.min then n else acc.min
    if n < acc.minsig ∧ st.signaled = false then
      { acc with min := min, minsig := n, needSig := some i }
    else { acc with min := min }

variable (minFree : ℤ)

/-- The loop of `SICleanupQueue`. -/
def cleanupLoop : CleanupLoop :=
  (range seg.lastBackend).foldl
    (cleanupTurn (seg.maxMsgNum - MAXNUMMESSAGES + minFree))
    ⟨seg.procState, seg.maxMsgNum, seg.maxMsgNum - SIG_THRESHOLD, none⟩

/-- All message numbers are reduced. -/
def reduceNums : SISeg μ :=
  { seg with
    minMsgNum := seg.minMsgNum - MSGNUMWRAPAROUND
    maxMsgNum := seg.maxMsgNum - MSGNUMWRAPAROUND
    procState := fun i =>
      if i < seg.lastBackend then
        { seg.procState i with nextMsgNum := (seg.procState i).nextMsgNum - MSGNUMWRAPAROUND }
      else seg.procState i }

/-- The next threshold of `SICleanupQueue`. -/
def thresholdOf (numMsgs : ℤ) : ℤ :=
  if numMsgs < CLEANUP_MIN then CLEANUP_MIN else (numMsgs / CLEANUP_QUANTUM + 1) * CLEANUP_QUANTUM

/-- `SICleanupQueue` up to the threshold: messages are removed and the numbers reduced. -/
def removeMessages : SISeg μ :=
  let acc := cleanupLoop seg minFree
  let seg := { seg with procState := acc.procState, minMsgNum := acc.min }
  let seg := if acc.min ≥ MSGNUMWRAPAROUND then reduceNums seg else seg
  { seg with nextThreshold := thresholdOf (seg.maxMsgNum - seg.minMsgNum) }

/-- What `SICleanupQueue` does while it has both locks; the second result is the backend that it
then signals. -/
def SICleanupQueue : SISeg μ × Option ℕ :=
  let needSig := (cleanupLoop seg minFree).needSig
  let seg := removeMessages seg minFree
  match needSig with
  | some i => (seg.setState i { seg.procState i with signaled := true }, some i)
  | none => (seg, none)

/-! ### What the functions do -/

/-- The entry that is taken is free. -/
theorem freeEntry_spec {seg : SISeg μ} {index last : ℕ} (h : freeEntry seg = some (index, last)) :
    index < last ∧ seg.lastBackend ≤ last ∧
      (index < seg.lastBackend → (seg.procState index).procPid = 0) := by
  unfold freeEntry at h
  split at h
  · rename_i i hfind
    obtain ⟨rfl, rfl⟩ := Prod.mk.inj (Option.some.inj h)
    have hmem := mem_range.mp (mem_of_find?_eq_some hfind)
    refine ⟨hmem, le_refl _, fun _ => ?_⟩
    have := find?_some hfind
    simpa using this
  · split at h
    · obtain ⟨rfl, rfl⟩ := Prod.mk.inj (Option.some.inj h)
      exact ⟨Nat.lt_succ_self _, Nat.le_succ _, fun hlt => absurd hlt (lt_irrefl _)⟩
    · cases h

variable {procState : ℕ → ProcState}

/-- Active entries are below the last active one. -/
theorem lt_lastActive {i n : ℕ} (hi : i < n) (hpid : (procState i).procPid ≠ 0) :
    i < lastActive procState n := by
  induction n with
  | zero => omega
  | succ n ih =>
    rw [lastActive]
    split
    · exact hi
    · rename_i h
      have hne : i ≠ n := fun he => h (he ▸ hpid)
      exact ih (by omega)

/-- A backend that receives messages and has not been reset. -/
def ProcState.Follower (st : ProcState) : Prop :=
  st.procPid ≠ 0 ∧ st.resetState = false ∧ st.sendOnly = false

/-- The loop of `SICleanupQueue` over the first entries: a backend that is too far behind is reset,
and the minimum is taken over the others. -/
structure LoopSpec (procState : ℕ → ProcState) (max lowbound : ℤ) (n : ℕ) (acc : CleanupLoop) :
    Prop where
  reset : ∀ i, i < n → (procState i).Follower → (procState i).nextMsgNum < lowbound →
    acc.procState i = { procState i with resetState := true }
  same : ∀ i, ¬ (i < n ∧ (procState i).Follower ∧ (procState i).nextMsgNum < lowbound) →
    acc.procState i = procState i
  le_max : acc.min ≤ max
  le_next : ∀ i, i < n → (procState i).Follower → lowbound ≤ (procState i).nextMsgNum →
    acc.min ≤ (procState i).nextMsgNum
  le_min : ∀ x, x ≤ max → (∀ i, (procState i).Follower → x ≤ (procState i).nextMsgNum) → x ≤ acc.min

theorem cleanupTurn_spec {max lowbound : ℤ} {n : ℕ} {acc : CleanupLoop}
    (h : LoopSpec procState max lowbound n acc) :
    LoopSpec procState max lowbound (n + 1) (cleanupTurn lowbound acc n) := by
  have hn : acc.procState n = procState n := h.same n fun hlt => lt_irrefl _ hlt.1
  have hcases : ∀ i, i < n + 1 → i < n ∨ i = n := fun i hi => by omega
  unfold cleanupTurn
  simp only [hn]
  split
  · rename_i hskip
    have hno : ¬ (procState n).Follower := by
      rintro ⟨h1, h2, h3⟩
      simp [h1, h2, h3] at hskip
    refine ⟨fun i hi hf => ?_, fun i hi => h.same i fun hlt => hi ⟨by omega, hlt.2⟩, h.le_max,
      fun i hi hf => ?_, h.le_min⟩
    · rcases hcases i hi with hlt | rfl
      · exact h.reset i hlt hf
      · exact absurd hf hno
    · rcases hcases i hi with hlt | rfl
      · exact h.le_next i hlt hf
      · exact absurd hf hno
  · rename_i hskip
    have hf : (procState n).Follower := by
      simp only [not_or, Bool.not_eq_true] at hskip
      exact hskip
    split
    · rename_i hlow
      refine ⟨fun i hi hf' hlow' => ?_, fun i hi => ?_, h.le_max, fun i hi hf' hle => ?_, h.le_min⟩
      · rcases hcases i hi with hlt | rfl
        · have hne : i ≠ n := by omega
          exact (update_of_ne hne _ _).trans (h.reset i hlt hf' hlow')
        · exact update_self ..
      · have hne : i ≠ n := fun he => hi ⟨by omega, he ▸ hf, he ▸ hlow⟩
        refine (update_of_ne hne _ _).trans (h.same i fun hlt => hi ⟨by omega, hlt.2⟩)
      · rcases hcases i hi with hlt | rfl
        · exact h.le_next i hlt hf' hle
        · omega
    · rename_i hlow
      -- with or without a signal, the entries are the same
      have hmin : ∀ minsig needSig, LoopSpec procState max lowbound (n + 1)
          ⟨acc.procState, if (procState n).nextMsgNum < acc.min then (procState n).nextMsgNum
            else acc.min, minsig, needSig⟩ := by
        intro minsig needSig
        refine ⟨fun i hi hf' hlow' => ?_, fun i hi => h.same i fun hlt => hi ⟨by omega, hlt.2⟩, ?_,
          fun i hi hf' hle => ?_, fun x hx hall => ?_⟩
        · rcases hcases i hi with hlt | rfl
          · exact h.reset i hlt hf' hlow'
          · omega
        · have := h.le_max
          dsimp only
          split <;> omega
        · dsimp only
          rcases hcases i hi with hlt | rfl
          · have := h.le_next i hlt hf' hle
            split <;> omega
          · split <;> omega
        · have := h.le_min x hx hall
          have := hall n hf
          split <;> omega
      split
      · exact hmin _ _
      · exact hmin _ _

theorem cleanupLoop_spec :
    LoopSpec seg.procState seg.maxMsgNum (seg.maxMsgNum - MAXNUMMESSAGES + minFree)
      seg.lastBackend (cleanupLoop seg minFree) := by
  unfold cleanupLoop
  generalize seg.lastBackend = n
  induction n with
  | zero =>
    exact ⟨fun i hi => absurd hi (Nat.not_lt_zero _), fun i _ => rfl, Int.le_refl _,
      fun i hi => absurd hi (Nat.not_lt_zero _), fun x hx _ => hx⟩
  | succ n ih =>
    rw [range_succ, foldl_append]
    exact cleanupTurn_spec ih

/-- What `SICleanupQueue` leaves behind, where all numbers have been reduced by some amount. -/
structure CleanupSpec (seg seg' : SISeg μ) (minFree amount : ℤ) : Prop where
  buffer : seg'.buffer = seg.buffer
  lastBackend : seg'.lastBackend = seg.lastBackend
  maxMsgNum : seg'.maxMsgNum = seg.maxMsgNum - amount
  amount_nonneg : 0 ≤ amount
  /-- The numbers stand for the same places of the buffer. -/
  wrap : amount % MAXNUMMESSAGES = 0
  /-- No number gets negative. -/
  nonneg : amount = 0 ∨ 0 ≤ seg'.minMsgNum
  le_max : seg'.minMsgNum ≤ seg'.maxMsgNum
  le_min : ∀ x, x ≤ seg.maxMsgNum →
    (∀ i, (seg.procState i).Follower → x ≤ (seg.procState i).nextMsgNum) →
    x ≤ seg'.minMsgNum + amount
  procPid : ∀ i, (seg'.procState i).procPid = (seg.procState i).procPid
  sendOnly : ∀ i, (seg'.procState i).sendOnly = (seg.procState i).sendOnly
  hasMessages : ∀ i, (seg'.procState i).hasMessages = (seg.procState i).hasMessages
  nextMsgNum : ∀ i < seg.lastBackend, (seg'.procState i).nextMsgNum =
    (seg.procState i).nextMsgNum - amount
  /-- Who is reset then has been reset before or is too far behind. -/
  reset : ∀ i, (seg'.procState i).resetState = true → (seg.procState i).resetState = true ∨
    (seg.procState i).nextMsgNum < seg.maxMsgNum - MAXNUMMESSAGES + minFree
  keep : ∀ i, (seg.procState i).resetState = true → (seg'.procState i).resetState = true
  /-- The others do not need what has been removed. -/
  le_next : ∀ i < seg.lastBackend, (seg.procState i).procPid ≠ 0 →
    (seg.procState i).sendOnly = false → (seg'.procState i).resetState = false →
    seg'.minMsgNum ≤ (seg'.procState i).nextMsgNum

/-- The loop of `SICleanupQueue` without reducing the numbers. -/
theorem CleanupSpec.of_loop (seg : SISeg μ) (minFree threshold : ℤ) :
    CleanupSpec seg { seg with
      procState := (cleanupLoop seg minFree).procState
      minMsgNum := (cleanupLoop seg minFree).min
      nextThreshold := threshold } minFree 0 := by
  have h := cleanupLoop_spec seg minFree
  -- an entry is what it was, or the backend has been reset
  have hentry : ∀ i, (cleanupLoop seg minFree).procState i = seg.procState i ∨
      (seg.procState i).nextMsgNum < seg.maxMsgNum - MAXNUMMESSAGES + minFree ∧
        (cleanupLoop seg minFree).procState i = { seg.procState i with resetState := true } := by
    intro i
    by_cases hi : i < seg.lastBackend ∧ (seg.procState i).Follower ∧
        (seg.procState i).nextMsgNum < seg.maxMsgNum - MAXNUMMESSAGES + minFree
    · exact .inr ⟨hi.2.2, h.reset i hi.1 hi.2.1 hi.2.2⟩
    · exact .inl (h.same i hi)
  refine ⟨rfl, rfl, (Int.sub_zero _).symm, Int.le_refl _, rfl, .inl rfl, h.le_max,
    fun x hx hall => ?_,
    fun i => ?_, fun i => ?_, fun i => ?_, fun i _ => ?_, fun i hi => ?_, fun i hi => ?_,
    fun i hi hpid hsend hreset => ?_⟩
  · rw [Int.add_zero]
    exact h.le_min x hx hall
  · rcases hentry i with he | ⟨-, he⟩ <;> exact (congrArg ProcState.procPid he :)
  · rcases hentry i with he | ⟨-, he⟩ <;> exact (congrArg ProcState.sendOnly he :)
  · rcases hentry i with he | ⟨-, he⟩ <;> exact (congrArg ProcState.hasMessages he :)
  · rw [Int.sub_zero]
    rcases hentry i with he | ⟨-, he⟩ <;> exact (congrArg ProcState.nextMsgNum he :)
  · rcases hentry i with he | ⟨hlt, -⟩
    · exact .inl (he ▸ hi)
    · exact .inr hlt
  · rcases hentry i with he | ⟨-, he⟩
    · exact (congrArg ProcState.resetState he).trans hi
    · exact congrArg ProcState.resetState he
  · rcases hentry i with he | ⟨-, he⟩
    · have hlow : seg.maxMsgNum - MAXNUMMESSAGES + minFree ≤ (seg.procState i).nextMsgNum := by
        by_contra hlt
        have hf : (seg.procState i).Follower :=
          ⟨hpid, (congrArg ProcState.resetState he).symm.trans hreset, hsend⟩
        have hr := h.reset i hi hf (by omega)
        exact absurd ((congrArg ProcState.resetState hr).symm.trans hreset) (by simp)
      have hle := h.le_next i hi ⟨hpid, (congrArg ProcState.resetState he).symm.trans hreset,
        hsend⟩ hlow
      rw [← congrArg ProcState.nextMsgNum he] at hle
      exact hle
    · exact absurd ((congrArg ProcState.resetState he).symm.trans hreset) (by simp)

/-- The numbers are reduced. -/
theorem CleanupSpec.reduce {seg seg' : SISeg μ} {minFree : ℤ}
    (h : CleanupSpec seg seg' minFree 0) (hmin : MSGNUMWRAPAROUND ≤ seg'.minMsgNum)
    (threshold : ℤ) : CleanupSpec seg { reduceNums seg' with nextThreshold := threshold } minFree
      MSGNUMWRAPAROUND := by
  have hmax := h.maxMsgNum
  have hlast := h.lastBackend
  -- only the numbers change
  have hentry : ∀ i, ∃ n,
      (reduceNums seg').procState i = { seg'.procState i with nextMsgNum := n } ∧
      (i < seg.lastBackend → n = (seg'.procState i).nextMsgNum - MSGNUMWRAPAROUND) := by
    intro i
    by_cases hi : i < seg'.lastBackend
    · exact ⟨_, if_pos hi, fun _ => rfl⟩
    · exact ⟨_, if_neg hi, fun hlt => absurd (hlast ▸ hlt) hi⟩
  refine ⟨h.buffer, hlast, ?_, by decide, by decide, .inr ?_, ?_, fun x hx hall => ?_, fun i => ?_,
    fun i => ?_, fun i => ?_, fun i hi => ?_, fun i hi => ?_, fun i hi => ?_,
    fun i hi hpid hsend hreset => ?_⟩
  · simp only [reduceNums]
    omega
  · simp only [reduceNums]
    omega
  · have := h.le_max
    simp only [reduceNums]
    omega
  · have := h.le_min x hx hall
    simp only [reduceNums]
    omega
  · obtain ⟨n, he, -⟩ := hentry i
    exact (congrArg ProcState.procPid he).trans (h.procPid i)
  · obtain ⟨n, he, -⟩ := hentry i
    exact (congrArg ProcState.sendOnly he).trans (h.sendOnly i)
  · obtain ⟨n, he, -⟩ := hentry i
    exact (congrArg ProcState.hasMessages he).trans (h.hasMessages i)
  · obtain ⟨n, he, hn⟩ := hentry i
    have hnext := h.nextMsgNum i hi
    refine (congrArg ProcState.nextMsgNum he).trans ?_
    rw [hn hi, hnext, Int.sub_zero]
  · obtain ⟨n, he, -⟩ := hentry i
    exact h.reset i ((congrArg ProcState.resetState he).symm.trans hi)
  · obtain ⟨n, he, -⟩ := hentry i
    exact (congrArg ProcState.resetState he).trans (h.keep i hi)
  · obtain ⟨n, he, hn⟩ := hentry i
    have hle := h.le_next i hi hpid hsend ((congrArg ProcState.resetState he).symm.trans hreset)
    have heq : ((reduceNums seg').procState i).nextMsgNum = n := congrArg ProcState.nextMsgNum he
    change seg'.minMsgNum - MSGNUMWRAPAROUND ≤ ((reduceNums seg').procState i).nextMsgNum
    omega

/-- A backend is marked as signaled. -/
theorem CleanupSpec.signal {seg seg' : SISeg μ} {minFree amount : ℤ}
    (h : CleanupSpec seg seg' minFree amount) (j : ℕ) :
    CleanupSpec seg (seg'.setState j { seg'.procState j with signaled := true }) minFree
      amount := by
  -- only the flag changes
  have hentry : ∀ i, ∃ b, (seg'.setState j { seg'.procState j with signaled := true }).procState i =
      { seg'.procState i with signaled := b } := by
    intro i
    by_cases hi : i = j
    · subst hi
      exact ⟨true, update_self ..⟩
    · exact ⟨_, update_of_ne hi _ _⟩
  refine ⟨h.buffer, h.lastBackend, h.maxMsgNum, h.amount_nonneg, h.wrap, h.nonneg, h.le_max,
    h.le_min, fun i => ?_, fun i => ?_, fun i => ?_, fun i hi => ?_, fun i hi => ?_, fun i hi => ?_,
    fun i hi hpid hsend hreset => ?_⟩
  all_goals obtain ⟨b, he⟩ := hentry i
  · exact (congrArg ProcState.procPid he).trans (h.procPid i)
  · exact (congrArg ProcState.sendOnly he).trans (h.sendOnly i)
  · exact (congrArg ProcState.hasMessages he).trans (h.hasMessages i)
  · exact (congrArg ProcState.nextMsgNum he).trans (h.nextMsgNum i hi)
  · exact h.reset i ((congrArg ProcState.resetState he).symm.trans hi)
  · exact (congrArg ProcState.resetState he).trans (h.keep i hi)
  · rw [congrArg ProcState.nextMsgNum he]
    exact h.le_next i hi hpid hsend ((congrArg ProcState.resetState he).symm.trans hreset)

/-- **`SICleanupQueue` removes messages that nobody needs who is not reset, and reduces all numbers
by the same amount.** -/
theorem SICleanupQueue_spec :
    ∃ amount, CleanupSpec seg (SICleanupQueue seg minFree).1 minFree amount := by
  have hremove : ∃ amount, CleanupSpec seg (removeMessages seg minFree) minFree amount := by
    have hloop := CleanupSpec.of_loop seg minFree
    unfold removeMessages
    by_cases hwrap : (cleanupLoop seg minFree).min ≥ MSGNUMWRAPAROUND
    · simp only [if_pos hwrap]
      exact ⟨_, (hloop seg.nextThreshold).reduce hwrap _⟩
    · simp only [if_neg hwrap]
      exact ⟨_, hloop _⟩
  obtain ⟨amount, h⟩ := hremove
  refine ⟨amount, ?_⟩
  unfold SICleanupQueue
  cases (cleanupLoop seg minFree).needSig with
  | none => exact h
  | some j => exact h.signal j

end FdPostgres.Sinval
