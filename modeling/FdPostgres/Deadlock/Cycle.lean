import FdPostgres.Lib.CycleSearch
import FdPostgres.Deadlock.LockTable

/-!
# The Search for a Cycle

`FindLockCycle` searches depth-first from a process along the waits-for edges, hard ones first,
and tells whether it comes back to the process it started from. When it does, the soft edges of
the cycle it found are collected on the way back. It believes the proposed orders of wait
queues, `waitOrders[]`, in preference to the queues of the lock table.

* `FindLockCycle_found`: the soft edges returned are soft edges of the graph, and together with
  the hard edges they close a cycle through the process.
* `FindLockCycle_isSome_iff`: a cycle is found exactly when one passes through the process.
-/

namespace FdPostgres

open Relation QueueOrder CycleSearch List

/-- A soft edge of the waits-for graph, `EDGE`. As a constraint it asks for the waiter to come
before the blocker. -/
structure EDGE where
  waiter : ℕ
  blocker : ℕ
  lock : ℕ
  deriving DecidableEq, Repr

/-- A proposed order of a wait queue, `WAIT_ORDER`. -/
structure WAIT_ORDER where
  lock : ℕ
  procs : List ℕ
  deriving DecidableEq, Repr

/-- What the search keeps: the processes visited, in the order of their visits, the soft edges
of the cycle, and the autovacuum worker that was last seen to block `MyProc` directly. -/
structure CycleState where
  visitedProcs : List ℕ
  softEdges : List EDGE
  blocking_autovacuum_proc : Option ℕ
  deriving Repr

namespace LockTable

variable (t : LockTable)

/-- The order of a wait queue: the first proposal for the lock, else the queue itself. -/
def waitQueue (waitOrders : List WAIT_ORDER) (lock : ℕ) : List ℕ :=
  match waitOrders.find? (·.lock = lock) with
  | some order => order.procs
  | none => t.waitProcs lock

section Search

variable (MyProc : ℕ) (waitOrders : List WAIT_ORDER)

/-- The scan of the holders of the lock. -/
def scanHolders (recurse : ℕ → CycleState → Bool × CycleState) (checkProc lock : ℕ) :
    List PROCLOCK → CycleState → Bool × CycleState
  | [], s => (false, s)
  | proclock :: rest, s =>
      if proclock.myProc ≠ checkProc ∧ t.holdsConflict checkProc lock proclock.holdMask = true then
        let r := recurse proclock.myProc s
        if r.1 then (true, r.2)
        else if checkProc = MyProc ∧ t.isAutovacuum proclock.myProc = true then
          scanHolders recurse checkProc lock rest
            { r.2 with blocking_autovacuum_proc := some proclock.myProc }
        else scanHolders recurse checkProc lock rest r.2
      else scanHolders recurse checkProc lock rest s

/-- The scan of the wait queue, up to the process itself. -/
def scanWaiters (recurse : ℕ → CycleState → Bool × CycleState) (checkProc lock : ℕ) :
    List ℕ → CycleState → Bool × CycleState
  | [], s => (false, s)
  | proc :: rest, s =>
      if proc = checkProc then (false, s)
      else if t.requestConflicts checkProc lock proc = true then
        let r := recurse proc s
        if r.1 then
          (true, { r.2 with softEdges := r.2.softEdges ++ [⟨checkProc, proc, lock⟩] })
        else scanWaiters recurse checkProc lock rest r.2
      else scanWaiters recurse checkProc lock rest s

/-- `FindLockCycleRecurseMember`: the edges of a waiting process. -/
def FindLockCycleRecurseMember (recurse : ℕ → CycleState → Bool × CycleState)
    (checkProc lock : ℕ) (s : CycleState) : Bool × CycleState :=
  if t.Unfollowed lock then (false, s)
  else
    let r := t.scanHolders MyProc recurse checkProc lock (t.procLocks lock) s
    if r.1 then r
    else t.scanWaiters recurse checkProc lock (t.waitQueue waitOrders lock) r.2

/-- `FindLockCycleRecurse`. The first argument bounds the depth of the recursion. -/
def FindLockCycleRecurse : ℕ → ℕ → CycleState → Bool × CycleState
  | 0, _, s => (false, s)
  | depth + 1, checkProc, s =>
      if checkProc ∈ s.visitedProcs then
        -- back at the starting point, or at a process that is no part of the cycle
        (s.visitedProcs.head? == some checkProc, s)
      else
        let s := { s with visitedProcs := s.visitedProcs ++ [checkProc] }
        match t.waitLock checkProc with
        | none => (false, s)
        | some lock =>
            FindLockCycleRecurseMember t MyProc waitOrders (FindLockCycleRecurse depth)
              checkProc lock s

/-- `FindLockCycle`: the soft edges of a cycle through the process, if there is one, and the
autovacuum worker found to block `MyProc`. There is one level of recursion for each process. -/
def FindLockCycle (checkProc : ℕ) : Option (List EDGE) × Option ℕ :=
  let r := t.FindLockCycleRecurse MyProc waitOrders (t.allProcs.length + 1) checkProc ⟨[], [], none⟩
  (if r.1 then some r.2.softEdges else none, r.2.blocking_autovacuum_proc)

end Search

/-! ### What a part of the search leaves -/

/-- The edges of a cycle that was found: hard edges, and the soft edges collected. -/
def Used (edges : List EDGE) (p q : ℕ) : Prop :=
  t.HardEdge p q ∨ ∃ e ∈ edges, e.waiter = p ∧ e.blocker = q

variable (queue : ℕ → List ℕ) (start p : ℕ)

/-- The search came from a process back to the start, over hard edges and the soft edges it
added. -/
def CameBack (s s' : CycleState) : Prop :=
  ∃ edges, s'.softEdges = s.softEdges ++ edges ∧
    (∀ e ∈ edges, t.SoftEdge queue e.waiter e.blocker e.lock) ∧
    ReflTransGen (t.Used edges) p start

/-- The search came back by an edge of the process. -/
def CameRound (s s' : CycleState) : Prop :=
  ∃ edges, s'.softEdges = s.softEdges ++ edges ∧
    (∀ e ∈ edges, t.SoftEdge queue e.waiter e.blocker e.lock) ∧
    TransGen (t.Used edges) p start

/-- The search did not come back to the start, and added no soft edges. -/
def WentAstray (start : ℕ) (s s' : CycleState) : Prop :=
  Fruitless (t.WaitsFor queue) start s.visitedProcs s'.visitedProcs ∧ s'.softEdges = s.softEdges

/-- What the visit of a process is to do, when at most so many processes are unseen. -/
def VisitSpec (start depth : ℕ) (recurse : ℕ → CycleState → Bool × CycleState) : Prop :=
  ∀ p s, unseen t.allProcs s.visitedProcs < depth → s.visitedProcs.head? = some start →
    if (recurse p s).1 then t.CameBack queue start p s (recurse p s).2
    else t.WentAstray queue start s (recurse p s).2 ∧ p ∈ (recurse p s).2.visitedProcs ∧ p ≠ start

/-- What a scan of blockers has found: the search came back by an edge of the process, or it has
seen all of them and did not. -/
def Scanned (blockers : ℕ → Prop) (s : CycleState) (r : Bool × CycleState) : Prop :=
  if r.1 then t.CameRound queue start p s r.2
  else t.WentAstray queue start s r.2 ∧ ∀ q, blockers q → q ∈ r.2.visitedProcs ∧ q ≠ start

variable {t} {queue : ℕ → List ℕ} {start p q lock depth : ℕ} {edges edges' : List EDGE}
  {s s' s'' : CycleState}

theorem Used.mono (h : edges ⊆ edges') (hpq : t.Used edges p q) : t.Used edges' p q := by
  rcases hpq with hpq | ⟨e, he, hw, hb⟩
  · exact .inl hpq
  · exact .inr ⟨e, h he, hw, hb⟩

/-- A process that does not wait has no edges. -/
theorem not_waitsFor_of_not_waiting (h : t.waitLock p = none) : ¬ t.WaitsFor queue p q := by
  rintro (⟨lock, hlock, -⟩ | ⟨lock, hlock, -⟩)
  all_goals
    rw [h] at hlock
    cases hlock

/-- A cycle of edges found is a cycle of the graph. -/
theorem Used.waitsFor (h : ∀ e ∈ edges, t.SoftEdge queue e.waiter e.blocker e.lock)
    (hpq : t.Used edges p q) : t.WaitsFor queue p q := by
  rcases hpq with hpq | ⟨e, he, rfl, rfl⟩
  · exact .inl hpq
  · exact .inr ⟨e.lock, h e he⟩

theorem WentAstray.refl (s : CycleState) : t.WentAstray queue start s s := ⟨Fruitless.refl _, rfl⟩

theorem WentAstray.trans (h : t.WentAstray queue start s s')
    (h' : t.WentAstray queue start s' s'') : t.WentAstray queue start s s'' :=
  ⟨h.1.trans h'.1, h'.2.trans h.2⟩

theorem WentAstray.cameRound (h : t.WentAstray queue start s s')
    (h' : t.CameRound queue start p s' s'') : t.CameRound queue start p s s'' := by
  obtain ⟨edges, hedges, hsoft, hpath⟩ := h'
  exact ⟨edges, by rw [hedges, h.2], hsoft, hpath⟩

/-- A search from the start, with fewer processes unseen than there are levels left. -/
def Bounds (t : LockTable) (start depth : ℕ) (s : CycleState) : Prop :=
  unseen t.allProcs s.visitedProcs < depth ∧ s.visitedProcs.head? = some start

/-- What is left of the bounds after a part of the search. -/
theorem WentAstray.bounds (h : t.WentAstray queue start s s') (hs : t.Bounds start depth s) :
    t.Bounds start depth s' := by
  obtain ⟨more, hmore⟩ := h.1.grows
  refine ⟨lt_of_le_of_lt (unseen_anti h.1.grows.subset) hs.1, ?_⟩
  rw [← hmore, head?_append, hs.2]
  rfl

theorem CameRound.cameBack (h : t.CameRound queue start p s s') :
    t.CameBack queue start p s s' := by
  obtain ⟨edges, hedges, hsoft, hpath⟩ := h
  exact ⟨edges, hedges, hsoft, hpath.to_reflTransGen⟩

/-- A hard edge before a way back. -/
theorem CameBack.hard (hpq : t.HardEdge p q) (h : t.CameBack queue start q s s') :
    t.CameRound queue start p s s' := by
  obtain ⟨edges, hedges, hsoft, hpath⟩ := h
  exact ⟨edges, hedges, hsoft, TransGen.head' (.inl hpq) hpath⟩

/-- A soft edge before a way back, which is then collected. -/
theorem CameBack.soft (hpq : t.SoftEdge queue p q lock) (h : t.CameBack queue start q s s') :
    t.CameRound queue start p s { s' with softEdges := s'.softEdges ++ [⟨p, q, lock⟩] } := by
  obtain ⟨edges, hedges, hsoft, hpath⟩ := h
  refine ⟨edges ++ [⟨p, q, lock⟩], by simp [hedges], ?_, ?_⟩
  · exact forall_mem_append.mpr ⟨hsoft, forall_mem_singleton.mpr hpq⟩
  · have hlast : t.Used (edges ++ [⟨p, q, lock⟩]) p q := .inr ⟨⟨p, q, lock⟩, by simp, rfl, rfl⟩
    have hmono : ∀ a b, t.Used edges a b → t.Used (edges ++ [⟨p, q, lock⟩]) a b := fun _ _ =>
      Used.mono (subset_append_left edges _)
    exact TransGen.head' hlast (ReflTransGen.mono hmono _ _ hpath)

/-- A scan after a part of the search that has seen the other blockers. -/
theorem Scanned.after {blockers blockers' : ℕ → Prop} {r : Bool × CycleState}
    (h : t.Scanned queue start p blockers s' r) (hastr : t.WentAstray queue start s s')
    (hother : ∀ q, blockers' q → blockers q ∨ q ∈ s'.visitedProcs ∧ q ≠ start) :
    t.Scanned queue start p blockers' s r := by
  rw [Scanned] at h ⊢
  by_cases hfound : r.1 = true
  · rw [if_pos hfound] at h ⊢
    exact hastr.cameRound h
  · rw [if_neg hfound] at h ⊢
    refine ⟨hastr.trans h.1, fun q hq => ?_⟩
    rcases hother q hq with hq | ⟨hseen, hne⟩
    · exact h.2 q hq
    · exact ⟨h.1.1.grows.subset hseen, hne⟩

/-! ### The scans -/

section Scans

variable (MyProc : ℕ) {recurse : ℕ → CycleState → Bool × CycleState}

/-- **The scan of the holders** searches from every process that blocks hard. -/
theorem scanHolders_spec (hrec : t.VisitSpec queue start depth recurse)
    (hwait : t.waitLock p = some lock) (hfol : ¬ t.Unfollowed lock)
    (proclocks : List PROCLOCK) (hsub : proclocks ⊆ t.procLocks lock) (s : CycleState)
    (hs : t.Bounds start depth s) :
    t.Scanned queue start p
      (fun q => ∃ proclock ∈ proclocks, proclock.myProc = q ∧ q ≠ p ∧
        t.holdsConflict p lock proclock.holdMask = true)
      s (t.scanHolders MyProc recurse p lock proclocks s) := by
  induction proclocks generalizing s with
  | nil => exact ⟨WentAstray.refl s, fun _ h => nomatch h⟩
  | cons proclock rest ih =>
    have hrest : rest ⊆ t.procLocks lock := fun x hx => hsub (mem_cons_of_mem _ hx)
    by_cases hblock : proclock.myProc ≠ p ∧ t.holdsConflict p lock proclock.holdMask = true
    · have hvisit := hrec proclock.myProc s hs.1 hs.2
      have hedge : t.HardEdge p proclock.myProc :=
        ⟨lock, hwait, hfol, proclock, hsub mem_cons_self, rfl, hblock⟩
      simp only [scanHolders, if_pos hblock]
      generalize recurse proclock.myProc s = r at hvisit ⊢
      by_cases hfound : r.1 = true
      · rw [if_pos hfound] at hvisit ⊢
        exact hvisit.hard hedge
      · rw [if_neg hfound] at hvisit ⊢
        obtain ⟨hastr, hseen, hne⟩ := hvisit
        -- whether a blocking autovacuum worker is noted makes no difference to the search
        have hgo : ∀ s', s'.visitedProcs = r.2.visitedProcs → s'.softEdges = r.2.softEdges →
            t.Scanned queue start p (fun q => ∃ pl ∈ proclock :: rest, pl.myProc = q ∧ q ≠ p ∧
              t.holdsConflict p lock pl.holdMask = true)
              s (t.scanHolders MyProc recurse p lock rest s') := by
          intro s' hvis hsoft
          have hastr' : t.WentAstray queue start s s' := by
            rw [WentAstray, hvis, hsoft]
            exact hastr
          refine (ih hrest s' (hastr'.bounds hs)).after hastr' ?_
          rintro q ⟨pl, hpl, rfl, hplc⟩
          rcases mem_cons.mp hpl with rfl | hpl
          · exact .inr ⟨hvis ▸ hseen, hne⟩
          · exact .inl ⟨pl, hpl, rfl, hplc⟩
        split
        · exact hgo _ rfl rfl
        · exact hgo _ rfl rfl
    · simp only [scanHolders, if_neg hblock]
      refine (ih hrest s hs).after (.refl s) ?_
      rintro q ⟨pl, hpl, rfl, hplc⟩
      rcases mem_cons.mp hpl with rfl | hpl
      · exact absurd hplc hblock
      · exact .inl ⟨pl, hpl, rfl, hplc⟩

/-- **The scan of the wait queue** searches from every process that blocks softly. -/
theorem scanWaiters_spec (hrec : t.VisitSpec queue start depth recurse) (waiters : List ℕ)
    (hsub : ∀ q ∈ waiters.takeWhile (· != p), t.requestConflicts p lock q = true →
      t.SoftEdge queue p q lock) (s : CycleState) (hs : t.Bounds start depth s) :
    t.Scanned queue start p
      (fun q => q ∈ waiters.takeWhile (· != p) ∧ t.requestConflicts p lock q = true)
      s (t.scanWaiters recurse p lock waiters s) := by
  induction waiters generalizing s with
  | nil => exact ⟨WentAstray.refl s, fun _ h => nomatch h.1⟩
  | cons x rest ih =>
    by_cases hself : x = p
    · simp only [scanWaiters, if_pos hself]
      refine ⟨WentAstray.refl s, fun q hq => ?_⟩
      simp [hself] at hq
    · have htake : (x :: rest).takeWhile (· != p) = x :: rest.takeWhile (· != p) :=
        takeWhile_cons_of_pos (by simpa using hself)
      rw [htake] at hsub ⊢
      have hrest := fun q hq => hsub q (mem_cons_of_mem _ hq)
      by_cases hconf : t.requestConflicts p lock x = true
      · have hvisit := hrec x s hs.1 hs.2
        have hedge := hsub x mem_cons_self hconf
        simp only [scanWaiters, if_neg hself, if_pos hconf]
        generalize recurse x s = r at hvisit ⊢
        by_cases hfound : r.1 = true
        · rw [if_pos hfound] at hvisit ⊢
          exact hvisit.soft hedge
        · rw [if_neg hfound] at hvisit ⊢
          obtain ⟨hastr, hseen, hne⟩ := hvisit
          refine (ih hrest r.2 (hastr.bounds hs)).after hastr fun q hq => ?_
          rcases mem_cons.mp hq.1 with rfl | hmem
          · exact .inr ⟨hseen, hne⟩
          · exact .inl ⟨hmem, hq.2⟩
      · simp only [scanWaiters, if_neg hself, if_neg hconf]
        refine (ih hrest s hs).after (.refl s) fun q hq => ?_
        rcases mem_cons.mp hq.1 with rfl | hmem
        · exact absurd hq.2 hconf
        · exact .inl ⟨hmem, hq.2⟩

end Scans

/-! ### The search -/

section Search

variable (MyProc : ℕ) {waitOrders : List WAIT_ORDER} {recurse : ℕ → CycleState → Bool × CycleState}
  (horders : t.Orders (t.waitQueue waitOrders))

include horders

/-- **All edges of a waiting process are searched.** -/
theorem FindLockCycleRecurseMember_spec
    (hrec : t.VisitSpec (t.waitQueue waitOrders) start depth recurse)
    (hwait : t.waitLock p = some lock) (s : CycleState) (hs : t.Bounds start depth s) :
    t.Scanned (t.waitQueue waitOrders) start p (t.WaitsFor (t.waitQueue waitOrders) p) s
      (t.FindLockCycleRecurseMember MyProc waitOrders recurse p lock s) := by
  by_cases hfol : t.Unfollowed lock
  · simp only [FindLockCycleRecurseMember, if_pos hfol]
    refine ⟨WentAstray.refl s, ?_⟩
    rintro q (⟨lock', hwait', hno, -⟩ | ⟨lock', hwait', hno, -⟩)
    all_goals
      rw [hwait] at hwait'
      exact absurd (Option.some.inj hwait' ▸ hfol) hno
  have hmem : p ∈ t.waitQueue waitOrders lock := horders.mem_iff.mpr hwait
  have hahead : ∀ q, q ∈ (t.waitQueue waitOrders lock).takeWhile (· != p) ↔
      Ahead (t.waitQueue waitOrders lock) q p := fun q =>
    mem_takeWhile_iff (horders.nodup lock) hmem
  have hhard := scanHolders_spec MyProc hrec hwait hfol (t.procLocks lock)
    (List.Subset.refl _) s hs
  simp only [FindLockCycleRecurseMember]
  generalize t.scanHolders MyProc recurse p lock (t.procLocks lock) s = r at hhard ⊢
  split_ifs with hfound
  · rw [Scanned, if_pos hfound] at hhard ⊢
    exact hhard
  · rw [Scanned, if_neg hfound] at hhard
    obtain ⟨hastr, hholders⟩ := hhard
    refine (scanWaiters_spec hrec (t.waitQueue waitOrders lock)
      (fun q hq hc => ⟨hwait, hfol, (hahead q).mp hq, hc⟩) r.2 (hastr.bounds hs)).after
      hastr ?_
    rintro q (⟨lock', hwait', -, hholds⟩ | ⟨lock', hwait', -, hq, hc⟩)
    · obtain rfl : lock = lock' := Option.some.inj (hwait ▸ hwait')
      exact .inr (hholders q hholds)
    · obtain rfl : lock = lock' := Option.some.inj (hwait ▸ hwait')
      exact .inl ⟨(hahead q).mpr hq, hc⟩

/-- **The visit of a process**, by induction on the depth that is left. -/
theorem FindLockCycleRecurse_spec (start depth : ℕ) :
    t.VisitSpec (t.waitQueue waitOrders) start depth
      (t.FindLockCycleRecurse MyProc waitOrders depth) := by
  induction depth with
  | zero => exact fun p s hdepth => absurd hdepth (Nat.not_lt_zero _)
  | succ depth ih =>
    intro p s hdepth hstart
    by_cases hseen : p ∈ s.visitedProcs
    · simp only [FindLockCycleRecurse, if_pos hseen, hstart]
      by_cases hp : p = start
      · rw [if_pos (by simp [hp])]
        exact ⟨[], by simp, fun e he => absurd he not_mem_nil, hp ▸ ReflTransGen.refl⟩
      · rw [if_neg (by simpa using fun h => hp h.symm)]
        exact ⟨WentAstray.refl s, hseen, hp⟩
    have hp : p ≠ start := by
      rintro rfl
      exact hseen (mem_of_mem_head? hstart)
    have hstart' : (s.visitedProcs ++ [p]).head? = some start := by
      rw [head?_append, hstart]
      rfl
    cases hwait : t.waitLock p with
    | none =>
      simp only [FindLockCycleRecurse, if_neg hseen, hwait, Bool.false_eq_true, if_false]
      refine ⟨⟨(Fruitless.refl _).visit fun q hq =>
        absurd hq (not_waitsFor_of_not_waiting hwait), rfl⟩, ?_, hp⟩
      exact mem_append_right _ (mem_singleton_self p)
    | some lock =>
      have hless := unseen_visit_lt (t.waiter_mem p lock hwait) hseen
      have hmem := FindLockCycleRecurseMember_spec MyProc horders ih hwait
        { s with visitedProcs := s.visitedProcs ++ [p] } ⟨by dsimp only; omega, hstart'⟩
      rw [Scanned] at hmem
      simp only [FindLockCycleRecurse, if_neg hseen, hwait]
      generalize t.FindLockCycleRecurseMember MyProc waitOrders
        (t.FindLockCycleRecurse MyProc waitOrders depth) p lock
        { s with visitedProcs := s.visitedProcs ++ [p] } = r at hmem ⊢
      by_cases hfound : r.1 = true
      · simp only [if_pos hfound] at hmem ⊢
        -- the visit itself added no soft edge
        have hround : t.CameRound (t.waitQueue waitOrders) start p s r.2 := hmem
        exact hround.cameBack
      · simp only [if_neg hfound] at hmem ⊢
        obtain ⟨hastr, hall⟩ := hmem
        refine ⟨⟨hastr.1.visit hall, hastr.2⟩, ?_, hp⟩
        exact hastr.1.grows.subset (mem_append_right _ (mem_singleton_self p))

/-- The first visit of the search. -/
theorem FindLockCycle_spec (p : ℕ) : match (t.FindLockCycle MyProc waitOrders p).1 with
    | some edges => (∀ e ∈ edges, t.SoftEdge (t.waitQueue waitOrders) e.waiter e.blocker e.lock) ∧
        TransGen (t.Used edges) p p
    | none => ¬ TransGen (t.WaitsFor (t.waitQueue waitOrders)) p p := by
  have hfirst : t.FindLockCycleRecurse MyProc waitOrders (t.allProcs.length + 1) p ⟨[], [], none⟩ =
      match t.waitLock p with
      | none => (false, ⟨[p], [], none⟩)
      | some lock => t.FindLockCycleRecurseMember MyProc waitOrders
          (t.FindLockCycleRecurse MyProc waitOrders t.allProcs.length) p lock ⟨[p], [], none⟩ := by
    simp [FindLockCycleRecurse]
  unfold FindLockCycle
  rw [hfirst]
  cases hwait : t.waitLock p with
  | none =>
    have hastr : Fruitless (t.WaitsFor (t.waitQueue waitOrders)) p [] [p] :=
      (Fruitless.refl [p]).visit fun q hq => absurd hq (not_waitsFor_of_not_waiting hwait)
    exact hastr.not_cycle (mem_singleton_self p)
  | some lock =>
    have hless : unseen t.allProcs [p] < t.allProcs.length := by
      have h := unseen_visit_lt (t.waiter_mem p lock hwait) (not_mem_nil)
      simpa [unseen] using h
    have hmem := FindLockCycleRecurseMember_spec MyProc horders
      (FindLockCycleRecurse_spec MyProc horders p _) hwait ⟨[p], [], none⟩ ⟨hless, rfl⟩
    rw [Scanned] at hmem
    dsimp only
    generalize t.FindLockCycleRecurseMember MyProc waitOrders
      (t.FindLockCycleRecurse MyProc waitOrders t.allProcs.length) p lock
      ⟨[p], [], none⟩ = r at hmem ⊢
    by_cases hfound : r.1 = true
    · simp only [if_pos hfound] at hmem ⊢
      obtain ⟨edges, hedges, hsoft, hpath⟩ := hmem
      rw [hedges]
      exact ⟨hsoft, hpath⟩
    · simp only [if_neg hfound] at hmem ⊢
      obtain ⟨hastr, hall⟩ := hmem
      have hwhole : Fruitless (t.WaitsFor (t.waitQueue waitOrders)) p [] r.2.visitedProcs :=
        hastr.1.visit hall
      exact hwhole.not_cycle (hastr.1.grows.subset (mem_singleton_self p))

/-- **The cycle found**: the soft edges returned are edges of the graph, and together with the
hard edges they lead from the process back to itself. -/
theorem FindLockCycle_found (h : (t.FindLockCycle MyProc waitOrders p).1 = some edges) :
    (∀ e ∈ edges, t.SoftEdge (t.waitQueue waitOrders) e.waiter e.blocker e.lock) ∧
      TransGen (t.Used edges) p p := by
  have hspec := FindLockCycle_spec MyProc horders p
  rw [h] at hspec
  exact hspec

/-- **A cycle is found exactly when one passes through the process.** -/
theorem FindLockCycle_isSome_iff (p : ℕ) : (t.FindLockCycle MyProc waitOrders p).1.isSome ↔
      TransGen (t.WaitsFor (t.waitQueue waitOrders)) p p := by
  have hspec := FindLockCycle_spec MyProc horders p
  cases hfound : (t.FindLockCycle MyProc waitOrders p).1 with
  | some edges =>
    obtain ⟨hsoft, hpath⟩ := FindLockCycle_found MyProc horders hfound
    have hmono : ∀ a b, t.Used edges a b → t.WaitsFor (t.waitQueue waitOrders) a b :=
      fun _ _ => Used.waitsFor hsoft
    simpa using TransGen.mono hmono _ _ hpath
  | none =>
    rw [hfound] at hspec
    simpa using hspec

end Search

end LockTable

end FdPostgres
