import FdPostgres.Deadlock.Order

/-!
# The Deadlock Check

`DeadLockCheck` looks for a cycle through a process. If it finds one with soft edges in it, it
tries to get rid of it: one of these edges is turned round by a constraint on the order of a
wait queue, the constraints are expanded into orders of the queues, and the graph with these
orders is searched for cycles through the process and through every process that a constraint
names. When there still is one, one of its soft edges gives another constraint, and so on; when
a cycle has no soft edge, or the constraints contradict each other, the next edge of the cycle
before is tried.

The check works in arrays of fixed sizes. `outOfRoom` is not part of the code: it records that
the search had to give up a configuration because one of the arrays was full.

* `DeadLockCheckRecurse_spec`: the search never fails, an arrangement that it settles on is free
  of cycles through the processes it must check, and if it finds none and had room enough, every
  arrangement has a cycle.
* `new_edge_not_on_cycle`: an edge that the new orders brought about is on no cycle.
* `deadLockCheck_right`: the deadlock check is sound and complete.
-/

namespace FdPostgres

open Relation QueueOrder List Option

/-- The answers of the deadlock check, `DeadLockState`. -/
inductive DeadLockState where
  | DS_NOT_YET_CHECKED
  | DS_NO_DEADLOCK
  | DS_SOFT_DEADLOCK
  | DS_HARD_DEADLOCK
  | DS_BLOCKED_BY_AUTOVACUUM
  deriving DecidableEq, Repr

/-- The working space of the check. -/
structure DeadlockWork where
  /-- The array of edges: the saved lists of the levels above, then the output of the search. -/
  possibleConstraints : ℕ → EDGE
  nPossibleConstraints : ℕ
  waitOrders : List WAIT_ORDER
  blocking_autovacuum_proc : Option ℕ
  /-- Some configuration was given up for lack of room. -/
  outOfRoom : Bool

/-- The size of `possibleConstraints[]`. -/
def maxPossibleConstraints (MaxBackends : ℕ) : ℕ := MaxBackends * 4

/-- Edges are written to the array from an index on. -/
def storeEdges (area : ℕ → EDGE) (base : ℕ) (edges : List EDGE) (i : ℕ) : EDGE :=
  if base ≤ i then edges.getD (i - base) (area i) else area i

/-- What `DeadLockCheck` returns, the wait queues it leaves, and whether an array was too small. -/
structure DeadLockResult where
  state : DeadLockState
  /-- The wait queues, before the waiters at their heads are woken. -/
  waitProcs : ℕ → List ℕ
  outOfRoom : Bool

namespace LockTable

variable (t : LockTable) (MaxBackends MyProc : ℕ)

/-- The searches of `TestConfiguration`: the soft edges of the last cycle found, no edges if
there is no cycle, `none` if some cycle has no soft edge. -/
def checkCycles (waitOrders : List WAIT_ORDER) :
    List ℕ → List EDGE → Option ℕ → Option (List EDGE) × Option ℕ
  | [], softFound, blocking => (some softFound, blocking)
  | p :: rest, softFound, blocking =>
      let r := t.FindLockCycle MyProc waitOrders p
      match r.1 with
      | none => checkCycles waitOrders rest softFound (r.2.or blocking)
      | some [] => (none, r.2.or blocking)
      | some softEdges => checkCycles waitOrders rest softEdges (r.2.or blocking)

/-- The processes that are checked: those that the constraints name, the starting one last. -/
def procsToCheck (startProc : ℕ) (curConstraints : List EDGE) : List ℕ :=
  curConstraints.flatMap (fun c => [c.waiter, c.blocker]) ++ [startProc]

/-- `TestConfiguration`: the number of soft edges of a cycle, which are then in the array from
`nPossibleConstraints` on; `none` is the answer -1. -/
def TestConfiguration (startProc : ℕ) (curConstraints : List EDGE) (w : DeadlockWork) :
    Option ℕ × DeadlockWork :=
  if w.nPossibleConstraints + MaxBackends > maxPossibleConstraints MaxBackends then
    (none, { w with outOfRoom := true })
  else
    match t.ExpandConstraints curConstraints with
    | none => (none, w)
    | some waitOrders =>
        let r := t.checkCycles MyProc waitOrders (procsToCheck startProc curConstraints) [] none
        let w := { w with
          waitOrders := waitOrders
          blocking_autovacuum_proc := r.2.or w.blocking_autovacuum_proc }
        match r.1 with
        | none => (none, w)
        | some softEdges =>
            (some softEdges.length,
              { w with possibleConstraints :=
                  storeEdges w.possibleConstraints w.nPossibleConstraints softEdges })

/-- The list of edges is found again, if it was not saved. -/
def regenerate (proc : ℕ) (curConstraints : List EDGE) (nEdges : ℕ) (savedList : Bool) (i : ℕ)
    (w : DeadlockWork) : Except String DeadlockWork :=
  if savedList = false ∧ 0 < i then
    let r := t.TestConfiguration MaxBackends MyProc proc curConstraints w
    if some nEdges ≠ r.1 then throw "inconsistent results during deadlock check"
    else pure r.2
  else pure w

/-- The loop of `DeadLockCheckRecurse` over the soft edges of the cycle. -/
def tryEdges (recurse : List EDGE → DeadlockWork → Except String (Bool × DeadlockWork))
    (proc : ℕ) (curConstraints : List EDGE) (nEdges oldPossibleConstraints : ℕ)
    (savedList : Bool) : List ℕ → DeadlockWork → Except String (Bool × DeadlockWork)
  | [], w => pure (true, { w with nPossibleConstraints := oldPossibleConstraints })
  | i :: rest, w => do
      let w ← t.regenerate MaxBackends MyProc proc curConstraints nEdges savedList i w
      let r ← recurse (curConstraints ++ [w.possibleConstraints (oldPossibleConstraints + i)]) w
      if r.1 then
        tryEdges recurse proc curConstraints nEdges oldPossibleConstraints savedList rest r.2
      else pure (false, r.2)

/-- `DeadLockCheckRecurse`: true if no solution exists. The first argument is the number of
entries left in `curConstraints[]`. -/
def DeadLockCheckRecurse (proc room : ℕ) (curConstraints : List EDGE) (w : DeadlockWork) :
    Except String (Bool × DeadlockWork) :=
  let r := t.TestConfiguration MaxBackends MyProc proc curConstraints w
  match r.1 with
  | none => pure (true, r.2)
  | some 0 => pure (false, r.2)
  | some nEdges =>
      match room with
      | 0 => pure (true, { r.2 with outOfRoom := true })
      | room + 1 =>
          let old := r.2.nPossibleConstraints
          if old + nEdges + MaxBackends ≤ maxPossibleConstraints MaxBackends then
            t.tryEdges MaxBackends MyProc (DeadLockCheckRecurse proc room) proc curConstraints
              nEdges old true (range' 0 nEdges)
              { r.2 with nPossibleConstraints := old + nEdges }
          else
            t.tryEdges MaxBackends MyProc (DeadLockCheckRecurse proc room) proc curConstraints
              nEdges old false (range' 0 nEdges) r.2

/-- The wait queues put into the proposed orders. -/
def rearrange (waitOrders : List WAIT_ORDER) : ℕ → List ℕ :=
  waitOrders.foldl (fun queue order => Function.update queue order.lock order.procs) t.waitProcs

/-- `DeadLockCheck`. At most `MaxBackends` constraints are considered at a time. -/
def DeadLockCheck (proc : ℕ) : Except String DeadLockResult := do
  let r ← t.DeadLockCheckRecurse MaxBackends MyProc proc MaxBackends []
    ⟨fun _ => ⟨0, 0, 0⟩, 0, [], none, false⟩
  if r.1 then
    match (t.FindLockCycle MyProc [] proc).1 with
    | none => throw "deadlock seems to have disappeared"
    | some _ => pure ⟨.DS_HARD_DEADLOCK, t.waitProcs, r.2.outOfRoom⟩
  else
    let state :=
      if r.2.waitOrders.length > 0 then DeadLockState.DS_SOFT_DEADLOCK
      else if r.2.blocking_autovacuum_proc.isSome then .DS_BLOCKED_BY_AUTOVACUUM
      else .DS_NO_DEADLOCK
    pure ⟨state, t.rearrange r.2.waitOrders, r.2.outOfRoom⟩

/-! ### The test of a configuration -/

/-- What the test of a configuration finds: the soft edges of a cycle, none if there is no
cycle. It does not depend on the working space. -/
def softCycle (startProc : ℕ) (curConstraints : List EDGE) : Option (List EDGE) :=
  (t.ExpandConstraints curConstraints).bind fun waitOrders =>
    (t.checkCycles MyProc waitOrders (procsToCheck startProc curConstraints) [] none).1

/-- There is room for the output of the search. -/
def HasRoom (w : DeadlockWork) : Prop :=
  w.nPossibleConstraints + MaxBackends ≤ maxPossibleConstraints MaxBackends

variable {t MaxBackends MyProc} {startProc : ℕ} {cur : List EDGE} {edges : List EDGE}
  {waitOrders : List WAIT_ORDER} {w : DeadlockWork}

/-- The searches found no cycle, or the last one they found decides: it has no soft edges, or these
are the result. -/
theorem checkCycles_cases (procs : List ℕ) (softFound : List EDGE) (blocking : Option ℕ) :
    ((t.checkCycles MyProc waitOrders procs softFound blocking).1 = some softFound ∧
      ∀ p ∈ procs, (t.FindLockCycle MyProc waitOrders p).1 = none) ∨
    ∃ p edges, (t.FindLockCycle MyProc waitOrders p).1 = some edges ∧
      (t.checkCycles MyProc waitOrders procs softFound blocking).1 =
        if edges = [] then none else some edges := by
  induction procs generalizing softFound blocking with
  | nil => exact .inl ⟨rfl, nofun⟩
  | cons p rest ih =>
    unfold checkCycles
    cases hfound : (t.FindLockCycle MyProc waitOrders p).1 with
    | none =>
      simp only [hfound]
      rcases ih softFound _ with ⟨heq, hnone⟩ | hsome
      · exact .inl ⟨heq, forall_mem_cons.mpr ⟨hfound, hnone⟩⟩
      · exact .inr hsome
    | some found =>
      cases found with
      | nil => exact .inr ⟨p, [], hfound, by simp only [hfound]; rfl⟩
      | cons e es =>
        simp only [hfound]
        rcases ih (e :: es) _ with ⟨heq, -⟩ | hsome
        · exact .inr ⟨p, e :: es, hfound, heq⟩
        · exact .inr hsome

/-- **A good configuration**: no cycle passes through a process that is checked. -/
theorem softCycle_nil (hedges : ∀ c ∈ cur, t.IsEdge c)
    (h : t.softCycle MyProc startProc cur = some []) :
    ∃ waitOrders, t.ExpandConstraints cur = some waitOrders ∧ ∀ p ∈ procsToCheck startProc cur,
        ¬ TransGen (t.WaitsFor (t.waitQueue waitOrders)) p p := by
  obtain ⟨waitOrders, hexp, hcheck⟩ := bind_eq_some_iff.mp h
  have hord := (ExpandConstraints_spec hedges hexp).orders
  refine ⟨waitOrders, hexp, fun p hp => ?_⟩
  rcases checkCycles_cases .. with ⟨-, hnone⟩ | ⟨q, edges, -, heq⟩
  · rw [← FindLockCycle_isSome_iff MyProc hord p, hnone p hp]
    simp
  · rw [hcheck] at heq
    split_ifs at heq with hne
    exact absurd (some.inj heq).symm hne

/-- **A soft cycle.** -/
theorem softCycle_some (hedges : ∀ c ∈ cur, t.IsEdge c)
    (h : t.softCycle MyProc startProc cur = some edges) (hne : edges ≠ []) :
    ∃ waitOrders p, t.ExpandConstraints cur = some waitOrders ∧
      (∀ e ∈ edges, t.SoftEdge (t.waitQueue waitOrders) e.waiter e.blocker e.lock) ∧
      TransGen (t.Used edges) p p := by
  obtain ⟨waitOrders, hexp, hcheck⟩ := bind_eq_some_iff.mp h
  have hord := (ExpandConstraints_spec hedges hexp).orders
  rcases checkCycles_cases .. with ⟨heq, -⟩ | ⟨p, found, hfound, heq⟩ <;> rw [hcheck] at heq
  · exact absurd (some.inj heq) hne
  · split_ifs at heq
    obtain rfl := some.inj heq
    obtain ⟨hsoft, hpath⟩ := FindLockCycle_found MyProc hord hfound
    exact ⟨waitOrders, p, hexp, hsoft, hpath⟩

/-- **A configuration that is rejected** contradicts itself or has a hard cycle. -/
theorem softCycle_none (hedges : ∀ c ∈ cur, t.IsEdge c)
    (h : t.softCycle MyProc startProc cur = none) :
    t.ExpandConstraints cur = none ∨ ∃ p, TransGen t.HardEdge p p := by
  cases hexp : t.ExpandConstraints cur with
  | none => exact .inl rfl
  | some waitOrders =>
    simp only [softCycle, hexp, bind_some] at h
    have hord := (ExpandConstraints_spec hedges hexp).orders
    obtain ⟨heq, -⟩ | ⟨p, found, hfound, heq⟩ := checkCycles_cases .. <;> rw [h] at heq
    · cases heq
    split_ifs at heq with hnil
    obtain ⟨-, hpath⟩ := FindLockCycle_found MyProc hord (hnil ▸ hfound)
    have hmono : ∀ a b, t.Used [] a b → t.HardEdge a b := fun a b hab =>
      hab.resolve_right fun ⟨e, he, _⟩ => nomatch he
    exact .inr ⟨p, TransGen.mono hmono _ _ hpath⟩

variable {area : ℕ → EDGE} {i base : ℕ}

theorem storeEdges_of_lt (h : i < base) : storeEdges area base edges i = area i := by
  rw [storeEdges, if_neg (by omega)]

/-- The edges stored are found at the index. -/
theorem storeEdges_add {e : EDGE} (h : edges[i]? = some e) :
    storeEdges area base edges (base + i) = e := by
  rw [storeEdges, if_pos (by omega), Nat.add_sub_cancel_left, getD_eq_getElem?_getD, h]
  rfl

/-- The array holds the edges from an index on. -/
def Holds (area : ℕ → EDGE) (base : ℕ) (edges : List EDGE) : Prop :=
  ∀ i e, edges[i]? = some e → area (base + i) = e

/-- What a test leaves of the working space. -/
structure Tested (t : LockTable) (MyProc startProc : ℕ) (cur : List EDGE)
    (w w' : DeadlockWork) : Prop where
  frame : ∀ i < w.nPossibleConstraints, w'.possibleConstraints i = w.possibleConstraints i
  count : w'.nPossibleConstraints = w.nPossibleConstraints
  room : w'.outOfRoom = w.outOfRoom
  found : ∀ edges, t.softCycle MyProc startProc cur = some edges →
    t.ExpandConstraints cur = some w'.waitOrders ∧
      Holds w'.possibleConstraints w.nPossibleConstraints edges

/-- **The test of a configuration**, when there is room. -/
theorem TestConfiguration_spec (t : LockTable) (MyProc startProc : ℕ) (cur : List EDGE)
    (hroom : HasRoom MaxBackends w) :
    ∃ w', t.TestConfiguration MaxBackends MyProc startProc cur w =
        ((t.softCycle MyProc startProc cur).map length, w') ∧
      Tested t MyProc startProc cur w w' := by
  have hle : ¬ w.nPossibleConstraints + MaxBackends > maxPossibleConstraints MaxBackends :=
    not_lt.mpr hroom
  simp only [TestConfiguration, if_neg hle]
  cases hexp : t.ExpandConstraints cur with
  | none =>
    have hsoft : t.softCycle MyProc startProc cur = none := by simp [softCycle, hexp]
    refine ⟨w, by rw [hsoft]; rfl, fun _ _ => rfl, rfl, rfl, fun edges h => ?_⟩
    rw [hsoft] at h
    cases h
  | some waitOrders =>
    have hsoft : t.softCycle MyProc startProc cur =
        (t.checkCycles MyProc waitOrders (procsToCheck startProc cur) [] none).1 := by
      simp [softCycle, hexp]
    dsimp only
    rw [← hsoft]
    cases hcase : t.softCycle MyProc startProc cur with
    | none =>
      refine ⟨_, rfl, fun _ _ => rfl, rfl, rfl, fun edges h => ?_⟩
      rw [hcase] at h
      cases h
    | some edges =>
      refine ⟨_, rfl, fun _ hi => storeEdges_of_lt hi, rfl, rfl, fun edges' h => ?_⟩
      obtain rfl : edges = edges' := some.inj (hcase ▸ h)
      exact ⟨hexp, fun i e hi => storeEdges_add hi⟩

/-! ### The search for an arrangement -/

/-- Constraints as the search makes them. The first one turns round a soft edge of the lock
table itself. -/
structure Constraints (t : LockTable) (cur : List EDGE) : Prop where
  edges : ∀ c ∈ cur, t.IsEdge c
  first : ∀ c, cur.head? = some c → Ahead (t.waitProcs c.lock) c.blocker c.waiter

/-- The orders of a good configuration. -/
def Settled (t : LockTable) (MyProc proc : ℕ) (waitOrders : List WAIT_ORDER) : Prop :=
  ∃ cur, Constraints t cur ∧ t.softCycle MyProc proc cur = some [] ∧
    t.ExpandConstraints cur = some waitOrders

/-- Every arrangement that meets the constraints has a cycle. -/
def Hopeless (t : LockTable) (cur : List EDGE) : Prop :=
  ∀ queue, t.Orders queue → (∀ c ∈ cur, Ahead (queue c.lock) c.waiter c.blocker) →
    ∃ p, TransGen (t.WaitsFor queue) p p

/-- **What the search is to find out** from given constraints. -/
structure Searched (t : LockTable) (MyProc proc : ℕ) (w w' : DeadlockWork) (noSolution : Bool)
    (hopeless : Prop) : Prop where
  frame : ∀ i < w.nPossibleConstraints, w'.possibleConstraints i = w.possibleConstraints i
  room : w.outOfRoom = true → w'.outOfRoom = true
  solution : noSolution = false → Settled t MyProc proc w'.waitOrders
  complete : noSolution = true → w'.outOfRoom = false → hopeless

theorem Constraints.nil (t : LockTable) : Constraints t [] :=
  ⟨fun _ h => absurd h not_mem_nil, fun _ h => nomatch h⟩

/-- A soft edge of a configuration is added to its constraints. -/
theorem Constraints.add (h : Constraints t cur) {e : EDGE}
    (hexp : t.ExpandConstraints cur = some waitOrders)
    (he : t.SoftEdge (t.waitQueue waitOrders) e.waiter e.blocker e.lock) :
    Constraints t (cur ++ [e]) := by
  have hord := (ExpandConstraints_spec h.edges hexp).orders
  refine ⟨forall_mem_append.mpr ⟨h.edges, forall_mem_singleton.mpr ?_⟩, fun c hc => ?_⟩
  · exact ⟨he.1, hord.mem_iff.mp he.2.2.1.left_mem⟩
  · cases cur with
    | nil =>
      -- without constraints the queues are those of the lock table
      obtain rfl : e = c := some.inj hc
      obtain rfl : [] = waitOrders := some.inj hexp
      exact he.2.2.1
    | cons c' cur' => exact h.first c hc

/-- **One of the soft edges of a cycle is turned round by every arrangement without cycles.** -/
theorem hopeless_of_edges (h : Constraints t cur)
    (hexp : t.ExpandConstraints cur = some waitOrders)
    (hsoft : ∀ e ∈ edges, t.SoftEdge (t.waitQueue waitOrders) e.waiter e.blocker e.lock)
    {p : ℕ} (hpath : TransGen (t.Used edges) p p)
    (htried : ∀ e ∈ edges, Hopeless t (cur ++ [e])) : Hopeless t cur := by
  intro queue hqueue hmet
  have hord := (ExpandConstraints_spec h.edges hexp).orders
  by_cases hall : ∀ e ∈ edges, t.SoftEdge queue e.waiter e.blocker e.lock
  · have hmono : ∀ a b, t.Used edges a b → t.WaitsFor queue a b := fun _ _ => Used.waitsFor hall
    exact ⟨p, TransGen.mono hmono _ _ hpath⟩
  · obtain ⟨e, he, hno⟩ : ∃ e, e ∈ edges ∧ ¬ t.SoftEdge queue e.waiter e.blocker e.lock := by
      simpa using hall
    have hturned := (hsoft e he).ahead_of_not hord hqueue hno
    have hall := forall_mem_append.mpr ⟨hmet, forall_mem_singleton.mpr hturned⟩
    exact htried e he queue hqueue hall

/-- A rejected configuration is hopeless. -/
theorem hopeless_of_none (h : Constraints t cur)
    (hnone : t.softCycle MyProc startProc cur = none) : Hopeless t cur := by
  intro queue hqueue hmet
  rcases softCycle_none h.edges hnone with hexp | ⟨p, hpath⟩
  · have hsome := ExpandConstraints_isSome h.edges hqueue hmet
    rw [hexp] at hsome
    cases hsome
  · have hmono : ∀ a b, t.HardEdge a b → t.WaitsFor queue a b := fun _ _ => .inl
    exact ⟨p, TransGen.mono hmono _ _ hpath⟩

section Search

variable {proc old : ℕ} {savedList : Bool}
  {recurse : List EDGE → DeadlockWork → Except String (Bool × DeadlockWork)}

/-- What the levels below are to do. -/
def RecurseSpec (t : LockTable) (MaxBackends MyProc proc : ℕ)
    (recurse : List EDGE → DeadlockWork → Except String (Bool × DeadlockWork)) : Prop :=
  ∀ cur w, Constraints t cur → HasRoom MaxBackends w → ∃ b w', recurse cur w = .ok (b, w') ∧
      Searched t MyProc proc w w' b (Hopeless t cur) ∧
      (b = true → w'.nPossibleConstraints = w.nPossibleConstraints)

/-- **The edges are found again.** The test gives the same answer, so the check for
inconsistent results does not fail. -/
theorem regenerate_spec (hroom : HasRoom MaxBackends w)
    (hcycle : t.softCycle MyProc proc cur = some edges)
    (hold : old = w.nPossibleConstraints ∨ savedList = true)
    (hholds : savedList = true ∨ i = 0 → Holds w.possibleConstraints old edges) :
    ∃ w', t.regenerate MaxBackends MyProc proc cur edges.length savedList i w = .ok w' ∧
      (∀ j < w.nPossibleConstraints, w'.possibleConstraints j = w.possibleConstraints j) ∧
      w'.nPossibleConstraints = w.nPossibleConstraints ∧ w'.outOfRoom = w.outOfRoom ∧
      Holds w'.possibleConstraints old edges := by
  by_cases hagain : savedList = false ∧ 0 < i
  · obtain ⟨w', htest, htested⟩ := TestConfiguration_spec t MyProc proc cur hroom
    rw [regenerate, if_pos hagain, htest, hcycle]
    refine ⟨w', by simp [pure, Except.pure], htested.frame, htested.count, htested.room, ?_⟩
    have heq : old = w.nPossibleConstraints := hold.resolve_right (by simp [hagain.1])
    rw [heq]
    exact (htested.found edges hcycle).2
  · rw [regenerate, if_neg hagain]
    refine ⟨w, rfl, fun _ _ => rfl, rfl, rfl, hholds ?_⟩
    cases savedList with
    | true => exact .inl rfl
    | false =>
      right
      by_contra hi
      exact hagain ⟨rfl, Nat.pos_of_ne_zero hi⟩

/-- **The loop over the soft edges** of a cycle, from the edge with index `i` on. -/
theorem tryEdges_spec (hrec : RecurseSpec t MaxBackends MyProc proc recurse)
    (hcur : Constraints t cur) (hexp : t.ExpandConstraints cur = some waitOrders)
    (hcycle : t.softCycle MyProc proc cur = some edges)
    (hsoft : ∀ e ∈ edges, t.SoftEdge (t.waitQueue waitOrders) e.waiter e.blocker e.lock) (m : ℕ)
    (hi : i + m = edges.length) {w : DeadlockWork} (hroom : HasRoom MaxBackends w)
    (hcount : w.nPossibleConstraints = if savedList then old + edges.length else old)
    (hholds : savedList = true ∨ i = 0 → Holds w.possibleConstraints old edges) :
    ∃ b w', t.tryEdges MaxBackends MyProc recurse proc cur edges.length old savedList
        (range' i m) w = .ok (b, w') ∧
      Searched t MyProc proc w w' b (∀ e ∈ edges.drop i, Hopeless t (cur ++ [e])) ∧
      (b = true → w'.nPossibleConstraints = old) := by
  induction m generalizing i w with
  | zero =>
    have hnone : edges.drop i = [] := drop_eq_nil_of_le (by omega)
    refine ⟨true, _, rfl, ⟨fun _ _ => rfl, id, nofun, fun _ _ e he => ?_⟩,
      fun _ => rfl⟩
    rw [hnone] at he
    cases he
  | succ m ih =>
    obtain ⟨e, he⟩ : ∃ e, edges[i]? = some e :=
      ⟨edges.get ⟨i, by omega⟩, getElem?_eq_getElem (by omega)⟩
    have hold : old = w.nPossibleConstraints ∨ savedList = true := by
      cases savedList with
      | true => exact .inr rfl
      | false => exact .inl hcount.symm
    obtain ⟨w₁, hgen, hframe₁, hcount₁, hroom₁, hholds₁⟩ := regenerate_spec hroom hcycle hold hholds
    have hhas₁ : HasRoom MaxBackends w₁ := by
      rw [HasRoom, hcount₁]
      exact hroom
    have hcur' := hcur.add hexp (hsoft e (mem_of_getElem? he))
    obtain ⟨b, w₂, hrun, hsea, hback⟩ := hrec (cur ++ [e]) w₁ hcur' hhas₁
    have hstep : t.tryEdges MaxBackends MyProc recurse proc cur edges.length old savedList
        (range' i (m + 1)) w =
        if b then t.tryEdges MaxBackends MyProc recurse proc cur edges.length old savedList
          (range' (i + 1) m) w₂
        else .ok (false, w₂) := by
      rw [range'_succ, tryEdges, hgen]
      simp only [bind, Except.bind, hholds₁ i e he, hrun, pure, Except.pure]
    have hframe₂ : ∀ j < w.nPossibleConstraints,
        w₂.possibleConstraints j = w.possibleConstraints j := fun j hj => by
      rw [hsea.frame j (by omega), hframe₁ j hj]
    have hroom₂ : w.outOfRoom = true → w₂.outOfRoom = true := fun h =>
      hsea.room (hroom₁.trans h)
    rw [hstep]
    cases b with
    | false =>
      exact ⟨false, w₂, rfl, ⟨hframe₂, hroom₂, hsea.solution, nofun⟩,
        nofun⟩
    | true =>
      have hcount₂ : w₂.nPossibleConstraints = w.nPossibleConstraints := (hback rfl).trans hcount₁
      have hhas₂ : HasRoom MaxBackends w₂ := by
        rw [HasRoom, hcount₂]
        exact hroom
      -- a saved list is below the part of the array that the levels below write
      have hholds₂ : savedList = true ∨ i + 1 = 0 → Holds w₂.possibleConstraints old edges := by
        intro hsaved j e' hj
        have hsaved : savedList = true := hsaved.resolve_right (Nat.succ_ne_zero i)
        have hjlt : j < edges.length := (List.getElem?_eq_some_iff.mp hj).1
        rw [if_pos hsaved] at hcount
        rw [hsea.frame (old + j) (by omega)]
        exact hholds₁ j e' hj
      obtain ⟨b', w₃, hrun₃, hsea₃, hback₃⟩ := ih (by omega) hhas₂
        (hcount₂.trans hcount) hholds₂
      refine ⟨b', w₃, by simpa using hrun₃, ⟨fun j hj => ?_, fun h => ?_,
        hsea₃.solution, fun hb hno e' he' => ?_⟩, hback₃⟩
      · rw [hsea₃.frame j (by omega), hframe₂ j hj]
      · exact hsea₃.room (hroom₂ h)
      · rw [drop_eq_getElem_cons (by omega)] at he'
        rcases mem_cons.mp he' with rfl | he'
        · have hno₂ : w₂.outOfRoom = false := by
            by_contra hyes
            rw [hsea₃.room (by simpa using hyes)] at hno
            cases hno
          have heq : edges[i] = e := some.inj
            ((getElem?_eq_getElem (by omega)).symm.trans he)
          rw [heq]
          exact hsea.complete rfl hno₂
        · exact hsea₃.complete hb hno e' he'

/-- One level of the search, from what the level below does. -/
theorem DeadLockCheckRecurse_step {room : ℕ} (hbelow : ∀ below, room = below + 1 →
      RecurseSpec t MaxBackends MyProc proc
        (t.DeadLockCheckRecurse MaxBackends MyProc proc below)) :
    RecurseSpec t MaxBackends MyProc proc
      (t.DeadLockCheckRecurse MaxBackends MyProc proc room) := by
  intro cur w hcur hroom
  obtain ⟨w₁, htest, htested⟩ := TestConfiguration_spec t MyProc proc cur hroom
  have hroom₁ : w.outOfRoom = true → w₁.outOfRoom = true := fun h => htested.room.trans h
  rw [DeadLockCheckRecurse.eq_def, htest]
  cases hcycle : t.softCycle MyProc proc cur with
  | none =>
    refine ⟨true, w₁, rfl, ⟨htested.frame, hroom₁, nofun, fun _ _ => ?_⟩,
      fun _ => htested.count⟩
    exact hopeless_of_none hcur hcycle
  | some edges =>
    obtain ⟨hexp, hholds⟩ := htested.found edges hcycle
    cases hlen : edges with
    | nil =>
      subst hlen
      refine ⟨false, w₁, rfl, ⟨htested.frame, hroom₁, fun _ => ?_, nofun⟩,
        nofun⟩
      exact ⟨cur, hcur, hcycle, hexp⟩
    | cons e es =>
      have hne : edges ≠ [] := hlen ▸ cons_ne_nil e es
      obtain ⟨waitOrders, p, hexp', hsoft, hpath⟩ := softCycle_some hcur.edges hcycle hne
      obtain rfl : w₁.waitOrders = waitOrders := some.inj (hexp ▸ hexp')
      cases room with
      | zero =>
        refine ⟨true, { w₁ with outOfRoom := true }, rfl, ⟨htested.frame, fun _ => rfl,
          nofun, nofun⟩, fun _ => htested.count⟩
      | succ below =>
        have hgo : ∀ (savedList : Bool) (w₂ : DeadlockWork),
            w₂.possibleConstraints = w₁.possibleConstraints →
            w₂.outOfRoom = w₁.outOfRoom →
            (w₂.nPossibleConstraints = if savedList then
              w₁.nPossibleConstraints + edges.length else w₁.nPossibleConstraints) →
            HasRoom MaxBackends w₂ →
            ∃ b w', t.tryEdges MaxBackends MyProc
                (t.DeadLockCheckRecurse MaxBackends MyProc proc below) proc cur edges.length
                w₁.nPossibleConstraints savedList (range' 0 edges.length) w₂ = .ok (b, w') ∧
              Searched t MyProc proc w w' b (Hopeless t cur) ∧
              (b = true → w'.nPossibleConstraints = w.nPossibleConstraints) := by
          intro savedList w₂ harea hout hcount hhas
          have hholds₂ : Holds w₂.possibleConstraints w₁.nPossibleConstraints edges := by
            rw [harea, htested.count]
            exact hholds
          have hle : w.nPossibleConstraints ≤ w₂.nPossibleConstraints := by
            rw [hcount, htested.count]
            split <;> omega
          obtain ⟨b, w', hrun, hsea, hback⟩ := tryEdges_spec (hbelow below rfl) hcur
            hexp hcycle hsoft edges.length (zero_add _) hhas hcount fun _ => hholds₂
          refine ⟨b, w', hrun, ⟨fun j hj => ?_, fun h => ?_, hsea.solution,
            fun hb hno => ?_⟩, fun hb => (hback hb).trans htested.count⟩
          · rw [hsea.frame j (by omega), harea, htested.frame j hj]
          · exact hsea.room (hout.trans (hroom₁ h))
          · exact hopeless_of_edges hcur hexp hsoft hpath (hsea.complete hb hno)
        rw [hlen] at hgo
        by_cases hfits : w₁.nPossibleConstraints + (es.length + 1) + MaxBackends ≤
            maxPossibleConstraints MaxBackends
        · obtain ⟨b, w', hrun, hrest⟩ := hgo true
            { w₁ with nPossibleConstraints := w₁.nPossibleConstraints + (es.length + 1) }
            rfl rfl rfl hfits
          exact ⟨b, w', (if_pos hfits).trans hrun, hrest⟩
        · have hhas : HasRoom MaxBackends w₁ := by
            rw [HasRoom, htested.count]
            exact hroom
          obtain ⟨b, w', hrun, hrest⟩ := hgo false w₁ rfl rfl rfl hhas
          exact ⟨b, w', (if_neg hfits).trans hrun, hrest⟩

/-- **The search for an arrangement**, by induction on the room left for constraints. -/
theorem DeadLockCheckRecurse_spec (t : LockTable) (MaxBackends MyProc proc room : ℕ) :
    RecurseSpec t MaxBackends MyProc proc
      (t.DeadLockCheckRecurse MaxBackends MyProc proc room) := by
  induction room with
  | zero => exact DeadLockCheckRecurse_step fun below h => absurd h (Nat.succ_ne_zero below).symm
  | succ room ih =>
    refine DeadLockCheckRecurse_step fun below h => ?_
    obtain rfl : room = below := Nat.succ.inj h
    exact ih

end Search

/-! ### The answer of the check -/

section Answer

variable {proc : ℕ}

/-- The first configuration is the lock table itself. -/
theorem softCycle_start_iff (t : LockTable) (MyProc proc : ℕ) :
    t.softCycle MyProc proc [] = some [] ↔ ¬ TransGen (t.WaitsFor t.waitProcs) proc proc := by
  have hiff : (t.FindLockCycle MyProc [] proc).1.isSome ↔
      TransGen (t.WaitsFor t.waitProcs) proc proc :=
    FindLockCycle_isSome_iff MyProc t.orders_waitProcs proc
  have hsoft : t.softCycle MyProc proc [] = (t.checkCycles MyProc [] [proc] [] none).1 := rfl
  rw [hsoft, ← hiff]
  cases hfound : (t.FindLockCycle MyProc [] proc).1 with
  | none => simp [checkCycles, hfound]
  | some edges =>
    cases edges with
    | nil | cons e es => simp [checkCycles, hfound]

/-- The queues are left in the orders that were proposed. -/
theorem rearrange_eq (t : LockTable) {waitOrders : List WAIT_ORDER}
    (hlocks : (waitOrders.map WAIT_ORDER.lock).Nodup) :
    t.rearrange waitOrders = t.waitQueue waitOrders := by
  have hfold : ∀ queue : ℕ → List ℕ, ∀ lock,
      waitOrders.foldl (fun queue order => Function.update queue order.lock order.procs) queue
        lock = (waitOrders.find? (·.lock = lock)).elim (queue lock) WAIT_ORDER.procs := by
    induction waitOrders with
    | nil => exact fun _ _ => rfl
    | cons order rest ih =>
      intro queue lock
      rw [map_cons, nodup_cons] at hlocks
      rw [foldl_cons, ih hlocks.2]
      by_cases hlock : order.lock = lock
      · -- the other proposals are for other locks
        have hrest : rest.find? (·.lock = lock) = none := by
          rw [find?_eq_none]
          intro other hother hl
          have hmem := mem_map_of_mem (f := WAIT_ORDER.lock) hother
          rw [of_decide_eq_true hl, ← hlock] at hmem
          exact hlocks.1 hmem
        rw [hrest, find?_cons_of_pos (by simpa using hlock), ← hlock]
        exact Function.update_self _ _ _
      · rw [find?_cons_of_neg (by simpa using hlock)]
        have hne : lock ≠ order.lock := fun h => hlock h.symm
        rw [Function.update_of_ne hne]
  funext lock
  rw [rearrange, hfold, waitQueue]
  cases waitOrders.find? (·.lock = lock) <;> rfl

/-- **A new edge is on no cycle**: a process that came to stand before others is the waiter of
a constraint, and was checked. -/
theorem new_edge_not_on_cycle (hcur : Constraints t cur)
    (hgood : t.softCycle MyProc proc cur = some [])
    (hexp : t.ExpandConstraints cur = some waitOrders) {p q : ℕ}
    (hpq : t.WaitsFor (t.waitQueue waitOrders) p q)
    (hback : TransGen (t.WaitsFor (t.waitQueue waitOrders)) q p) : t.WaitsFor t.waitProcs p q := by
  have hexpd := ExpandConstraints_spec hcur.edges hexp
  obtain ⟨waitOrders', hexp', hnone⟩ := softCycle_nil hcur.edges hgood
  obtain rfl : waitOrders = waitOrders' := some.inj (hexp ▸ hexp')
  rcases hpq with hhard | ⟨lock, hsoft⟩
  · exact .inl hhard
  · by_contra hno
    have hnew : ¬ t.SoftEdge t.waitProcs p q lock := fun h => hno (.inr ⟨lock, h⟩)
    have hwas := hsoft.ahead_of_not hexpd.orders t.orders_waitProcs hnew
    obtain ⟨c, hc, hcq⟩ := hexpd.moved hwas hsoft.2.2.1
    have hchecked : q ∈ procsToCheck proc cur := by
      refine mem_append_left _ (mem_flatMap.mpr ⟨c, hc, ?_⟩)
      simp [hcq]
    exact hnone q hchecked (hback.tail (.inr ⟨lock, hsoft⟩))

/-- The working space at the start. -/
theorem hasRoom_start (MaxBackends : ℕ) :
    HasRoom MaxBackends ⟨fun _ => ⟨0, 0, 0⟩, 0, [], none, false⟩ := by
  simp only [HasRoom, maxPossibleConstraints]
  omega

/-- Without a cycle nothing is reported and nothing is moved. -/
theorem DeadLockCheck_of_not_cycle (MaxBackends MyProc : ℕ)
    (h : ¬ TransGen (t.WaitsFor t.waitProcs) proc proc) :
    ∃ r, t.DeadLockCheck MaxBackends MyProc proc = .ok r ∧ r.waitProcs = t.waitProcs ∧
      r.state ≠ .DS_HARD_DEADLOCK ∧ r.state ≠ .DS_SOFT_DEADLOCK := by
  have hgood := (softCycle_start_iff t MyProc proc).mpr h
  obtain ⟨w, htest, htested⟩ := TestConfiguration_spec t MyProc proc [] (hasRoom_start MaxBackends)
  obtain ⟨hexp, -⟩ := htested.found [] hgood
  have hnone : w.waitOrders = [] := (some.inj hexp).symm
  have hrun : t.DeadLockCheckRecurse MaxBackends MyProc proc MaxBackends []
      ⟨fun _ => ⟨0, 0, 0⟩, 0, [], none, false⟩ = .ok (false, w) := by
    rw [DeadLockCheckRecurse.eq_def, htest, hgood]
    rfl
  unfold DeadLockCheck
  rw [hrun]
  refine ⟨_, rfl, ?_, ?_, ?_⟩
  · rw [hnone]
    rfl
  all_goals
    rw [hnone]
    split
    · exact absurd ‹_› (lt_irrefl 0)
    · split <;> exact DeadLockState.noConfusion

/-- With a cycle a deadlock is reported, or the queues are put into the orders of a good
configuration. -/
theorem DeadLockCheck_of_cycle (MaxBackends MyProc : ℕ)
    (h : TransGen (t.WaitsFor t.waitProcs) proc proc) :
    ∃ r, t.DeadLockCheck MaxBackends MyProc proc = .ok r ∧
      ((r.state = .DS_HARD_DEADLOCK ∧ r.waitProcs = t.waitProcs ∧
          (r.outOfRoom = false → Hopeless t [])) ∨
        (r.state = .DS_SOFT_DEADLOCK ∧ ∃ cur waitOrders, cur ≠ [] ∧ Constraints t cur ∧
          t.softCycle MyProc proc cur = some [] ∧ t.ExpandConstraints cur = some waitOrders ∧
          r.waitProcs = t.waitQueue waitOrders)) := by
  obtain ⟨b, w, hrun, hsea, -⟩ := DeadLockCheckRecurse_spec t MaxBackends MyProc proc
    MaxBackends [] _ (Constraints.nil t) (hasRoom_start MaxBackends)
  have hfound : (t.FindLockCycle MyProc [] proc).1.isSome :=
    (FindLockCycle_isSome_iff MyProc t.orders_waitProcs proc).mpr h
  unfold DeadLockCheck
  rw [hrun]
  cases b with
  | true =>
    obtain ⟨edges, hedges⟩ := isSome_iff_exists.mp hfound
    refine ⟨⟨.DS_HARD_DEADLOCK, t.waitProcs, w.outOfRoom⟩, ?_, .inl ⟨rfl, rfl, ?_⟩⟩
    · simp [bind, Except.bind, hedges, pure, Except.pure]
    · exact hsea.complete rfl
  | false =>
    obtain ⟨cur, hcur, hgood, hexp⟩ := hsea.solution rfl
    have hexpd := ExpandConstraints_spec hcur.edges hexp
    have hne : cur ≠ [] := by
      rintro rfl
      exact (softCycle_start_iff t MyProc proc).mp hgood h
    have hpos : w.waitOrders.length > 0 := by
      obtain ⟨c, hc⟩ := exists_mem_of_ne_nil cur hne
      obtain ⟨order, ho, -⟩ := hexpd.covers c hc
      exact length_pos_of_mem ho
    refine ⟨_, rfl, .inr ⟨if_pos hpos, cur, w.waitOrders, hne, hcur, hgood, hexp, ?_⟩⟩
    exact rearrange_eq t hexpd.locks

/-- The orders of a configuration with constraints differ from those of the lock table. -/
theorem waitQueue_ne (hcur : Constraints t cur) (hne : cur ≠ [])
    (hexp : t.ExpandConstraints cur = some waitOrders) :
    t.waitQueue waitOrders ≠ t.waitProcs := by
  obtain ⟨c, rest, rfl⟩ := exists_cons_of_ne_nil hne
  have hmet := (ExpandConstraints_spec hcur.edges hexp).met mem_cons_self
  intro heq
  rw [heq] at hmet
  exact (hcur.first c rfl).asymm (t.waitProcs_nodup c.lock) hmet

/-- **The deadlock check is sound and complete.** It does not fail. It reports a deadlock or
rearranges wait queues exactly when a cycle of the waits-for graph passes through the process.
If it rearranges them, each queue is a permutation of what it was, no cycle passes through the
process any more, and the edges of the cycles that are left were there before. If it reports a
hard deadlock without having run out of room, every arrangement of the queues has a cycle. -/
theorem deadLockCheck_right (t : LockTable) (MaxBackends MyProc proc : ℕ) :
    ∃ r, t.DeadLockCheck MaxBackends MyProc proc = .ok r ∧
      ((r.state = .DS_HARD_DEADLOCK ∨ r.waitProcs ≠ t.waitProcs) ↔
        TransGen (t.WaitsFor t.waitProcs) proc proc) ∧
      (r.state = .DS_SOFT_DEADLOCK ↔ r.waitProcs ≠ t.waitProcs) ∧
      (r.state = .DS_SOFT_DEADLOCK → (∀ lock, (r.waitProcs lock).Perm (t.waitProcs lock)) ∧
        ¬ TransGen (t.WaitsFor r.waitProcs) proc proc ∧
        ∀ p q, t.WaitsFor r.waitProcs p q → TransGen (t.WaitsFor r.waitProcs) q p →
          t.WaitsFor t.waitProcs p q) ∧ (r.state = .DS_HARD_DEADLOCK → r.outOfRoom = false →
        ∀ queue, (∀ lock, (queue lock).Perm (t.waitProcs lock)) →
          ∃ p, TransGen (t.WaitsFor queue) p p) := by
  by_cases hcycle : TransGen (t.WaitsFor t.waitProcs) proc proc
  · obtain ⟨r, hr, ⟨hstate, hqs, hhopeless⟩ |
      ⟨hstate, cur, waitOrders, hne, hcur, hgood, hexp, hqs⟩⟩ :=
      DeadLockCheck_of_cycle MaxBackends MyProc hcycle
    · refine ⟨r, hr, ⟨fun _ => hcycle, fun _ => .inl hstate⟩, ?_, ?_, ?_⟩
      · simp [hstate, hqs]
      · simp [hstate]
      · intro _ hroom queue hqueue
        exact hhopeless hroom queue hqueue fun c hc => nomatch hc
    · have hmoved := waitQueue_ne hcur hne hexp
      rw [← hqs] at hmoved
      have hord := (ExpandConstraints_spec hcur.edges hexp).orders
      obtain ⟨waitOrders', hexp', hnone⟩ := softCycle_nil hcur.edges hgood
      obtain rfl : waitOrders = waitOrders' := some.inj (hexp ▸ hexp')
      refine ⟨r, hr, ⟨fun _ => hcycle, fun _ => .inr hmoved⟩,
        ⟨fun _ => hmoved, fun _ => hstate⟩, fun _ => ?_, fun h => ?_⟩
      · rw [hqs]
        refine ⟨hord, hnone proc (mem_append_right _ (mem_singleton_self proc)), ?_⟩
        intro p q hpq hback
        exact new_edge_not_on_cycle hcur hgood hexp hpq hback
      · rw [hstate] at h
        cases h
  · obtain ⟨r, hr, hqs, hhard, hsoft⟩ := DeadLockCheck_of_not_cycle MaxBackends MyProc hcycle
    refine ⟨r, hr, ?_, ?_, fun h => absurd h hsoft, fun h => absurd h hhard⟩
    · simp [hhard, hqs, hcycle]
    · simp [hsoft, hqs]

/-- Process 1 holds a lock in mode 1 and asks for mode 2. Process 2, ahead of it in the queue,
asks for mode 3, which conflicts with both. -/
def upgradeBehindWaiter : LockTable where
  allProcs := [1, 2]
  waitLock p := if p ∈ [2, 1] then some 0 else none
  waitLockMode p := if p = 2 then 3 else 2
  isAutovacuum _ := false
  locktag _ := .LOCKTAG_RELATION
  procLocks lock := if lock = 0 then [⟨1, LOCKBIT_ON 1⟩] else []
  waitProcs lock := if lock = 0 then [2, 1] else []
  numLockModes _ := 3
  conflictTab _ mode := if mode = 3 then LOCKBIT_ON 1 ||| LOCKBIT_ON 2 else LOCKBIT_ON 3
  waitProcs_nodup lock := by split <;> decide
  mem_waitProcs lock p := by
    by_cases hlock : lock = 0
    · simp only [hlock, if_true, mem_cons, not_mem_nil, or_false]
      split <;> simp_all
    · simp [hlock, Ne.symm hlock]
  waiter_mem p lock h := by
    split at h
    · simp_all
      omega
    · cases h
  holder_mem lock proclock h := by
    split at h
    · simp [mem_singleton.mp h]
    · cases h

/-- The queue is turned round. -/
example : (upgradeBehindWaiter.DeadLockCheck 2 1 1).toOption.map
    (fun r => (r.state, r.waitProcs 0)) = some (.DS_SOFT_DEADLOCK, [1, 2]) := by decide +kernel

end Answer

end LockTable

end FdPostgres
