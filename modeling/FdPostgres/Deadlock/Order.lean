import FdPostgres.Deadlock.Cycle
import Mathlib

/-!
# Wait Queues in a New Order

`TopoSort` puts the wait queue of a lock in an order in which the waiter of every constraint
comes before its blocker. It fills the new order from its end: each time it takes the last
process that need not be before any process still left, and it fails if there is none.
`ExpandConstraints` does this for each lock that the constraints are about.

* `TopoSort_perm`, `TopoSort_ahead`: the new order is a permutation of the queue that meets
  the constraints.
* `TopoSort_moved`: a process that came to stand before one that was ahead of it is the waiter
  of a constraint.
* `TopoSort_isSome`: constraints that some order of the queue meets are met.
* `Expanded`: all of this for the orders that `ExpandConstraints` makes.
-/

namespace FdPostgres

open Function Relation QueueOrder List

/-- The working arrays of `TopoSort`, by process: how many constraints say that it must be
before a process that is left, and the waiters that must be before it. -/
structure TopoCounts where
  beforeConstraints : ℕ → ℕ
  afterConstraints : ℕ → List ℕ

variable (queue : List ℕ)

/-- One constraint is entered, if both its processes are in the queue. -/
def TopoCounts.enter (counts : TopoCounts) (c : EDGE) : TopoCounts :=
  if c.waiter ∈ queue ∧ c.blocker ∈ queue then
    { beforeConstraints :=
        update counts.beforeConstraints c.waiter (counts.beforeConstraints c.waiter + 1)
      afterConstraints :=
        update counts.afterConstraints c.blocker
          (c.waiter :: counts.afterConstraints c.blocker) }
  else counts

/-- A process is output: the counts of the processes that must be before it go down. -/
def TopoCounts.release (counts : TopoCounts) (proc : ℕ) : TopoCounts :=
  { counts with
    beforeConstraints := (counts.afterConstraints proc).foldl
      (fun before pred => update before pred (before pred - 1))
      counts.beforeConstraints }

/-- The loop that fills the order from its end; `topoProcs` are the processes left, in the
order of the queue, and the first argument is the number of places left to fill. -/
def topoLoop : ℕ → List ℕ → TopoCounts → Option (List ℕ)
  | 0, _, _ => some []
  | i + 1, topoProcs, counts =>
      match topoProcs.reverse.find? (counts.beforeConstraints · == 0) with
      | none => none
      | some proc =>
          (topoLoop i (topoProcs.erase proc) (counts.release proc)).map (· ++ [proc])

/-- `TopoSort`: the queue in an order that meets the constraints. -/
def TopoSort (constraints : List EDGE) : Option (List ℕ) :=
  topoLoop queue.length queue
    (constraints.foldl (TopoCounts.enter queue) ⟨fun _ => 0, fun _ => []⟩)

/-! ### The counts -/

/-- The constraints between two processes of the queue. -/
def relevant (constraints : List EDGE) : List EDGE :=
  constraints.filter fun c => c.waiter ∈ queue ∧ c.blocker ∈ queue

/-- **The counts are right** for the processes left. -/
structure CountsRight (cs : List EDGE) (left : List ℕ) (counts : TopoCounts) : Prop where
  before : ∀ p, counts.beforeConstraints p = cs.countP fun c => c.waiter = p ∧ c.blocker ∈ left
  after : ∀ p, (counts.afterConstraints p).Perm
    ((cs.filter fun c => c.blocker = p).map EDGE.waiter)

section Counts

variable {queue left : List ℕ} {cs constraints : List EDGE} {counts : TopoCounts} {p x : ℕ}

/-- The counts after the constraints have been entered. -/
theorem countsRight_enter (queue : List ℕ) (constraints : List EDGE) :
    CountsRight (relevant queue constraints) queue
      (constraints.foldl (TopoCounts.enter queue) ⟨fun _ => 0, fun _ => []⟩) := by
  induction constraints using reverseRecOn with
  | nil => exact ⟨fun _ => rfl, fun _ => List.Perm.refl _⟩
  | append_singleton constraints c ih =>
    obtain ⟨ihb, iha⟩ := ih
    rw [foldl_append, foldl_cons, foldl_nil]
    by_cases hc : c.waiter ∈ queue ∧ c.blocker ∈ queue
    · have hrel : relevant queue (constraints ++ [c]) = relevant queue constraints ++ [c] := by
        simp [relevant, filter_append, hc]
      rw [hrel, TopoCounts.enter, if_pos hc]
      refine ⟨fun p => ?_, fun p => ?_⟩
      · by_cases hp : p = c.waiter
        · subst hp
          simp [countP_append, ihb, hc.2]
        · have hne : c.waiter ≠ p := Ne.symm hp
          simp [update_of_ne hp, ihb, hne]
      · by_cases hp : p = c.blocker
        · subst hp
          simp only [update_self, filter_append, map_append]
          have hone : ([c].filter fun e => decide (e.blocker = c.blocker)).map EDGE.waiter =
              [c.waiter] := by simp
          rw [hone]
          exact ((iha c.blocker).cons c.waiter).trans (perm_append_singleton _ _).symm
        · have hne : ¬ c.blocker = p := Ne.symm hp
          have hnone : [c].filter (fun e => decide (e.blocker = p)) = [] := by simp [hne]
          simp only [update_of_ne hp, filter_append, hnone, append_nil]
          exact iha p
    · have hrel : relevant queue (constraints ++ [c]) = relevant queue constraints := by
        simp [relevant, hc]
      rw [hrel, TopoCounts.enter, if_neg hc]
      exact ⟨ihb, iha⟩

/-- What the counts of a list of processes going down leave. -/
theorem foldl_release (preds : List ℕ) (before : ℕ → ℕ) (p : ℕ) :
    preds.foldl (fun before pred => update before pred (before pred - 1)) before p =
      before p - preds.count p := by
  induction preds generalizing before with
  | nil => rfl
  | cons pred preds ih =>
    rw [foldl_cons, ih]
    by_cases hp : p = pred
    · subst hp
      simp
      omega
    · have hne : ¬ pred = p := Ne.symm hp
      simp [update_of_ne hp, hne]

/-- The counts after a process is output. -/
theorem CountsRight.release (h : CountsRight cs left counts) (hleft : left.Nodup) (hx : x ∈ left) :
    CountsRight cs (left.erase x) (counts.release x) := by
  refine ⟨fun p => ?_, h.after⟩
  have hcount : (counts.afterConstraints x).count p =
      cs.countP fun c => c.waiter = p ∧ c.blocker = x := by
    rw [(h.after x).count_eq, count, countP_map, countP_filter]
    refine countP_congr fun c _ => ?_
    simp
  -- the constraints that were counted for the process are those with this blocker and the rest
  have hsplit : ∀ cs : List EDGE, (cs.countP fun c => c.waiter = p ∧ c.blocker ∈ left) =
      (cs.countP fun c => c.waiter = p ∧ c.blocker ∈ left.erase x) +
        cs.countP fun c => c.waiter = p ∧ c.blocker = x := by
    intro cs
    induction cs with
    | nil => rfl
    | cons c cs ih =>
      simp only [countP_cons, ih, hleft.mem_erase_iff]
      by_cases hw : c.waiter = p <;> by_cases hb : c.blocker = x
      all_goals simp [hw, hb, hx]
      all_goals omega
  simp only [TopoCounts.release, foldl_release, h.before p, hsplit cs]
  omega

end Counts

/-! ### The topological sort -/

section Sorting

variable {queue left order other : List ℕ} {cs constraints : List EDGE} {counts : TopoCounts}
  {i p x : ℕ}

/-- The process taken is the last one that need not be before another. -/
theorem find_reverse_spec (hleft : left.Nodup)
    (h : left.reverse.find? (counts.beforeConstraints · == 0) = some x) :
    x ∈ left ∧ counts.beforeConstraints x = 0 ∧
      ∀ b, Ahead left x b → counts.beforeConstraints b ≠ 0 := by
  obtain ⟨hx, later, earlier, hsplit, hlater⟩ := find?_eq_some_iff_append.mp h
  have heq : left = earlier.reverse ++ x :: later.reverse := by
    have hrev := congrArg reverse hsplit
    simpa using hrev
  refine ⟨by simp [heq], by simpa using hx, fun b hb => ?_⟩
  have hmem : b ∈ later := by
    have hb' := hb.right_mem
    rw [heq] at hb'
    rcases mem_append.mp hb' with hb' | hb'
    · -- a process in front of the one taken is not behind it
      have hfront : Ahead left b x := by
        rw [heq]
        have hx : List.Sublist [x] (x :: later.reverse) := by simp
        exact (singleton_sublist.mpr hb').append hx
      exact absurd hfront (hb.asymm hleft)
    · rcases mem_cons.mp hb' with hbx | hb'
      · exact absurd hbx.symm (hb.ne hleft)
      · exact mem_reverse.mp hb'
  simpa using hlater b hmem

/-- One round of the loop. -/
theorem topoLoop_succ (hleft : left.Nodup) (h : topoLoop (i + 1) left counts = some order) :
    ∃ x front, x ∈ left ∧ counts.beforeConstraints x = 0 ∧
      (∀ b, Ahead left x b → counts.beforeConstraints b ≠ 0) ∧
      topoLoop i (left.erase x) (counts.release x) = some front ∧ order = front ++ [x] := by
  unfold topoLoop at h
  cases hfind : left.reverse.find? (counts.beforeConstraints · == 0) with
  | none =>
    rw [hfind] at h
    cases h
  | some x =>
    rw [hfind] at h
    obtain ⟨hx, hzero, hlast⟩ := find_reverse_spec hleft hfind
    obtain ⟨front, hfront, horder⟩ := Option.map_eq_some_iff.mp h
    exact ⟨x, front, hx, hzero, hlast, hfront, horder.symm⟩

/-- A process whose count is not zero is the waiter of a constraint. -/
theorem CountsRight.exists_of_ne_zero (h : CountsRight cs left counts)
    (hp : counts.beforeConstraints p ≠ 0) : ∃ c ∈ cs, c.waiter = p := by
  rw [h.before p] at hp
  obtain ⟨c, hc, hcp⟩ := countP_pos_iff.mp (Nat.pos_of_ne_zero hp)
  exact ⟨c, hc, (of_decide_eq_true hcp).1⟩

/-- A process whose count is zero need not be before one that is left. -/
theorem CountsRight.not_mem_of_zero (h : CountsRight cs left counts)
    (hp : counts.beforeConstraints p = 0) : ∀ c ∈ cs, c.waiter = p → c.blocker ∉ left := by
  rw [h.before p] at hp
  intro c hc hw hb
  have hno := countP_eq_zero.mp hp c hc
  exact hno (decide_eq_true ⟨hw, hb⟩)

/-- **What the loop makes of the processes left**: a permutation, in which waiters come before
their blockers and only waiters have been moved before others. -/
theorem topoLoop_spec (hcnts : CountsRight cs left counts) (hleft : left.Nodup)
    (hi : left.length = i) (h : topoLoop i left counts = some order) :
    order.Perm left ∧
      (∀ c ∈ cs, c.waiter ∈ left → c.blocker ∈ left → Ahead order c.waiter c.blocker) ∧
      ∀ a b, Ahead left a b → Ahead order b a → ∃ c ∈ cs, c.waiter = b := by
  induction i generalizing left counts order with
  | zero =>
    obtain rfl := length_eq_zero_iff.mp hi
    obtain rfl : [] = order := Option.some.inj h
    exact ⟨List.Perm.refl _, fun c _ hw => absurd hw not_mem_nil,
      fun a b ha => nomatch ha.left_mem⟩
  | succ i ih =>
    obtain ⟨x, front, hx, hzero, hlast, hfront, rfl⟩ := topoLoop_succ hleft h
    have hnodup' : (left.erase x).Nodup := hleft.erase x
    have hlen : (left.erase x).length = i := by
      rw [length_erase_of_mem hx, hi]
      rfl
    obtain ⟨hperm, hmet, hmoved⟩ := ih (hcnts.release hleft hx) hnodup' hlen hfront
    have hperm' : (front ++ [x]).Perm left := (perm_append_singleton x front).trans
        ((hperm.cons x).trans (perm_cons_erase hx).symm)
    have hnodup : (front ++ [x]).Nodup := hperm'.nodup_iff.mpr hleft
    refine ⟨hperm', fun c hc hw hb => ?_, fun a b hab hba => ?_⟩
    · have hwx : c.waiter ≠ x := by
        intro hwx
        exact hcnts.not_mem_of_zero hzero c hc hwx hb
      have hw' : c.waiter ∈ left.erase x := hleft.mem_erase_iff.mpr ⟨hwx, hw⟩
      by_cases hbx : c.blocker = x
      · rw [hbx]
        exact ahead_concat_self (hperm.mem_iff.mpr hw')
      · exact (hmet c hc hw' (hleft.mem_erase_iff.mpr ⟨hbx, hb⟩)).concat
    · by_cases hax : a = x
      · -- `b` was behind the process taken, so it could not be taken itself
        exact hcnts.exists_of_ne_zero (hlast b (hax ▸ hab))
      · have hba' := hba.of_concat hnodup hax
        have hbx : b ≠ x := by
          rintro rfl
          have hmem := hperm.mem_iff.mp hba'.left_mem
          exact (hleft.mem_erase_iff.mp hmem).1 rfl
        exact hmoved a b (hab.erase hleft hax hbx) hba'

/-- **The loop succeeds** when an order is known that meets the constraints. -/
theorem topoLoop_isSome (hcnts : CountsRight cs left counts) (hleft : left.Nodup)
    (hi : left.length = i) (hother : other.Nodup) (hsub : left ⊆ other)
    (hmet : ∀ c ∈ cs, c.waiter ∈ left → c.blocker ∈ left → Ahead other c.waiter c.blocker) :
    (topoLoop i left counts).isSome := by
  induction i generalizing left counts with
  | zero => rfl
  | succ i ih =>
    obtain ⟨y, hy⟩ : ∃ y, y ∈ left := exists_mem_of_length_pos (by omega)
    -- the last process of the known order that is left can be taken
    obtain ⟨z, -, hz, hlast⟩ := exists_last (hsub hy) hy
    have hzero : counts.beforeConstraints z = 0 := by
      rw [hcnts.before z, countP_eq_zero]
      intro c hc hcz
      obtain ⟨hw, hb⟩ := of_decide_eq_true hcz
      have hahead : Ahead other z c.blocker := hw ▸ hmet c hc (hw ▸ hz) hb
      rcases hlast c.blocker (hsub hb) hb with h | h
      · exact hahead.ne hother h.symm
      · exact hahead.asymm hother h
    have hfound : (left.reverse.find? (counts.beforeConstraints · == 0)).isSome := by
      rw [find?_isSome]
      exact ⟨z, mem_reverse.mpr hz, by simp [hzero]⟩
    obtain ⟨x, hfind⟩ := Option.isSome_iff_exists.mp hfound
    obtain ⟨hx, -, -⟩ := find_reverse_spec hleft hfind
    have hmem : ∀ v, v ∈ left.erase x → v ∈ left := fun v => mem_of_mem_erase
    have hlen : (left.erase x).length = i := by
      rw [length_erase_of_mem hx, hi]
      rfl
    have hih := ih (hcnts.release hleft hx) (hleft.erase x) hlen
      (fun v hv => hsub (hmem v hv)) (fun c hc hw hb => hmet c hc (hmem _ hw) (hmem _ hb))
    unfold topoLoop
    rw [hfind]
    simpa using hih

theorem mem_relevant {c : EDGE} :
    c ∈ relevant queue constraints ↔
      c ∈ constraints ∧ c.waiter ∈ queue ∧ c.blocker ∈ queue := by
  simp [relevant]

section Sorted

variable (hqueue : queue.Nodup) (h : TopoSort queue constraints = some order)

include hqueue h

/-- **The new order is a permutation of the queue.** -/
theorem TopoSort_perm : order.Perm queue :=
  (topoLoop_spec (countsRight_enter queue constraints) hqueue rfl h).1

/-- **The new order meets the constraints.** -/
theorem TopoSort_ahead
    {c : EDGE} (hc : c ∈ constraints) (hw : c.waiter ∈ queue) (hb : c.blocker ∈ queue) :
    Ahead order c.waiter c.blocker :=
  (topoLoop_spec (countsRight_enter queue constraints) hqueue rfl h).2.1 c
    (mem_relevant.mpr ⟨hc, hw, hb⟩) hw hb

/-- **Only the waiter of a constraint comes to stand before a process that was ahead of it.** -/
theorem TopoSort_moved {a b : ℕ} (hab : Ahead queue a b) (hba : Ahead order b a) :
    ∃ c ∈ constraints, c.waiter = b := by
  obtain ⟨c, hc, hcb⟩ :=
    (topoLoop_spec (countsRight_enter queue constraints) hqueue rfl h).2.2 a b hab hba
  exact ⟨c, (mem_relevant.mp hc).1, hcb⟩

end Sorted

/-- **Constraints that an order of the queue meets are met by the sort.** -/
theorem TopoSort_isSome (hqueue : queue.Nodup) (hother : other.Perm queue)
    (hmet : ∀ c ∈ constraints, c.waiter ∈ queue → c.blocker ∈ queue →
      Ahead other c.waiter c.blocker) : (TopoSort queue constraints).isSome :=
  topoLoop_isSome (countsRight_enter queue constraints) hqueue rfl
    (hother.nodup_iff.mpr hqueue) hother.symm.subset
    fun c hc => hmet c (mem_relevant.mp hc).1

end Sorting

/-! ### The orders of all queues -/

namespace LockTable

variable (t : LockTable)

/-- The loop of `ExpandConstraints`, over the constraints from the last to the first. A queue
is sorted at the last constraint on its lock, with the constraints up to that one. -/
def expandLoop : List EDGE → List WAIT_ORDER → Option (List WAIT_ORDER)
  | [], waitOrders => some waitOrders
  | c :: earlier, waitOrders =>
      if waitOrders.any (·.lock = c.lock) then expandLoop earlier waitOrders
      else
        match TopoSort (t.waitProcs c.lock) (c :: earlier).reverse with
        | none => none
        | some procs => expandLoop earlier (waitOrders ++ [⟨c.lock, procs⟩])

/-- `ExpandConstraints`: the orders of the queues that constraints are about, `none` if the
constraints contradict each other. -/
def ExpandConstraints (constraints : List EDGE) : Option (List WAIT_ORDER) :=
  t.expandLoop constraints.reverse []

/-- Both processes of the edge wait for its lock. -/
def IsEdge (c : EDGE) : Prop :=
  t.waitLock c.waiter = some c.lock ∧ t.waitLock c.blocker = some c.lock

/-- What is known of the proposed order of one queue. -/
structure OrderRight (constraints : List EDGE) (order : WAIT_ORDER) : Prop where
  perm : order.procs.Perm (t.waitProcs order.lock)
  met : ∀ c ∈ constraints, c.lock = order.lock → Ahead order.procs c.waiter c.blocker
  moved : ∀ a b, Ahead (t.waitProcs order.lock) a b → Ahead order.procs b a →
    ∃ c ∈ constraints, c.waiter = b

/-- **The orders that constraints are expanded to.** -/
structure Expanded (constraints : List EDGE) (waitOrders : List WAIT_ORDER) : Prop where
  locks : (waitOrders.map WAIT_ORDER.lock).Nodup
  right : ∀ order ∈ waitOrders, t.OrderRight constraints order
  covers : ∀ c ∈ constraints, ∃ order ∈ waitOrders, order.lock = c.lock

variable {t} {constraints earlier later : List EDGE} {waitOrders waitOrders' : List WAIT_ORDER}
  {c : EDGE} {queue : ℕ → List ℕ} {lock : ℕ}

/-- A constraint concerns the queue of its lock and no other. -/
theorem IsEdge.mem_iff (hc : t.IsEdge c) :
    c.waiter ∈ t.waitProcs lock ∧ c.blocker ∈ t.waitProcs lock ↔ c.lock = lock := by
  rw [t.mem_waitProcs, t.mem_waitProcs, hc.1, hc.2]
  simp

section Expansion

variable (hedges : ∀ c ∈ constraints, t.IsEdge c)

include hedges

/-- The order of a queue sorted at the last constraint on its lock. -/
theorem orderRight_of_sort (hsplit : constraints = earlier ++ later) {procs : List ℕ}
    (hlater : ∀ c ∈ later, c.lock ≠ lock)
    (hsort : TopoSort (t.waitProcs lock) earlier = some procs) :
    t.OrderRight constraints ⟨lock, procs⟩ := by
  have hnodup := t.waitProcs_nodup lock
  refine ⟨TopoSort_perm hnodup hsort, fun c hc hlock => ?_, fun a b hab hba => ?_⟩
  · have hearl : c ∈ earlier := by
      rw [hsplit] at hc
      exact (mem_append.mp hc).resolve_right fun h => hlater c h hlock
    obtain ⟨hw, hb⟩ := (hedges c hc).mem_iff.mpr hlock
    exact TopoSort_ahead hnodup hsort hearl hw hb
  · obtain ⟨c, hc, hcb⟩ := TopoSort_moved hnodup hsort hab hba
    exact ⟨c, hsplit ▸ mem_append_left later hc, hcb⟩

omit hedges in
theorem any_lock_iff :
    waitOrders.any (·.lock = lock) = true ↔ ∃ order ∈ waitOrders, order.lock = lock := by
  simp

/-- The loop, with the constraints already treated in `later`. -/
theorem expandLoop_spec (earlier : List EDGE)
    (later : List EDGE) (hsplit : constraints = earlier.reverse ++ later)
    (hlocks : (waitOrders.map WAIT_ORDER.lock).Nodup)
    (hright : ∀ order ∈ waitOrders, t.OrderRight constraints order)
    (hcovers : ∀ c ∈ later, ∃ order ∈ waitOrders, order.lock = c.lock)
    (h : t.expandLoop earlier waitOrders = some waitOrders') :
    t.Expanded constraints waitOrders' := by
  induction earlier generalizing later waitOrders with
  | nil =>
    obtain rfl : waitOrders = waitOrders' := Option.some.inj h
    refine ⟨hlocks, hright, fun c hc => hcovers c ?_⟩
    rw [hsplit] at hc
    exact hc
  | cons c earlier ih =>
    have hsplit' : constraints = earlier.reverse ++ (c :: later) := by
      rw [hsplit, reverse_cons, append_assoc]
      rfl
    by_cases hany : waitOrders.any (·.lock = c.lock) = true
    · rw [expandLoop, if_pos hany] at h
      exact ih (c :: later) hsplit' hlocks hright
        (forall_mem_cons.mpr ⟨any_lock_iff.mp hany, hcovers⟩) h
    · rw [expandLoop, if_neg hany] at h
      have hnew : ∀ order ∈ waitOrders, order.lock ≠ c.lock := fun order ho hl =>
        hany (any_lock_iff.mpr ⟨order, ho, hl⟩)
      cases hsort : TopoSort (t.waitProcs c.lock) (c :: earlier).reverse with
      | none =>
        rw [hsort] at h
        cases h
      | some procs =>
        rw [hsort] at h
        have horder : t.OrderRight constraints ⟨c.lock, procs⟩ := by
          refine orderRight_of_sort hedges hsplit (fun e he hl => ?_) hsort
          obtain ⟨order, ho, hol⟩ := hcovers e he
          exact hnew order ho (hol.trans hl)
        refine ih (c :: later) hsplit' ?_ (fun order ho => ?_) (fun e he => ?_) h
        · rw [map_append, map_singleton, ← concat_eq_append, nodup_concat]
          refine ⟨fun hmem => ?_, hlocks⟩
          obtain ⟨order, ho, hol⟩ := mem_map.mp hmem
          exact hnew order ho hol
        · exact forall_mem_append.mpr ⟨hright, forall_mem_singleton.mpr horder⟩ order ho
        · rcases mem_cons.mp he with rfl | he
          · exact ⟨⟨e.lock, procs⟩, by simp, rfl⟩
          · obtain ⟨order, ho, hol⟩ := hcovers e he
            exact ⟨order, mem_append_left _ ho, hol⟩

/-- **What `ExpandConstraints` makes of constraints.** -/
theorem ExpandConstraints_spec (h : t.ExpandConstraints constraints = some waitOrders) :
    t.Expanded constraints waitOrders := by
  have hlocks : (([] : List WAIT_ORDER).map WAIT_ORDER.lock).Nodup := nodup_nil
  exact expandLoop_spec hedges constraints.reverse [] (by simp) hlocks
    (fun _ h => nomatch h) (fun _ h => nomatch h) h

/-- **Constraints that orders of the queues meet can be expanded.** -/
theorem ExpandConstraints_isSome (hqueue : t.Orders queue)
    (hmet : ∀ c ∈ constraints, Ahead (queue c.lock) c.waiter c.blocker) :
    (t.ExpandConstraints constraints).isSome := by
  have hloop : ∀ (earlier : List EDGE) (waitOrders : List WAIT_ORDER), earlier ⊆ constraints →
      (t.expandLoop earlier waitOrders).isSome := by
    intro earlier
    induction earlier with
    | nil => exact fun _ _ => rfl
    | cons c earlier ih =>
      intro waitOrders hsub
      have hearl : earlier ⊆ constraints := fun e he => hsub (mem_cons_of_mem c he)
      rw [expandLoop]
      split_ifs with hany
      · exact ih waitOrders hearl
      · have hsort : (TopoSort (t.waitProcs c.lock) (c :: earlier).reverse).isSome := by
          refine TopoSort_isSome (t.waitProcs_nodup c.lock) (hqueue c.lock)
            fun e he hw hb => ?_
          have he' : e ∈ constraints := hsub (mem_reverse.mp he)
          have hlock := (hedges e he').mem_iff.mp ⟨hw, hb⟩
          rw [← hlock]
          exact hmet e he'
        obtain ⟨procs, hprocs⟩ := Option.isSome_iff_exists.mp hsort
        rw [hprocs]
        exact ih _ hearl
  exact hloop constraints.reverse [] fun c hc => mem_reverse.mp hc

end Expansion

/-- The queue of a lock is in a proposed order, or as it was. -/
theorem waitQueue_cases (t : LockTable) (waitOrders : List WAIT_ORDER) (lock : ℕ) :
    (∃ order ∈ waitOrders, order.lock = lock ∧ t.waitQueue waitOrders lock = order.procs) ∨
      (∀ order ∈ waitOrders, order.lock ≠ lock) ∧
        t.waitQueue waitOrders lock = t.waitProcs lock := by
  unfold waitQueue
  cases hfind : waitOrders.find? (·.lock = lock) with
  | none =>
    refine .inr ⟨fun order ho hl => ?_, rfl⟩
    have hno := find?_eq_none.mp hfind order ho
    exact hno (decide_eq_true hl)
  | some order =>
    have hlock : order.lock = lock := of_decide_eq_true (find?_some hfind :)
    exact .inl ⟨order, mem_of_find?_eq_some hfind, hlock, rfl⟩

variable (h : t.Expanded constraints waitOrders)

include h

/-- The proposed orders are orders of the queues. -/
theorem Expanded.orders : t.Orders (t.waitQueue waitOrders) := by
  intro lock
  rcases waitQueue_cases t waitOrders lock with ⟨order, ho, rfl, heq⟩ | ⟨-, heq⟩
  · rw [heq]
    exact (h.right order ho).perm
  · rw [heq]

/-- The proposed orders meet the constraints. -/
theorem Expanded.met (hc : c ∈ constraints) :
    Ahead (t.waitQueue waitOrders c.lock) c.waiter c.blocker := by
  rcases waitQueue_cases t waitOrders c.lock with ⟨order, ho, hlock, heq⟩ | ⟨hno, -⟩
  · rw [heq]
    exact (h.right order ho).met c hc hlock.symm
  · obtain ⟨order, ho, hlock⟩ := h.covers c hc
    exact absurd hlock (hno order ho)

/-- Only waiters of constraints have been moved before others. -/
theorem Expanded.moved {a b : ℕ} (hab : Ahead (t.waitProcs lock) a b)
    (hba : Ahead (t.waitQueue waitOrders lock) b a) : ∃ c ∈ constraints, c.waiter = b := by
  rcases waitQueue_cases t waitOrders lock with ⟨order, ho, rfl, heq⟩ | ⟨-, heq⟩
  · rw [heq] at hba
    exact (h.right order ho).moved a b hab hba
  · rw [heq] at hba
    exact absurd hba (hab.asymm (t.waitProcs_nodup lock))

end LockTable

end FdPostgres
