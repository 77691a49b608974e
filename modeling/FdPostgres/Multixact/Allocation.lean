import FdPostgres.Multixact.State
import FdPostgres.Lib.WrapCounter

/-!
# Allocation of Multixacts by Many Backends

Backends call `GetNewMultiXactId` at the same time. What a backend does while it holds the lock is
one step; a backend that reaches the limit for vacuum releases the lock and takes it again, so its
call is two steps with those of other backends between them. The limits may be moved at any time.

* `AllocState`, `allocStep`, `allocRun`: the steps of the backends, and the ids handed out.
* `Ledger`: the ids handed out are the numbers of a counter that skips zero, and the slots follow
  one another.
* `NoSharing`: no two ids are equal before all were used, and no two ranges of members overlap.
* `no_sharing_of_steps`: so it is as long as no backend that takes the lock again finds the counter
  wrapped to zero. Such a backend skips zero for itself but not for the others
  (`id_handed_out_twice`). A backend that is stopped by the limit does not take the lock again.
-/

namespace FdPostgres

open WrapCounter List

/-! ### The steps of the backends -/

/-- An id that was handed out, with its members and the slots taken. -/
structure Allocation where
  multi : ℕ
  offset : ℕ
  nmembers : ℕ
  slots : ℕ
  deriving Repr, DecidableEq

/-- The shared state, the backends that released the lock, and the ids handed out. -/
structure AllocState where
  mx : Multixact
  waiting : ℕ → Option LimitCheck
  handed : List Allocation

/-- What may happen next: one of the two parts of a call, or new limits. -/
inductive AllocEvent where
  | start (backend nmembers : ℕ)
  | resume (backend : ℕ)
  | limits (st : MultiXactStateData)

/-- A new id for a backend. -/
def AllocState.handOut (s : AllocState) (mx : Multixact) (nmembers : ℕ) :
    Except MultiXactError NewMultiXact → AllocState
  | .error _ => { s with mx := mx }
  | .ok a =>
      { s with mx := mx, handed := s.handed ++ [⟨a.multi, a.offset, nmembers, a.slots⟩] }

/-- One step; a backend in the middle of a call starts no other one. -/
def allocStep (env : MultiXactEnv) (s : AllocState) : AllocEvent → AllocState
  | .start backend nmembers =>
      match s.waiting backend with
      | some _ => s
      | none =>
          match getNewStart env s.mx nmembers with
          | (.inl c, mx) =>
              { s with mx := mx, waiting := Function.update s.waiting backend (some c) }
          | (.inr r, mx) => s.handOut mx nmembers r
  | .resume backend =>
      match s.waiting backend with
      | none => s
      | some c =>
          let r := getNewResume env s.mx c
          AllocState.handOut { s with waiting := Function.update s.waiting backend none } r.2
            c.nmembers r.1
  | .limits st =>
      { s with mx := { s.mx with state := { st with
          nextMXact := s.mx.state.nextMXact
          nextOffset := s.mx.state.nextOffset } } }

/-- The state after a sequence of steps. -/
def allocRun (env : MultiXactEnv) (s : AllocState) (events : List AllocEvent) : AllocState :=
  events.foldl (allocStep env) s

/-- The state before the first step: any counters, and no backend in a call. -/
structure AllocStart (s : AllocState) : Prop where
  nextMXact : s.mx.state.nextMXact < 2 ^ 32
  nextOffset : s.mx.state.nextOffset < 2 ^ 32
  idle : ∀ backend, s.waiting backend = none
  handed : s.handed = []

/-! ### What is handed out -/

/-- The slots taken by a list of allocations. -/
def slotSum (l : List Allocation) : ℕ := (l.map Allocation.slots).sum

/-- **No two multixacts share an id or member space.** -/
structure NoSharing (l : List Allocation) : Prop where
  /-- An id is not handed out again before the counter went through all ids. -/
  ids : ∀ l₁ a l₂ b l₃, l = l₁ ++ a :: (l₂ ++ b :: l₃) → l₂.length + 1 < 2 ^ 32 - 1 →
    a.multi ≠ b.multi
  /-- Zero is not an id. -/
  valid : ∀ a ∈ l, a.multi ≠ 0
  /-- No multixact starts at offset zero. -/
  offsets : ∀ a ∈ l, a.offset ≠ 0
  /-- The members of two multixacts within the space of the offsets are in different slots. -/
  members : ∀ l₁ a l₂ b l₃, l = l₁ ++ a :: (l₂ ++ b :: l₃) →
    slotSum (a :: (l₂ ++ [b])) ≤ 2 ^ 32 → ∀ i < a.nmembers, ∀ j < b.nmembers,
    (a.offset + i) % 2 ^ 32 ≠ (b.offset + j) % 2 ^ 32

/-- An allocation made when the offsets counter, not wrapped around, was at `w`. -/
structure AllocatedAt (w : ℕ) (a : Allocation) : Prop where
  offset : a.offset = startOffset (w % 2 ^ 32)
  slots : a.slots = slotsTaken (w % 2 ^ 32) a.nmembers

/-- The allocations from the `r`-th id and the offset `w` on. -/
def Ledger (r w : ℕ) (l : List Allocation) : Prop :=
  ∀ l₁ a l₂, l = l₁ ++ a :: l₂ → a.multi = nth (r + l₁.length) ∧ AllocatedAt (w + slotSum l₁) a

section Slots

variable {w : ℕ} {a b : Allocation}

/-- Slots of two lists. -/
theorem slotSum_append (l₁ l₂ : List Allocation) :
    slotSum (l₁ ++ l₂) = slotSum l₁ + slotSum l₂ := by
  rw [slotSum, map_append, sum_append]
  rfl

/-- Slots of a list with another allocation. -/
theorem slotSum_cons (a : Allocation) (l : List Allocation) :
    slotSum (a :: l) = a.slots + slotSum l := by
  rfl

/-- The start of the members, not wrapped around. -/
theorem AllocatedAt.exists_start (h : AllocatedAt w a) :
    ∃ v, w ≤ v ∧ a.offset = v % 2 ^ 32 ∧ v + a.nmembers = w + a.slots := by
  rw [h.offset, h.slots, startOffset, slotsTaken]
  by_cases hzero : w % 2 ^ 32 = 0
  · rw [if_pos hzero, if_pos hzero]
    exact ⟨w + 1, by omega, by omega, by omega⟩
  · rw [if_neg hzero, if_neg hzero]
    exact ⟨w, le_refl w, rfl, rfl⟩

theorem AllocatedAt.offset_ne_zero (h : AllocatedAt w a) : a.offset ≠ 0 := by
  rw [h.offset, startOffset]
  split <;> omega

/-- Allocations within the space of the offsets have different slots. -/
theorem AllocatedAt.disjoint {w' : ℕ} (ha : AllocatedAt w a) (hb : AllocatedAt w' b)
    (hle : w + a.slots ≤ w') (hspace : w' + b.slots ≤ w + 2 ^ 32) {i j : ℕ}
    (hi : i < a.nmembers) (hj : j < b.nmembers) :
    (a.offset + i) % 2 ^ 32 ≠ (b.offset + j) % 2 ^ 32 := by
  obtain ⟨v, hv, hoff, hend⟩ := ha.exists_start
  obtain ⟨v', hv', hoff', hend'⟩ := hb.exists_start
  omega

end Slots

theorem ledger_nil (r w : ℕ) : Ledger r w [] := by
  intro l₁ a l₂ heq
  exact absurd heq.symm (append_ne_nil_of_right_ne_nil _ (cons_ne_nil _ _))

variable {l : List Allocation}

/-- The next allocation. -/
theorem Ledger.append {r w : ℕ} (h : Ledger r w l) {a : Allocation}
    (hmulti : a.multi = nth (r + l.length)) (ha : AllocatedAt (w + slotSum l) a) :
    Ledger r w (l ++ [a]) := by
  intro l₁ b l₂ heq
  rcases eq_nil_or_concat l₂ with rfl | ⟨l₂', c, rfl⟩
  · obtain ⟨rfl, hab⟩ := append_inj' heq rfl
    obtain rfl : a = b := (List.cons.inj hab).1
    exact ⟨hmulti, ha⟩
  · have heq' : l ++ [a] = (l₁ ++ b :: l₂') ++ [c] := by
      rw [heq, concat_eq_append, append_assoc, cons_append]
    exact h l₁ b l₂' (append_inj' heq' rfl).1

/-- **A ledger shares nothing.** -/
theorem Ledger.noSharing {r w : ℕ} (h : Ledger r w l) : NoSharing l where
  ids l₁ a l₂ b l₃ heq hlt := by
    have hb := (h (l₁ ++ a :: l₂) b l₃ (by rw [heq, append_assoc, cons_append])).1
    rw [(h l₁ a _ heq).1, hb, length_append, length_cons]
    exact nth_ne_nth (by omega) (by omega)
  valid a ha := by
    obtain ⟨l₁, l₂, heq⟩ := append_of_mem ha
    rw [(h l₁ a l₂ heq).1]
    exact ne_of_gt (nth_pos _)
  offsets a ha := by
    obtain ⟨l₁, l₂, heq⟩ := append_of_mem ha
    exact (h l₁ a l₂ heq).2.offset_ne_zero
  members l₁ a l₂ b l₃ heq hspace i hi j hj := by
    have hb := (h (l₁ ++ a :: l₂) b l₃ (by rw [heq, append_assoc, cons_append])).2
    have ha := (h l₁ a _ heq).2
    rw [slotSum_cons, slotSum_append, slotSum_cons] at hspace
    rw [slotSum_append, slotSum_cons] at hb
    exact ha.disjoint hb (by omega) (by omega) hi hj

/-! ### The counters -/

/-- The counters after the allocations of a ledger. -/
structure Counters (r w : ℕ) (st : MultiXactStateData) (l : List Allocation) : Prop where
  nextMXact : skip st.nextMXact = nth (r + l.length)
  word : st.nextMXact < 2 ^ 32
  nextOffset : st.nextOffset = (w + slotSum l) % 2 ^ 32

section Calls

variable {env : MultiXactEnv} {mx mx' : Multixact} {r w : ℕ} {l : List Allocation}

/-- A refused reservation leaves the counters and the members area. -/
theorem reserve_error {result nmembers : ℕ} {e : MultiXactError}
    (h : reserve mx result nmembers = (.error e, mx')) :
    mx'.state = mx.state ∧ mx'.members = mx.members := by
  simp only [reserve] at h
  split at h
  · exact (Prod.mk.inj h).2 ▸ ⟨rfl, rfl⟩
  · exact absurd (Prod.mk.inj h).1 (by simp)

/-- What a reservation hands out, and the counters after it. -/
theorem reserve_ok {result nmembers : ℕ} {a : NewMultiXact}
    (h : reserve mx result nmembers = (.ok a, mx')) :
    a = ⟨result, startOffset mx.state.nextOffset, slotsTaken mx.state.nextOffset nmembers⟩ ∧
      mx'.state = { mx.state with
        nextMXact := (mx.state.nextMXact + 1) % 2 ^ 32
        nextOffset := (mx.state.nextOffset +
          slotsTaken mx.state.nextOffset nmembers) % 2 ^ 32 } := by
  simp only [reserve] at h
  split at h
  · exact absurd (Prod.mk.inj h).1 (by simp)
  · obtain ⟨ha, hmx⟩ := Prod.mk.inj h
    exact ⟨(Except.ok.inj ha).symm, by rw [← hmx]⟩

/-- **A reservation continues the ledger**, if the result is the counter itself. -/
theorem Counters.reserve (h : Counters r w mx.state l) (hledg : Ledger r w l)
    (hres : mx.state.nextMXact = nth (r + l.length)) {nmembers : ℕ} {a : NewMultiXact}
    (hok : reserve mx mx.state.nextMXact nmembers = (.ok a, mx')) :
    Ledger r w (l ++ [⟨a.multi, a.offset, nmembers, a.slots⟩]) ∧
      Counters r w mx'.state (l ++ [⟨a.multi, a.offset, nmembers, a.slots⟩]) := by
  obtain ⟨rfl, hstate⟩ := reserve_ok hok
  have hat : AllocatedAt (w + slotSum l) ⟨mx.state.nextMXact, startOffset mx.state.nextOffset,
      nmembers, slotsTaken mx.state.nextOffset nmembers⟩ :=
    ⟨by rw [h.nextOffset], by rw [h.nextOffset]⟩
  refine ⟨hledg.append hres hat, ?_, ?_, ?_⟩
  · rw [hstate, length_append, length_singleton, ← add_assoc, ← skip_succ, hres]
  · rw [hstate]
    exact Nat.mod_lt _ (Nat.two_pow_pos 32)
  · have hnil : slotSum [] = 0 := rfl
    rw [hstate, slotSum_append, slotSum_cons]
    simp only [h.nextOffset]
    omega

/-- The counter is moved past zero at the start of a call. -/
theorem fixNextMXact_eq (st : MultiXactStateData) :
    fixNextMXact st = { st with nextMXact := skip st.nextMXact } := by
  rw [fixNextMXact, skip, FirstMultiXactId]
  by_cases hzero : st.nextMXact = 0
  · rw [if_pos (by omega), if_pos hzero]
  · rw [if_neg (by omega), if_neg hzero]

theorem fixNextMXact_of_ne {st : MultiXactStateData} (h : st.nextMXact ≠ 0) :
    fixNextMXact st = st := by
  rw [fixNextMXact_eq, skip, if_neg h]

/-- The counters of a call that starts. -/
theorem Counters.fix (h : Counters r w mx.state l) :
    Counters r w (fixNextMXact mx.state) l ∧
      (fixNextMXact mx.state).nextMXact = nth (r + l.length) := by
  rw [fixNextMXact_eq, h.nextMXact]
  exact ⟨⟨skip_nth _, nth_lt _, h.nextOffset⟩, rfl⟩

end Calls

/-! ### Runs -/

/-- The ids handed out so far, and the counters. -/
def Handed (r w : ℕ) (s : AllocState) : Prop :=
  Ledger r w s.handed ∧ Counters r w s.mx.state s.handed

/-- The limit to stop at ends the call, before it takes the lock again. -/
def LimitCheck.stopped (env : MultiXactEnv) (c : LimitCheck) : Bool :=
  env.IsUnderPostmaster && !MultiXactIdPrecedes c.result c.multiStopLimit

/-- **The condition on a step**: a backend that takes the lock again does not find the counter
wrapped to zero. -/
def CounterNotWrapped (env : MultiXactEnv) (s : AllocState) : AllocEvent → Prop
  | .resume backend =>
      ∀ c ∈ s.waiting backend, c.stopped env = false → s.mx.state.nextMXact ≠ 0
  | _ => True

/-- Every step of a run meets the condition. -/
def StepsNotWrapped (env : MultiXactEnv) : AllocState → List AllocEvent → Prop
  | _, [] => True
  | s, e :: events => CounterNotWrapped env s e ∧ StepsNotWrapped env (allocStep env s e) events

section Steps

variable {env : MultiXactEnv} {s : AllocState} {r w : ℕ}

/-- A call that ends: its result continues the ledger, or the counters are left. -/
theorem Handed.handOut (h : Handed r w s) (mx : Multixact) {mx' : Multixact} {nmembers : ℕ}
    {res : Except MultiXactError NewMultiXact} (hctrs : Counters r w mx.state s.handed)
    (hres : mx.state.nextMXact = nth (r + s.handed.length))
    (hresv : reserve mx mx.state.nextMXact nmembers = (res, mx')) :
    Handed r w (s.handOut mx' nmembers res) := by
  cases res with
  | error e =>
    refine ⟨h.1, ?_⟩
    change Counters r w mx'.state s.handed
    rw [(reserve_error hresv).1]
    exact hctrs
  | ok a => exact hctrs.reserve h.1 hres hresv

/-- The start of a call. -/
theorem Handed.start (h : Handed r w s) (backend nmembers : ℕ) :
    Handed r w (allocStep env s (.start backend nmembers)) := by
  simp only [allocStep]
  cases hwait : s.waiting backend with
  | some c => exact h
  | none =>
    simp only [getNewStart]
    by_cases hrec : env.RecoveryInProgress = true
    · rw [if_pos hrec]
      exact h
    · rw [if_neg hrec]
      obtain ⟨hctrs, hresult⟩ := h.2.fix
      split
      case h_1 heq =>
        split at heq
        · rw [← (Prod.mk.inj heq).2]
          exact ⟨h.1, hctrs⟩
        · exact absurd (Prod.mk.inj heq).1 (by simp)
      case h_2 heq =>
        split at heq
        · exact absurd (Prod.mk.inj heq).1 (by simp)
        · obtain ⟨hres, hmx⟩ := Prod.mk.inj heq
          have hr := Sum.inr.inj hres
          rw [← hr, ← hmx]
          exact h.handOut { s.mx with state := fixNextMXact s.mx.state } hctrs hresult rfl

/-- The second part of a call. -/
theorem Handed.resume (h : Handed r w s) {backend : ℕ}
    (hwrap : ∀ c ∈ s.waiting backend, c.stopped env = false → s.mx.state.nextMXact ≠ 0) :
    Handed r w (allocStep env s (.resume backend)) := by
  simp only [allocStep]
  cases hwait : s.waiting backend with
  | none => exact h
  | some c =>
    simp only [getNewResume]
    split
    · exact h
    case isFalse hgoes =>
      have hne := hwrap c hwait (by rw [LimitCheck.stopped, ← Bool.not_eq_true]; exact hgoes)
      have hres : s.mx.state.nextMXact = nth (r + s.handed.length) := by
        rw [← h.2.nextMXact, skip, if_neg hne]
      rw [FirstMultiXactId, if_neg (by omega)]
      exact Handed.handOut (s := { s with waiting := Function.update s.waiting backend none })
        h s.mx h.2 hres rfl

/-- **Every step keeps the ledger**, if it meets the condition. -/
theorem Handed.step (h : Handed r w s) {e : AllocEvent} (hok : CounterNotWrapped env s e) :
    Handed r w (allocStep env s e) := by
  cases e with
  | start backend nmembers => exact h.start backend nmembers
  | resume backend => exact h.resume hok
  | limits st => exact ⟨h.1, h.2.nextMXact, h.2.word, h.2.nextOffset⟩

/-- Every run keeps the ledger. -/
theorem Handed.run (h : Handed r w s) {events : List AllocEvent}
    (hok : StepsNotWrapped env s events) : Handed r w (allocRun env s events) := by
  induction events generalizing s with
  | nil => exact h
  | cons e events ih => exact ih (h.step hok.1) hok.2

end Steps

/-- Before the first step. -/
theorem AllocStart.handed_nil {s : AllocState} (h : AllocStart s) : ∃ r w, Handed r w s := by
  obtain ⟨r, hr⟩ := exists_nth s.mx.state.nextMXact h.nextMXact
  refine ⟨r, s.mx.state.nextOffset, ?_, ?_, h.nextMXact, ?_⟩
  · rw [h.handed]
    exact ledger_nil _ _
  · rw [h.handed]
    exact hr
  · rw [h.handed]
    exact (Nat.mod_eq_of_lt h.nextOffset).symm

/-- **No two multixacts share an id or member space** in any state that the backends reach, as long
as no backend that takes the lock again finds the counter wrapped to zero. -/
theorem no_sharing_of_steps (env : MultiXactEnv) (s : AllocState) (hstart : AllocStart s)
    (events : List AllocEvent) (hok : StepsNotWrapped env s events) :
    NoSharing (allocRun env s events).handed := by
  obtain ⟨r, w, h⟩ := hstart.handed_nil
  exact (h.run hok).1.noSharing

/-- A server under a postmaster. -/
def servingEnv : MultiXactEnv where
  IsUnderPostmaster := true
  RecoveryInProgress := false
  autovacuum_multixact_freeze_max_age := 400000000

/-- A cluster whose next multixact is the last one before the counter wraps around, past the limit
for vacuum and far from the limit to stop at. -/
def lastIdState : AllocState where
  mx :=
    { state :=
        { nextMXact := 2 ^ 32 - 1
          nextOffset := 10
          oldestMultiXactId := 2 ^ 32 - 400000001
          oldestOffset := 0
          oldestOffsetKnown := false
          multiVacLimit := 2 ^ 32 - 1
          multiWarnLimit := 1707483646
          multiStopLimit := 1744483646
          multiWrapLimit := 1747483646
          offsetStopLimit := 0 }
      offsets := ⟨fun _ => none, 0⟩
      members := ⟨fun _ => none, 0⟩ }
  waiting := fun _ => none
  handed := []

theorem lastIdState_start : AllocStart lastIdState := ⟨by decide, by decide, fun _ => rfl, rfl⟩

/-- One backend after another at the last id. -/
theorem no_sharing_one_backend :
    NoSharing (allocRun servingEnv lastIdState
      [.start 0 2, .resume 0, .start 1 3, .resume 1]).handed := by
  refine no_sharing_of_steps servingEnv lastIdState lastIdState_start _ ⟨trivial, fun _ _ _ => ?_,
    trivial, fun _ _ _ => ?_, trivial⟩
  · decide
  · decide

/-- **An id is handed out twice**: a backend releases the lock at the last id, another one takes
that id, and the first one finds the counter at zero. It takes the id one without moving the
counter past it, and the next backend gets the id one as well. -/
theorem id_handed_out_twice :
    ((allocRun servingEnv lastIdState [.start 0 2, .start 1 2, .resume 1, .resume 0, .start 2 2,
      .resume 2]).handed.map Allocation.multi = [2 ^ 32 - 1, 1, 1]) ∧
    ¬ NoSharing (allocRun servingEnv lastIdState [.start 0 2, .start 1 2, .resume 1, .resume 0,
      .start 2 2, .resume 2]).handed := by
  refine ⟨rfl, fun h => ?_⟩
  exact h.ids [⟨2 ^ 32 - 1, 10, 2, 2⟩] ⟨1, 12, 2, 2⟩ [] ⟨1, 14, 2, 2⟩ [] rfl (by decide) rfl

end FdPostgres
