import FdPostgres.Multixact.Allocation

/-!
# Runs of Creations, Limits and Truncations

A multixact is created by allocating it and then recording its members. In between others may be
created, the limits set, and old multixacts removed. The history keeps every multixact that was
allocated; a multixact is named by its position in it, and the position past the end stands for the
one that comes next.

* `MxSystem`, `MxEvent`, `mxStep`, `mxRun`: the state with its history, and the steps.
* `slotAt`: the slot at which the members of a position start, not wrapped around.
-/

namespace FdPostgres

open WrapCounter List Nat

/-! ### The steps -/

/-- A multixact that was allocated, with its members. -/
structure Creation where
  alloc : Allocation
  members : List MultiXactMember
  recorded : Bool
  deriving DecidableEq

/-- The multixacts, those that were allocated, and the position of the oldest one that is kept. -/
structure MxSystem where
  mx : Multixact
  log : List Creation
  oldest : ℕ

/-- What may happen next; positions name the oldest multixact to keep. -/
inductive MxEvent where
  | allocate (members : List MultiXactMember)
  | record (i : ℕ)
  | setIdLimit (i : ℕ)
  | setOffsetLimit
  | truncate (i : ℕ) (dir : List ℕ)

variable (s : MxSystem)

/-- The allocations of the history. -/
def MxSystem.allocs : List Allocation := s.log.map Creation.alloc

/-- The id of a position: past the end, the next id. -/
def MxSystem.idAt (i : ℕ) : ℕ :=
  match s.log[i]? with
  | some c => c.alloc.multi
  | none => (fixNextMXact s.mx.state).nextMXact

/-- The start of the members of a position: past the end, the next offset. -/
def MxSystem.offsetAt (i : ℕ) : ℕ :=
  match s.log[i]? with
  | some c => c.alloc.offset
  | none => s.mx.state.nextOffset

/-- A call ends: a multixact is allocated for some members, or refused. -/
def MxSystem.handOut (s : MxSystem) (members : List MultiXactMember) :
    Except MultiXactError NewMultiXact × Multixact → MxSystem
  | (.error _, mx) => { s with mx := mx }
  | (.ok a, mx) =>
      { s with
        mx := mx
        log := s.log ++ [⟨⟨a.multi, a.offset, members.length, a.slots⟩, members, false⟩] }

/-- A call without other calls in between. -/
def MxSystem.allocate (env : MultiXactEnv) (s : MxSystem) (members : List MultiXactMember) :
    MxSystem :=
  s.handOut members (GetNewMultiXactId env s.mx members.length)

/-- The members of a multixact are recorded. -/
def MxSystem.record (i : ℕ) : MxSystem :=
  match s.log[i]? with
  | none => s
  | some c =>
      match RecordNewMultiXact s.mx c.alloc.multi c.alloc.offset c.members with
      | (.error _, mx) => { s with mx := mx }
      | (.ok _, mx) => { s with mx := mx, log := s.log.set i { c with recorded := true } }

/-- The multixacts before a position are removed, if nothing is in the way. -/
def MxSystem.truncate (i : ℕ) (dir : List ℕ) : MxSystem :=
  match TruncateMultiXact s.mx (s.idAt i) dir with
  | none => s
  | some mx =>
      { s with
        mx := mx
        oldest := if mx.state.oldestMultiXactId = s.idAt i then i else s.oldest }

/-- One step, which ends before the next one starts. -/
def mxStep (env : MultiXactEnv) (s : MxSystem) : MxEvent → MxSystem
  | .allocate members => s.allocate env members
  | .record i => s.record i
  | .setIdLimit i => { s with mx := SetMultiXactIdLimit env s.mx (s.idAt i), oldest := i }
  | .setOffsetLimit => { s with mx := SetOffsetVacuumLimit s.mx }
  | .truncate i dir => s.truncate i dir

/-- The state after a sequence of steps. -/
def mxRun (env : MultiXactEnv) (s : MxSystem) (events : List MxEvent) : MxSystem :=
  events.foldl (mxStep env) s

/-- A condition holds at every step of a run. -/
def AlongRun (env : MultiXactEnv) (P : MxSystem → MxEvent → Prop) : MxSystem → List MxEvent → Prop
  | _, [] => True
  | s, e :: events => P s e ∧ AlongRun env P (mxStep env s e) events

/-- **What holds at the start and is kept by every step that meets a condition** holds after every
run whose steps meet it. -/
theorem mxRun_induction {env : MultiXactEnv} {P : MxSystem → MxEvent → Prop} {I : MxSystem → Prop}
    (hstep : ∀ s e, I s → P s e → I (mxStep env s e)) {s : MxSystem} (h : I s)
    {events : List MxEvent} (hok : AlongRun env P s events) : I (mxRun env s events) := by
  induction events generalizing s with
  | nil => exact h
  | cons e events ih => exact ih (hstep s e h hok.1) hok.2

/-! ### Positions -/

/-- The slot at which the members of a position start, not wrapped around; slot zero may be
skipped there. -/
def slotAt (w : ℕ) (l : List Allocation) (i : ℕ) : ℕ := w + slotSum (l.take i)

section Positions

variable {r w : ℕ} {l : List Allocation} {a b : Allocation} {i j : ℕ}

/-- The position of an allocation. -/
theorem Ledger.get (h : Ledger r w l) (hi : l[i]? = some a) :
    a.multi = nth (r + i) ∧ AllocatedAt (slotAt w l i) a := by
  obtain ⟨hlt, hget⟩ := List.getElem?_eq_some_iff.mp hi
  have hsplit : l = l.take i ++ a :: l.drop (i + 1) := by
    rw [← hget, ← drop_eq_getElem_cons hlt, take_append_drop]
  have hat := h (l.take i) a (l.drop (i + 1)) hsplit
  rwa [length_take_of_le (hlt.le)] at hat

/-- The slots of an allocation. -/
theorem slotAt_succ (hi : l[i]? = some a) : slotAt w l (i + 1) = slotAt w l i + a.slots := by
  have hnil : slotSum [] = 0 := rfl
  rw [slotAt, slotAt, take_add_one, hi, Option.toList_some, slotSum_append, slotSum_cons,
    hnil, add_zero, add_assoc]

/-- Later positions start later. -/
theorem slotAt_mono (h : i ≤ j) : slotAt w l i ≤ slotAt w l j := by
  obtain ⟨d, rfl⟩ := Nat.exists_eq_add_of_le h
  rw [slotAt, slotAt, take_add, slotSum_append]
  exact Nat.add_le_add_left (le_add_right _ _) w

theorem le_slotAt : w ≤ slotAt w l i := le_add_right _ _

theorem slotAt_length : slotAt w l l.length = w + slotSum l := by
  rw [slotAt, take_length]

theorem slotAt_append (h : i ≤ l.length) (l' : List Allocation) :
    slotAt w (l ++ l') i = slotAt w l i := by
  rw [slotAt, slotAt, take_append_of_le_length h]

/-- The end of a history with another allocation. -/
theorem slotAt_concat : slotAt w (l ++ [a]) (l.length + 1) = slotAt w l l.length + a.slots := by
  have hlast : (l ++ [a])[l.length]? = some a := by
    rw [getElem?_append_right (le_refl _), Nat.sub_self, getElem?_cons_zero]
  rw [slotAt_succ hlast, slotAt_append (le_refl _)]

theorem AllocatedAt.nmembers_le (h : AllocatedAt w a) : a.nmembers ≤ a.slots := by
  rw [h.slots, slotsTaken]
  split <;> omega

/-- **Every position takes a slot**: there are at most as many positions as slots. -/
theorem Ledger.add_le_slotAt (h : Ledger r w l) (hne : ∀ a ∈ l, 0 < a.nmembers) (hij : i ≤ j)
    (hj : j ≤ l.length) : slotAt w l i + (j - i) ≤ slotAt w l j := by
  obtain ⟨d, rfl⟩ := Nat.exists_eq_add_of_le hij
  rw [Nat.add_sub_cancel_left]
  induction d with
  | zero => exact le_refl _
  | succ d ih =>
    have hget : l[i + d]? = some l[i + d] := getElem?_eq_getElem (by omega)
    have hslots := (h.get hget).2.nmembers_le
    have hpos := hne _ (mem_of_getElem? hget)
    rw [← add_assoc i d 1, slotAt_succ hget]
    omega

end Positions

section System

variable {r w : ℕ} {s : MxSystem} {i : ℕ}

theorem MxSystem.length_allocs (s : MxSystem) : s.allocs.length = s.log.length := length_map _

/-- An allocation of the history. -/
theorem MxSystem.allocs_get {c : Creation} (h : s.log[i]? = some c) :
    s.allocs[i]? = some c.alloc := by
  rw [MxSystem.allocs, getElem?_map, h]
  rfl

/-- Recording a creation leaves the allocations. -/
theorem MxSystem.allocs_recorded {c : Creation} (h : s.log[i]? = some c) :
    (s.log.set i { c with recorded := true }).map Creation.alloc = s.allocs := by
  obtain ⟨hlt, hc⟩ := List.getElem?_eq_some_iff.mp (MxSystem.allocs_get h)
  rw [map_set]
  change s.allocs.set i c.alloc = s.allocs
  rw [← hc, set_getElem_self]

/-- Ids depend on the history and the counter. -/
theorem MxSystem.idAt_congr {s' : MxSystem} (hlog : s'.log = s.log)
    (hnext : s'.mx.state.nextMXact = s.mx.state.nextMXact) : s'.idAt i = s.idAt i := by
  simp only [MxSystem.idAt, hlog, fixNextMXact_eq, hnext]

/-- **The id of a position**, also past the end. -/
theorem Ledger.idAt (hledg : Ledger r w s.allocs) (h : Counters r w s.mx.state s.allocs)
    (hi : i ≤ s.log.length) : s.idAt i = nth (r + i) := by
  rw [MxSystem.idAt]
  cases hget : s.log[i]? with
  | some c => exact (hledg.get (MxSystem.allocs_get hget)).1
  | none =>
    have hend : i = s.log.length := le_antisymm hi (getElem?_eq_none_iff.mp hget)
    rw [h.fix.2, MxSystem.length_allocs, hend]

/-- **The start of the members of a position**: the slot of the position, past slot zero if there
is a multixact. -/
theorem Ledger.offsetAt (hledg : Ledger r w s.allocs) (h : Counters r w s.mx.state s.allocs)
    (hi : i ≤ s.log.length) :
    s.offsetAt i = slotAt w s.allocs i % 2 ^ 32 ∨
      slotAt w s.allocs i % 2 ^ 32 = 0 ∧ s.offsetAt i = 1 := by
  rw [MxSystem.offsetAt]
  cases hget : s.log[i]? with
  | some c =>
    have hoff := (hledg.get (MxSystem.allocs_get hget)).2.offset
    change c.alloc.offset = _ ∨ _ ∧ c.alloc.offset = 1
    rw [hoff, startOffset]
    split_ifs with hzero
    · exact .inr ⟨hzero, rfl⟩
    · exact .inl rfl
  | none =>
    have hend : i = s.log.length := le_antisymm hi (getElem?_eq_none_iff.mp hget)
    refine .inl ?_
    rw [h.nextOffset, hend, ← MxSystem.length_allocs, slotAt_length]

end System

/-! ### What a call does -/

section Calls

variable {env : MultiXactEnv} {mx mx' : Multixact} {nmembers : ℕ}

/-- A reservation at the counter, which is moved past zero. -/
def reserveNext (mx : Multixact) (nmembers : ℕ) : Except MultiXactError NewMultiXact × Multixact :=
  reserve { mx with state := fixNextMXact mx.state } (fixNextMXact mx.state).nextMXact nmembers

/-- **What `GetNewMultiXactId` does**: it is refused before the areas are touched, or it reserves
the counter. -/
theorem getNew_cases {res : Except MultiXactError NewMultiXact}
    (h : GetNewMultiXactId env mx nmembers = (res, mx')) :
    (∃ e, res = .error e ∧ (mx' = mx ∨ mx' = { mx with state := fixNextMXact mx.state })) ∨
      reserveNext mx nmembers = (res, mx') := by
  have hfix : ¬ (fixNextMXact mx.state).nextMXact < FirstMultiXactId := by
    rw [fixNextMXact]
    split
    · exact lt_irrefl _
    · assumption
  simp only [GetNewMultiXactId, getNewStart] at h
  by_cases hrec : env.RecoveryInProgress = true
  · rw [if_pos hrec] at h
    obtain ⟨hres, hmx⟩ := Prod.mk.inj h
    exact .inl ⟨_, hres.symm, .inl hmx.symm⟩
  · rw [if_neg hrec] at h
    by_cases hvac : (!MultiXactIdPrecedes (fixNextMXact mx.state).nextMXact
        (fixNextMXact mx.state).multiVacLimit) = true
    · rw [if_pos hvac] at h
      simp only [getNewResume] at h
      split at h
      · obtain ⟨hres, hmx⟩ := Prod.mk.inj h
        exact .inl ⟨_, hres.symm, .inr hmx.symm⟩
      · exact .inr h
    · rw [if_neg hvac] at h
      exact .inr h

/-- A call that is not refused reserves the counter. -/
theorem reserve_of_getNew {a : NewMultiXact}
    (h : GetNewMultiXactId env mx nmembers = (.ok a, mx')) :
    reserveNext mx nmembers = (.ok a, mx') := by
  rcases getNew_cases h with ⟨e, he, -⟩ | hresv
  · cases he
  · exact hresv

end Calls

end FdPostgres
