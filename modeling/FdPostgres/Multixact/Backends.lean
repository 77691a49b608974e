import FdPostgres.Multixact.ReadBack

/-!
# Creations by Many Backends

Backends create multixacts at the same time. A call of `GetNewMultiXactId` is one step as long as
it holds the lock; at the limit for vacuum it releases the lock and takes it again, and between the
two steps others create, record, set limits and remove. A backend keeps the check that it made
under the lock, and passes it with the id and the limit of that moment.

* `MxBackends`, `MxAction`, `mxAct`, `mxActs`: the multixacts with the backends in a call, and the
  steps.
* `CounterClear`: what has to hold while the counter of the ids is at zero: a call that starts is
  before the limits, and no backend takes the lock again.
* `members_read_back`: then members are read back as written, in every state of every run. A call
  that is refused there has moved the counter past zero all the same, and the reader then takes
  the id after the last one for allocated and waits for its entry (`refused_call_blocks_reader`).
-/

namespace FdPostgres

open WrapCounter Function

/-! ### The steps -/

/-- The multixacts, and what each backend in the middle of a call keeps. -/
structure MxBackends where
  sys : MxSystem
  waiting : Fin MAX_BACKENDS → Option (LimitCheck × List MultiXactMember)

/-- What may happen next; positions name the oldest multixact to keep. -/
inductive MxAction where
  | start (backend : Fin MAX_BACKENDS) (members : List MultiXactMember)
  | resume (backend : Fin MAX_BACKENDS)
  | record (i : ℕ)
  | setIdLimit (i : ℕ)
  | setOffsetLimit
  | truncate (i : ℕ) (dir : List ℕ)

/-- One step; a backend in the middle of a call starts no other one. -/
def mxAct (env : MultiXactEnv) (b : MxBackends) : MxAction → MxBackends
  | .start backend members =>
      match b.waiting backend with
      | some _ => b
      | none =>
          match getNewStart env b.sys.mx members.length with
          | (.inl c, mx) =>
              { sys := { b.sys with mx := mx }
                waiting := update b.waiting backend (some (c, members)) }
          | (.inr r, mx) => { b with sys := b.sys.handOut members (r, mx) }
  | .resume backend =>
      match b.waiting backend with
      | none => b
      | some (c, members) =>
          { sys := b.sys.handOut members (getNewResume env b.sys.mx c)
            waiting := update b.waiting backend none }
  | .record i => { b with sys := b.sys.record i }
  | .setIdLimit i =>
      { b with sys := { b.sys with
          mx := SetMultiXactIdLimit env b.sys.mx (b.sys.idAt i), oldest := i } }
  | .setOffsetLimit => { b with sys := { b.sys with mx := SetOffsetVacuumLimit b.sys.mx } }
  | .truncate i dir => { b with sys := b.sys.truncate i dir }

/-- The state after a sequence of steps. -/
def mxActs (env : MultiXactEnv) (b : MxBackends) (actions : List MxAction) : MxBackends :=
  actions.foldl (mxAct env) b

/-- A condition holds at every step of a run. -/
def AlongActs (env : MultiXactEnv) (P : MxBackends → MxAction → Prop) :
    MxBackends → List MxAction → Prop
  | _, [] => True
  | b, a :: actions => P b a ∧ AlongActs env P (mxAct env b a) actions

/-- What a step may be: members can be recorded, what is recorded is not older than the oldest
multixact, positions do not go back, and the right offset is found for the oldest multixact. -/
def ActionOk (b : MxBackends) : MxAction → Prop
  | .start _ members => ValidMembers members
  | .resume _ => True
  | .record i => b.sys.oldest ≤ i
  | .setIdLimit i => b.sys.oldest ≤ i ∧ i ≤ b.sys.log.length ∧ OffsetFound b.sys i
  | .setOffsetLimit => OffsetFound b.sys b.sys.oldest
  | .truncate i _ =>
      b.sys.oldest ≤ i ∧ i ≤ b.sys.log.length ∧ OffsetFound b.sys b.sys.oldest ∧
        OffsetFound b.sys i

instance (b : MxBackends) (a : MxAction) : Decidable (ActionOk b a) :=
  match a with
  | .start _ members => inferInstanceAs (Decidable (ValidMembers members))
  | .resume _ => inferInstanceAs (Decidable True)
  | .record _ => inferInstanceAs (Decidable (_ ≤ _))
  | .setIdLimit _ | .truncate _ _ => inferInstanceAs (Decidable (_ ∧ _))
  | .setOffsetLimit => inferInstanceAs (Decidable (OffsetFound _ _))

/-- **The condition on a step while the counter of the ids is at zero**: a call that starts finds
the first id before the limit for vacuum and its members before the limit of the offsets, and no
backend that the limit does not stop takes the lock again. -/
def CounterClear (env : MultiXactEnv) (b : MxBackends) : MxAction → Prop
  | .start _ members => env.RecoveryInProgress = false → b.sys.mx.state.nextMXact = 0 →
      MultiXactIdPrecedes FirstMultiXactId b.sys.mx.state.multiVacLimit = true ∧
        pastOffsetStopLimit b.sys.mx.state members.length = false
  | .resume backend =>
      ∀ c ∈ b.waiting backend, c.1.stopped env = false → b.sys.mx.state.nextMXact ≠ 0
  | _ => True

instance (env : MultiXactEnv) (b : MxBackends) (a : MxAction) : Decidable (CounterClear env b a) :=
  match a with
  | .start _ _ => inferInstanceAs (Decidable (_ → _))
  | .resume backend => inferInstanceAs (Decidable (∀ c ∈ b.waiting backend, _))
  | .record _ | .setIdLimit _ | .setOffsetLimit | .truncate _ _ => inferInstanceAs (Decidable True)

/-- The state before the first step: no backend is in a call. -/
structure BackendsStart (env : MultiXactEnv) (b : MxBackends) : Prop where
  sys : ReadStart env b.sys
  idle : ∀ backend, b.waiting backend = none

/-! ### Backends that have passed the check -/

section Goers

variable {env : MultiXactEnv} {b : MxBackends} {backend : Fin MAX_BACKENDS}

/-- The backends that will take an id: they have released the lock, and no limit stops them. -/
def MxBackends.goers (env : MultiXactEnv) (b : MxBackends) : Finset (Fin MAX_BACKENDS) :=
  Finset.univ.filter fun backend => ∃ c ∈ b.waiting backend, c.1.stopped env = false

theorem MxBackends.mem_goers :
    backend ∈ b.goers env ↔ ∃ c ∈ b.waiting backend, c.1.stopped env = false :=
  Finset.mem_filter_univ backend

theorem MxBackends.card_goers_le (env : MultiXactEnv) (b : MxBackends) :
    (b.goers env).card ≤ MAX_BACKENDS :=
  le_trans (Finset.card_le_univ _) (le_of_eq (Fintype.card_fin _))

/-- A backend that a limit stops, or that is done, takes no id. -/
theorem MxBackends.goers_update (b : MxBackends) (backend : Fin MAX_BACKENDS) (sys : MxSystem)
    {call : Option (LimitCheck × List MultiXactMember)}
    (hcall : ∀ c ∈ call, c.1.stopped env = true) :
    MxBackends.goers env ⟨sys, update b.waiting backend call⟩ = (b.goers env).erase backend := by
  ext x
  rw [Finset.mem_erase, MxBackends.mem_goers, MxBackends.mem_goers]
  by_cases hx : x = backend
  · subst hx
    simp only [update_self, ne_eq, not_true_eq_false, false_and, iff_false]
    rintro ⟨c, hc, hgoes⟩
    rw [hcall c hc] at hgoes
    cases hgoes
  · simp only [update_of_ne hx]
    exact ⟨fun h => ⟨hx, h⟩, fun h => h.2⟩

end Goers

/-! ### Steps -/

/-- The invariant of the runs: the multixacts, with room for the ids of the backends in a call, and
the members that each of them has. -/
structure BackendsInv (env : MultiXactEnv) (r w : ℕ) (b : MxBackends) : Prop where
  read : ReadInv env r w (b.goers env).card b.sys
  calls : ∀ backend, ∀ c ∈ b.waiting backend, c.1.nmembers = c.2.length ∧ ValidMembers c.2

section Steps

variable {env : MultiXactEnv} {r w n : ℕ} {s : MxSystem} {b : MxBackends}
  {members : List MultiXactMember}

/-- What the first part of a call does: it is refused in recovery, it releases the lock at the limit
for vacuum, or it reserves the counter. -/
theorem getNewStart_cases (env : MultiXactEnv) (mx : Multixact) (nmembers : ℕ) :
    env.RecoveryInProgress = true ∧
        getNewStart env mx nmembers = (.inr (.error .recovery), mx) ∨
      env.RecoveryInProgress = false ∧
        MultiXactIdPrecedes (fixNextMXact mx.state).nextMXact mx.state.multiVacLimit = false ∧
        getNewStart env mx nmembers =
          (.inl ⟨(fixNextMXact mx.state).nextMXact, nmembers, mx.state.multiStopLimit⟩,
            { mx with state := fixNextMXact mx.state }) ∨
      env.RecoveryInProgress = false ∧
        MultiXactIdPrecedes (fixNextMXact mx.state).nextMXact mx.state.multiVacLimit = true ∧
        getNewStart env mx nmembers =
          (.inr (reserveNext mx nmembers).1, (reserveNext mx nmembers).2) := by
  have hvac : (fixNextMXact mx.state).multiVacLimit = mx.state.multiVacLimit := by
    rw [fixNextMXact_eq]
  have hstop : (fixNextMXact mx.state).multiStopLimit = mx.state.multiStopLimit := by
    rw [fixNextMXact_eq]
  simp only [getNewStart, hvac, hstop]
  cases env.RecoveryInProgress with
  | true => exact .inl ⟨rfl, rfl⟩
  | false =>
    cases MultiXactIdPrecedes (fixNextMXact mx.state).nextMXact mx.state.multiVacLimit with
    | false => exact .inr (.inl ⟨rfl, rfl, rfl⟩)
    | true => exact .inr (.inr ⟨rfl, rfl, rfl⟩)

section Resume

variable {mx : Multixact} {c : LimitCheck}

theorem getNewResume_of_stopped (h : c.stopped env = true) :
    getNewResume env mx c = (.error .stopLimit, mx) := if_pos h

/-- A call that takes the lock again reserves the counter, unless that is at zero. -/
theorem getNewResume_eq (h : c.stopped env = false) (hne : mx.state.nextMXact ≠ 0) :
    getNewResume env mx c = reserveNext mx c.nmembers := by
  have hgoes : ¬ c.stopped env = true := by rw [h]; exact Bool.false_ne_true
  rw [reserveNext, fixNextMXact_of_ne hne]
  refine (if_neg hgoes).trans ?_
  rw [FirstMultiXactId, if_neg (by omega)]

end Resume

/-- A reservation is refused for its members only. -/
theorem pastOffsetStopLimit_of_error {mx mx' : Multixact} {nmembers : ℕ} {e : MultiXactError}
    (h : reserveNext mx nmembers = (.error e, mx')) :
    pastOffsetStopLimit mx.state nmembers = true := by
  have hfix : pastOffsetStopLimit (fixNextMXact mx.state) nmembers =
      pastOffsetStopLimit mx.state nmembers := by
    rw [fixNextMXact_eq]
    rfl
  simp only [reserveNext, reserve, hfix] at h
  split at h
  · assumption
  · exact absurd (Prod.mk.inj h).1 (by simp)

/-- **A call that reserves the counter keeps the invariant**, if there is room for its id and those
of the backends that have passed the check, and if it is not refused at zero. -/
theorem ReadInv.handOut (h : ReadInv env r w n s) (hvalid : ValidMembers members) {n' l : ℕ}
    (hl : l ≤ r + s.oldest) (hlims : IdLimits env s.mx.state (nth l))
    (hspan : r + s.log.length + 1 + n' ≤ l + idSpan)
    (hzero : s.mx.state.nextMXact = 0 →
      pastOffsetStopLimit s.mx.state members.length = false) :
    ReadInv env r w n' (s.handOut members (reserveNext s.mx members.length)) := by
  cases hresv : reserveNext s.mx members.length with
  | mk res mx' =>
    cases res with
    | error e =>
      have hroom : IdRoom env r n' s := ⟨l, hl, hlims, by omega⟩
      refine (h.withRoom hroom).handOut_error (fun hctr => ?_) hresv
      have hpast := hzero hctr
      rw [pastOffsetStopLimit_of_error hresv] at hpast
      cases hpast
    | ok a => exact h.handOut_ok hvalid ⟨l, hl, hlims, hspan⟩ hresv

/-- The members of the backends in a call, when one of them changes. -/
theorem BackendsInv.calls_update (h : BackendsInv env r w b) {backend : Fin MAX_BACKENDS}
    {call : Option (LimitCheck × List MultiXactMember)}
    (hcall : ∀ c ∈ call, c.1.nmembers = c.2.length ∧ ValidMembers c.2) (x : Fin MAX_BACKENDS) :
    ∀ c ∈ update b.waiting backend call x, c.1.nmembers = c.2.length ∧ ValidMembers c.2 := by
  by_cases hx : x = backend
  · subst hx
    rw [update_self]
    exact hcall
  · rw [update_of_ne hx]
    exact h.calls x

/-- **A call that releases the lock keeps the invariant**: either the limit stops it, or there is
room for an id of every backend. -/
theorem BackendsInv.release (h : BackendsInv env r w b) (henv : Serving env)
    {backend : Fin MAX_BACKENDS} (hvalid : ValidMembers members)
    (hne : b.sys.mx.state.nextMXact ≠ 0) :
    BackendsInv env r w ⟨b.sys, update b.waiting backend
      (some (⟨b.sys.mx.state.nextMXact, members.length, b.sys.mx.state.multiStopLimit⟩,
        members))⟩ := by
  refine ⟨h.read.withRoom ?_, h.calls_update fun c hc => ?_⟩
  · cases hprec : MultiXactIdPrecedes b.sys.mx.state.nextMXact b.sys.mx.state.multiStopLimit with
    | false =>
      have hstop : ∀ c ∈ some ((⟨b.sys.mx.state.nextMXact, members.length,
          b.sys.mx.state.multiStopLimit⟩ : LimitCheck), members), c.1.stopped env = true := by
        rintro _ ⟨⟩
        rw [LimitCheck.stopped, henv.postmaster, hprec]
        rfl
      rw [b.goers_update backend b.sys hstop]
      obtain ⟨l, hl, hlims, hlen⟩ := h.read.room
      have hcard := Finset.card_erase_le (s := b.goers env) (a := backend)
      exact ⟨l, hl, hlims, by omega⟩
    | true =>
      have hcheck := h.read.room.of_precedes henv h.read.space
        (.inr (by rw [fixNextMXact_of_ne hne]; exact hprec))
      obtain ⟨l, hl, hlims, hlen⟩ := hcheck
      refine ⟨l, hl, hlims, le_trans (Nat.add_le_add_left (MxBackends.card_goers_le env _) _) ?_⟩
      rw [idSpan]
      omega
  · obtain rfl := Option.some.inj hc
    exact ⟨rfl, hvalid⟩

/-- **The start of a call keeps the invariant.** -/
theorem BackendsInv.start (h : BackendsInv env r w b) (henv : Serving env)
    {backend : Fin MAX_BACKENDS} (hvalid : ValidMembers members)
    (hclear : CounterClear env b (.start backend members)) :
    BackendsInv env r w (mxAct env b (.start backend members)) := by
  simp only [mxAct]
  cases hwait : b.waiting backend with
  | some c => exact h
  | none =>
    dsimp only
    rcases getNewStart_cases env b.sys.mx members.length with
      ⟨-, hstart⟩ | ⟨hrec, hvac, hstart⟩ | ⟨hrec, hvac, hstart⟩
    · rw [hstart]
      exact h
    · -- the counter is not at zero, so the call leaves the multixacts
      have hne : b.sys.mx.state.nextMXact ≠ 0 := by
        intro hzero
        have hfirst := (hclear hrec hzero).1
        rw [fixNextMXact_eq, hzero] at hvac
        exact Bool.false_ne_true (hvac.symm.trans hfirst)
      rw [hstart, fixNextMXact_of_ne hne]
      exact h.release henv hvalid hne
    · rw [hstart]
      obtain ⟨l, hl, hlims, hlen⟩ := h.read.room.of_precedes henv h.read.space (.inl hvac)
      have hcard := b.card_goers_le env
      have hspan : r + b.sys.log.length + 1 + (b.goers env).card ≤ l + idSpan := by
        rw [idSpan]
        omega
      exact ⟨h.read.handOut hvalid hl hlims hspan fun hzero => (hclear hrec hzero).2, h.calls⟩

/-- **The second part of a call keeps the invariant.** -/
theorem BackendsInv.resume (h : BackendsInv env r w b) {backend : Fin MAX_BACKENDS}
    (hclear : CounterClear env b (.resume backend)) :
    BackendsInv env r w (mxAct env b (.resume backend)) := by
  simp only [mxAct]
  cases hwait : b.waiting backend with
  | none => exact h
  | some call =>
    obtain ⟨c, members⟩ := call
    obtain ⟨hlen, hvalid⟩ : c.nmembers = members.length ∧ ValidMembers members :=
      h.calls backend _ hwait
    obtain ⟨l, hl, hlims, hroom⟩ := h.read.room
    refine ⟨?_, h.calls_update (by simp)⟩
    dsimp only
    rw [b.goers_update backend _ (by simp)]
    cases hstop : c.stopped env with
    | true =>
      -- the limit stops the call, which leaves the multixacts
      have hcard := Finset.card_erase_le (s := b.goers env) (a := backend)
      rw [getNewResume_of_stopped hstop]
      exact h.read.withRoom ⟨l, hl, hlims, by omega⟩
    | false =>
      have hne := hclear _ hwait hstop
      have hcard := Finset.card_erase_add_one (MxBackends.mem_goers.mpr ⟨_, hwait, hstop⟩)
      rw [getNewResume_eq hstop hne, hlen]
      exact h.read.handOut hvalid hl hlims (by omega) fun hzero => absurd hzero hne

/-- **Every step keeps the invariant**, if it meets the condition. -/
theorem BackendsInv.step (h : BackendsInv env r w b) (henv : Serving env) {a : MxAction}
    (hok : ActionOk b a) (hclear : CounterClear env b a) :
    BackendsInv env r w (mxAct env b a) := by
  cases a with
  | start backend members => exact h.start henv hok hclear
  | resume backend => exact h.resume hclear
  | record i => exact ⟨h.read.record hok, h.calls⟩
  | setIdLimit i => exact ⟨h.read.setIdLimit hok.1 hok.2.1 hok.2.2, h.calls⟩
  | setOffsetLimit => exact ⟨h.read.setOffsetLimit hok, h.calls⟩
  | truncate i dir =>
    exact ⟨h.read.truncate hok.1 hok.2.1 hok.2.2.1 hok.2.2.2 dir, h.calls⟩

/-- Every run keeps the invariant. -/
theorem BackendsInv.run (h : BackendsInv env r w b) (henv : Serving env) {actions : List MxAction}
    (hok : AlongActs env (fun b a => ActionOk b a ∧ CounterClear env b a) b actions) :
    BackendsInv env r w (mxActs env b actions) := by
  induction actions generalizing b with
  | nil => exact h
  | cons a actions ih => exact ih (h.step henv hok.1.1 hok.1.2) hok.2

/-- Before the first step. -/
theorem BackendsStart.inv (h : BackendsStart env b) : ∃ r w, BackendsInv env r w b := by
  obtain ⟨r, w, hread⟩ := h.sys.inv
  have hnone : b.goers env = ∅ := by
    rw [Finset.eq_empty_iff_forall_notMem]
    intro x hx
    obtain ⟨c, hc, -⟩ := MxBackends.mem_goers.mp hx
    rw [h.idle] at hc
    cases hc
  refine ⟨r, w, ?_, fun x c hc => ?_⟩
  · rw [hnone]
    exact hread
  · rw [h.idle] at hc
    cases hc

end Steps

/-! ### Runs -/

/-- **Members are read back as written** in every state of every run in which creations by many
backends, limits and truncations follow one another in any order, if nothing stands in the way of
the backends while the counter of the ids is at zero. -/
theorem members_read_back (env : MultiXactEnv) (henv : Serving env) (b : MxBackends)
    (hstart : BackendsStart env b) (actions : List MxAction)
    (hok : AlongActs env (fun b a => ActionOk b a ∧ CounterClear env b a) b actions) :
    ReadsBack (mxActs env b actions).sys := by
  obtain ⟨r, w, h⟩ := hstart.inv
  exact (h.run henv hok).read.readsBack

/-- A server under a postmaster, with the default setting. -/
theorem servingEnv_serving : Serving servingEnv := ⟨rfl, by decide⟩

/-- A cluster with two ids left, at the limit for vacuum, and three slots before the end. -/
def lastIdsBackends : MxBackends where
  sys :=
    { lastSlotsSystem with
      mx :=
        { lastSlotsSystem.mx with
          state :=
            { lastSlotsSystem.mx.state with
              nextMXact := 2 ^ 32 - 2
              oldestMultiXactId := 2 ^ 32 - 2
              multiVacLimit := 2 ^ 32 - 2
              multiStopLimit := 1744483645 } } }
  waiting := fun _ => none

theorem lastIdsBackends_start : BackendsStart servingEnv lastIdsBackends where
  sys := ⟨⟨rfl, rfl, by decide, by decide, rfl, rfl, ⟨2 ^ 32 - 3, by decide, rfl, by decide⟩,
    fun _ => by decide⟩, ⟨2 ^ 32 - 400000002, by decide, ⟨by decide, by decide⟩, by decide⟩,
    fun _ => by decide⟩
  idle := fun _ => rfl

/-- Two backends release the lock and take the last two ids in the other order, around the end of
the slots; when the limits have been set, another one takes the first id. -/
def lastIdsActions : List MxAction :=
  [.start ⟨0, by decide⟩ [⟨700, .ForShare⟩, ⟨701, .ForShare⟩],
    .start ⟨1, by decide⟩ [⟨700, .ForShare⟩, ⟨702, .Update⟩, ⟨703, .ForKeyShare⟩],
    .resume ⟨1, by decide⟩, .resume ⟨0, by decide⟩, .record 1, .record 0, .setIdLimit 0,
    .start ⟨2, by decide⟩ [⟨704, .ForShare⟩], .record 2]

/-- A run around the end of the ids and of the slots, with two calls at the same time. -/
theorem members_read_back_last_ids :
    ((mxActs servingEnv lastIdsBackends lastIdsActions).sys.log.map fun c => c.alloc.multi) =
      [2 ^ 32 - 2, 2 ^ 32 - 1, 1] ∧
    ReadsBack (mxActs servingEnv lastIdsBackends lastIdsActions).sys :=
  ⟨by decide +kernel, members_read_back servingEnv servingEnv_serving lastIdsBackends
    lastIdsBackends_start lastIdsActions ⟨by decide +kernel, by decide +kernel, by decide +kernel,
      by decide +kernel, by decide +kernel, by decide +kernel, by decide +kernel,
      by decide +kernel, by decide +kernel, trivial⟩⟩

/-- A cluster whose next id is the last one, and whose next offset is four slots before the
limit. -/
def nearlyFullBackends : MxBackends where
  sys :=
    { mx :=
        { lastSlotsSystem.mx with
          state :=
            { lastSlotsSystem.mx.state with
              nextOffset := 52348
              offsetStopLimit := offsetStopLimitFor 104704 }
          members := ⟨fun p => if p = 31 then some fun _ => 0 else none, 31⟩ }
      log := []
      oldest := 0 }
  waiting := fun _ => none

theorem nearlyFullBackends_start : BackendsStart servingEnv nearlyFullBackends where
  sys := ⟨⟨rfl, rfl, by decide, by decide, rfl, rfl, ⟨104704, by decide, rfl, by decide⟩,
    fun _ => by decide⟩, ⟨2 ^ 32 - 1, by decide, ⟨by decide, by decide⟩, by decide⟩,
    fun _ => by decide⟩
  idle := fun _ => rfl

/-- A multixact is created, and another one with too many members is refused. -/
def refusedActions : List MxAction :=
  [.start ⟨0, by decide⟩ [⟨700, .ForShare⟩, ⟨701, .ForShare⟩], .record 0,
    .start ⟨1, by decide⟩
      [⟨700, .ForShare⟩, ⟨701, .ForShare⟩, ⟨702, .ForShare⟩, ⟨703, .Update⟩]]

/-- **A refused call blocks the reader of the last multixact**: the call that is refused for its
members has moved the counter from zero to one, so the reader looks for the entry of the id one,
finds zero, and tries again until another multixact is created. -/
theorem refused_call_blocks_reader :
    BackendsStart servingEnv nearlyFullBackends ∧
    AlongActs servingEnv ActionOk nearlyFullBackends refusedActions ∧
    GetMultiXactIdMembers (mxActs servingEnv nearlyFullBackends refusedActions).sys.mx
      (2 ^ 32 - 1) = .retry ∧
    ¬ ReadsBack (mxActs servingEnv nearlyFullBackends refusedActions).sys := by
  have hretry : GetMultiXactIdMembers (mxActs servingEnv nearlyFullBackends refusedActions).sys.mx
      (2 ^ 32 - 1) = .retry := by decide +kernel
  refine ⟨nearlyFullBackends_start,
    ⟨by decide +kernel, by decide +kernel, by decide +kernel, trivial⟩, hretry, fun hreads => ?_⟩
  have hget : (mxActs servingEnv nearlyFullBackends refusedActions).sys.log[0]? =
      some ⟨⟨2 ^ 32 - 1, 52348, 2, 2⟩, [⟨700, .ForShare⟩, ⟨701, .ForShare⟩], true⟩ := by
    decide +kernel
  have hread := hreads 0 _ (by decide +kernel) hget rfl (fun c' hc' => by
    exact nomatch hc')
  rw [hretry] at hread
  cases hread

end FdPostgres
