import FdPostgres.Sinval.Preservation

/-!
# No Backend Misses a Message

* `sinval_delivers`: **in every run, a backend gets the messages since it has registered in order,
  the gaps that it is told of apart; its number is within the queue; and a read that is due does not
  return 0 if the caller has room for a message.**
* `sinval_empty_buffer`: a read without room returns 0.
-/

namespace FdPostgres.Sinval

open LogReader

variable {μ : Type*} {s : Sys μ}

/-- The invariant holds initially. -/
theorem Initial.inv (h : Initial s) : Inv s := by
  have hun : ∀ p, ¬ s.Registered p := fun p hp => hp (h.pc p)
  refine ⟨?_, fun p q hp => ?_, fun i hi => ?_, fun p hp => absurd hp (hun p), fun p => ?_,
    fun p hp => absurd hp (hun p), fun p hp => absurd hp (hun p)⟩
  · refine ⟨?_, ?_, ?_, ?_, ?_, ?_, fun x hx hx' => ?_, ?_⟩
    · exact Int.le_of_eq h.base.symm
    · rw [h.base]
      rfl
    · exact Int.le_of_eq h.minMsgNum.symm
    · exact Int.le_of_eq (h.minMsgNum.trans h.maxMsgNum.symm)
    · rw [h.minMsgNum, h.maxMsgNum]
      decide
    · rw [h.base, h.maxMsgNum, h.log]
      rfl
    · rw [h.minMsgNum] at hx
      rw [h.maxMsgNum] at hx'
      omega
    · rw [h.completed]
      exact Nat.zero_le _
  · rw [h.pc p] at hp
    exact absurd hp id
  · rw [h.procState i] at hi
    exact absurd rfl hi
  · rw [h.pc p]
    trivial

/-- **Every reachable state has the invariant.** -/
theorem Reachable.inv (h : Reachable s) : Inv s := by
  induction h with
  | initial h => exact h.inv
  | step _ hstep ih => exact ih.step hstep

/-- What a backend has got follows the log, up to its number when it is not reading. -/
theorem ReaderInv.follows {p : ℕ} {pc : Pc μ} (h : ReaderInv s p pc) :
    ∃ pos : ℕ, Follows s.log (s.backends p).start (s.pieces p) pos ∧ pos ≤ s.log.length ∧
      (pc = .ready → (s.state p).resetState = false → (pos : ℤ) = s.next p) := by
  have hcau : ∀ x : ℤ, x ≤ s.log.length → Caught s p x →
      ∃ pos : ℕ, Follows s.log (s.backends p).start (s.pieces p) pos ∧ pos ≤ s.log.length ∧
        (pc = .ready → (s.state p).resetState = false → (pos : ℤ) = s.next p) := by
    rintro x hx ⟨pos, hf, hle, hpos⟩
    exact ⟨pos, hf, by omega, fun _ hr => (hpos hr).1⟩
  cases pc with
  | readTest datasize due max => exact hcau _ h.2.2.1 h.1
  | readCopy datasize due max data =>
    obtain ⟨-, ⟨pos, hf, hpos, -⟩, -, hmax, -, hnext, -⟩ := h
    exact ⟨pos, hf, by omega, nofun⟩
  | _ => exact hcau _ (Int.le_refl _) h.1

/-- **In every run, a backend gets the messages since it has registered in order, the gaps that it
is told of apart; its number is within the queue unless it has a reset to read; and a read that is
due does not return 0 if the caller has room for a message.** -/
theorem sinval_delivers {s : Sys μ} (h : Reachable s) {p : ℕ} (hp : s.Registered p)
    (hrecv : (s.state p).sendOnly = false) :
    (∃ pos : ℕ, Follows s.log (s.backends p).start (s.pieces p) pos ∧ pos ≤ s.log.length ∧
      (s.pc p = .ready → (s.state p).resetState = false → (pos : ℤ) = s.next p)) ∧
    ((s.state p).resetState = false → s.seg.minMsgNum ≤ (s.state p).nextMsgNum ∧
      (s.state p).nextMsgNum ≤ s.seg.maxMsgNum ∧
      s.seg.maxMsgNum ≤ s.seg.minMsgNum + MAXNUMMESSAGES) ∧
    (∀ r ∈ (s.backends p).reads, r.due = true → 0 < r.datasize → r.value ≠ 0) := by
  have hi := h.inv
  have hr := hi.reader p hp hrecv
  refine ⟨hr.follows, fun hreset => ?_, fun r hmem => hi.reads p hp hrecv r hmem⟩
  obtain ⟨hmin, hmax⟩ := hr.bounds hreset
  have hlen := hi.queue.length
  rw [Sys.next] at hmin hmax
  exact ⟨by omega, by omega, hi.queue.full⟩

/-! ### A message is sent and read -/

/-- Before any backend has registered, with room for one. -/
def firstSys : Sys ℕ where
  seg := ⟨0, 0, CLEANUP_MIN, 0, 1, fun _ => 0, fun _ => {}⟩
  backends := fun _ => ⟨.unregistered, 0, 0, []⟩
  log := []
  base := 0
  completed := 0

/-- Backend 1 has registered, has sent message 7, and is about to read it. -/
theorem reachable_reading (datasize : ℕ) : ∃ s : Sys ℕ, Reachable s ∧
    s.pc 1 = .readCopy datasize true 1 [] ∧ s.state 1 = { procPid := 1 } ∧ s.seg.get 0 = 7 ∧
    (s.backends 1).reads = [] := by
  have h₀ : Reachable firstSys :=
    .initial ⟨rfl, rfl, rfl, rfl, fun _ => rfl, fun _ => rfl, rfl, rfl, rfl⟩
  have h₁ := h₀.step (.register (by decide) rfl (fun _ => id)
    (show SharedInvalBackendInit firstSys.seg 1 false = _ from rfl))
  have h₂ := h₁.step (.insert (p := 1) rfl (List.cons_ne_nil 7 []))
  have h₃ := h₂.step (.insertLock (p := 1) rfl fun q => by
    by_cases hq : q = 1
    · subst hq
      exact id
    · simp [Sys.pc, Sys.setPc, Sys.setBackend, Sys.setSeg, hq, firstSys, Pc.holdsWrite])
  have h₄ := h₃.step (.insertRoom (p := 1) rfl (by unfold SISeg.Full; decide))
  have h₅ := h₄.step (.insertCopy (p := 1) rfl rfl)
  have h₆ := h₅.step (.insertMax (p := 1) rfl (by decide))
  have h₇ := h₆.step (.insertKick (p := 1) rfl (by decide))
  have h₈ := h₇.step (.insertDone (p := 1) rfl (by decide))
  have h₉ := h₈.step (@Step.readSome _ _ 1 datasize rfl rfl rfl)
  have h₁₀ := h₉.step (.readLock (p := 1) rfl)
  have h₁₁ := h₁₀.step (.readClear (p := 1) rfl)
  have h₁₂ := h₁₁.step (.readMax (p := 1) rfl)
  have h₁₃ := h₁₂.step (.readStart (p := 1) rfl rfl)
  exact ⟨_, h₁₃, rfl, rfl, rfl, rfl⟩

/-- The entry of a backend that has changed it. -/
theorem state_setState (s : Sys μ) (p : ℕ) (st : ProcState) : (s.setState p st).state p = st :=
  Function.update_self ..

/-- A backend that has read. -/
theorem finishRead_spec (s : Sys μ) (p : ℕ) (r : Read μ) : (s.finishRead p r).pc p = .ready ∧
    (s.finishRead p r).state p = s.state p ∧
    ((s.finishRead p r).backends p).reads = (s.backends p).reads ++ [r] := by
  refine ⟨Sys.pc_setBackend .., ?_, ?_⟩
  · rw [Sys.state, Sys.finishRead, Sys.setBackend_self]
    rfl
  · rw [Sys.finishRead, Sys.setBackend_self]

/-- A backend that is behind gets its message. -/
theorem sinval_delivers_message : ∃ s : Sys ℕ, Reachable s ∧
    (s.backends 1).reads = [⟨true, 1, some [7]⟩] ∧
    ∀ r ∈ (s.backends 1).reads, r.due = true → 0 < r.datasize → r.value ≠ 0 := by
  obtain ⟨s, h, hpc, hst, hget, hreads⟩ := reachable_reading 1
  have hnext : (s.state 1).nextMsgNum = 0 := by rw [hst]
  have h₁ := h.step (.readCopy hpc Nat.zero_lt_one (by rw [hnext]; exact Int.zero_lt_one))
  set t := s.setState 1 { s.state 1 with nextMsgNum := (s.state 1).nextMsgNum + 1 }
  set pc : Pc ℕ := .readCopy 1 true 1 ([] ++ [s.seg.get (s.state 1).nextMsgNum])
  have hst₁ : (t.setPc 1 pc).state 1 = { procPid := 1, nextMsgNum := 1 } := by
    rw [state_setPc, state_setState, hst]
    rfl
  have h₂ := h₁.step (.readAll (Sys.pc_setBackend ..)
    (Int.le_of_eq (congrArg ProcState.nextMsgNum hst₁).symm))
  obtain ⟨hpc₂, hst₂, hreads₂⟩ := finishRead_spec ((t.setPc 1 pc).setState 1
    { (t.setPc 1 pc).state 1 with signaled := false }) 1
    ⟨true, 1, some ([] ++ [s.seg.get (s.state 1).nextMsgNum])⟩
  refine ⟨_, h₂, ?_, (sinval_delivers h₂ ?_ ?_).2.2⟩
  · have hreads₁ : ((t.setPc 1 pc).backends 1).reads = [] := by
      exact hreads
    rw [hnext, hget]
    exact congrArg (· ++ [_]) hreads₁
  · nofun
  · rw [hst₂, state_setState, hst₁]

/-- **A read without room returns 0.** Message 7 has been sent and its insertion is complete, and
backend 1 reads with a buffer for no message. -/
theorem sinval_empty_buffer : ∃ s : Sys ℕ, Reachable s ∧ s.Registered 1 ∧
    ∃ r ∈ (s.backends 1).reads, r.due = true ∧ r.value = 0 := by
  obtain ⟨s, h, hpc, hst, -, -⟩ := reachable_reading 0
  have h₁ := h.step (.readPart hpc (Nat.le_refl 0) (by rw [hst]; exact Int.zero_lt_one))
  refine ⟨_, h₁, ?_, ⟨true, 0, some []⟩, ?_, rfl, rfl⟩
  · nofun
  · exact List.mem_append_right _ (List.mem_singleton_self _)

end FdPostgres.Sinval
