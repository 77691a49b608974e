import FdPostgres.Sinval.Invariant

/-!
# The Steps Keep the Invariant

* `Inv.insertCopy`, `Inv.insertMax`, `Inv.kick`, `Inv.complete`: a writer puts messages into the
  buffer, makes them visible, tells the backends, and is done.
* `Inv.cleanup`: `SICleanupQueue`.
* `Inv.readNone` … `Inv.readPart`: a reader.
* `Inv.register`, `Inv.exit`: backends come and go.
* `Inv.step`: **every step keeps the invariant.**
-/

namespace FdPostgres.Sinval

open Function LogReader List Int

variable {μ : Type*} {s : Sys μ} {p : ℕ}

/-! ### Steps that change only the backend -/

theorem state_setPc (s : Sys μ) (p : ℕ) (pc : Pc μ) : (s.setPc p pc).state p = s.state p := by
  rw [Sys.state, Sys.setPc, Sys.setBackend_self]
  rfl

variable {pc pc₀ : Pc μ} {s' : Sys μ} {max : ℤ} {rest : List μ} {datasize : ℕ} {due : Bool}

/-- **A backend goes on.** -/
theorem Inv.goOn (hi : Inv s) (hpc₀ : s.pc p = pc₀) (hp : pc₀ ≠ .unregistered)
    (hpc : pc ≠ .unregistered) (hkick : ∀ rest j, pc₀ ≠ .insertKick rest j)
    (hlock : pc.holdsWrite → pc₀.holdsWrite ∨ s.WriteFree) (hwr : WriterInv s.seg pc)
    (hread : (s.state p).sendOnly = false → ReaderInv (s.setPc p pc) p pc₀ →
      ReaderInv (s.setPc p pc) p pc) : Inv (s.setPc p pc) := by
  subst hpc₀
  have h : OwnStep s (s.setPc p pc) p := .setBackend s rfl
  have hb : (s.setPc p pc).backends p = { s.backends p with pc := pc } := Sys.setBackend_self ..
  refine hi.own h hp hb hpc hkick hlock hwr (fun hs => hread hs ?_) (hi.reads p hp)
  exact (h.frame_self hkick (state_setPc s p pc) (by rw [hb]) (by rw [hb])).reader
    (hi.reader p hp hs)

/-! ### A writer -/

/-- The entry of a backend in a state in which the backend has the same place. -/
theorem state_of_slot {q : ℕ} (hslot : (s'.backends q).slot = (s.backends q).slot)
    (hentry : s'.seg.procState (s.backends q).slot = s.seg.procState (s.backends q).slot) :
    s'.state q = s.state q := by
  rw [Sys.state, hslot, hentry, Sys.state]

/-- A step of a writer: of the entries, only the flags `hasMessages` are set. -/
structure WriteStep (s s' : Sys μ) (p : ℕ) (pc : Pc μ) : Prop where
  backends : s'.backends = update s.backends p { s.backends p with pc := pc }
  entries : ∀ i, ∃ b, s'.seg.procState i = { s.seg.procState i with hasMessages := b } ∧
    ((s.seg.procState i).hasMessages = true → b = true)
  lastBackend : s'.seg.lastBackend = s.seg.lastBackend
  min : s'.seg.minMsgNum = s.seg.minMsgNum
  base : s'.base = s.base
  log : s.log <+: s'.log

namespace WriteStep

variable {s' : Sys μ} {pc : Pc μ} (h : WriteStep s s' p pc)

include h

theorem backends_of_ne (q : ℕ) (hq : q ≠ p) : s'.backends q = s.backends q := by
  rw [h.backends, update_of_ne hq]

theorem backends_self : s'.backends p = { s.backends p with pc := pc } := by
  rw [h.backends, update_self]

theorem slot (q : ℕ) : (s'.backends q).slot = (s.backends q).slot := by
  by_cases hq : q = p
  · rw [hq, h.backends_self]
  · rw [h.backends_of_ne q hq]

/-- **A reader is not harmed if it is told.** -/
theorem frame (q : ℕ) (hkick : (s.state q).hasMessages = true ∨ s.Kicks (s.backends q).slot →
      (s'.state q).hasMessages = true ∨ s'.Kicks (s.backends q).slot)
    (hnewer : s.log.length < s'.log.length →
      (s'.state q).hasMessages = true ∨ s'.Kicks (s.backends q).slot)
    (hcompl : s'.completed = s.completed ∨
      ¬ s.Kicks (s.backends q).slot ∧ s'.completed ≤ s.log.length) : Frame s s' q := by
  have hb : (s'.backends q).slot = (s.backends q).slot ∧
      (s'.backends q).start = (s.backends q).start ∧
      (s'.backends q).reads = (s.backends q).reads := by
    by_cases hq : q = p
    · rw [hq, h.backends_self]
      exact ⟨rfl, rfl, rfl⟩
    · rw [h.backends_of_ne q hq]
      exact ⟨rfl, rfl, rfl⟩
  obtain ⟨b, hst, hhas⟩ := h.entries (s.backends q).slot
  have hst' : s'.state q = { s.state q with hasMessages := b } := by
    rw [Sys.state, hb.1, hst, Sys.state]
  refine ⟨hb.1, hb.2.1, hb.2.2, by rw [hst'], ?_, h.base, h.min, h.log, fun hq => ?_, hkick, hnewer,
    hcompl⟩
  · rw [Sys.next, hst', h.base, Sys.next]
  · rw [hst']
    exact hhas hq

end WriteStep

variable (hi : Inv s)

include hi

/-- **The rule for a step of a writer.** -/
theorem Inv.write (h : WriteStep s s' p pc) (hold : (s.pc p).holdsWrite)
    (hpc : pc ≠ .unregistered) (hqueue : QueueInv s') (hwr : WriterInv s'.seg pc)
    (hframe : ∀ q, s.Registered q → Frame s s' q)
    (hother : ReaderInv s' p (s.pc p) → ReaderInv s' p pc) : Inv s' := by
  have hp : s.Registered p := by
    intro hun
    rw [hun] at hold
    exact hold
  have hpids : ∀ i, (s'.seg.procState i).procPid = (s.seg.procState i).procPid ∧
      (s'.seg.procState i).sendOnly = (s.seg.procState i).sendOnly := by
    intro i
    obtain ⟨b, he, -⟩ := h.entries i
    rw [he]
    exact ⟨rfl, rfl⟩
  exact hi.run hp h.backends_self hpc h.backends_of_ne rfl (fun i => (hpids i).1)
    (fun i => (hpids i).2) h.lastBackend (fun _ => .inl hold) hqueue (.inr hold) hwr
    (fun q _ hq hs => (hframe q hq).reader (hi.reader q hq hs))
    (fun hs => hother ((hframe p hp).reader (hi.reader p hp hs))) (hi.reads p hp)

/-- **A message is put into the buffer.** -/
theorem Inv.insertCopy {k : ℕ} {group : List μ} {m : μ}
    (hpc : s.pc p = .insertCopy group rest k max) (hk : group[k]? = some m) :
    Inv ((s.setSeg (s.seg.put max m)).setPc p (.insertCopy group rest (k + 1) (max + 1))) := by
  obtain ⟨hkle, hmax, hroom, hdone⟩ : WriterInv s.seg (.insertCopy group rest k max) :=
    hpc ▸ hi.writer p
  have hlt : k < group.length := (List.getElem?_eq_some_iff.mp hk).1
  have hq := hi.queue
  have hle := hq.le
  -- the place is not one of the messages in the queue or of those written before
  have hget : ∀ x, s.seg.minMsgNum ≤ x → x < max → (s.seg.put max m).get x = s.seg.get x := by
    intro x hx hx'
    refine update_of_ne (fun heq => ?_) _ _
    simp only [MAXNUMMESSAGES] at heq hroom
    omega
  have h : WriteStep s ((s.setSeg (s.seg.put max m)).setPc p
      (.insertCopy group rest (k + 1) (max + 1))) p (.insertCopy group rest (k + 1) (max + 1)) :=
    ⟨rfl, fun i => ⟨_, rfl, id⟩, rfl, rfl, rfl, prefix_rfl⟩
  refine hi.write h (by rw [hpc]; trivial) (by nofun) ?_ ?_ (fun q _ => ?_) (by rw [hpc]; exact id)
  · refine ⟨hq.base_nonneg, hq.wrap, hq.nonneg, hq.le, hq.full, hq.length, fun x hx hx' => ?_,
      hq.completed⟩
    have hx'' : x < s.seg.maxMsgNum := hx'
    exact (hq.buffer x hx hx').trans (congrArg some (hget x hx (by omega)).symm)
  · refine ⟨hlt, ?_, hroom, fun j hj m' hm' => ?_⟩
    · change max + 1 = s.seg.maxMsgNum + ((k + 1 : ℕ) : ℤ)
      omega
    · change (s.seg.put max m).get (s.seg.maxMsgNum + j) = m'
      rcases Nat.lt_succ_iff_lt_or_eq.mp hj with hj | rfl
      · rw [hget _ (by omega) (by omega)]
        exact hdone j hj m' hm'
      · rw [← hmax, ← Option.some.inj (hk.symm.trans hm')]
        exact update_self ..
  · refine h.frame q (fun hk => ?_) (fun hlt => absurd hlt (lt_irrefl _)) (.inl rfl)
    refine hk.imp (fun hhas => ?_) (kicks_of_others h.backends_of_ne (by rw [hpc]; nofun))
    rwa [state_of_slot (h.slot q) rfl]

/-- **The messages become visible.** -/
theorem Inv.insertMax {k : ℕ} {group : List μ}
    (hpc : s.pc p = .insertCopy group rest k max) (hk : group.length ≤ k) :
    Inv ((s.publish max group).setPc p (.insertKick rest 0)) := by
  obtain ⟨hkle, hmax, hroom, hdone⟩ : WriterInv s.seg (.insertCopy group rest k max) :=
    hpc ▸ hi.writer p
  obtain rfl : k = group.length := le_antisymm hkle hk
  have hq := hi.queue
  have hle := hq.le
  have hlen := hq.length
  have h : WriteStep s ((s.publish max group).setPc p (.insertKick rest 0)) p
      (.insertKick rest 0) :=
    ⟨rfl, fun i => ⟨_, rfl, id⟩, rfl, rfl, rfl, prefix_append ..⟩
  -- from now on, the writer has still to tell everybody
  have hkicks : ∀ i, ((s.publish max group).setPc p (.insertKick rest 0)).Kicks i :=
    fun i => ⟨p, rest, 0, Sys.pc_setBackend .., Nat.zero_le _⟩
  refine hi.write h (by rw [hpc]; trivial) (by nofun) ?_ trivial (fun q _ => ?_)
    (by rw [hpc]; exact id)
  · refine ⟨hq.base_nonneg, hq.wrap, hq.nonneg, ?_, ?_, ?_, fun x hx hx' => ?_, ?_⟩
    · change s.seg.minMsgNum ≤ max
      omega
    · change max ≤ s.seg.minMsgNum + MAXNUMMESSAGES
      omega
    · change s.base + max = ((s.log ++ group).length : ℤ)
      rw [length_append]
      omega
    · change (s.log ++ group)[(s.base + x).toNat]? = some (s.seg.get x)
      have hx'' : x < max := hx'
      have hnn := hq.base_nonneg
      have hmin := hq.nonneg
      have hxmin : s.seg.minMsgNum ≤ x := hx
      by_cases hold : x < s.seg.maxMsgNum
      · rw [getElem?_append_left (by omega)]
        exact hq.buffer x hx hold
      · obtain ⟨j, rfl⟩ : ∃ j : ℕ, x = s.seg.maxMsgNum + j :=
          ⟨(x - s.seg.maxMsgNum).toNat, by omega⟩
        have hj : j < group.length := by omega
        have hidx : (s.base + (s.seg.maxMsgNum + j)).toNat = s.log.length + j := by omega
        rw [hidx, getElem?_append_right (Nat.le_add_right _ _), Nat.add_sub_cancel_left]
        have hsome := getElem?_eq_getElem hj
        rw [hsome, hdone j hj _ hsome]
    · change s.completed ≤ (s.log ++ group).length
      have := hq.completed
      rw [length_append]
      omega
  · exact h.frame q (fun _ => .inr (hkicks _)) (fun _ => .inr (hkicks _)) (.inl rfl)

/-- **A backend is told.** -/
theorem Inv.insertKick {i : ℕ} (hpc : s.pc p = .insertKick rest i) :
    Inv ((s.setSeg (s.seg.setState i { s.seg.procState i with hasMessages := true })).setPc p
      (.insertKick rest (i + 1))) := by
  have h : WriteStep s ((s.setSeg (s.seg.setState i { s.seg.procState i with
      hasMessages := true })).setPc p (.insertKick rest (i + 1))) p (.insertKick rest (i + 1)) := by
    refine ⟨rfl, fun j => ?_, rfl, rfl, rfl, prefix_rfl⟩
    by_cases hj : j = i
    · subst hj
      exact ⟨true, update_self .., fun _ => rfl⟩
    · exact ⟨_, update_of_ne hj _ _, id⟩
  refine hi.write h (by rw [hpc]; trivial) (by nofun) ?_ trivial (fun q _ => ?_)
    (by rw [hpc]; exact id)
  · exact hi.queue.congr rfl rfl rfl rfl rfl hi.queue.completed
  · refine h.frame q (fun hk => ?_) (fun hlt => absurd hlt (lt_irrefl _)) (.inl rfl)
    by_cases hslot : (s.backends q).slot = i
    · refine .inl ?_
      have hentry : (s.seg.setState i { s.seg.procState i with hasMessages := true }).procState i =
          { s.seg.procState i with hasMessages := true } := update_self ..
      rw [Sys.state, h.slot, hslot]
      exact congrArg ProcState.hasMessages hentry
    · refine hk.imp (fun hhas => ?_) ?_
      · rw [state_of_slot (h.slot q) (update_of_ne hslot _ _)]
        exact hhas
      · -- the writer comes to the others later
        rintro ⟨w, rest', j, hw, hj⟩
        obtain rfl : w = p := hi.excl w p (by rw [hw]; trivial) (by rw [hpc]; trivial)
        obtain ⟨rfl, rfl⟩ := Pc.insertKick.inj (hpc.symm.trans hw)
        exact ⟨w, rest, i + 1, Sys.pc_setBackend .., by omega⟩

/-- **All backends have been told.** -/
theorem Inv.complete {i : ℕ} (hpc : s.pc p = .insertKick rest i)
    (hlast : s.seg.lastBackend ≤ i) (hpc' : pc ≠ .unregistered) (hwr : WriterInv s.seg pc)
    (hother : ReaderInv (s.complete.setPc p pc) p (.insertKick rest i) →
      ReaderInv (s.complete.setPc p pc) p pc) : Inv (s.complete.setPc p pc) := by
  have h : WriteStep s (s.complete.setPc p pc) p pc :=
    ⟨rfl, fun i => ⟨_, rfl, id⟩, rfl, rfl, rfl, prefix_rfl⟩
  refine hi.write h (by rw [hpc]; trivial) hpc' ?_ hwr (fun q hq => ?_)
    (by rw [hpc]; exact hother)
  · exact hi.queue.congr rfl rfl rfl rfl rfl (le_refl _)
  · -- no entry is left that has not been told
    have hno : ¬ s.Kicks (s.backends q).slot := by
      rintro ⟨w, rest', j, hw, hj⟩
      obtain rfl : w = p := hi.excl w p (by rw [hw]; trivial) (by rw [hpc]; trivial)
      obtain ⟨rfl, rfl⟩ := Pc.insertKick.inj (hpc.symm.trans hw)
      have := (hi.slot q hq).2.1
      omega
    refine h.frame q (fun hk => .inl ?_) (fun hlt => absurd hlt (lt_irrefl _))
      (.inr ⟨hno, le_refl _⟩)
    rw [state_of_slot (h.slot q) rfl]
    exact hk.resolve_right hno

/-! ### Space is made -/

/-- The queue after `SICleanupQueue`. -/
theorem QueueInv.cleanup {minFree amount : ℤ}
    (h : CleanupSpec s.seg (SICleanupQueue s.seg minFree).1 minFree amount) :
    QueueInv (s.cleanup minFree) ∧
      s.seg.minMsgNum ≤ (SICleanupQueue s.seg minFree).1.minMsgNum + amount := by
  have hq := hi.queue
  set seg := (SICleanupQueue s.seg minFree).1 with hseg
  -- nobody needs messages that have been removed before
  have hmin : s.seg.minMsgNum ≤ seg.minMsgNum + amount := by
    refine h.le_min _ hq.le fun i hf => ?_
    obtain ⟨hreg, hslot⟩ := hi.owned i hf.1
    have hst : s.state (s.seg.procState i).procPid = s.seg.procState i := by rw [Sys.state, hslot]
    have hb := (hi.reader _ hreg (by rw [hst]; exact hf.2.2)).bounds (by rw [hst]; exact hf.2.1)
    rw [Sys.next, hst] at hb
    omega
  have hmax := h.maxMsgNum
  have hwrap := h.wrap
  have hbase : (s.cleanup minFree).base = s.base + amount := by
    simp only [Sys.cleanup, ← hseg]
    omega
  have hfull := hq.full
  have hnn := hq.nonneg
  have hbase0 := hq.base_nonneg
  have hamount := h.amount_nonneg
  have hlen := hq.length
  refine ⟨⟨?_, ?_, ?_, h.le_max, ?_, ?_, fun x hx hx' => ?_, hq.completed⟩, hmin⟩
  · rw [hbase]
    omega
  · have := hq.wrap
    rw [hbase]
    simp only [MAXNUMMESSAGES] at this hwrap ⊢
    omega
  · change 0 ≤ seg.minMsgNum
    rcases h.nonneg with hzero | hpos
    · omega
    · exact hpos
  · change seg.maxMsgNum ≤ seg.minMsgNum + MAXNUMMESSAGES
    omega
  · rw [hbase]
    change s.base + amount + seg.maxMsgNum = s.log.length
    omega
  · have hx₁ : seg.minMsgNum ≤ x := hx
    have hx₂ : x < seg.maxMsgNum := hx'
    have hold := hq.buffer (x + amount) (by omega) (by omega)
    have hplace : (x + amount) % MAXNUMMESSAGES = x % MAXNUMMESSAGES := by
      simp only [MAXNUMMESSAGES] at hwrap ⊢
      omega
    have hsum : s.base + (x + amount) = s.base + amount + x := by omega
    rw [SISeg.get, hplace, hsum] at hold
    rw [hbase, SISeg.get]
    change s.log[(s.base + amount + x).toNat]? = some (seg.buffer (x % MAXNUMMESSAGES))
    rw [h.buffer]
    exact hold

/-- **`SICleanupQueue` under both locks.** -/
theorem Inv.cleanup {minFree : ℤ} (hold : (s.pc p).holdsWrite)
    (hkick : ∀ rest j, s.pc p ≠ .insertKick rest j) (hlock : s.ReadFree)
    (hfree : minFree ≤ MAXNUMMESSAGES) (hpc : pc ≠ .unregistered)
    (hwr : ∀ seg : SISeg μ, WriterInv seg pc)
    (hother : ∀ t : Sys μ, ReaderInv t p (s.pc p) → ReaderInv t p pc) :
    Inv ((s.cleanup minFree).setPc p pc) := by
  have hp : s.Registered p := by
    intro hun
    rw [hun] at hold
    exact hold
  obtain ⟨amount, h⟩ := SICleanupQueue_spec s.seg minFree
  obtain ⟨hqueue, hmin⟩ := QueueInv.cleanup hi h
  set t := (s.cleanup minFree).setPc p pc with ht
  have hb : t.backends p = { s.backends p with pc := pc } := Sys.setBackend_self ..
  have hoth : ∀ q, q ≠ p → t.backends q = s.backends q := fun q hq => update_of_ne hq _ _
  have hsame : ∀ q, (t.backends q).slot = (s.backends q).slot ∧
      (t.backends q).start = (s.backends q).start ∧
      t.pieces q = s.pieces q := by
    intro q
    rw [Sys.pieces]
    by_cases hq : q = p
    · rw [hq, hb]
      exact ⟨rfl, rfl, rfl⟩
    · rw [hoth q hq]
      exact ⟨rfl, rfl, rfl⟩
  have hmax := h.maxMsgNum
  have hbase : t.base = s.base + amount := by
    simp only [ht, Sys.setPc, Sys.setBackend, Sys.cleanup]
    omega
  -- the writer is the backend itself, which is not telling anybody
  have hnokick : ∀ i, ¬ s.Kicks i := by
    rintro i ⟨w, rest, j, hw, -⟩
    obtain rfl : w = p := hi.excl w p (by rw [hw]; trivial) hold
    exact hkick rest j hw
  have hreads : ∀ q, s.Registered q → (s.state q).sendOnly = false → ReaderInv t q (s.pc q) := by
    intro q hq hs
    have hr := hi.reader q hq hs
    obtain ⟨hne, hlt, hpid⟩ := hi.slot q hq
    have hst : t.state q = (SICleanupQueue s.seg minFree).1.procState (s.backends q).slot := by
      rw [Sys.state, (hsame q).1]
      rfl
    have hnext : t.next q = s.next q := by
      rw [Sys.next, hst, h.nextMsgNum _ hlt, Sys.next, Sys.state]
      omega
    have hhas : (t.state q).hasMessages = (s.state q).hasMessages := by
      rw [hst, h.hasMessages, Sys.state]
    have hkeep : (t.state q).resetState = false → (s.state q).resetState = false := by
      intro hf
      by_contra hne
      rw [hst, h.keep _ (by rw [Sys.state] at hne; simpa using hne)] at hf
      cases hf
    have hcau : Caught s q s.log.length → Caught t q s.log.length := by
      rintro ⟨pos, hf, hle, hpos⟩
      refine ⟨pos, ?_, hle, fun hf' => ?_⟩
      · rw [(hsame q).2.1, (hsame q).2.2]
        exact hf
      · have hfol := h.le_next _ hlt (by rw [← Sys.state, hpid]; exact hne)
          (by rw [← Sys.state]; exact hs) (hst ▸ hf')
        refine ⟨(hpos (hkeep hf')).1.trans hnext.symm, ?_⟩
        rw [Sys.next, hst]
        change _ + (SICleanupQueue s.seg minFree).1.minMsgNum ≤ _
        omega
    have hunread : ∀ x, Unread s q x → Unread t q x := by
      rintro x (hreset | hx)
      · refine .inl ?_
        rw [hst]
        exact h.keep _ hreset
      · refine .inr ?_
        rw [hnext]
        exact hx
    have hdefault : ReaderInv s q .ready → ReaderInv t q .ready := by
      rintro ⟨hc, hreset, hfresh⟩
      refine ⟨hcau hc, fun ht => ?_, fun hf => ?_⟩
      · rw [hhas]
        by_cases hr : (s.state q).resetState = true
        · exact hreset hr
        · -- a backend that is reset has messages to read
          have hr' : (s.state q).resetState = false := by simpa using hr
          have hbehind := (h.reset _ (hst ▸ ht)).resolve_left (by exact hr)
          have hlen := hi.queue.length
          refine ((hfresh hr').2 ?_).resolve_right (hnokick _)
          rw [Sys.next, Sys.state]
          omega
      · obtain ⟨hcompl, hlog⟩ := hfresh (hkeep hf)
        rw [hnext]
        refine ⟨fun hx => ?_, fun hx => .inl ?_⟩
        · rw [hhas]
          exact hcompl hx
        · rw [hhas]
          exact (hlog hx).resolve_right (hnokick _)
    have hnoread := hlock q
    generalize s.pc q = pcq at hr hnoread
    cases pcq with
    | readLock datasize due =>
      obtain ⟨hc, hset, hdue⟩ := hr
      exact ⟨hcau hc, hhas.trans hset, fun hd => hunread _ (hdue hd)⟩
    | readClear datasize due | readMax datasize due
    | readTest datasize due max | readCopy datasize due max data => exact absurd trivial hnoread
    | _ => exact hdefault hr
  exact hi.run hp hb hpc hoth rfl h.procPid h.sendOnly h.lastBackend (fun _ => .inl hold)
    (hqueue.congr rfl rfl rfl rfl rfl hqueue.completed) (.inr hold) (hwr _)
    (fun q _ hq hs => hreads q hq hs) (fun hs => hother _ (hreads p hp hs)) (hi.reads p hp)

/-! ### A reader -/

/-- **The rule for a step of a reader.** -/
theorem Inv.read {st : ProcState} {b : Backend μ} (hpc₀ : s.pc p = pc₀) (hp : pc₀ ≠ .unregistered)
    (hkick : ∀ rest j, pc₀ ≠ .insertKick rest j) (hpid : st.procPid = (s.state p).procPid)
    (hsend : st.sendOnly = (s.state p).sendOnly) (hslot : b.slot = (s.backends p).slot)
    (hpc : b.pc ≠ .unregistered) (hlock : ¬ b.pc.holdsWrite) (hwr : WriterInv s.seg b.pc)
    (hread : ReaderInv s p pc₀ → ∀ t : Sys μ, t.log = s.log → t.base = s.base →
      t.seg.minMsgNum = s.seg.minMsgNum → t.completed = s.completed → t.backends p = b →
      t.state p = st → (∀ i, s.Kicks i → t.Kicks i) → ReaderInv t p b.pc)
    (hreads : ∀ r ∈ b.reads, r ∈ (s.backends p).reads ∨ (ReaderInv s p pc₀ → Fulfilled r)) :
    Inv ((s.setState p st).setBackend p b) := by
  subst hpc₀
  obtain ⟨h, hst⟩ := OwnStep.setState s hpid hsend hslot
  have hb : ((s.setState p st).setBackend p b).backends p = b := Sys.setBackend_self ..
  refine hi.own h hp hb hpc hkick (fun hw => absurd hw hlock) hwr (fun hs => ?_)
    fun hs r hr => ?_
  · exact hread (hi.reader p hp hs) _ h.log h.base h.min h.completed hb hst
      fun i => kicks_of_others h.others hkick
  · exact (hreads r hr).elim (hi.reads p hp hs r) fun hnew => hnew (hi.reader p hp hs)

/-- The flag of a backend is cleared. -/
theorem Inv.readClear (hpc : s.pc p = .readClear datasize due) :
    Inv ((s.setState p { s.state p with hasMessages := false }).setPc p
      (.readMax datasize due)) := by
  refine hi.read hpc nofun nofun rfl rfl rfl nofun id trivial
    (fun hr t hlog hbase hmin _ hb hst _ => ?_) fun r hr => .inl hr
  obtain ⟨⟨pos, hf, hle, hpos⟩, -, hdue⟩ := hr
  have hnext : t.next p = s.next p := by rw [Sys.next, hst, hbase, Sys.next]
  refine ⟨⟨pos, ?_, ?_, ?_⟩, fun hd => ?_⟩
  · rw [hlog, Sys.pieces, hb]
    exact hf
  · rw [hlog]
    exact hle
  · rw [hst, hnext, hbase, hmin]
    exact hpos
  · rw [Unread, hst, hnext, hlog]
    exact hdue hd

/-- A backend that was told to reset. -/
theorem Inv.readReset (hpc : s.pc p = .readTest datasize due max) :
    Inv ((s.setState p { s.state p with
      nextMsgNum := max, resetState := false, signaled := false }).finishRead p
      ⟨due, datasize, none⟩) := by
  refine hi.read hpc nofun nofun rfl rfl rfl nofun id trivial
    (fun hr t hlog hbase hmin hcompl hb hst hkicks => ?_)
    fun r hmem => (mem_append.mp hmem).imp_right fun hnew _ => ?_
  · obtain ⟨⟨pos, hf, hle, -⟩, hfresh, hmax, hmin', -⟩ := hr
    have hnext : t.next p = s.base + max := by rw [Sys.next, hst, hbase]
    refine ⟨⟨(s.base + max).toNat, ?_, ?_, fun _ => ⟨?_, ?_⟩⟩, fun hr => ?_, fun _ => ⟨?_, ?_⟩⟩
    · rw [hlog, Sys.pieces, hb, map_append]
      exact hf.gap (by omega)
    · rw [hlog]
      omega
    · omega
    · omega
    · rw [hst] at hr
      cases hr
    · rw [hnext, hcompl, hst]
      exact hfresh.1
    · rw [hnext, hlog, hst, hb]
      exact fun hx => (hfresh.2 hx).imp_right (hkicks _)
  · obtain rfl := mem_singleton.mp hnew
    exact fun _ _ => by simp [Read.value]

/-- A message is taken from the buffer. -/
theorem Inv.readCopy {data : List μ} (hpc : s.pc p = .readCopy datasize due max data)
    (hlt : (s.state p).nextMsgNum < max) :
    Inv ((s.setState p { s.state p with nextMsgNum := (s.state p).nextMsgNum + 1 }).setPc p
      (.readCopy datasize due max (data ++ [s.seg.get (s.state p).nextMsgNum]))) := by
  refine hi.read hpc nofun nofun rfl rfl rfl nofun id trivial
    (fun hr t hlog hbase hmin hcompl hb hst hkicks => ?_) fun r hr => .inl hr
  obtain ⟨hreset, ⟨pos, hf, hpos, hdata⟩, hfresh, hmax, hmin', hle, -⟩ := hr
  have hnext : t.next p = s.next p + 1 := by
    rw [Sys.next, hst, hbase]
    exact (add_assoc _ _ _).symm
  have hlen := hi.queue.length
  have hdef : s.next p = s.base + (s.state p).nextMsgNum := rfl
  -- the message is in the queue
  have hget := hi.queue.buffer (s.state p).nextMsgNum (by omega) (by omega)
  have hidx : (s.base + (s.state p).nextMsgNum).toNat = pos + data.length := by omega
  rw [hidx] at hget
  refine ⟨?_, ⟨pos, ?_, ?_, ?_⟩, ⟨?_, ?_⟩, ?_, ?_, ?_, fun _ => .inl (by simp)⟩
  · rw [hst]
    exact hreset
  · rw [hlog, Sys.pieces, hb]
    exact hf
  · rw [length_append, length_singleton]
    omega
  · rw [hlog]
    exact prefix_drop_append hdata hget
  · rw [hbase, hcompl, hst]
    exact hfresh.1
  · rw [hbase, hlog, hst, hb]
    exact fun hx => (hfresh.2 hx).imp_right (hkicks _)
  · rw [hbase, hlog]
    exact hmax
  · omega
  · omega

/-- **`SIGetDataEntries` returns messages.** The flag is set if there are more. -/
theorem Inv.readDone {data : List μ} {st : ProcState}
    (hpc : s.pc p = .readCopy datasize due max data)
    (hpid : st.procPid = (s.state p).procPid) (hsend : st.sendOnly = (s.state p).sendOnly)
    (hnextMsgNum : st.nextMsgNum = (s.state p).nextMsgNum)
    (hresetState : st.resetState = (s.state p).resetState)
    (hdone : max ≤ (s.state p).nextMsgNum ∧ st.hasMessages = (s.state p).hasMessages ∨
      datasize ≤ data.length ∧ st.hasMessages = true) :
    Inv ((s.setState p st).finishRead p ⟨due, datasize, some data⟩) := by
  have hdef : s.next p = s.base + (s.state p).nextMsgNum := rfl
  refine hi.read hpc nofun nofun hpid hsend rfl nofun id trivial
    (fun hr t hlog hbase hmin hcompl hb hst hkicks => ?_)
    fun r hmem => (mem_append.mp hmem).imp_right fun hnew hr => ?_
  · obtain ⟨hreset, ⟨pos, hf, hpos, hdata⟩, hfresh, hmax, hmin', hle, -⟩ := hr
    have hnext : t.next p = s.next p := by rw [Sys.next, hst, hbase, hnextMsgNum, Sys.next]
    refine ⟨⟨pos + data.length, ?_, ?_, fun _ => ⟨?_, ?_⟩⟩, fun hr => ?_, fun _ => ⟨?_, ?_⟩⟩
    · rw [hlog, Sys.pieces, hb, map_append]
      exact hf.piece hdata
    · rw [hlog]
      omega
    · omega
    · rw [hnext, hbase, hmin]
      exact hmin'
    · rw [hst, hresetState, hreset] at hr
      cases hr
    · rw [hst]
      intro hx
      rcases hdone with ⟨hge, hhas⟩ | ⟨-, hhas⟩
      · rw [hhas]
        exact hfresh.1 (by omega)
      · exact hhas
    · rw [hnext, hlog, hst, hb]
      intro hx
      rcases hdone with ⟨hge, hhas⟩ | ⟨-, hhas⟩
      · rw [hhas]
        exact (hfresh.2 (by omega)).imp_right (hkicks _)
      · exact .inl hhas
  · obtain rfl := mem_singleton.mp hnew
    intro hd hsize
    obtain ⟨-, -, -, -, -, -, hdue⟩ := hr
    have hpos : 0 < data.length := by
      rcases hdone with ⟨hge, -⟩ | ⟨hlen, -⟩
      · rcases hdue hd with hne | hlt
        · exact length_pos_iff.mpr hne
        · omega
      · change 0 < datasize at hsize
        omega
    simp only [Read.value]
    omega

omit hi in
theorem setState_self (s : Sys μ) (p : ℕ) : s.setState p (s.state p) = s := by
  rw [Sys.setState, SISeg.setState, Sys.state, update_eq_self]
  rfl

/-- **`SIGetDataEntries` returns at once.** Nothing was due. -/
theorem Inv.readNone (hpc : s.pc p = .ready) (hhas : (s.state p).hasMessages = false) :
    Inv (s.finishRead p ⟨s.due p, datasize, some []⟩) := by
  have hread : Inv ((s.setState p (s.state p)).finishRead p ⟨s.due p, datasize, some []⟩) := by
    refine hi.read hpc nofun nofun rfl rfl rfl nofun id trivial
      (fun hr t hlog hbase hmin hcompl hb hst hkicks => ?_)
      fun r hmem => (mem_append.mp hmem).imp_right fun hnew hr => ?_
    · obtain ⟨⟨pos, hf, hle, hpos⟩, hreset, hfresh⟩ := hr
      have hnext : t.next p = s.next p := by rw [Sys.next, hst, hbase, Sys.next]
      refine ⟨⟨pos, ?_, ?_, ?_⟩, ?_, fun hr => ?_⟩
      · rw [hlog, Sys.pieces, hb, map_append]
        exact hf.piece nil_prefix
      · rw [hlog]
        exact hle
      · rw [hnext, hst, hbase, hmin]
        exact hpos
      · rw [hst]
        exact hreset
      · rw [hst] at hr
        obtain ⟨hdone, hnew⟩ := hfresh hr
        rw [hnext, Fresh, hcompl, hlog, hst, hb]
        exact ⟨hdone, fun hx => (hnew hx).imp_right (hkicks _)⟩
    · obtain rfl := mem_singleton.mp hnew
      intro hd
      obtain ⟨-, hreset, hfresh⟩ := hr
      have hset : (s.state p).hasMessages = true := by
        by_cases hr : (s.state p).resetState = true
        · exact hreset hr
        · have hr' : (s.state p).resetState = false := by simpa using hr
          refine (hfresh hr').1 ?_
          simpa [Sys.due, hr', Sys.next] using hd
      rw [hhas] at hset
      cases hset
  rwa [setState_self] at hread

/-! ### Backends come and go -/

/-- **The rule for a backend that comes or goes.** -/
theorem Inv.enroll (hkick : ∀ rest j, s.pc p ≠ .insertKick rest j)
    (hlock : ¬ (s'.pc p).holdsWrite) (hoth : ∀ q, q ≠ p → s'.backends q = s.backends q)
    (hmin : s'.seg.minMsgNum = s.seg.minMsgNum) (hmax : s'.seg.maxMsgNum = s.seg.maxMsgNum)
    (hbuf : s'.seg.buffer = s.seg.buffer) (hlog : s'.log = s.log) (hbase : s'.base = s.base)
    (hcompl : s'.completed = s.completed)
    (howned : ∀ i, (s'.seg.procState i).procPid ≠ 0 → s'.Registered (s'.seg.procState i).procPid ∧
        (s'.backends (s'.seg.procState i).procPid).slot = i)
    (hslots : ∀ q, q ≠ p → s.Registered q → (s.backends q).slot < s'.seg.lastBackend ∧
      s'.state q = s.state q)
    (hslot : s'.Registered p → p ≠ 0 ∧ (s'.backends p).slot < s'.seg.lastBackend ∧
      (s'.state p).procPid = p) (hwr : WriterInv s'.seg (s'.pc p))
    (hread : s'.Registered p → ReaderInv s' p (s'.pc p))
    (hreads : s'.Registered p → ∀ r ∈ (s'.backends p).reads, Fulfilled r) : Inv s' := by
  have hpcs : ∀ q, q ≠ p → s'.pc q = s.pc q := fun q hq => by rw [Sys.pc, hoth q hq, Sys.pc]
  have hreg : ∀ q, q ≠ p → s'.Registered q → s.Registered q := by
    intro q hq h
    rw [Sys.Registered, hpcs q hq] at h
    exact h
  refine ⟨?_, fun a b ha hb => ?_, howned, fun q hq => ?_, fun q => ?_, fun q hq hs => ?_,
    fun q hq hs => ?_⟩
  · exact hi.queue.congr hmin hmax hbuf hlog hbase (hcompl ▸ hi.queue.completed)
  · have hap : a ≠ p := fun h => hlock (h ▸ ha)
    have hbp : b ≠ p := fun h => hlock (h ▸ hb)
    rw [hpcs a hap] at ha
    rw [hpcs b hbp] at hb
    exact hi.excl a b ha hb
  · by_cases hqp : q = p
    · subst hqp
      exact hslot hq
    · obtain ⟨hlt, hst⟩ := hslots q hqp (hreg q hqp hq)
      rw [hst, hoth q hqp]
      exact ⟨(hi.slot q (hreg q hqp hq)).1, hlt, (hi.slot q (hreg q hqp hq)).2.2⟩
  · by_cases hqp : q = p
    · rw [hqp]
      exact hwr
    · rw [hpcs q hqp]
      exact (hi.writer q).congr (.inl ⟨hmin, hmax, hbuf⟩)
  · by_cases hqp : q = p
    · subst hqp
      exact hread hq
    · have hst := (hslots q hqp (hreg q hqp hq)).2
      have hb := hoth q hqp
      have hframe : Frame s s' q := .of_same (by rw [hb]) (by rw [hb]) (by rw [hb]) hst hbase hmin
        hlog hcompl (kicks_of_others hoth hkick)
      rw [hpcs q hqp]
      exact hframe.reader (hi.reader q (hreg q hqp hq) (hst ▸ hs))
  · by_cases hqp : q = p
    · subst hqp
      exact hreads hq
    · rw [hoth q hqp]
      exact hi.reads q (hreg q hqp hq) ((hslots q hqp (hreg q hqp hq)).2 ▸ hs)

/-- **A backend registers.** -/
theorem Inv.register {slot : ℕ} {sendOnly : Bool} {seg : SISeg μ} (hpid : p ≠ 0)
    (hpc : s.pc p = .unregistered)
    (hinit : SharedInvalBackendInit s.seg p sendOnly = some (seg, slot)) :
    Inv ((s.setSeg seg).setBackend p ⟨.ready, slot, s.log.length, []⟩) := by
  unfold SharedInvalBackendInit at hinit
  split at hinit
  · cases hinit
  rename_i index last hfree
  obtain ⟨rfl, rfl⟩ := Prod.mk.inj (Option.some.inj hinit)
  obtain ⟨hindex, hlast, hfree'⟩ := freeEntry_spec hfree
  set st : ProcState := { s.seg.procState index with
    procPid := p
    nextMsgNum := s.seg.maxMsgNum
    resetState := false
    signaled := false
    hasMessages := false
    sendOnly := sendOnly } with hst
  set s' : Sys μ := (s.setSeg ({ s.seg with lastBackend := last }.setState index st)).setBackend p
    ⟨.ready, index, s.log.length, []⟩ with hs'
  have hb : s'.backends p = ⟨.ready, index, s.log.length, []⟩ := Sys.setBackend_self ..
  have hpc' : s'.pc p = .ready := Sys.pc_setBackend ..
  have hoth : ∀ q, q ≠ p → s'.backends q = s.backends q := fun q hq =>
    update_of_ne hq _ _
  have hentry : s'.seg.procState index = st := update_self ..
  have hent : ∀ i, i ≠ index → s'.seg.procState i = s.seg.procState i := fun i hi =>
    update_of_ne hi _ _
  have hstate : s'.state p = st := by rw [Sys.state, hb, hentry]
  -- the entry was not in use
  have hne : ∀ q, s.Registered q → (s.backends q).slot ≠ index := by
    intro q hq heq
    obtain ⟨hq0, hlt, hid⟩ := hi.slot q hq
    rw [Sys.state, heq, hfree' (heq ▸ hlt)] at hid
    exact hq0 hid.symm
  have hnext : s'.next p = s.log.length := by
    rw [Sys.next, hstate]
    exact hi.queue.length
  refine hi.enroll (by rw [hpc]; simp) (by rw [hpc']; exact id) hoth rfl rfl rfl rfl rfl rfl
    (fun i hi' => ?_) (fun q hq hreg => ⟨?_, ?_⟩) (fun _ => ⟨hpid, ?_, ?_⟩) ?_ (fun _ => ?_)
    fun _ r hr => ?_
  · by_cases hidx : i = index
    · rw [hidx, hentry, Sys.Registered]
      rw [hpc', hb]
      exact ⟨by simp, rfl⟩
    · rw [hent i hidx] at hi' ⊢
      obtain ⟨hreg, hslot⟩ := hi.owned i hi'
      have hqp : (s.seg.procState i).procPid ≠ p := fun h => hreg (h ▸ hpc)
      rw [Sys.Registered, Sys.pc, hoth _ hqp]
      exact ⟨hreg, hslot⟩
  · have := (hi.slot q hreg).2.1
    change (s.backends q).slot < last
    omega
  · rw [Sys.state, hoth q hq, hent _ (hne q hreg), Sys.state]
  · rw [hb]
    exact hindex
  · rw [hstate]
  · rw [hpc']
    trivial
  · rw [hpc']
    refine ⟨⟨s.log.length, ?_, le_refl _, fun _ => ⟨hnext.symm, ?_⟩⟩, fun hr => ?_, fun _ => ?_⟩
    · rw [Sys.pieces, hb]
      exact .nil
    · have hle := hi.queue.le
      have hlen := hi.queue.length
      rw [hnext]
      change s.base + s.seg.minMsgNum ≤ s.log.length
      omega
    · rw [hstate] at hr
      cases hr
    · rw [hnext]
      have hcompl := hi.queue.completed
      refine ⟨fun hx => ?_, fun hx => absurd hx (lt_irrefl _)⟩
      change (s.log.length : ℤ) < s.completed at hx
      omega
  · rw [hb] at hr
    cases hr

/-- **A backend exits.** -/
theorem Inv.exit {nextLocalTransactionId : ℕ} (hpc : s.pc p = .ready) :
    Inv ((s.setSeg (CleanupInvalidationState s.seg (s.backends p).slot
      nextLocalTransactionId)).setPc p .unregistered) := by
  have hp : s.Registered p := by
    simp [Sys.Registered, hpc]
  set s' : Sys μ := (s.setSeg (CleanupInvalidationState s.seg (s.backends p).slot
    nextLocalTransactionId)).setPc p .unregistered with hs'
  have hpc' : s'.pc p = .unregistered := Sys.pc_setBackend ..
  have hun : ¬ s'.Registered p := fun h => h hpc'
  have hoth : ∀ q, q ≠ p → s'.backends q = s.backends q := fun q hq =>
    update_of_ne hq _ _
  have hentry : (s'.seg.procState (s.backends p).slot).procPid = 0 := by
    have : s'.seg.procState (s.backends p).slot = _ := update_self ..
    rw [this]
  have hent : ∀ i, i ≠ (s.backends p).slot → s'.seg.procState i = s.seg.procState i :=
    fun i hi => update_of_ne hi _ _
  refine hi.enroll (by rw [hpc]; simp) (by rw [hpc']; exact id) hoth rfl rfl rfl rfl rfl rfl
    (fun i hi' => ?_) (fun q hq hreg => ?_) (fun h => absurd h hun) ?_ (fun h => absurd h hun)
    fun h => absurd h hun
  · have hne : i ≠ (s.backends p).slot := fun h => hi' (h ▸ hentry)
    rw [hent i hne] at hi' ⊢
    obtain ⟨hreg, hslot⟩ := hi.owned i hi'
    have hqp : (s.seg.procState i).procPid ≠ p := by
      intro h
      rw [h] at hslot
      exact hne hslot.symm
    rw [Sys.Registered, Sys.pc, hoth _ hqp]
    exact ⟨hreg, hslot⟩
  · have hne := hi.slot_ne hp hreg hq
    obtain ⟨hq0, hlt, hid⟩ := hi.slot q hreg
    have hentry' := hent _ hne
    refine ⟨lt_lastActive hlt fun hz => hq0 ?_, ?_⟩
    · exact hid.symm.trans ((congrArg ProcState.procPid hentry').symm.trans hz)
    · rw [Sys.state, hoth q hq, hentry', Sys.state]
  · rw [hpc']
    trivial

/-! ### All steps -/

/-- **Every step keeps the invariant.** -/
theorem Inv.step (h : Step s s') : Inv s' := by
  cases h with
  | register hpid hpc _ hinit => exact hi.register hpid hpc hinit
  | exit hpc _ => exact hi.exit hpc
  | insert hpc _ => exact hi.goOn hpc (by simp) (by simp) (by simp) False.elim trivial fun _ h => h
  | insertLock hpc hlock =>
    exact hi.goOn hpc (by simp) (by simp) (by simp) (fun _ => .inr hlock) (length_take_le ..)
      fun _ h => h
  | insertFull hpc _ =>
    have hw : WriterInv s.seg (.insertCheck _ _) := hpc ▸ hi.writer _
    exact hi.goOn hpc (by simp) (by simp) (by simp) (fun _ => .inl trivial) hw fun _ h => h
  | insertRoom hpc hfull =>
    refine hi.goOn hpc (by simp) (by simp) (by simp) (fun _ => .inl trivial) ?_ fun _ h => h
    refine ⟨Nat.zero_le _, (add_zero _).symm, ?_, fun j hj => absurd hj (Nat.not_lt_zero _)⟩
    unfold SISeg.Full at hfull
    omega
  | insertClean hpc hlock _ | insertSignal hpc hlock _ =>
    have hw : WriterInv s.seg (.insertClean _ _) := hpc ▸ hi.writer _
    refine hi.cleanup (by rw [hpc]; trivial) (by rw [hpc]; simp) hlock ?_ (by simp)
      (fun _ => hw) (by rw [hpc]; exact fun _ h => h)
    exact le_trans (ofNat_le.mpr hw) (by decide)
  | insertRelock hpc hlock =>
    have hw : WriterInv s.seg (.insertRelock _ _) := hpc ▸ hi.writer _
    exact hi.goOn hpc (by simp) (by simp) (by simp) (fun _ => .inr hlock) hw fun _ h => h
  | insertCopy hpc hk => exact hi.insertCopy hpc hk
  | insertMax hpc hk => exact hi.insertMax hpc hk
  | insertKick hpc _ => exact hi.insertKick hpc
  | insertNext hpc hlast _
  | insertDone hpc hlast => exact hi.complete hpc hlast (by simp) trivial id
  | cleanup hpc hlock hfree =>
    exact hi.goOn hpc (by simp) (by simp) (by simp) (fun _ => .inr hlock) hfree fun _ h => h
  | cleanupDone hpc hlock =>
    have hw : WriterInv s.seg (.cleanup _) := hpc ▸ hi.writer _
    exact hi.cleanup (by rw [hpc]; trivial) (by rw [hpc]; simp) hlock hw.2 (by simp)
      (fun _ => trivial) (by rw [hpc]; exact fun _ h => h)
  | readNone hpc _ hhas => exact hi.readNone hpc hhas
  | @readSome p datasize hpc _ hhas =>
    refine hi.goOn hpc (by simp) (by simp) (by simp) False.elim trivial ?_
    rintro _ ⟨hc, -, -⟩
    have hst := state_setPc s p (.readLock datasize (s.due p))
    refine ⟨hc, by rw [hst]; exact hhas, fun hd => ?_⟩
    rw [Unread, Sys.next, hst]
    have hcompl := hi.queue.completed
    simp only [Sys.due, Bool.or_eq_true, decide_eq_true_eq] at hd
    refine hd.imp_right fun hlt => ?_
    change s.base + (s.state p).nextMsgNum < s.log.length
    omega
  | readLock hpc => exact hi.goOn hpc (by simp) (by simp) (by simp) False.elim trivial fun _ h => h
  | readClear hpc => exact hi.readClear hpc
  | @readMax p datasize due hpc =>
    refine hi.goOn hpc (by simp) (by simp) (by simp) False.elim trivial ?_
    rintro _ ⟨hc, hdue⟩
    have hlength := hi.queue.length
    have hcompl := hi.queue.completed
    -- everything is older than what has just been read
    have heq : (s.setPc p (.readTest datasize due s.seg.maxMsgNum)).base + s.seg.maxMsgNum =
        (s.setPc p (.readTest datasize due s.seg.maxMsgNum)).log.length := hlength
    refine ⟨heq ▸ hc, ⟨fun hx => ?_, fun hx => ?_⟩, le_of_eq heq, hi.queue.le, heq ▸ hdue⟩
    · change s.base + s.seg.maxMsgNum < s.completed at hx
      omega
    · rw [heq] at hx
      exact absurd hx (lt_irrefl _)
  | readReset hpc _ => exact hi.readReset hpc
  | @readStart p datasize due max hpc hreset =>
    refine hi.goOn hpc (by simp) (by simp) (by simp) False.elim trivial ?_
    rintro _ ⟨⟨pos, hf, hle, hpos⟩, hfresh, hmax, -, hdue⟩
    have hst := state_setPc s p (.readCopy datasize due max [])
    have hreset' := hst ▸ hreset
    obtain ⟨heq, hmin⟩ := hpos hreset'
    refine ⟨hreset', ⟨pos, hf, ?_, nil_prefix⟩, hfresh, hmax, hmin, heq ▸ hle, fun hd => ?_⟩
    · rw [← heq]
      exact add_zero _
    · refine .inr ((hdue hd).resolve_left fun h => ?_)
      rw [hreset'] at h
      cases h
  | readCopy hpc _ hlt => exact hi.readCopy hpc hlt
  | readAll hpc hge => exact hi.readDone hpc rfl rfl rfl rfl (.inl ⟨hge, rfl⟩)
  | readPart hpc hlen _ => exact hi.readDone hpc rfl rfl rfl rfl (.inr ⟨hlen, rfl⟩)

end FdPostgres.Sinval
