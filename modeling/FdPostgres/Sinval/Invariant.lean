import FdPostgres.Sinval.Steps

/-!
# What Holds Between Steps

The queue holds the messages of the log from the oldest number to the newest one. A backend has got
everything up to its number, and its flag is set while there is something to read, unless it is
reading or the writer has not yet come to it.

* `Inv`: what holds between steps.
* `Frame`, `Frame.reader`: **what a step of another backend may change without harm to a reader.**
* `OwnStep`, `Inv.own`: **a step that changes only the entry of the backend.**
-/

namespace FdPostgres.Sinval

open Function LogReader

variable {μ : Type*}

namespace Sys

/-- The backend has registered. -/
def Registered (s : Sys μ) (p : ℕ) : Prop := s.pc p ≠ .unregistered

/-- A writer has still to tell a backend that there are messages. -/
def Kicks (s : Sys μ) (i : ℕ) : Prop := ∃ q rest j, s.pc q = .insertKick rest j ∧ j ≤ i

/-- The position in the log of the next message of a backend. -/
def next (s : Sys μ) (p : ℕ) : ℤ := s.base + (s.state p).nextMsgNum

/-- The reads of a backend as pieces and gaps. -/
def pieces (s : Sys μ) (p : ℕ) : List (Option (List μ)) := (s.backends p).reads.map Read.result

@[simp] theorem setBackend_self (s : Sys μ) (p : ℕ) (b : Backend μ) :
    (s.setBackend p b).backends p = b := update_self ..

@[simp] theorem pc_setBackend (s : Sys μ) (p : ℕ) (b : Backend μ) :
    (s.setBackend p b).pc p = b.pc := congrArg Backend.pc (s.setBackend_self p b)

end Sys

/-- The queue holds the end of the log. -/
structure QueueInv (s : Sys μ) : Prop where
  base_nonneg : 0 ≤ s.base
  wrap : s.base % MAXNUMMESSAGES = 0
  nonneg : 0 ≤ s.seg.minMsgNum
  le : s.seg.minMsgNum ≤ s.seg.maxMsgNum
  full : s.seg.maxMsgNum ≤ s.seg.minMsgNum + MAXNUMMESSAGES
  length : s.base + s.seg.maxMsgNum = s.log.length
  buffer : ∀ x, s.seg.minMsgNum ≤ x → x < s.seg.maxMsgNum →
    s.log[(s.base + x).toNat]? = some (s.seg.get x)
  completed : s.completed ≤ s.log.length

/-- What a writer has done so far, by where it is: messages copied are behind `maxMsgNum`, and there
was room for them. -/
def WriterInv (seg : SISeg μ) : Pc μ → Prop
  | .insertCheck group _ | .insertClean group _ | .insertRelock group _ =>
      group.length ≤ WRITE_QUANTUM
  | .insertCopy group _ k max =>
      k ≤ group.length ∧ max = seg.maxMsgNum + k ∧
        seg.maxMsgNum + group.length ≤ seg.minMsgNum + MAXNUMMESSAGES ∧
        ∀ j < k, ∀ m, group[j]? = some m → seg.get (seg.maxMsgNum + j) = m
  | .cleanup minFree => 0 ≤ minFree ∧ minFree ≤ MAXNUMMESSAGES
  | _ => True

/-- The backend has got what it has to get so far, up to some position. -/
def Caught (s : Sys μ) (p : ℕ) (x : ℤ) : Prop :=
  ∃ pos : ℕ, Follows s.log (s.backends p).start (s.pieces p) pos ∧ (pos : ℤ) ≤ x ∧
    ((s.state p).resetState = false → (pos : ℤ) = s.next p ∧ s.base + s.seg.minMsgNum ≤ s.next p)

/-- The flag is set if there are messages behind a position, unless the writer has not yet come to
the backend. -/
def Fresh (s : Sys μ) (p : ℕ) (x : ℤ) : Prop :=
  (x < s.completed → (s.state p).hasMessages = true) ∧
    (x < s.log.length → (s.state p).hasMessages = true ∨ s.Kicks (s.backends p).slot)

/-- The backend has a reset or messages to read. -/
def Unread (s : Sys μ) (p : ℕ) (x : ℤ) : Prop := (s.state p).resetState = true ∨ s.next p < x

/-- What holds for a reader, by where it is: what it has got so far, and what it still has to
get. -/
def ReaderInv (s : Sys μ) (p : ℕ) : Pc μ → Prop
  | .readLock _ due | .readClear _ due =>
      Caught s p s.log.length ∧ (s.state p).hasMessages = true ∧
        (due = true → Unread s p s.log.length)
  | .readMax _ due => Caught s p s.log.length ∧ (due = true → Unread s p s.log.length)
  | .readTest _ due max =>
      Caught s p (s.base + max) ∧ Fresh s p (s.base + max) ∧ s.base + max ≤ s.log.length ∧
        s.seg.minMsgNum ≤ max ∧ (due = true → Unread s p (s.base + max))
  | .readCopy _ due max data =>
      (s.state p).resetState = false ∧
        (∃ pos : ℕ, Follows s.log (s.backends p).start (s.pieces p) pos ∧
          (pos : ℤ) + data.length = s.next p ∧ data <+: s.log.drop pos) ∧
        Fresh s p (s.base + max) ∧ s.base + max ≤ s.log.length ∧
        s.base + s.seg.minMsgNum ≤ s.next p ∧ s.next p ≤ s.base + max ∧
        (due = true → data ≠ [] ∨ s.next p < s.base + max)
  | _ =>
      Caught s p s.log.length ∧
      ((s.state p).resetState = true → (s.state p).hasMessages = true) ∧
      ((s.state p).resetState = false → Fresh s p (s.next p))

variable {p : ℕ} {pc : Pc μ} {s s' : Sys μ}

/-- A backend that has not been reset is within the queue. -/
theorem ReaderInv.bounds (h : ReaderInv s p pc) (hreset : (s.state p).resetState = false) :
    s.base + s.seg.minMsgNum ≤ s.next p ∧ s.next p ≤ s.log.length := by
  have hcau : ∀ x : ℤ, x ≤ s.log.length → Caught s p x →
      s.base + s.seg.minMsgNum ≤ s.next p ∧ s.next p ≤ s.log.length := by
    rintro x hx ⟨pos, -, hle, hpos⟩
    obtain ⟨heq, hmin⟩ := hpos hreset
    exact ⟨hmin, by omega⟩
  cases pc with
  | readTest datasize due max => exact hcau _ h.2.2.1 h.1
  | readCopy datasize due max data =>
    obtain ⟨-, -, -, hmax, hmin, hnext, -⟩ := h
    exact ⟨hmin, by omega⟩
  | _ => exact hcau _ (Int.le_refl _) h.1

/-- A read that was due has returned something. -/
def Fulfilled (r : Read μ) : Prop := r.due = true → 0 < r.datasize → r.value ≠ 0

/-- **The invariant of the system**: the queue is in order, locks and entries have one owner each,
and what was written and read so far is as the place of each backend says. -/
structure Inv (s : Sys μ) : Prop where
  queue : QueueInv s
  /-- One backend holds the write lock. -/
  excl : ∀ p q, (s.pc p).holdsWrite → (s.pc q).holdsWrite → p = q
  /-- An active entry belongs to a backend. -/
  owned : ∀ i, (s.seg.procState i).procPid ≠ 0 → s.Registered (s.seg.procState i).procPid ∧
    (s.backends (s.seg.procState i).procPid).slot = i
  /-- A backend has an active entry. -/
  slot : ∀ p, s.Registered p → p ≠ 0 ∧ (s.backends p).slot < s.seg.lastBackend ∧
    (s.state p).procPid = p
  writer : ∀ p, WriterInv s.seg (s.pc p)
  reader : ∀ p, s.Registered p → (s.state p).sendOnly = false → ReaderInv s p (s.pc p)
  reads : ∀ p, s.Registered p → (s.state p).sendOnly = false →
    ∀ r ∈ (s.backends p).reads, Fulfilled r

/-! ### Steps of others -/

/-- What a step may change without harm to a reader. -/
structure Frame (s s' : Sys μ) (q : ℕ) : Prop where
  slot : (s'.backends q).slot = (s.backends q).slot
  start : (s'.backends q).start = (s.backends q).start
  reads : (s'.backends q).reads = (s.backends q).reads
  reset : (s'.state q).resetState = (s.state q).resetState
  next : s'.next q = s.next q
  base : s'.base = s.base
  min : s'.seg.minMsgNum = s.seg.minMsgNum
  log : s.log <+: s'.log
  has : (s.state q).hasMessages = true → (s'.state q).hasMessages = true
  kick : (s.state q).hasMessages = true ∨ s.Kicks (s.backends q).slot →
    (s'.state q).hasMessages = true ∨ s'.Kicks (s.backends q).slot
  /-- If there are new messages, the backend will be told. -/
  newer : s.log.length < s'.log.length →
    (s'.state q).hasMessages = true ∨ s'.Kicks (s.backends q).slot
  /-- If an insertion is complete, the backend has been told. -/
  completed : s'.completed = s.completed ∨
    ¬ s.Kicks (s.backends q).slot ∧ s'.completed ≤ s.log.length

namespace Frame

variable {s s' : Sys μ} {q : ℕ}

theorem pieces (h : Frame s s' q) : s'.pieces q = s.pieces q := by
  rw [Sys.pieces, h.reads, Sys.pieces]

variable {x x' : ℤ}

theorem caught (h : Frame s s' q) (hx : x ≤ x') (hc : Caught s q x) : Caught s' q x' := by
  obtain ⟨pos, hf, hle, hpos⟩ := hc
  refine ⟨pos, ?_, Int.le_trans hle hx, ?_⟩
  · rw [h.start, h.pieces]
    exact hf.mono h.log
  · rw [h.reset, h.next, h.base, h.min]
    exact hpos

theorem fresh (h : Frame s s' q) (hf : Fresh s q x) : Fresh s' q x := by
  refine ⟨fun hx => ?_, fun hx => ?_⟩
  · rcases h.completed with heq | ⟨hno, hle⟩
    · exact h.has (hf.1 (heq ▸ hx))
    · exact h.has ((hf.2 (by omega)).resolve_right hno)
  · rw [h.slot]
    by_cases hold : x < s.log.length
    · exact h.kick (hf.2 hold)
    · exact h.newer (by omega)

theorem unread (h : Frame s s' q) (hx : x ≤ x') (hu : Unread s q x) : Unread s' q x' := by
  unfold Unread at hu ⊢
  rw [h.reset, h.next]
  exact hu.imp_right fun hlt => by omega

/-- **A reader is not harmed.** -/
theorem reader (h : Frame s s' q) (hr : ReaderInv s q pc) : ReaderInv s' q pc := by
  have hlen : (s.log.length : ℤ) ≤ s'.log.length := Int.ofNat_le.mpr h.log.length_le
  have hbase : ∀ max, s.base + max ≤ s'.base + max := fun max => Int.le_of_eq (by rw [h.base])
  have hother : ReaderInv s q .ready → ReaderInv s' q .ready := by
    rintro ⟨hc, hreset, hfresh⟩
    simp only [ReaderInv, h.reset, h.next]
    exact ⟨h.caught hlen hc, fun hr => h.has (hreset hr), fun hr => h.fresh (hfresh hr)⟩
  cases pc with
  | readLock datasize due | readClear datasize due =>
    obtain ⟨hc, hhas, hdue⟩ := hr
    exact ⟨h.caught hlen hc, h.has hhas, fun hd => h.unread hlen (hdue hd)⟩
  | readMax datasize due =>
    obtain ⟨hc, hdue⟩ := hr
    exact ⟨h.caught hlen hc, fun hd => h.unread hlen (hdue hd)⟩
  | readTest datasize due max =>
    obtain ⟨hc, hfresh, hmax, hmin, hdue⟩ := hr
    refine ⟨h.caught (hbase max) hc, ?_, ?_, ?_, fun hd => h.unread (hbase max) (hdue hd)⟩
    · rw [h.base]
      exact h.fresh hfresh
    · rw [h.base]
      omega
    · rw [h.min]
      exact hmin
  | readCopy datasize due max data =>
    obtain ⟨hreset, ⟨pos, hf, hpos, hdata⟩, hfresh, hmax, hmin, hnext, hdue⟩ := hr
    refine ⟨h.reset.trans hreset, ⟨pos, ?_, ?_, ?_⟩, ?_, ?_, ?_, ?_, ?_⟩
    · rw [h.start, h.pieces]
      exact hf.mono h.log
    · rw [h.next]
      exact hpos
    · exact hdata.trans (h.log.drop pos)
    · rw [h.base]
      exact h.fresh hfresh
    · rw [h.base]
      omega
    · rw [h.base, h.min, h.next]
      exact hmin
    · rw [h.base, h.next]
      exact hnext
    · rw [h.base, h.next]
      exact hdue
  | _ => exact hother hr

/-- Nothing that matters has changed. -/
theorem of_same (hslot : (s'.backends q).slot = (s.backends q).slot)
    (hstart : (s'.backends q).start = (s.backends q).start)
    (hreads : (s'.backends q).reads = (s.backends q).reads) (hst : s'.state q = s.state q)
    (hbase : s'.base = s.base) (hmin : s'.seg.minMsgNum = s.seg.minMsgNum) (hlog : s'.log = s.log)
    (hcompl : s'.completed = s.completed) (hkicks : ∀ {i}, s.Kicks i → s'.Kicks i) :
    Frame s s' q := by
  refine ⟨hslot, hstart, hreads, by rw [hst], ?_, hbase, hmin, by rw [hlog], ?_, ?_, ?_,
    .inl hcompl⟩
  · rw [Sys.next, hst, hbase, Sys.next]
  · rw [hst]
    exact id
  · rw [hst]
    exact fun hk => hk.imp_right hkicks
  · rw [hlog]
    exact fun hlt => absurd hlt (Nat.lt_irrefl _)

end Frame

/-! ### A step of one backend -/

/-- What a writer has done stays, unless another one has the lock. -/
theorem WriterInv.congr {seg seg' : SISeg μ} (h : WriterInv seg pc)
    (hsame : (seg'.minMsgNum = seg.minMsgNum ∧ seg'.maxMsgNum = seg.maxMsgNum ∧
      seg'.buffer = seg.buffer) ∨ ¬ pc.holdsWrite) : WriterInv seg' pc := by
  cases pc with
  | insertCopy group rest k max =>
    obtain ⟨hmin, hmax, hbuf⟩ := hsame.resolve_right fun hno => hno trivial
    simp only [WriterInv, SISeg.get] at h ⊢
    rw [hmin, hmax, hbuf]
    exact h
  | _ => exact h

variable {b : Backend μ}

/-- **The rules for a step of one backend.** Entries keep their backends. -/
theorem Inv.run (hi : Inv s) (hp : s.Registered p) (hb : s'.backends p = b)
    (hp' : b.pc ≠ .unregistered) (hoth : ∀ q, q ≠ p → s'.backends q = s.backends q)
    (hslot : b.slot = (s.backends p).slot)
    (hpids : ∀ i, (s'.seg.procState i).procPid = (s.seg.procState i).procPid)
    (hsend : ∀ i, (s'.seg.procState i).sendOnly = (s.seg.procState i).sendOnly)
    (hlast : s'.seg.lastBackend = s.seg.lastBackend)
    (hlock : b.pc.holdsWrite → (s.pc p).holdsWrite ∨ s.WriteFree) (hqueue : QueueInv s')
    (hsame : (s'.seg.minMsgNum = s.seg.minMsgNum ∧ s'.seg.maxMsgNum = s.seg.maxMsgNum ∧
      s'.seg.buffer = s.seg.buffer) ∨ (s.pc p).holdsWrite) (hwr : WriterInv s'.seg b.pc)
    (hreaders : ∀ q, q ≠ p → s.Registered q → (s.state q).sendOnly = false →
      ReaderInv s' q (s.pc q)) (hread : (s.state p).sendOnly = false → ReaderInv s' p b.pc)
    (hreads : (s.state p).sendOnly = false → ∀ r ∈ b.reads, Fulfilled r) : Inv s' := by
  subst hb
  have hpcs : ∀ q, q ≠ p → s'.pc q = s.pc q := fun q hq => by rw [Sys.pc, hoth q hq, Sys.pc]
  have hreg : ∀ q, s'.Registered q ↔ s.Registered q := by
    intro q
    by_cases hq : q = p
    · subst hq
      exact ⟨fun _ => hp, fun _ => hp'⟩
    · rw [Sys.Registered, hpcs q hq, Sys.Registered]
  have hslots : ∀ q, (s'.backends q).slot = (s.backends q).slot := by
    intro q
    by_cases hq : q = p
    · rw [hq, hslot]
    · rw [hoth q hq]
  have hsendOnly : ∀ q, (s'.state q).sendOnly = (s.state q).sendOnly := fun q => by
    rw [Sys.state, hslots q, hsend, Sys.state]
  refine ⟨hqueue, fun a b ha hb => ?_, fun i hpid => ?_, fun q hq => ?_, fun q => ?_,
    fun q hq hs => ?_, fun q hq hs => ?_⟩
  · by_cases hap : a = p
    · by_cases hbp : b = p
      · rw [hap, hbp]
      · rw [hpcs b hbp] at hb
        rw [hap] at ha ⊢
        rcases hlock ha with hold | hfree
        · exact hi.excl p b hold hb
        · exact absurd hb (hfree b)
    · rw [hpcs a hap] at ha
      by_cases hbp : b = p
      · rw [hbp] at hb ⊢
        rcases hlock hb with hold | hfree
        · exact hi.excl a p ha hold
        · exact absurd ha (hfree a)
      · rw [hpcs b hbp] at hb
        exact hi.excl a b ha hb
  · rw [hpids] at hpid ⊢
    obtain ⟨hr, hs⟩ := hi.owned i hpid
    exact ⟨(hreg _).mpr hr, (hslots _).trans hs⟩
  · obtain ⟨hne, hlt, hpid⟩ := hi.slot q ((hreg q).mp hq)
    refine ⟨hne, ?_, ?_⟩
    · rw [hslots, hlast]
      exact hlt
    · rw [Sys.state, hslots, hpids]
      exact hpid
  · by_cases hq : q = p
    · rw [hq]
      exact hwr
    · rw [hpcs q hq]
      refine (hi.writer q).congr (hsame.imp_right fun hold hq' => ?_)
      exact hq (hi.excl q p hq' hold)
  · rw [hsendOnly] at hs
    by_cases hqp : q = p
    · subst hqp
      exact hread hs
    · rw [hpcs q hqp]
      exact hreaders q hqp ((hreg q).mp hq) hs
  · rw [hsendOnly] at hs
    by_cases hqp : q = p
    · subst hqp
      exact hreads hs
    · rw [hoth q hqp]
      exact hi.reads q ((hreg q).mp hq) hs

/-- Two backends have different entries. -/
theorem Inv.slot_ne (hi : Inv s) {q : ℕ} (hp : s.Registered p) (hq : s.Registered q) (hne : q ≠ p) :
    (s.backends q).slot ≠ (s.backends p).slot := by
  intro heq
  have hpid := (hi.slot p hp).2.2
  have hqid := (hi.slot q hq).2.2
  rw [Sys.state, heq, ← Sys.state, hpid] at hqid
  exact hne hqid.symm

/-- Backends that have still to be told by others stay so. -/
theorem kicks_of_others (hoth : ∀ q, q ≠ p → s'.backends q = s.backends q)
    (hp : ∀ rest j, s.pc p ≠ .insertKick rest j) {i : ℕ} (h : s.Kicks i) : s'.Kicks i := by
  obtain ⟨q, rest, j, hq, hj⟩ := h
  have hne : q ≠ p := fun he => hp rest j (he ▸ hq)
  exact ⟨q, rest, j, by rw [Sys.pc, hoth q hne]; exact hq, hj⟩

/-- A step that changes only the backend and its entry. -/
structure OwnStep (s s' : Sys μ) (p : ℕ) : Prop where
  others : ∀ q, q ≠ p → s'.backends q = s.backends q
  slot : (s'.backends p).slot = (s.backends p).slot
  entries : ∀ i, i ≠ (s.backends p).slot → s'.seg.procState i = s.seg.procState i
  procPid : (s'.state p).procPid = (s.state p).procPid
  sendOnly : (s'.state p).sendOnly = (s.state p).sendOnly
  lastBackend : s'.seg.lastBackend = s.seg.lastBackend
  min : s'.seg.minMsgNum = s.seg.minMsgNum
  max : s'.seg.maxMsgNum = s.seg.maxMsgNum
  buffer : s'.seg.buffer = s.seg.buffer
  log : s'.log = s.log
  base : s'.base = s.base
  completed : s'.completed = s.completed

/-- A backend goes on. -/
theorem OwnStep.setBackend (s : Sys μ) (hslot : b.slot = (s.backends p).slot) :
    OwnStep s (s.setBackend p b) p := by
  have hb : ((s.setBackend p b).backends p).slot = (s.backends p).slot := by
    rw [Sys.setBackend_self, hslot]
  refine ⟨fun q hq => update_of_ne hq _ _, hb, fun _ _ => rfl, ?_, ?_, rfl, rfl, rfl, rfl,
    rfl, rfl, rfl⟩
  · rw [Sys.state, hb]
    rfl
  · rw [Sys.state, hb]
    rfl

/-- A backend changes its entry and goes on. -/
theorem OwnStep.setState (s : Sys μ) {st : ProcState} (hpid : st.procPid = (s.state p).procPid)
    (hsend : st.sendOnly = (s.state p).sendOnly) (hslot : b.slot = (s.backends p).slot) :
    OwnStep s ((s.setState p st).setBackend p b) p ∧
      ((s.setState p st).setBackend p b).state p = st := by
  have hb : (((s.setState p st).setBackend p b).backends p).slot = (s.backends p).slot := by
    rw [Sys.setBackend_self, hslot]
  have hst : ((s.setState p st).setBackend p b).state p = st := by
    rw [Sys.state, hb]
    exact update_self ..
  refine ⟨⟨fun q hq => update_of_ne hq _ _, hb,
    fun i hi => update_of_ne hi _ _, ?_, ?_, rfl, rfl, rfl, rfl, rfl, rfl, rfl⟩, hst⟩
  · rw [hst, hpid]
  · rw [hst, hsend]

/-- The queue is the same. -/
theorem QueueInv.congr (h : QueueInv s) (hmin : s'.seg.minMsgNum = s.seg.minMsgNum)
    (hmax : s'.seg.maxMsgNum = s.seg.maxMsgNum) (hbuf : s'.seg.buffer = s.seg.buffer)
    (hlog : s'.log = s.log) (hbase : s'.base = s.base) (hcompl : s'.completed ≤ s.log.length) :
    QueueInv s' := by
  refine ⟨?_, ?_, ?_, ?_, ?_, ?_, fun x hx hx' => ?_, ?_⟩
  · rw [hbase]
    exact h.base_nonneg
  · rw [hbase]
    exact h.wrap
  · rw [hmin]
    exact h.nonneg
  · rw [hmin, hmax]
    exact h.le
  · rw [hmin, hmax]
    exact h.full
  · rw [hbase, hmax, hlog]
    exact h.length
  · rw [hlog, hbase, SISeg.get, hbuf]
    exact h.buffer x (hmin ▸ hx) (hmax ▸ hx')
  · rw [hlog]
    exact hcompl

namespace OwnStep

variable {s s' : Sys μ} {p : ℕ}

/-- Others are not harmed. -/
theorem frame (h : OwnStep s s' p) (hi : Inv s) (hp : s.Registered p)
    (hkick : ∀ rest j, s.pc p ≠ .insertKick rest j) {q : ℕ} (hq : s.Registered q) (hne : q ≠ p) :
    Frame s s' q := by
  have hst : s'.state q = s.state q := by
    rw [Sys.state, h.others q hne, h.entries _ (hi.slot_ne hp hq hne), Sys.state]
  have hb := h.others q hne
  exact .of_same (by rw [hb]) (by rw [hb]) (by rw [hb]) hst h.base h.min h.log h.completed
    (kicks_of_others h.others hkick)

/-- The step of a backend that stays outside of reading does not harm it. -/
theorem frame_self (h : OwnStep s s' p) (hkick : ∀ rest j, s.pc p ≠ .insertKick rest j)
    (hst : s'.state p = s.state p) (hstart : (s'.backends p).start = (s.backends p).start)
    (hreads : (s'.backends p).reads = (s.backends p).reads) : Frame s s' p :=
  .of_same h.slot hstart hreads hst h.base h.min h.log h.completed (kicks_of_others h.others hkick)

end OwnStep

/-- **A step that changes only the backend and its entry.** -/
theorem Inv.own (hi : Inv s) (h : OwnStep s s' p) (hp : s.Registered p) (hb : s'.backends p = b)
    (hp' : b.pc ≠ .unregistered) (hkick : ∀ rest j, s.pc p ≠ .insertKick rest j)
    (hlock : b.pc.holdsWrite → (s.pc p).holdsWrite ∨ s.WriteFree) (hwr : WriterInv s.seg b.pc)
    (hread : (s.state p).sendOnly = false → ReaderInv s' p b.pc)
    (hreads : (s.state p).sendOnly = false → ∀ r ∈ b.reads, Fulfilled r) : Inv s' := by
  have hent : ∀ i, (s'.seg.procState i).procPid = (s.seg.procState i).procPid ∧
      (s'.seg.procState i).sendOnly = (s.seg.procState i).sendOnly := by
    intro i
    by_cases hi' : i = (s.backends p).slot
    · have hpid := h.procPid
      have hsend := h.sendOnly
      rw [Sys.state, h.slot] at hpid hsend
      rw [Sys.state, ← hi'] at hpid hsend
      exact ⟨hpid, hsend⟩
    · rw [h.entries i hi']
      exact ⟨rfl, rfl⟩
  refine hi.run hp hb hp' h.others (hb ▸ h.slot) (fun i => (hent i).1)
    (fun i => (hent i).2) h.lastBackend hlock ?_ (.inl ⟨h.min, h.max, h.buffer⟩) ?_ ?_ hread
    hreads
  · exact hi.queue.congr h.min h.max h.buffer h.log h.base (h.completed ▸ hi.queue.completed)
  · exact hwr.congr (.inl ⟨h.min, h.max, h.buffer⟩)
  · exact fun q hne hq hs => (h.frame hi hp hkick hq hne).reader (hi.reader q hq hs)

end FdPostgres.Sinval
