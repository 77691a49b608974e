import FdPostgres.Lib.LinkPaths
import FdPostgres.Heap.Prune
import Mathlib

/-!
# What Pruning Records for One Root

The links a scan follows, from a redirected root to a tuple and from a HOT-updated tuple to its
successor, are given by `itemLink`. `heap_prune_chain` follows them too, as long as the tuples are
dead or may be dead soon.

* `Walk`: the items that the loop of `heap_prune_chain` visits, and `chainLoop_spec`: that it
  visits them, and ends.
* `Gone`: a tuple is dead, or recently dead with a dead one behind it.
* `RootOutcome`, `pruneRoot_spec`: **what is recorded for a root.** Nothing, or the beginning of its
  chain, which is gone, and a redirection to what follows, or that the root is dead.
-/

namespace FdPostgres

open HTSV_Result ItemId LinkPaths Relation List

variable {δ : Type} (b : XactView) (page : Page δ) (status : ℕ → HTSV_Result)

/-! ### Links -/

/-- A line pointer holds a tuple. -/
def IsTuple (offnum : ℕ) : Prop := ItemIdIsNormal (PageGetItemId page offnum) = true

/-- A line pointer holds a tuple that fits behind one with the given deleter. -/
def follows (priorXmax offnum : ℕ) : Bool :=
  match PageGetItemId page offnum with
  | LP_NORMAL htup =>
      !(TransactionIdIsValid priorXmax &&
        HeapTupleHeaderGetXmin htup.toHeapTupleHeader != priorXmax)
  | _ => false

/-- The link of a line pointer: a redirection, or the update of a HOT-updated tuple. -/
def itemLink (offnum : ℕ) : Option ℕ :=
  match PageGetItemId page offnum with
  | LP_REDIRECT rdoffnum =>
      if follows page InvalidTransactionId rdoffnum then some rdoffnum else none
  | LP_NORMAL htup =>
      if HeapTupleHeaderIsHotUpdated htup &&
          follows page (HeapTupleHeaderGetUpdateXid b htup.toHeapTupleHeader) htup.t_ctid then
        some htup.t_ctid
      else none
  | _ => none

variable {page status} {offnum : ℕ} {htup : PageTuple δ} {priorXmax : ℕ} {l : List ℕ}
  {cs : ChainState} {fuel : ℕ} {st : PruneState} {rest : List ℕ} {root : ℕ}

/-- What is not unused is on the page. -/
theorem mem_range_of_used (h : PageGetItemId page offnum ≠ LP_UNUSED) :
    1 ≤ offnum ∧ offnum ≤ PageGetMaxOffsetNumber page := by
  cases offnum with
  | zero => exact absurd rfl h
  | succ i =>
    by_contra hgt
    refine h ?_
    rw [PageGetItemId, getD_eq_default]
    rw [PageGetMaxOffsetNumber] at hgt
    omega

theorem IsTuple.exists (h : IsTuple page offnum) :
    ∃ htup, PageGetItemId page offnum = LP_NORMAL htup := by
  rw [IsTuple] at h
  cases hitem : PageGetItemId page offnum with
  | LP_NORMAL htup => exact ⟨htup, rfl⟩
  | _ => rw [hitem] at h; exact absurd h (by simp [ItemIdIsNormal])

theorem isTuple_of_eq (h : PageGetItemId page offnum = LP_NORMAL htup) : IsTuple page offnum := by
  rw [IsTuple, h]
  rfl

/-- Tuples are on the page. -/
theorem IsTuple.mem_range (h : IsTuple page offnum) :
    1 ≤ offnum ∧ offnum ≤ PageGetMaxOffsetNumber page := by
  obtain ⟨htup, hitem⟩ := h.exists
  exact mem_range_of_used (by rw [hitem]; exact nofun)

/-- What follows a tuple is a tuple. -/
theorem isTuple_of_follows (h : follows page priorXmax offnum = true) : IsTuple page offnum := by
  rw [follows] at h
  cases hitem : PageGetItemId page offnum with
  | LP_NORMAL htup => exact isTuple_of_eq hitem
  | _ => rw [hitem] at h; cases h

/-- Without a deleter before, any tuple will do. -/
theorem IsTuple.follows (h : IsTuple page offnum) :
    FdPostgres.follows page InvalidTransactionId offnum = true := by
  obtain ⟨htup, hitem⟩ := h.exists
  rw [FdPostgres.follows, hitem]
  rfl

/-- The link of a redirection. -/
theorem itemLink_redirect {rdoffnum : ℕ} (h : PageGetItemId page offnum = LP_REDIRECT rdoffnum) :
    itemLink b page offnum =
      if follows page InvalidTransactionId rdoffnum then some rdoffnum else none := by
  rw [itemLink, h]

/-- The link of a tuple. -/
theorem itemLink_normal (h : PageGetItemId page offnum = LP_NORMAL htup) : itemLink b page offnum =
      if HeapTupleHeaderIsHotUpdated htup &&
          follows page (HeapTupleHeaderGetUpdateXid b htup.toHeapTupleHeader) htup.t_ctid then
        some htup.t_ctid else none := by
  rw [itemLink, h]

variable {b}

/-- A link leads to what fits behind a redirection or a HOT-updated tuple. -/
theorem leads_iff {a c : ℕ} : Leads (itemLink b page) a c ↔
    ∃ priorXmax, follows page priorXmax c = true ∧ match PageGetItemId page a with
      | LP_REDIRECT rdoffnum => rdoffnum = c ∧ priorXmax = InvalidTransactionId
      | LP_NORMAL htup => htup.t_ctid = c ∧ HeapTupleHeaderIsHotUpdated htup = true ∧
          priorXmax = HeapTupleHeaderGetUpdateXid b htup.toHeapTupleHeader
      | _ => False := by
  rw [Leads, itemLink]
  cases PageGetItemId page a with
  | LP_REDIRECT rd =>
    rw [Option.ite_none_right_eq_some, Option.some.injEq]
    constructor
    · rintro ⟨hf, rfl⟩
      exact ⟨_, hf, rfl, rfl⟩
    · rintro ⟨_, hf, rfl, rfl⟩
      exact ⟨hf, rfl⟩
  | LP_NORMAL htup =>
    rw [Option.ite_none_right_eq_some, Option.some.injEq, Bool.and_eq_true]
    constructor
    · rintro ⟨⟨hhot, hf⟩, rfl⟩
      exact ⟨_, hf, rfl, hhot, rfl⟩
    · rintro ⟨_, hf, rfl, hhot, rfl⟩
      exact ⟨⟨hhot, hf⟩, rfl⟩
  | _ => exact ⟨nofun, fun ⟨_, _, h⟩ => h.elim⟩

theorem isTuple_of_leads {a c : ℕ} (h : Leads (itemLink b page) a c) : IsTuple page c := by
  obtain ⟨_, hf, -⟩ := leads_iff.mp h
  exact isTuple_of_follows hf

theorem isTuple_of_transGen {a c : ℕ} (h : TransGen (Leads (itemLink b page)) a c) :
    IsTuple page c := by
  obtain ⟨_, -, hlast⟩ := TransGen.tail'_iff.mp h
  exact isTuple_of_leads hlast

/-! ### The walk -/

variable (b page status)

/-- A status the loop walks past. -/
def Dying (offnum : ℕ) : Prop := status offnum = DEAD ∨ status offnum = RECENTLY_DEAD

instance (offnum : ℕ) : Decidable (Dying status offnum) :=
  inferInstanceAs (Decidable (_ ∨ _))

/-- The items the loop of `heap_prune_chain` visits. -/
inductive Walk (marked : ℕ → Bool) : ℕ → ℕ → List ℕ → Prop where
  | stop {offnum priorXmax : ℕ} (h : marked offnum = true ∨ follows page priorXmax offnum = false) :
      Walk marked offnum priorXmax []
  | last {offnum priorXmax : ℕ} {htup : PageTuple δ}
      (hitem : PageGetItemId page offnum = LP_NORMAL htup)
      (hmarked : marked offnum = false) (hfollows : follows page priorXmax offnum = true)
      (hend : ¬ Dying status offnum ∨ HeapTupleHeaderIsHotUpdated htup = false) :
      Walk marked offnum priorXmax [offnum]
  | step {offnum priorXmax : ℕ} {htup : PageTuple δ} {l : List ℕ}
      (hitem : PageGetItemId page offnum = LP_NORMAL htup)
      (hmarked : marked offnum = false) (hfollows : follows page priorXmax offnum = true)
      (hdying : Dying status offnum) (hhot : HeapTupleHeaderIsHotUpdated htup = true)
      (hrest : Walk marked htup.t_ctid (HeapTupleHeaderGetUpdateXid b htup.toHeapTupleHeader) l) :
      Walk marked offnum priorXmax (offnum :: l)

/-- The last dead item, or what it was before. -/
def lastDead (l : List ℕ) (latestdead : ℕ) : ℕ :=
  l.foldl (fun d offnum => if status offnum = DEAD then offnum else d) latestdead

variable {b page status} {marked : ℕ → Bool}

section Along

variable (h : Walk b page status marked offnum priorXmax l)

include h

/-- The visited items are tuples that were not marked. -/
theorem Walk.mem : ∀ x ∈ l, IsTuple page x ∧ marked x = false := by
  induction h with
  | stop _ => exact forall_mem_nil _
  | last hitem hmark _ _ =>
    intro x hx
    obtain rfl := mem_singleton.mp hx
    exact ⟨isTuple_of_eq hitem, hmark⟩
  | step hitem hmark _ _ _ _ ih =>
    exact forall_mem_cons.mpr ⟨⟨isTuple_of_eq hitem, hmark⟩, ih⟩

/-- A walk begins where it was sent. -/
theorem Walk.head_eq {x : ℕ} (hx : x ∈ l.head?) :
    x = offnum ∧ follows page priorXmax offnum = true := by
  cases h with
  | stop _ => cases hx
  | last hitem _ hfol _
  | step hitem _ hfol _ _ _ => exact ⟨(Option.some.inj hx).symm, hfol⟩

/-- **The visited items are linked.** -/
theorem Walk.isChain : l.IsChain (Leads (itemLink b page)) := by
  induction h with
  | stop _ => exact isChain_nil
  | last _ _ _ _ => exact isChain_singleton _
  | step hitem _ _ _ hhot hrest ih =>
    refine ih.cons fun y hy => ?_
    obtain ⟨rfl, hf⟩ := hrest.head_eq hy
    rw [Leads, itemLink_normal b hitem, hhot, hf]
    rfl

/-- All visited items but the last one are dead, or recently so. -/
theorem Walk.dying : ∀ x ∈ l.dropLast, Dying status x := by
  induction h with
  | stop _ | last _ _ _ _ => exact forall_mem_nil _
  | @step offnum _ _ l _ _ _ hdying _ _ ih =>
    cases l with
    | nil => exact forall_mem_nil _
    | cons y l => exact forall_mem_cons.mpr ⟨hdying, ih⟩

/-- Where the walk ends: at a tuple that stays, or before one that was marked. -/
theorem Walk.end : ∀ e ∈ l.getLast?, (IsTuple page e ∧ ¬ Dying status e) ∨
      ∀ m, Leads (itemLink b page) e m → marked m = true := by
  induction h with
  | stop _ => exact fun e he => by cases he
  | last hitem _ _ hend =>
    intro e he
    obtain rfl := Option.mem_some_iff.mp (getLast?_singleton ▸ he)
    refine hend.imp (⟨isTuple_of_eq hitem, ·⟩) fun hhot m hm => ?_
    rw [Leads, itemLink_normal b hitem, hhot] at hm
    cases hm
  | @step offnum _ htup l hitem _ _ _ hhot hrest ih =>
    cases l with
    | nil =>
      intro e he
      obtain rfl := Option.mem_some_iff.mp (getLast?_singleton ▸ he)
      refine .inr fun m hm => ?_
      rw [Leads, itemLink_normal b hitem, hhot, Bool.true_and] at hm
      cases hrest with
      | stop hstop =>
        by_cases hf : follows page
            (HeapTupleHeaderGetUpdateXid b htup.toHeapTupleHeader) htup.t_ctid = true
        · rw [if_pos hf] at hm
          rw [← Option.some.inj hm]
          exact hstop.resolve_right (by rw [hf]; simp)
        · rw [if_neg hf] at hm
          cases hm
    | cons y l =>
      intro e he
      exact ih e he

end Along

/-- A walk that stops at once stops before something marked, or there is no tuple. -/
theorem Walk.nil (h : Walk b page status marked offnum priorXmax []) :
    marked offnum = true ∨ follows page priorXmax offnum = false := by
  cases h with
  | stop hstop => exact hstop

/-! ### The loop -/

/-- The status array at a tuple. -/
theorem htsvOf_normal (h : PageGetItemId page offnum = LP_NORMAL htup) :
    htsvOf page status offnum = some (status offnum) := by
  rw [htsvOf, h]
  rfl

/-- The loop at a tuple that is not marked and fits. -/
theorem chainLoop_normal (hitem : PageGetItemId page offnum = LP_NORMAL htup)
    (hmark : marked offnum = false) (hfol : follows page priorXmax offnum = true) :
    chainLoop b page (htsvOf page status) marked (fuel + 1) offnum priorXmax cs =
      if Dying status offnum ∧ HeapTupleHeaderIsHotUpdated htup then
        chainLoop b page (htsvOf page status) marked fuel htup.t_ctid
          (HeapTupleHeaderGetUpdateXid b htup.toHeapTupleHeader)
          (chainMember b cs offnum htup (status offnum))
      else some (chainMember b cs offnum htup (status offnum)) := by
  have hrange := (isTuple_of_eq hitem).mem_range
  rw [follows, hitem] at hfol
  rw [chainLoop, if_neg (by omega), if_neg (by rw [hmark]; simp), hitem]
  dsimp only
  rw [if_neg (by simpa only [Bool.not_eq_true', Bool.not_eq_true] using hfol),
    htsvOf_normal hitem]
  rfl

/-- The loop where no tuple fits. -/
theorem chainLoop_stop (h : marked offnum = true ∨ follows page priorXmax offnum = false)
    (hstart : cs.chainitems ≠ [] ∨ ItemIdIsRedirected (PageGetItemId page offnum) = false) :
    chainLoop b page (htsvOf page status) marked (fuel + 1) offnum priorXmax cs = some cs := by
  rw [chainLoop]
  split
  · rfl
  · split
    · rfl
    · next hunm =>
        have hf := h.resolve_left hunm
        rw [follows] at hf
        cases hitem : PageGetItemId page offnum with
        | LP_UNUSED => rfl
        | LP_DEAD => rfl
        | LP_REDIRECT rd =>
          rw [hitem] at hstart
          have hne : cs.chainitems ≠ [] := hstart.resolve_right (by simp [ItemIdIsRedirected])
          exact if_pos (length_pos_iff.mpr hne)
        | LP_NORMAL htup =>
          rw [hitem] at hf
          exact if_pos (by simpa using hf)

/-- **The loop visits the walk**, and remembers the last dead item of it; or it has followed as many
links as it could. -/
theorem chainLoop_spec
    (hstart : cs.chainitems ≠ [] ∨ ItemIdIsRedirected (PageGetItemId page offnum) = false) :
    (∃ cs' l, chainLoop b page (htsvOf page status) marked fuel offnum priorXmax cs = some cs' ∧
      Walk b page status marked offnum priorXmax l ∧ cs'.chainitems = cs.chainitems ++ l ∧
      cs'.latestdead = lastDead status l cs.latestdead) ∨
    ∃ l : List ℕ, l.length = fuel ∧ l.IsChain (Leads (itemLink b page)) ∧
      (∀ x ∈ l, IsTuple page x) ∧
      ∀ x ∈ l.head?, x = offnum ∧ follows page priorXmax offnum = true := by
  induction fuel generalizing offnum priorXmax cs with
  | zero =>
    refine .inr ⟨[], rfl, isChain_nil, forall_mem_nil _, fun x hx => ?_⟩
    cases hx
  | succ fuel ih =>
    by_cases hstop : marked offnum = true ∨ follows page priorXmax offnum = false
    · exact .inl ⟨cs, [], chainLoop_stop hstop hstart, .stop hstop, (append_nil _).symm, rfl⟩
    obtain ⟨hmark, hfol⟩ := not_or.mp hstop
    rw [Bool.not_eq_true] at hmark
    rw [Bool.not_eq_false] at hfol
    obtain ⟨htup, hitem⟩ := (isTuple_of_follows hfol).exists
    rw [chainLoop_normal hitem hmark hfol]
    split_ifs with hgo
    · have hne : (chainMember b cs offnum htup (status offnum)).chainitems ≠ [] := by
        simp [chainMember]
      rcases ih (.inl hne) with ⟨cs', l, hrun, hl, hitems, hlast⟩ | ⟨l, hlen, hl, htup', hhead⟩
      · have hstep := Walk.step hitem hmark hfol hgo.1 hgo.2 hl
        refine .inl ⟨cs', offnum :: l, hrun, hstep, ?_, hlast⟩
        rw [hitems, chainMember, append_assoc, singleton_append]
      · refine .inr ⟨offnum :: l, by rw [length_cons, hlen], hl.cons fun y hy => ?_,
          forall_mem_cons.mpr ⟨isTuple_of_eq hitem, htup'⟩,
          fun x hx => ⟨(Option.some.inj hx).symm, hfol⟩⟩
        obtain ⟨rfl, hf⟩ := hhead y hy
        rw [Leads, itemLink_normal b hitem, hgo.2, hf]
        rfl
    · refine .inl ⟨_, [offnum], rfl, .last hitem hmark hfol ?_, rfl, rfl⟩
      rw [← Bool.not_eq_true]
      exact not_and_or.mp hgo

/-- A path of tuples is no longer than the page. -/
theorem length_le_of_isChain (hacyc : Acyclic (itemLink b page))
    (hl : l.IsChain (Leads (itemLink b page))) (htup : ∀ x ∈ l, IsTuple page x) :
    l.length ≤ PageGetMaxOffsetNumber page := by
  have hsub : l ⊆ range' 1 (PageGetMaxOffsetNumber page) := by
    intro x hx
    have := (htup x hx).mem_range
    exact mem_range'_1.mpr (by omega)
  have hle := ((hacyc.nodup hl).subperm hsub).length_le
  rwa [length_range'] at hle

/-- The loop ends. -/
theorem chainLoop_walk (hacyc : Acyclic (itemLink b page)) (status : ℕ → HTSV_Result)
    (marked : ℕ → Bool) (offnum priorXmax : ℕ) (cs : ChainState)
    (hfuel : PageGetMaxOffsetNumber page < fuel)
    (hstart : cs.chainitems ≠ [] ∨ ItemIdIsRedirected (PageGetItemId page offnum) = false) :
    ∃ cs' l, chainLoop b page (htsvOf page status) marked fuel offnum priorXmax cs = some cs' ∧
      Walk b page status marked offnum priorXmax l ∧ cs'.chainitems = cs.chainitems ++ l ∧
      cs'.latestdead = lastDead status l cs.latestdead := by
  rcases chainLoop_spec hstart with h | ⟨l, hlen, hl, htup, -⟩
  · exact h
  · have := length_le_of_isChain hacyc hl htup
    omega

/-! ### The lists -/

/-- The line pointers of planned changes, with the targets of redirections. -/
def planned (redirected : List (ℕ × ℕ)) (nowdead nowunused : List ℕ) : List ℕ :=
  redirected.map Prod.fst ++ redirected.map Prod.snd ++ nowdead ++ nowunused

theorem mem_planned {redirected : List (ℕ × ℕ)} {nowdead nowunused : List ℕ} {i : ℕ} :
    i ∈ planned redirected nowdead nowunused ↔
      (∃ p ∈ redirected, p.1 = i) ∨ (∃ p ∈ redirected, p.2 = i) ∨ i ∈ nowdead ∨ i ∈ nowunused := by
  simp [planned]

/-- Changes are added to a plan. -/
structure Recorded (st : PruneState) (red : List (ℕ × ℕ)) (dead unused : List ℕ)
    (st' : PruneState) : Prop where
  redirected : st'.redirected = st.redirected ++ red
  nowdead : st'.nowdead = st.nowdead ++ dead
  nowunused : st'.nowunused = st.nowunused ++ unused
  marked : ∀ i, st'.marked i = true ↔ st.marked i = true ∨ i ∈ planned red dead unused

/-- There is room for more changes in the arrays. -/
structure Room (page : Page δ) (st : PruneState) : Prop where
  redirected : ∀ i, PageGetItemId page i ≠ LP_UNUSED → st.marked i = false →
    st.redirected.length < MaxHeapTuplesPerPage
  nowdead : ∀ i, PageGetItemId page i ≠ LP_UNUSED → st.marked i = false →
    st.nowdead.length < MaxHeapTuplesPerPage
  nowunused : ∀ l : List ℕ, l.Nodup → (∀ i ∈ l, IsTuple page i ∧ st.marked i = false) →
    st.nowunused.length + l.length ≤ MaxHeapTuplesPerPage

/-- Nothing is added. -/
theorem Recorded.refl {st' : PruneState} (hr : st'.redirected = st.redirected)
    (hd : st'.nowdead = st.nowdead) (hu : st'.nowunused = st.nowunused)
    (hm : st'.marked = st.marked) : Recorded st [] [] [] st' where
  redirected := by rw [hr, append_nil]
  nowdead := by rw [hd, append_nil]
  nowunused := by rw [hu, append_nil]
  marked i := by rw [hm]; simp [planned]

/-- Changes are added one after the other. -/
theorem Recorded.trans {st₁ st₂ : PruneState} {red red' : List (ℕ × ℕ)}
    {dead dead' unused unused' : List ℕ} (h : Recorded st red dead unused st₁)
    (h' : Recorded st₁ red' dead' unused' st₂) :
    Recorded st (red ++ red') (dead ++ dead') (unused ++ unused') st₂ where
  redirected := by rw [h'.redirected, h.redirected, append_assoc]
  nowdead := by rw [h'.nowdead, h.nowdead, append_assoc]
  nowunused := by rw [h'.nowunused, h.nowunused, append_assoc]
  marked i := by
    rw [h'.marked, h.marked]
    simp only [planned, map_append, mem_append]
    tauto

/-- What is not changed is not marked. -/
theorem Recorded.unmarked {st' : PruneState} {unused : List ℕ} (h : Recorded st [] [] unused st')
    {x : ℕ} (hx : x ∉ unused) (hm : st.marked x = false) : st'.marked x = false := by
  rw [← Bool.not_eq_true, h.marked, hm]
  simp [planned, hx]

theorem setMarked_iff {i : ℕ} :
    setMarked marked offnum i = true ↔ i = offnum ∨ marked i = true := by
  rw [setMarked, Bool.or_eq_true, beq_iff_eq]

/-- A line pointer to be unused. -/
theorem record_unused_spec (hroom : st.nowunused.length < MaxHeapTuplesPerPage)
    (h : st.marked offnum = false) :
    ∃ st', heap_prune_record_unused st offnum = some st' ∧ Recorded st [] [] [offnum] st' := by
  refine ⟨_, if_pos ⟨hroom, h⟩, (append_nil _).symm, (append_nil _).symm, rfl, fun i => ?_⟩
  rw [setMarked_iff]
  simp [planned, or_comm]

/-- A line pointer to be dead. -/
theorem record_dead_spec (hroom : st.nowdead.length < MaxHeapTuplesPerPage)
    (h : st.marked offnum = false) :
    ∃ st', heap_prune_record_dead st offnum = some st' ∧ Recorded st [] [offnum] [] st' := by
  refine ⟨_, if_pos ⟨hroom, h⟩, (append_nil _).symm, rfl, (append_nil _).symm, fun i => ?_⟩
  rw [setMarked_iff]
  simp [planned, or_comm]

/-- A line pointer to be redirected. -/
theorem record_redirect_spec {rdoffnum : ℕ} (hroom : st.redirected.length < MaxHeapTuplesPerPage)
    (h : st.marked offnum = false) (h' : st.marked rdoffnum = false) (hne : rdoffnum ≠ offnum) :
    ∃ st', heap_prune_record_redirect st offnum rdoffnum = some st' ∧
      Recorded st [(offnum, rdoffnum)] [] [] st' := by
  have hset : setMarked st.marked offnum rdoffnum = false := by
    rw [← Bool.not_eq_true, setMarked_iff, h']
    simp [hne]
  refine ⟨_, if_pos ⟨hroom, h, hset⟩, rfl, (append_nil _).symm, (append_nil _).symm, fun i => ?_⟩
  rw [setMarked_iff, setMarked_iff]
  simp only [planned, map_cons, map_nil, append_nil, mem_append, mem_singleton]
  tauto

/-- **The items up to the last dead one are marked as unused**, but for the first. -/
theorem recordUnused_spec {front post : List ℕ} {prev d : ℕ}
    (hsplit : prev :: rest = front ++ d :: post) (hnodup : (prev :: rest).Nodup)
    (hmark : ∀ x ∈ rest, st.marked x = false)
    (hroom : st.nowunused.length + front.length ≤ MaxHeapTuplesPerPage) :
    ∃ st', recordUnused d prev rest st = some (front.length, post, st') ∧
      Recorded st [] [] (front ++ [d]).tail st' := by
  induction front generalizing prev rest st with
  | nil =>
    obtain ⟨rfl, rfl⟩ := cons.inj hsplit
    refine ⟨st, ?_, Recorded.refl rfl rfl rfl rfl⟩
    cases rest with
    | nil => rfl
    | cons item rest => rw [recordUnused, if_neg (by simp)]; rfl
  | cons f front ih =>
    obtain ⟨rfl, hrest⟩ := cons.inj hsplit
    have hne : prev ≠ d := by
      rintro rfl
      refine (nodup_cons.mp hnodup).1 ?_
      rw [hrest]
      exact mem_append_right _ mem_cons_self
    cases rest with
    | nil => exact absurd hrest (by simp)
    | cons item rest =>
      rw [length_cons] at hroom
      obtain ⟨st₁, hrec, h₁⟩ := record_unused_spec (by omega) (hmark item mem_cons_self)
      have hnodup' := (nodup_cons.mp hnodup).2
      have hmark' : ∀ x ∈ rest, st₁.marked x = false := by
        intro x hx
        refine h₁.unmarked (fun h => ?_) (hmark x (mem_cons_of_mem _ hx))
        exact (nodup_cons.mp hnodup').1 (mem_singleton.mp h ▸ hx)
      obtain ⟨st', hloop, h'⟩ := ih hrest hnodup' hmark'
        (by rw [h₁.nowunused, length_append, length_singleton]; omega)
      refine ⟨st', ?_, ?_⟩
      · rw [recordUnused, if_pos hne, hrec]
        dsimp only
        rw [hloop]
        rfl
      · have hhead : (prev :: front ++ [d]).tail = [item] ++ (front ++ [d]).tail := by
          cases front with
          | nil | cons f' front =>
            obtain ⟨rfl, -⟩ := cons.inj hrest
            rfl
        rw [hhead]
        exact h₁.trans h'

/-- The last dead item splits the list. -/
theorem lastDead_cases (status : ℕ → HTSV_Result) (l : List ℕ) (d : ℕ) :
    (lastDead status l d = d ∧ ∀ x ∈ l, status x ≠ DEAD) ∨
      ∃ front post, l = front ++ lastDead status l d :: post ∧
        status (lastDead status l d) = DEAD := by
  induction l generalizing d with
  | nil => exact .inl ⟨rfl, forall_mem_nil _⟩
  | cons x l ih =>
    by_cases hx : status x = DEAD
    · have heq : lastDead status (x :: l) d = lastDead status l x := by
        simp [lastDead, hx]
      refine .inr ?_
      rcases ih x with ⟨hsame, -⟩ | ⟨front, post, hsplit, hdead⟩
      · exact ⟨[], l, by rw [heq, hsame]; rfl, by rw [heq, hsame]; exact hx⟩
      · refine ⟨x :: front, post, ?_, by rw [heq]; exact hdead⟩
        rw [heq, cons_append, ← hsplit]
    · have heq : lastDead status (x :: l) d = lastDead status l d := by
        simp [lastDead, hx]
      rw [heq]
      rcases ih d with ⟨hsame, hnone⟩ | ⟨front, post, hsplit, hdead⟩
      · exact .inl ⟨hsame, forall_mem_cons.mpr ⟨hx, hnone⟩⟩
      · exact .inr ⟨x :: front, post, by rw [cons_append, ← hsplit], hdead⟩

/-- The last dead item of a walk. -/
theorem Walk.latest (h : Walk b page status marked offnum priorXmax l) :
    lastDead status l 0 = 0 ∨ ∃ front post, l = front ++ lastDead status l 0 :: post ∧
      IsTuple page (lastDead status l 0) ∧ status (lastDead status l 0) = DEAD := by
  refine (lastDead_cases status l 0).imp And.left ?_
  rintro ⟨front, post, hsplit, hdead⟩
  have hmem : lastDead status l 0 ∈ front ++ lastDead status l 0 :: post :=
    mem_append_right _ mem_cons_self
  rw [← hsplit] at hmem
  exact ⟨front, post, hsplit, (h.mem _ hmem).1, hdead⟩

/-! ### One root -/

variable (b page status)

/-- A root: a line pointer that an index may point to. It is dead, redirected, or holds a tuple that
is not heap-only. -/
def IsRoot (offnum : ℕ) : Prop :=
  match PageGetItemId page offnum with
  | LP_UNUSED => False
  | LP_NORMAL htup => HeapTupleHeaderIsHeapOnly htup = false
  | _ => True

/-- A tuple that may be removed: it is dead, or it is recently dead with a dead one behind it. -/
def Gone (offnum : ℕ) : Prop :=
  status offnum = DEAD ∨ status offnum = RECENTLY_DEAD ∧
    ∃ d, TransGen (Leads (itemLink b page)) offnum d ∧ status d = DEAD

/-- The items that the loop of `heap_prune_chain` collects for a root. -/
structure Collected (marked : ℕ → Bool) (root : ℕ) (rest : List ℕ) (latestdead : ℕ) : Prop where
  isChain : (root :: rest).IsChain (Leads (itemLink b page))
  mem : ∀ x ∈ rest, IsTuple page x ∧ marked x = false
  dying : ∀ x ∈ (root :: rest).dropLast, IsTuple page x → Dying status x
  ends : ∀ e ∈ (root :: rest).getLast?, (IsTuple page e ∧ ¬ Dying status e) ∨
    ∀ m, Leads (itemLink b page) e m → marked m = true
  latest : latestdead = 0 ∨ ∃ front post, root :: rest = front ++ latestdead :: post ∧
    IsTuple page latestdead ∧ status latestdead = DEAD

variable {b page status}

/-- The items of a root that holds a tuple. -/
theorem Collected.of_walk (hroot : IsTuple page root) (hmark : marked root = false)
    (h : Walk b page status marked root InvalidTransactionId l) :
    ∃ rest, l = root :: rest ∧ Collected b page status marked root rest (lastDead status l 0) := by
  obtain ⟨rest, rfl⟩ : ∃ rest, l = root :: rest := by
    cases h with
    | stop hstop => exact absurd hstop (by rw [hmark, hroot.follows]; simp)
    | last _ _ _ _ => exact ⟨[], rfl⟩
    | step _ _ _ _ _ _ => exact ⟨_, rfl⟩
  refine ⟨rest, rfl, h.isChain, fun x hx => h.mem x (mem_cons_of_mem _ hx),
    fun x hx _ => h.dying x hx, h.end, h.latest⟩

/-- The items of a redirected root. -/
theorem Collected.of_redirect {rd : ℕ} (hroot : PageGetItemId page root = LP_REDIRECT rd)
    (h : Walk b page status marked rd InvalidTransactionId l) :
    Collected b page status marked root l (lastDead status l 0) := by
  have hnot : ¬ IsTuple page root := by
    rw [IsTuple, hroot]
    simp [ItemIdIsNormal]
  refine ⟨h.isChain.cons fun y hy => ?_, h.mem, fun x hx htup => ?_, fun e he => ?_, ?_⟩
  · obtain ⟨rfl, hf⟩ := h.head_eq hy
    rw [Leads, itemLink_redirect b hroot, if_pos hf]
  · cases l with
    | nil => cases hx
    | cons y l =>
      rcases mem_cons.mp hx with rfl | hx
      · exact absurd htup hnot
      · exact h.dying x hx
  · cases l with
    | nil =>
      obtain rfl := Option.mem_some_iff.mp (getLast?_singleton ▸ he)
      refine .inr fun m hm => ?_
      rw [Leads, itemLink_redirect b hroot] at hm
      by_cases hf : follows page InvalidTransactionId rd = true
      · rw [if_pos hf] at hm
        rw [← Option.some.inj hm]
        exact h.nil.resolve_right (by rw [hf]; simp)
      · rw [if_neg hf] at hm
        cases hm
    | cons y l =>
      exact h.end e he
  · refine h.latest.imp_right ?_
    rintro ⟨front, post, hsplit, hlat⟩
    exact ⟨root :: front, post, by rw [cons_append, ← hsplit], hlat⟩

/-- The collected items up to the last dead one are gone. -/
theorem Collected.gone {latestdead : ℕ} {front post : List ℕ}
    (h : Collected b page status marked root rest latestdead)
    (hsplit : root :: rest = front ++ latestdead :: post) (hdead : status latestdead = DEAD) :
    ∀ x ∈ front ++ [latestdead], IsTuple page x → Gone b page status x := by
  intro x hx htup
  rcases mem_append.mp hx with hx | hx
  · have hlast : x ∈ (root :: rest).dropLast := by
      rw [hsplit, dropLast_append_of_ne_nil (by simp)]
      exact mem_append_left _ hx
    refine (h.dying x hlast htup).imp_right fun hrcnt => ⟨hrcnt, latestdead, ?_, hdead⟩
    obtain ⟨pre, suf, rfl⟩ := append_of_mem hx
    have hchain := h.isChain
    rw [hsplit, append_assoc] at hchain
    refine transGen_of_mem hchain.right_of_append ?_
    exact mem_append_right _ mem_cons_self
  · rw [mem_singleton.mp hx]
    exact .inl hdead

variable (b page status)

/-- Whether a root holds a tuple, as a number. -/
def tupleCount (offnum : ℕ) : ℕ := if ItemIdIsNormal (PageGetItemId page offnum) then 1 else 0

/-- What `heap_prune_chain` records for a root. -/
inductive RootOutcome (root : ℕ) (st : PruneState) (n : ℕ) (st' : PruneState) : Prop where
  | kept (h : Recorded st [] [] [] st') (hn : n = 0)
  | dead {l : List ℕ} (h : Recorded st [] [root] l st')
      (hn : n = l.length + tupleCount page root)
      (hchain : (root :: l).IsChain (Leads (itemLink b page)))
      (hmem : ∀ x ∈ l, IsTuple page x ∧ st.marked x = false)
      (hgone : ∀ x ∈ root :: l, IsTuple page x → Gone b page status x)
      (hends : ∀ e ∈ (root :: l).getLast?, ∀ m, Leads (itemLink b page) e m → st.marked m = true)
  | redirected {l : List ℕ} {t : ℕ} (h : Recorded st [(root, t)] [] l st')
      (hn : n = l.length + tupleCount page root)
      (hchain : (root :: l ++ [t]).IsChain (Leads (itemLink b page)))
      (hmem : ∀ x ∈ l ++ [t], IsTuple page x ∧ st.marked x = false)
      (hgone : ∀ x ∈ root :: l, IsTuple page x → Gone b page status x)

variable {b page status}

/-- The changes for the collected items. -/
theorem recordChain_spec (hacyc : Acyclic (itemLink b page)) (hroom : Room page st)
    (hused : PageGetItemId page root ≠ LP_UNUSED) (hroot : st.marked root = false)
    (hitems : cs.chainitems = root :: rest)
    (h : Collected b page status st.marked root rest cs.latestdead) :
    ∃ n st', recordChain page root cs st = some (n, st') ∧
      RootOutcome b page status root st n st' := by
  have hnodup := hacyc.nodup h.isChain
  have hcount : ∀ n, (if ItemIdIsNormal (PageGetItemId page root) then n + 1 else n) =
      n + tupleCount page root := by
    intro n
    rw [tupleCount]
    split <;> rfl
  rcases h.latest with hzero | ⟨front, post, hsplit, htup, hdead⟩
  · rw [recordChain, if_neg (by rw [hzero]; simp)]
    by_cases hred : cs.chainitems.length < 2 ∧ ItemIdIsRedirected (PageGetItemId page root) = true
    · -- a redirection that leads nowhere any more
      obtain ⟨st', hrec, hst'⟩ := record_dead_spec (hroom.nowdead root hused hroot) hroot
      obtain rfl : rest = [] := by
        rw [hitems, length_cons] at hred
        exact length_eq_zero_iff.mp (by omega)
      have hnot : ItemIdIsNormal (PageGetItemId page root) = false := by
        cases hitem : PageGetItemId page root with
        | LP_REDIRECT _ => rfl
        | _ => rw [hitem] at hred; exact absurd hred.2 (by simp [ItemIdIsRedirected])
      refine ⟨0, st', by rw [if_pos hred, hrec]; rfl, .dead (l := []) hst' ?_ h.isChain h.mem ?_ ?_⟩
      · rw [tupleCount, hnot]
        rfl
      · intro x hx htup
        rw [mem_singleton.mp hx, IsTuple, hnot] at htup
        cases htup
      · intro e he
        refine (h.ends e he).resolve_left fun hstay => ?_
        obtain rfl := Option.mem_some_iff.mp (getLast?_singleton ▸ he)
        exact absurd hstay.1 (by rw [IsTuple, hnot]; simp)
    · exact ⟨0, st, by rw [if_neg hred], .kept (.refl rfl rfl rfl rfl) rfl⟩
  · have hne : cs.latestdead ≠ 0 := by
      have := htup.mem_range
      omega
    -- the items behind the root that are marked as unused
    have htail : root :: (front ++ [cs.latestdead]).tail = front ++ [cs.latestdead] := by
      cases front with
      | nil | cons f front => rw [(cons.inj hsplit).1]; rfl
    have hrest : rest = (front ++ [cs.latestdead]).tail ++ post := by
      have : root :: rest = root :: ((front ++ [cs.latestdead]).tail ++ post) := by
        rw [hsplit, ← cons_append, htail, append_assoc, singleton_append]
      exact (cons.inj this).2
    obtain ⟨l, hl⟩ : ∃ l, l = (front ++ [cs.latestdead]).tail := ⟨_, rfl⟩
    rw [← hl] at htail hrest
    have hlen : l.length = front.length := by simp [hl]
    have hgone : ∀ x ∈ root :: l, IsTuple page x → Gone b page status x := by
      rw [htail]
      exact h.gone hsplit hdead
    have hlmem : ∀ x ∈ l, IsTuple page x ∧ st.marked x = false := fun x hx =>
      h.mem x (by rw [hrest]; exact mem_append_left _ hx)
    have hlnodup : l.Nodup := by
      rw [hrest] at hnodup
      exact (nodup_append.mp (nodup_cons.mp hnodup).2).1
    have hlroom := hroom.nowunused l hlnodup hlmem
    obtain ⟨st₁, hloop, h₁⟩ := recordUnused_spec hsplit hnodup (fun x hx => (h.mem x hx).2)
      (by rw [hlen] at hlroom; exact hlroom)
    rw [← hl] at h₁
    have hroot₁ : st₁.marked root = false := by
      refine h₁.unmarked (fun hmem => (nodup_cons.mp hnodup).1 ?_) hroot
      rw [hrest]
      exact mem_append_left _ hmem
    rw [recordChain, if_pos hne, hitems, headD_cons, tail_cons, hloop]
    cases post with
    | nil =>
      rw [append_nil] at hrest
      subst hrest
      have hdeadroom : st₁.nowdead.length < MaxHeapTuplesPerPage := by
        rw [h₁.nowdead, append_nil]
        exact hroom.nowdead root hused hroot
      obtain ⟨st', hrec, h'⟩ := record_dead_spec hdeadroom hroot₁
      refine ⟨_, st', by dsimp only; rw [hrec]; rfl,
        .dead ?_ ?_ h.isChain h.mem hgone ?_⟩
      · simpa only [nil_append, append_nil] using h₁.trans h'
      · rw [hcount, hlen]
      · intro e he
        refine (h.ends e he).resolve_left fun hstay => hstay.2 ?_
        rw [hsplit, getLast?_append_cons] at he
        rw [← Option.mem_some_iff.mp he]
        exact .inl hdead
    | cons target post =>
      have htmem : target ∈ rest := by
        rw [hrest]
        exact mem_append_right _ mem_cons_self
      have hsplit' : root :: rest = (root :: l ++ [target]) ++ post := by
        rw [hrest]
        simp
      have hnodup' : (root :: l ++ [target]).Nodup := by
        rw [hsplit'] at hnodup
        exact (nodup_append.mp hnodup).1
      have htl : target ∉ root :: l := by
        intro hmem
        exact (nodup_append.mp hnodup').2.2 target hmem target mem_cons_self rfl
      have hredroom : st₁.redirected.length < MaxHeapTuplesPerPage := by
        rw [h₁.redirected, append_nil]
        exact hroom.redirected root hused hroot
      obtain ⟨st', hrec, h'⟩ := record_redirect_spec hredroom hroot₁
        (h₁.unmarked (fun hmem => htl (mem_cons_of_mem _ hmem)) (h.mem target htmem).2)
        (fun heq => htl (heq ▸ mem_cons_self))
      refine ⟨_, st', by dsimp only; rw [hrec]; rfl,
        .redirected (t := target) ?_ ?_ ?_ ?_ hgone⟩
      · simpa only [nil_append, append_nil] using h₁.trans h'
      · rw [hcount, hlen]
      · have hchain := h.isChain
        rw [hsplit'] at hchain
        exact hchain.left_of_append
      · exact forall_mem_append.mpr ⟨hlmem, forall_mem_singleton.mpr (h.mem target htmem)⟩

/-- The loop for a root collects its items. -/
theorem chainLoop_collected (hacyc : Acyclic (itemLink b page)) (status : ℕ → HTSV_Result)
    {x y : ℕ} (hroot : IsTuple page root ∨ ItemIdIsRedirected (PageGetItemId page root) = true)
    (hmark : marked root = false) :
    ∃ cs rest, chainLoop b page (htsvOf page status) marked (PageGetMaxOffsetNumber page + 2) root
        InvalidTransactionId ⟨[], 0, x, y⟩ = some cs ∧
      cs.chainitems = root :: rest ∧ Collected b page status marked root rest cs.latestdead := by
  rcases hroot with htup | hred
  · have hstart : ItemIdIsRedirected (PageGetItemId page root) = false := by
      obtain ⟨htup, hitem⟩ := htup.exists
      rw [hitem]
      rfl
    obtain ⟨cs, l, hcs, hl, hitems, hlast⟩ := chainLoop_walk hacyc status marked root
      InvalidTransactionId ⟨[], 0, x, y⟩
      (show PageGetMaxOffsetNumber page < PageGetMaxOffsetNumber page + 2 by omega) (.inr hstart)
    obtain ⟨rest, hrest, hcoll⟩ := Collected.of_walk htup hmark hl
    exact ⟨cs, rest, hcs, hitems.trans hrest, hlast ▸ hcoll⟩
  · cases hitem : PageGetItemId page root with
    | LP_REDIRECT rd =>
      have hused : PageGetItemId page root ≠ LP_UNUSED := by
        rw [hitem]
        exact nofun
      have hrange := mem_range_of_used hused
      have hstep : chainLoop b page (htsvOf page status) marked
          (PageGetMaxOffsetNumber page + 1 + 1) root InvalidTransactionId ⟨[], 0, x, y⟩ =
          chainLoop b page (htsvOf page status) marked (PageGetMaxOffsetNumber page + 1) rd
            InvalidTransactionId ⟨[root], 0, x, y⟩ := by
        rw [chainLoop, if_neg (by omega), if_neg (by rw [hmark]; simp), hitem]
        rfl
      obtain ⟨cs, l, hcs, hl, hitems, hlast⟩ := chainLoop_walk hacyc status marked rd
        InvalidTransactionId ⟨[root], 0, x, y⟩ (Nat.lt_succ_self _) (.inl (by simp))
      exact ⟨cs, l, hstep.trans hcs, hitems, hlast ▸ Collected.of_redirect hitem hl⟩
    | _ => rw [hitem] at hred; exact absurd hred (by simp [ItemIdIsRedirected])

/-- **`heap_prune_chain` for a root** ends, and records one of the outcomes. -/
theorem pruneRoot_spec (hacyc : Acyclic (itemLink b page)) (hroom : Room page st)
    (hroot : IsTuple page root ∨ ItemIdIsRedirected (PageGetItemId page root) = true)
    (hmark : st.marked root = false) :
    ∃ n st', pruneRoot b page (htsvOf page status) root st = some (n, st') ∧
      RootOutcome b page status root st n st' := by
  have hused : PageGetItemId page root ≠ LP_UNUSED := by
    intro hitem
    rw [IsTuple, hitem] at hroot
    exact absurd hroot (by simp [ItemIdIsNormal, ItemIdIsRedirected])
  obtain ⟨cs, rest, hcs, hitems, hcoll⟩ := chainLoop_collected hacyc status
    hroot hmark
  have hroom' : Room page { st with
      new_prune_xid := cs.new_prune_xid
      latestRemovedXid := cs.latestRemovedXid } := ⟨hroom.1, hroom.2, hroom.3⟩
  obtain ⟨n, st', hrec, houtcome⟩ := recordChain_spec hacyc hroom' hused hmark hitems
    hcoll
  refine ⟨n, st', by rw [pruneRoot, hcs]; exact hrec, ?_⟩
  -- the hints are of no concern here
  have hrecd : ∀ {red : List (ℕ × ℕ)} {dead unused : List ℕ}, Recorded { st with
      new_prune_xid := cs.new_prune_xid
      latestRemovedXid := cs.latestRemovedXid } red dead unused st' →
      Recorded st red dead unused st' := fun h => ⟨h.1, h.2, h.3, h.4⟩
  cases houtcome with
  | kept h hn => exact .kept (hrecd h) hn
  | dead h hn hchain hmem hgone hends => exact .dead (hrecd h) hn hchain hmem hgone hends
  | redirected h hn hchain hmem hgone => exact .redirected (hrecd h) hn hchain hmem hgone

end FdPostgres
