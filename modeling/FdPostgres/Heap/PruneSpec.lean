import FdPostgres.Heap.PruneReach

/-!
# What Pruning a Page Guarantees

* `heap_page_prune_spec`: **pruning removes only what is gone, and what stays can be reached from
  the same roots.** The lists of changes are disjoint on every page whose links have no cycle;
  reachability also needs that links lead to heap-only tuples and that no two lead to the same.
* `heap_page_prune_unlinked`: pages without cycles where it fails otherwise.
-/

namespace FdPostgres

open HTSV_Result ItemId LinkPaths Relation List

variable {δ : Type} {b : XactView} {page page' : Page δ} {status : ℕ → HTSV_Result}
  {st : PruneState}

/-! ### Counting -/

/-- The number of tuples that one page holds and the other does not. -/
def removedCount (page page' : Page δ) : ℕ :=
  (List.range' 1 (PageGetMaxOffsetNumber page)).countP fun i =>
    ItemIdIsNormal (PageGetItemId page i) && !ItemIdIsNormal (PageGetItemId page' i)

/-- The tuples among some line pointers. -/
theorem sum_tupleCount (l : List ℕ) : (l.map (tupleCount page)).sum =
    (l.filter fun i => ItemIdIsNormal (PageGetItemId page i)).length := by
  induction l with
  | nil => rfl
  | cons i l ih =>
    rw [map_cons, sum_cons, filter_cons, ih, tupleCount]
    split
    · rw [length_cons, add_comm]
    · rw [zero_add]

/-- **A plan removes as many tuples as it says.** -/
theorem PlanInv.removedCount_eq (h : PlanInv b page status st) (happ : Applied page st page') :
    removedCount page page' = planCount page st := by
  have hnodup := h.nodup.sublist (sublist_planned st)
  obtain ⟨l, hl⟩ : ∃ l, l = (st.redirected.map Prod.fst ++ st.nowdead).filter
    fun i => ItemIdIsNormal (PageGetItemId page i) := ⟨_, rfl⟩
  have hlmem : ∀ i, i ∈ l ↔ ((∃ p ∈ st.redirected, p.1 = i) ∨ i ∈ st.nowdead) ∧ IsTuple page i := by
    intro i
    rw [hl, mem_filter, mem_append, mem_map]
    rfl
  have hlnodup : (l ++ st.nowunused).Nodup := by
    rw [hl]
    exact hnodup.sublist (filter_sublist.append (List.Sublist.refl _))
  rw [removedCount, planCount, sum_tupleCount, ← hl, countP_eq_length_filter, add_comm,
    ← length_append]
  refine List.Perm.length_eq ((perm_ext_iff_of_nodup
    ((nodup_range').filter _) hlnodup).mpr fun i => ?_)
  rw [mem_filter, mem_append, hlmem, Bool.and_eq_true]
  constructor
  · rintro ⟨-, htup, hnot⟩
    by_contra hout
    obtain ⟨hout, hu⟩ := not_or.mp hout
    have hunt : Untouched st i := ⟨hu, fun hd => hout ⟨.inr hd, htup⟩,
      fun p hp heq => hout ⟨.inl ⟨p, hp, heq⟩, htup⟩⟩
    rw [happ.untouched hunt, htup] at hnot
    cases hnot
  · intro hmem
    have htup : IsTuple page i := hmem.elim (fun h => h.2) fun hu => (h.nowunused i hu).1
    have hrange := htup.mem_range
    refine ⟨mem_range'_1.mpr (by omega), htup, ?_⟩
    rcases hmem with ⟨⟨p, hp, rfl⟩ | hd, -⟩ | hu
    · rw [happ.redirected p hp]
      rfl
    · rw [happ.nowdead i hd]
      rfl
    · rw [happ.nowunused i hu]
      rfl

/-! ### The guarantee -/

theorem Gone.dying {i : ℕ} (h : Gone b page status i) : Dying status i := h.imp_right And.left

/-- A tuple that is not gone is not touched. -/
theorem PlanInv.untouched (h : PlanInv b page status st) {i : ℕ} (htup : IsTuple page i)
    (hgone : ¬ Gone b page status i) : Untouched st i := by
  refine ⟨fun hu => hgone (h.nowunused i hu).2.1, fun hd => hgone ((h.nowdead i hd).2 htup),
    fun p hp heq => ?_⟩
  subst heq
  exact hgone ((h.redirected p hp).2.1 htup)

/-- The beginning. -/
theorem PlanInv.init : PlanInv b page status PruneState.init where
  marked i := by simp [PruneState.init, planned]
  nodup := nodup_nil
  nowunused := forall_mem_nil _
  nowdead := forall_mem_nil _
  redirected := forall_mem_nil _

/-- `heap_page_prune` ends with a plan that is in order and makes its changes. -/
theorem heap_page_prune_plan (hacyc : Acyclic (itemLink b page)) (status : ℕ → HTSV_Result) :
    ∃ n st page', heap_page_prune b page status = some (n, st, page') ∧
      PlanInv b page status st ∧ Applied page st page' ∧ n = planCount page st ∧
      (WellLinked b page → DeadInv b page st) := by
  obtain ⟨n, st, hscan, hplan, hcount, hdead⟩ := pruneScan_induct hacyc status
    (fun k st => k = planCount page st ∧ (WellLinked b page → DeadInv b page st))
    (fun k offnum n st st' hplan hP hmark hout =>
      ⟨by rw [hout.count, hP.1], fun hw => hw.step hacyc hplan (hP.2 hw) hmark hout⟩)
    (k := 0) PlanInv.init
    ⟨rfl, fun _ => forall_mem_nil _⟩
  refine ⟨n, st, _, by rw [heap_page_prune, hscan], hplan, ?_, hcount, hdead⟩
  split
  · have happ := hplan.applied
    exact ⟨happ.1, happ.2, happ.3, happ.4⟩
  · next hnoth =>
      have hnil : st.redirected = [] ∧ st.nowdead = [] ∧ st.nowunused = [] := by
        simpa [length_pos_iff] using hnoth
      exact ⟨fun i hi => absurd hi (by simp [hnil.2.2]), fun i hi => absurd hi (by simp [hnil.2.1]),
        fun p hp => absurd hp (by simp [hnil.1]), fun _ _ _ _ => rfl⟩

/-- **Pruning a page.** On every page whose links have no cycle, with any status of its tuples,
`heap_page_prune` ends without a failed assertion, no line pointer is in its lists twice, a tuple
that is neither dead nor recently dead keeps its line pointer and its contents, a recently dead
tuple is removed only if a dead one is behind it, and the tuples removed are counted. If the links
lead to heap-only tuples, no two to the same, then a tuple that is neither dead nor recently dead is
reached from the same roots as before, no root becomes unused, and every new redirection leads to a
heap-only tuple that is kept. -/
theorem heap_page_prune_spec (b : XactView) (page : Page δ) (status : ℕ → HTSV_Result)
    (hacyclic : Acyclic (itemLink b page)) :
    ∃ ndeleted prstate page', heap_page_prune b page status = some (ndeleted, prstate, page') ∧
      (planned prstate.redirected prstate.nowdead prstate.nowunused).Nodup ∧
      (∀ i, IsTuple page i → ¬ Dying status i → PageGetItemId page' i = PageGetItemId page i) ∧
      (∀ i, IsTuple page i → status i = RECENTLY_DEAD → ¬ IsTuple page' i →
        ∃ d, TransGen (Leads (itemLink b page)) i d ∧ status d = DEAD) ∧
      ndeleted = removedCount page page' ∧
      (WellLinked b page → (∀ r i, IsRoot page r → IsTuple page i → ¬ Dying status i →
          (Reaches b page' r i ↔ Reaches b page r i)) ∧
        (∀ r, IsRoot page r → PageGetItemId page' r ≠ LP_UNUSED) ∧
        ∀ p ∈ prstate.redirected, PageGetItemId page' p.1 = LP_REDIRECT p.2 ∧
          IsTuple page p.2 ∧ ¬ IsRoot page p.2 ∧
          PageGetItemId page' p.2 = PageGetItemId page p.2) := by
  obtain ⟨n, st, page', hprune, hplan, happ, hcount, hdead⟩ := heap_page_prune_plan hacyclic status
  refine ⟨n, st, page', hprune, hplan.nodup, fun i htup hlive => ?_,
    fun i htup hrcnt hnot => ?_, by rw [hcount, hplan.removedCount_eq happ], fun hw => ?_⟩
  · exact happ.untouched (hplan.untouched htup fun hgone => hlive hgone.dying)
  · by_contra hno
    have hunt := hplan.untouched htup fun hgone => by
      rcases hgone with hd | ⟨-, hbehind⟩
      · rw [hrcnt] at hd
        cases hd
      · exact hno hbehind
    rw [IsTuple, happ.untouched hunt] at hnot
    exact hnot htup
  · refine ⟨fun r i hr htup hlive => ⟨happ.reaches_before hplan, ?_⟩, fun r hr hitem => ?_,
      fun p hp => ?_⟩
    · exact hw.reaches_after hacyclic hplan (hdead hw) happ hr
        (hplan.untouched htup fun hgone => hlive hgone.dying)
    · by_cases hunt : Untouched st r
      · rw [happ.untouched hunt] at hitem
        exact hr.used hitem
      · refine hunt ⟨fun hu => hw.not_isRoot_unused hplan hu hr, fun hd => ?_, fun p hp heq => ?_⟩
        · cases hitem.symm.trans (happ.nowdead r hd)
        · subst heq
          cases hitem.symm.trans (happ.redirected p hp)
    · have hpath := (hplan.redirected p hp).2.2.1
      have hnot := hw.not_isRoot hpath
      refine ⟨happ.redirected p hp, isTuple_of_transGen hpath, hnot, happ.untouched ⟨?_, ?_, ?_⟩⟩
      · -- the targets are in the plan, and nothing is in it twice
        intro hu
        have hnodup := hplan.nodup
        rw [planned, append_assoc, append_assoc] at hnodup
        have hsnd := (nodup_append.mp (nodup_append.mp hnodup).2.1).2.2 p.2
          (mem_map_of_mem hp) p.2 (mem_append_right _ hu)
        exact hsnd rfl
      · exact fun hd => hnot (hplan.nowdead _ hd).1
      · exact fun q hq heq => hnot (heq ▸ (hplan.redirected q hq).1)

/-! ### Two pages -/

/-- A backend that knows of no running transaction. -/
def quietView : XactView :=
  ⟨fun _ => .committed, fun _ => false, id, fun _ _ => [], fun _ => true, id, id⟩

/-- A tuple of a committed transaction, with the bits of `t_infomask2` and the link. -/
def committedTuple (xmin xmax : ℕ) (infomask2 : BitVec 16) (ctid : ℕ) : ItemId Unit :=
  LP_NORMAL ⟨⟨xmin, xmax, 0, HEAP_XMIN_COMMITTED⟩, infomask2, ctid, ()⟩

/-- A page with a chain of two tuples. -/
def chainPage : Page Unit :=
  ⟨[committedTuple 5 10 HEAP_HOT_UPDATED 2, committedTuple 10 0 HEAP_ONLY_TUPLE 2], 0, false,
    by decide⟩

/-- A page on which two roots are updated to the same tuple. -/
def sharedPage : Page Unit :=
  ⟨[committedTuple 5 10 HEAP_HOT_UPDATED 3, committedTuple 6 10 HEAP_HOT_UPDATED 3,
    committedTuple 10 0 HEAP_ONLY_TUPLE 3], 0, false, by decide⟩

/-- A page with a chain of tuples none of which is heap-only. -/
def rootedPage : Page Unit :=
  ⟨[committedTuple 5 10 HEAP_HOT_UPDATED 2, committedTuple 10 11 HEAP_HOT_UPDATED 3,
    committedTuple 11 0 0#16 3], 0, false, by decide⟩

/-- All tuples are dead but one. -/
def onlyLive (live : ℕ) (offnum : ℕ) : HTSV_Result := if offnum = live then LIVE else DEAD

/-- The first tuple of a chain of two is removed, and the second one is still reached. -/
theorem chainPage_pruned : ∃ n st page',
    heap_page_prune quietView chainPage (onlyLive 2) = some (n, st, page') ∧
      n = removedCount chainPage page' ∧ Reaches quietView page' 1 2 := by
  have hlinks : ∀ a c, Leads (itemLink quietView chainPage) a c → a = 1 ∧ c = 2 := by
    intro a c h
    match a with
    | 0 => cases h
    | 1 => exact ⟨rfl, (Option.some.inj h).symm⟩
    | 2 => cases h
    | a + 3 => cases h
  have hacyc : Acyclic (itemLink quietView chainPage) := by
    refine acyclic_of_lt fun a c h => ?_
    obtain ⟨rfl, rfl⟩ := hlinks a c h
    decide
  have hw : WellLinked quietView chainPage := by
    refine ⟨fun a a' c h h' => (hlinks a c h).1.trans (hlinks a' c h').1.symm, fun a c h => ?_⟩
    rw [(hlinks a c h).2]
    exact fun hroot => nomatch hroot
  obtain ⟨n, st, page', hprune, -, -, -, hcount, hreach⟩ :=
    heap_page_prune_spec quietView chainPage (onlyLive 2) hacyc
  refine ⟨n, st, page', hprune, hcount, ?_⟩
  exact ((hreach hw).1 1 2 rfl rfl (by rintro (h | h) <;> exact nomatch h)).mpr
    (ReflTransGen.single rfl)

/-- **Where links are shared or lead to roots, pruning is not safe**, although they have no cycle: a
live tuple is not reached any more from one of its roots, a root becomes unused, and a root is
redirected to another one. -/
theorem heap_page_prune_unlinked :
    (Acyclic (itemLink quietView sharedPage) ∧ ∃ n st page',
      heap_page_prune quietView sharedPage (onlyLive 3) = some (n, st, page') ∧
      IsRoot sharedPage 2 ∧ Reaches quietView sharedPage 2 3 ∧ ¬ Reaches quietView page' 2 3) ∧
    Acyclic (itemLink quietView rootedPage) ∧ ∃ n st page',
      heap_page_prune quietView rootedPage (onlyLive 3) = some (n, st, page') ∧
      IsRoot rootedPage 2 ∧ PageGetItemId page' 2 = LP_UNUSED ∧
      st.redirected = [(1, 3)] ∧ IsRoot rootedPage 3 := by
  refine ⟨⟨acyclic_of_lt fun a c h => ?_, ?_⟩, acyclic_of_lt fun a c h => ?_, ?_⟩
  · match a with
    | 1 | 2 => rw [← Option.some.inj h]; decide
    | 0 | 3 | _ + 4 => cases h
  · refine ⟨_, _, _, rfl, rfl, ReflTransGen.single rfl, fun hreach => ?_⟩
    exact absurd (eq_of_next_none rfl hreach) (by decide)
  · match a with
    | 1 | 2 => rw [← Option.some.inj h]; decide
    | 0 | 3 | _ + 4 => cases h
  · exact ⟨_, _, _, rfl, rfl, rfl, rfl, rfl⟩

end FdPostgres
