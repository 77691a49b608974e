import FdPostgres.Lib.MaxTree
import FdPostgres.Slru.Truncate

/-!
# Pages of the Free Space Map

A page of the free space map (`fsmpage.c`) has one byte for each of its slots, and above them a
binary tree of maxima in an array. Searching starts at a hint and never looks to the left of it
unless it wraps around.

* `fsm_set_avail`, `fsm_search_avail`, `fsm_truncate_avail`, `fsm_rebuild_page`: the operations.
* `NotTorn`: the upper nodes are the maxima of their children.
* `NotTorn.set_avail`, `rebuild_notTorn`: pages that are not torn stay so, and torn ones are
  repaired.
* `NotTorn.search_avail`: the search finds a slot exactly if there is one.
-/

namespace FdPostgres

open Function MaxTree Nat Option

/-! ### Pages -/

/-- `MAXALIGN(SizeOfPageHeaderData)`. -/
def SizeOfPageHeaderData : ℕ := 24

/-- `NodesPerPage`; `fp_nodes` follows an `int`. -/
def NodesPerPage : ℕ := BLCKSZ - SizeOfPageHeaderData - 4

def NonLeafNodesPerPage : ℕ := BLCKSZ / 2 - 1

def LeafNodesPerPage : ℕ := NodesPerPage - NonLeafNodesPerPage

def SlotsPerFSMPage : ℕ := LeafNodesPerPage

theorem slots_eq : SlotsPerFSMPage = 4069 := rfl

/-- `FSMPageData`: where the next search starts, and the nodes of the tree by number. Nodes past the
end of the array are not used. -/
structure FSMPage where
  fp_next_slot : ℤ
  fp_nodes : ℕ → ℕ

/-- A page of zeroes, as `PageInit` leaves it. -/
def FSMPage.zero : FSMPage := ⟨0, fun _ => 0⟩

def leftchild (x : ℕ) : ℕ := 2 * x + 1

def parentof (x : ℕ) : ℕ := (x - 1) / 2

/-- `rightneighbor`: the next node of the same level, wrapping around. -/
def rightneighbor (x : ℕ) : ℕ :=
  if (x + 1 + 1) &&& (x + 1) = 0 then parentof (x + 1) else x + 1

variable (page : FSMPage)

def fsm_get_avail (slot : ℕ) : ℕ := page.fp_nodes (NonLeafNodesPerPage + slot)

def fsm_get_max_avail : ℕ := page.fp_nodes 0

variable (nodes : ℕ → ℕ) (nodeno : ℕ)

/-- The value that `fsm_rebuild_page` gives to a node, which may have no child. -/
def rebuiltValue : ℕ :=
  let lchild := leftchild nodeno
  let rchild := lchild + 1
  let newvalue := if lchild < NodesPerPage then nodes lchild else 0
  if rchild < NodesPerPage then max newvalue (nodes rchild) else newvalue

/-- The loop of `fsm_rebuild_page`, from the given number of nodes down to the root. -/
def rebuildNodes : ℕ → Bool → (ℕ → ℕ) → Bool × (ℕ → ℕ)
  | 0, changed, nodes => (changed, nodes)
  | nodeno + 1, changed, nodes =>
      if nodes nodeno ≠ rebuiltValue nodes nodeno then
        rebuildNodes nodeno true (update nodes nodeno (rebuiltValue nodes nodeno))
      else rebuildNodes nodeno changed nodes

def fsm_rebuild_page : Bool × FSMPage :=
  let r := rebuildNodes NonLeafNodesPerPage false page.fp_nodes
  (r.1, { page with fp_nodes := r.2 })

theorem parentof_lt {x : ℕ} (h : 0 < parentof x) : parentof x < x := by
  rw [parentof] at *
  omega

/-- The value that `fsm_set_avail` gives to a node on its way up. -/
def raisedValue : ℕ :=
  let lchild := leftchild nodeno
  let rchild := lchild + 1
  if rchild < NodesPerPage then max (nodes lchild) (nodes rchild) else nodes lchild

/-- The loop of `fsm_set_avail` that propagates a value up. -/
def propagateUp (nodes : ℕ → ℕ) (nodeno : ℕ) : ℕ → ℕ :=
  let newvalue := raisedValue nodes (parentof nodeno)
  if nodes (parentof nodeno) = newvalue then nodes
  else if _h : parentof nodeno > 0 then
    propagateUp (update nodes (parentof nodeno) newvalue) (parentof nodeno)
  else update nodes (parentof nodeno) newvalue
termination_by nodeno
decreasing_by exact parentof_lt _h

def fsm_set_avail (slot value : ℕ) : Bool × FSMPage :=
  let nodeno := NonLeafNodesPerPage + slot
  if page.fp_nodes nodeno = value ∧ value ≤ page.fp_nodes 0 then (false, page)
  else
    let nodes := propagateUp (update page.fp_nodes nodeno value) nodeno
    let page := { page with fp_nodes := nodes }
    if value > page.fp_nodes 0 then (true, (fsm_rebuild_page page).2) else (true, page)

/-- Moving right and climbing goes to an earlier node. -/
theorem searchUp_lt {x : ℕ} (h : x > 0) : parentof (rightneighbor x) < x := by
  rw [rightneighbor]
  split
  · simp only [parentof]
    omega
  · simp only [parentof]
    omega

/-- The first loop of `fsm_search_avail`: right and up, until a node promises enough. -/
def searchUp (nodes : ℕ → ℕ) (minvalue nodeno : ℕ) : ℕ :=
  if _h : nodeno > 0 then
    if nodes nodeno ≥ minvalue then nodeno
    else searchUp nodes minvalue (parentof (rightneighbor nodeno))
  else nodeno
termination_by nodeno
decreasing_by exact searchUp_lt _h

/-- The second loop of `fsm_search_avail`: down to a leaf, or nothing if a node does not keep its
promise. -/
def searchDown (nodes : ℕ → ℕ) (minvalue nodeno : ℕ) : Option ℕ :=
  if nodeno < NonLeafNodesPerPage then
    let childnodeno := leftchild nodeno
    if childnodeno < NodesPerPage ∧ nodes childnodeno ≥ minvalue then
      searchDown nodes minvalue childnodeno
    else if childnodeno + 1 < NodesPerPage ∧ nodes (childnodeno + 1) ≥ minvalue then
      searchDown nodes minvalue (childnodeno + 1)
    else none
  else some nodeno
termination_by NonLeafNodesPerPage - nodeno
decreasing_by
  · simp only [leftchild]
    omega
  · simp only [leftchild]
    omega

/-- `fsm_search_avail`, for a number of passes. A pass that finds a torn page repairs it and
restarts. -/
def searchPasses (minvalue : ℕ) (advancenext : Bool) : ℕ → FSMPage → Option (Option ℕ × FSMPage)
  | 0, _ => none
  | fuel + 1, page =>
      if page.fp_nodes 0 < minvalue then some (none, page)
      else
        let target :=
          if page.fp_next_slot < 0 ∨ page.fp_next_slot ≥ LeafNodesPerPage then 0
          else page.fp_next_slot.toNat
        let nodeno := searchUp page.fp_nodes minvalue (target + NonLeafNodesPerPage)
        match searchDown page.fp_nodes minvalue nodeno with
        | some nodeno =>
            let slot := nodeno - NonLeafNodesPerPage
            some (some slot,
              { page with fp_next_slot := (slot : ℤ) + (if advancenext then 1 else 0) })
        | none => searchPasses minvalue advancenext fuel (fsm_rebuild_page page).2

/-- `fsm_search_avail`: one pass, or two for a torn page. -/
def fsm_search_avail (minvalue : ℕ) (advancenext : Bool) : Option ℕ × FSMPage :=
  (searchPasses minvalue advancenext 2 page).getD (none, page)

def fsm_truncate_avail (nslots : ℕ) : Bool × FSMPage :=
  let changed := (List.range' (NonLeafNodesPerPage + nslots) (LeafNodesPerPage - nslots)).any
    fun i => page.fp_nodes i != 0
  let nodes := fun i =>
    if NonLeafNodesPerPage + nslots ≤ i ∧ i < NodesPerPage then 0 else page.fp_nodes i
  let page := { page with fp_nodes := nodes }
  if changed then (true, (fsm_rebuild_page page).2) else (false, page)

/-! ### Pages that are not torn -/

/-- **The upper nodes are the maxima of their children.** -/
def NotTorn : Prop :=
  IsMaxTree NodesPerPage NonLeafNodesPerPage page.fp_nodes

/-- Two pages with the same slots. -/
def SameSlots (page page' : FSMPage) : Prop :=
  ∀ slot, fsm_get_avail page' slot = fsm_get_avail page slot

theorem zero_notTorn : NotTorn .zero := by
  intro i _
  simp [FSMPage.zero, childMax, MaxTree.read]

/-- A page is rebuilt from the maxima. -/
theorem rebuiltValue_eq : rebuiltValue nodes nodeno = childMax NodesPerPage nodes nodeno := by
  rw [rebuiltValue, childMax, MaxTree.read, MaxTree.read, leftchild, bot_eq_zero]
  by_cases hr : 2 * nodeno + 1 + 1 < NodesPerPage
  · rw [if_pos hr, if_pos (show 2 * nodeno + 2 < NodesPerPage from hr)]
  · rw [if_neg hr, if_neg (show ¬ 2 * nodeno + 2 < NodesPerPage from hr), max_zero]

variable {nodeno : ℕ} {nodes : ℕ → ℕ}

/-- The way up sets maxima too, since the left child exists. -/
theorem raisedValue_eq (hpos : 0 < nodeno) (hlt : nodeno < NodesPerPage) :
    raisedValue nodes (parentof nodeno) =
      childMax NodesPerPage nodes (parentof nodeno) := by
  have hleft : leftchild (parentof nodeno) < NodesPerPage := by
    simp only [leftchild, parentof]
    omega
  rw [← rebuiltValue_eq, raisedValue, rebuiltValue, if_pos hleft]

theorem parentof_inner (hlt : nodeno < NodesPerPage) : parentof nodeno < NonLeafNodesPerPage := by
  simp only [parentof, NonLeafNodesPerPage, NodesPerPage, BLCKSZ, SizeOfPageHeaderData] at *
  omega

/-- **Propagating a value up** makes the tree right again, and leaves the slots. -/
theorem propagateUp_spec (hpos : 0 < nodeno) (hlt : nodeno < NodesPerPage)
    (h : MaxExcept NodesPerPage NonLeafNodesPerPage nodes (parentof nodeno)) :
    IsMaxTree NodesPerPage NonLeafNodesPerPage (propagateUp nodes nodeno) ∧
      ∀ i, NonLeafNodesPerPage ≤ i → propagateUp nodes nodeno i = nodes i := by
  have hinner := parentof_inner hlt
  induction nodes, nodeno using propagateUp.induct with
  | case1 nodes nodeno newvalue heq =>
    rw [propagateUp, if_pos heq]
    exact ⟨h.isMaxTree (heq.trans (raisedValue_eq hpos hlt)), fun i _ => rfl⟩
  | case2 nodes nodeno newvalue hne hup ih =>
    have hvalue : newvalue = _ := raisedValue_eq hpos hlt
    rw [propagateUp, if_neg hne, dif_pos hup]
    have hlt' := (parentof_lt hup).trans hlt
    have hexcept : MaxExcept NodesPerPage NonLeafNodesPerPage
        (update nodes (parentof nodeno) newvalue) (parentof (parentof nodeno)) := by
      rw [hvalue]
      exact h.write
    obtain ⟨htree, hslots⟩ := ih hup hlt' hexcept (parentof_inner hlt')
    refine ⟨htree, fun i hi => ?_⟩
    rw [hslots i hi, update_of_ne (by omega)]
  | case3 nodes nodeno newvalue hne hup =>
    have hroot : parentof nodeno = 0 := by omega
    rw [propagateUp, if_neg hne]
    rw [hroot] at h hinner ⊢
    exact ⟨h.update_root, fun i hi => update_of_ne (by omega) _ _⟩

/-- A node of a slot. -/
theorem slot_node {slot : ℕ} (h : slot < SlotsPerFSMPage) :
    0 < NonLeafNodesPerPage + slot ∧ NonLeafNodesPerPage + slot < NodesPerPage := by
  simp only [SlotsPerFSMPage, LeafNodesPerPage, NonLeafNodesPerPage, BLCKSZ] at *
  omega

/-- **Rebuilding a page** makes its tree right from the nodes that are visited up, and leaves the
slots. -/
theorem rebuildNodes_spec : ∀ (m : ℕ) (changed : Bool) (nodes : ℕ → ℕ), m ≤ NonLeafNodesPerPage →
    (∀ i, m ≤ i → i < NonLeafNodesPerPage → nodes i = childMax NodesPerPage nodes i) →
    IsMaxTree NodesPerPage NonLeafNodesPerPage (rebuildNodes m changed nodes).2 ∧
      ∀ i, NonLeafNodesPerPage ≤ i → (rebuildNodes m changed nodes).2 i = nodes i := by
  intro m
  induction m with
  | zero => exact fun _ nodes _ h => ⟨fun i hi => h i (zero_le i) hi, fun i _ => rfl⟩
  | succ m ih =>
    intro changed nodes hm h
    rw [rebuildNodes, rebuiltValue_eq]
    split_ifs with hne
    · obtain ⟨htree, hslots⟩ := ih true
        (update nodes m (childMax NodesPerPage nodes m)) (by omega) (by
          intro i hmi hi
          rw [childMax_update (by omega) (by omega)]
          by_cases him : i = m
          · rw [him, update_self]
          · rw [update_of_ne him]
            exact h i (by omega) hi)
      refine ⟨htree, fun i hi => ?_⟩
      rw [hslots i hi, update_of_ne (by omega)]
    · rw [not_not] at hne
      refine ih changed nodes (by omega) fun i hmi hi => ?_
      by_cases him : i = m
      · rw [him, hne]
      · exact h i (by omega) hi

/-- A rebuilt page is not torn and has the same slots. -/
theorem rebuild_notTorn :
    NotTorn (fsm_rebuild_page page).2 ∧ SameSlots page (fsm_rebuild_page page).2 := by
  obtain ⟨htree, hslots⟩ := rebuildNodes_spec NonLeafNodesPerPage false page.fp_nodes le_rfl
    fun i hi hi' => absurd hi' (by omega)
  exact ⟨htree, fun slot => hslots _ (le_add_right _ _)⟩

section Specs

variable {page : FSMPage}

/-- **The root is the maximum of the slots.** -/
theorem NotTorn.max_avail (h : NotTorn page) :
    fsm_get_max_avail page = (Finset.range SlotsPerFSMPage).sup (fsm_get_avail page) := by
  have hroot := h.root_eq_sup (by decide) (by decide)
  rw [fsm_get_max_avail, hroot]
  apply le_antisymm
  · refine Finset.sup_le fun i hi => ?_
    rw [Finset.mem_Ico] at hi
    have hslot : i - NonLeafNodesPerPage < SlotsPerFSMPage := by
      rw [SlotsPerFSMPage, LeafNodesPerPage]
      omega
    have hnode : fsm_get_avail page (i - NonLeafNodesPerPage) = page.fp_nodes i := by
      rw [fsm_get_avail, Nat.add_sub_cancel' hi.1]
    rw [← hnode]
    exact Finset.le_sup (Finset.mem_range.mpr hslot)
  · refine Finset.sup_le fun slot hslot => ?_
    refine Finset.le_sup (Finset.mem_Ico.mpr ⟨Nat.le_add_right _ _, ?_⟩)
    exact (slot_node (Finset.mem_range.mp hslot)).2

/-- **Setting a slot**: the page is not torn afterwards, and no other slot is touched. -/
theorem NotTorn.set_avail (h : NotTorn page) {slot : ℕ} (hslot : slot < SlotsPerFSMPage)
    (value : ℕ) :
    NotTorn (fsm_set_avail page slot value).2 ∧
      ∀ slot', fsm_get_avail (fsm_set_avail page slot value).2 slot' =
        if slot' = slot then value else fsm_get_avail page slot' := by
  obtain ⟨hpos, hlt⟩ := slot_node hslot
  rw [fsm_set_avail]
  split_ifs with hsame
  · refine ⟨h, fun slot' => ?_⟩
    split
    · rename_i heq
      rw [heq]
      exact hsame.1
    · rfl
  · obtain ⟨htree, hslots⟩ := propagateUp_spec hpos hlt
      (h.update_leaf (le_add_right NonLeafNodesPerPage slot))
    have hset : ∀ slot', propagateUp (update page.fp_nodes (NonLeafNodesPerPage + slot)
        value) (NonLeafNodesPerPage + slot) (NonLeafNodesPerPage + slot') =
          if slot' = slot then value else fsm_get_avail page slot' := by
      intro slot'
      rw [hslots _ (le_add_right _ _)]
      split_ifs with heq
      · rw [heq, update_self]
      · rw [update_of_ne (by omega)]
        rfl
    have hroot := htree.le_root (by decide) _ hlt
    rw [hset slot, if_pos rfl] at hroot
    -- the tree was right, so that the root has the new value already
    rw [if_neg (not_lt.mpr hroot)]
    exact ⟨htree, hset⟩

/-! ### Searching a page -/

variable {minvalue : ℕ}

/-- **The way up** ends at a node that promises enough. -/
theorem searchUp_spec (hroot : minvalue ≤ nodes 0) (hlt : nodeno < NodesPerPage) :
    minvalue ≤ nodes (searchUp nodes minvalue nodeno) ∧
      searchUp nodes minvalue nodeno < NodesPerPage := by
  induction nodeno using searchUp.induct nodes minvalue with
  | case1 nodeno hpos hle =>
    rw [searchUp, dif_pos hpos, if_pos hle]
    exact ⟨hle, hlt⟩
  | case2 nodeno hpos hle ih =>
    rw [searchUp, dif_pos hpos, if_neg hle]
    exact ih ((searchUp_lt hpos).trans hlt)
  | case3 nodeno hpos =>
    have hzero : nodeno = 0 := by omega
    rw [searchUp]
    rw [hzero] at hlt ⊢
    exact ⟨hroot, hlt⟩

/-- **The way down** ends at a slot with enough, if it does not find that the page is torn. -/
theorem searchDown_sound (hle : minvalue ≤ nodes nodeno) (hlt : nodeno < NodesPerPage) {i : ℕ}
    (h : searchDown nodes minvalue nodeno = some i) :
    NonLeafNodesPerPage ≤ i ∧ i < NodesPerPage ∧ minvalue ≤ nodes i := by
  induction nodeno using searchDown.induct nodes minvalue with
  | case1 nodeno hinner child hleft ih =>
    rw [searchDown, if_pos hinner, if_pos hleft] at h
    exact ih hleft.2 hleft.1 h
  | case2 nodeno hinner child hleft hright ih =>
    rw [searchDown, if_pos hinner, if_neg hleft, if_pos hright] at h
    exact ih hright.2 hright.1 h
  | case3 nodeno hinner child hleft hright =>
    rw [searchDown, if_pos hinner, if_neg hleft, if_neg hright] at h
    cases h
  | case4 nodeno hinner =>
    rw [searchDown, if_neg hinner] at h
    obtain rfl := some.inj h
    exact ⟨by omega, hlt, hle⟩

/-- A node on level `d` of the tree, with `j` levels below it. -/
structure OnLevel (nodeno d j : ℕ) : Prop where
  levels : d + j = 12
  lower : 2 ^ d ≤ nodeno + 1
  upper : nodeno + 1 < 2 ^ (d + 1)

variable {d j : ℕ}

/-- There are levels below the inner nodes only. -/
theorem OnLevel.inner_iff (h : OnLevel nodeno d j) : nodeno < NonLeafNodesPerPage ↔ 0 < j := by
  have hinner : NonLeafNodesPerPage + 1 = 2 ^ 12 := rfl
  constructor
  · by_contra hj
    have hlevs := h.levels
    obtain rfl : d = 12 := by omega
    have hlower := h.lower
    omega
  · intro hj
    have hlevs := h.levels
    have hpow : 2 ^ (d + 1) ≤ 2 ^ 12 := Nat.pow_le_pow_right (by decide) (by omega)
    have hupper := h.upper
    omega

/-- The children of a node are on the next level. -/
theorem OnLevel.children (h : OnLevel nodeno d j) (hinner : nodeno < NonLeafNodesPerPage) :
    ∃ i, j = i + 1 ∧ OnLevel (2 * nodeno + 1) (d + 1) i ∧ OnLevel (2 * nodeno + 2) (d + 1) i := by
  obtain ⟨i, rfl⟩ := exists_eq_add_one.mpr (h.inner_iff.mp hinner)
  obtain ⟨hlevs, hlower, hupper⟩ := h
  refine ⟨i, rfl, ⟨by omega, ?_, ?_⟩, by omega, ?_, ?_⟩ <;> simp only [pow_succ] <;> omega

/-- **The way down goes to the first slot with enough**, of those below the node and to the right of
them. -/
theorem searchDown_first (h : IsMaxTree NodesPerPage NonLeafNodesPerPage nodes)
    (hmin : 0 < minvalue) (hle : minvalue ≤ nodes nodeno) : ∀ {d j : ℕ}, OnLevel nodeno d j →
    ∃ i, searchDown nodes minvalue nodeno = some i ∧ nodeno + 1 ≤ (i + 1) / 2 ^ j ∧
      ∀ z < NodesPerPage, nodeno + 1 ≤ (z + 1) / 2 ^ j → minvalue ≤ nodes z → i ≤ z := by
  induction nodeno using searchDown.induct nodes minvalue with
  | case1 nodeno hinner child hleft ih =>
    intro d j hlevel
    have hchild : child = 2 * nodeno + 1 := rfl
    obtain ⟨j, rfl, hnext, -⟩ := hlevel.children hinner
    obtain ⟨i, hi, hbelow, hfirst⟩ := ih hleft.2 hnext
    rw [searchDown, if_pos hinner, if_pos hleft, pow_succ]
    simp only [← Nat.div_div_eq_div_mul]
    exact ⟨i, hi, by omega, fun z hz hright hle => hfirst z hz (by omega) hle⟩
  | case2 nodeno hinner child hleft hright ih =>
    intro d j hlevel
    have hchild : child = 2 * nodeno + 1 := rfl
    obtain ⟨j, rfl, -, hnext⟩ := hlevel.children hinner
    obtain ⟨i, hi, hbelow, hfirst⟩ := ih hright.2 hnext
    rw [searchDown, if_pos hinner, if_neg hleft, if_pos hright, pow_succ]
    simp only [← Nat.div_div_eq_div_mul]
    refine ⟨i, hi, by omega, fun z hz hbey hle => hfirst z hz ?_ hle⟩
    -- nothing below the left child has enough
    by_contra hother
    have hbelow : (z + 1) / 2 ^ j = child + 1 := by omega
    have := Nat.div_le_self (z + 1) (2 ^ j)
    exact hleft ⟨by omega, hle.trans (h.le_ancestor (by decide) hz hbelow)⟩
  | case3 nodeno hinner child hleft hright =>
    intro d j hlevel
    rcases h.child_of_le hinner hmin hle with hchild | hchild
    · exact absurd hchild hleft
    · exact absurd hchild hright
  | case4 nodeno hinner =>
    intro d j hlevel
    obtain rfl : j = 0 := by have := hlevel.inner_iff; omega
    rw [searchDown, if_neg hinner, pow_zero]
    simp only [Nat.div_one]
    exact ⟨nodeno, rfl, le_rfl, fun z _ hz _ => by omega⟩

/-- The last node of a level is told by its bits. -/
theorem and_succ_eq_zero_iff {y : ℕ} (hlower : 2 ^ d ≤ y) (hupper : y < 2 ^ (d + 1)) :
    (y + 1) &&& y = 0 ↔ y + 1 = 2 ^ (d + 1) := by
  refine (Nat.and_sub_one_eq_zero_iff_isPowerOfTwo (Nat.succ_ne_zero y)).trans
    ⟨fun ⟨k, hk⟩ => ?_, fun h => ⟨d + 1, h⟩⟩
  have hlt : d < k := (Nat.pow_lt_pow_iff_right (by decide)).mp (by omega : 2 ^ d < 2 ^ k)
  have hle : k ≤ d + 1 := (Nat.pow_le_pow_iff_right (by decide)).mp (by omega : 2 ^ k ≤ 2 ^ (d + 1))
  obtain rfl : k = d + 1 := by omega
  exact hk

/-- The nodes from `t` on that have enough are below the node number `m`, counted from 1, or to the
right of it. -/
def From (nodes : ℕ → ℕ) (minvalue t j m : ℕ) : Prop :=
  ∀ z < NodesPerPage, t ≤ z → minvalue ≤ nodes z → m ≤ (z + 1) / 2 ^ j

/-- What is known of the slots on the way up, from the node `t` on: there is none with enough before
those below the node, or there is none at all and the node is the first of its level. -/
def NothingBefore (nodes : ℕ → ℕ) (minvalue t nodeno d j : ℕ) : Prop :=
  (t < (nodeno + 1) * 2 ^ j ∧ From nodes minvalue t j (nodeno + 1)) ∨
  nodeno + 1 = 2 ^ d ∧ ∀ z < NodesPerPage, t ≤ z → nodes z < minvalue

variable {t : ℕ}

/-- **One step right and up.** -/
theorem NothingBefore.step (h : IsMaxTree NodesPerPage NonLeafNodesPerPage nodes)
    (hbef : NothingBefore nodes minvalue t nodeno (d + 1) j) (hlevel : OnLevel nodeno (d + 1) j)
    (hless : nodes nodeno < minvalue) :
    OnLevel (parentof (rightneighbor nodeno)) d (j + 1) ∧
      NothingBefore nodes minvalue t (parentof (rightneighbor nodeno)) d (j + 1) := by
  obtain ⟨hlevs, hlower, hupper⟩ := hlevel
  have hlast := and_succ_eq_zero_iff hlower hupper
  rw [pow_succ, pow_succ] at hupper hlast
  rw [pow_succ] at hlower
  -- the slots below the node do not have enough
  have hright : From nodes minvalue t j (nodeno + 1) → From nodes minvalue t j (nodeno + 2) := by
    intro hahead z hz htz hle
    have hge := hahead z hz htz hle
    by_contra hother
    have hbelow : (z + 1) / 2 ^ j = nodeno + 1 := by omega
    have := h.le_ancestor (by decide) hz hbelow
    omega
  rw [NothingBefore, From, rightneighbor, pow_succ 2 j]
  simp only [← Nat.div_div_eq_div_mul]
  split_ifs with hwrap
  · have heq := hlast.mp hwrap
    have hnode : parentof (parentof (nodeno + 1)) + 1 = 2 ^ d := by
      simp only [parentof]
      omega
    refine ⟨⟨by omega, hnode.ge, by omega⟩, .inr ⟨hnode, ?_⟩⟩
    rcases hbef with hahead | ⟨hfirst, -⟩
    · intro z hz htz
      by_contra hle
      have hge := hright hahead.2 z hz htz (not_lt.mp hle)
      rw [Nat.le_div_iff_mul_le (Nat.two_pow_pos j), heq, mul_assoc, mul_assoc, ← pow_succ',
        ← pow_succ', ← pow_add] at hge
      rw [show d + (j + 1 + 1) = 13 by omega] at hge
      have hnodes : NodesPerPage = 8164 := rfl
      omega
    · omega
  · have hnode : parentof (nodeno + 1) = nodeno / 2 := by
      simp only [parentof]
      omega
    refine ⟨⟨by omega, by omega, by omega⟩, ?_⟩
    rcases hbef with hahead | ⟨hfirst, hnone⟩
    · refine .inl ⟨hahead.1.trans_le ?_, fun z hz htz hle => ?_⟩
      · rw [mul_comm (2 ^ j), ← mul_assoc]
        exact Nat.mul_le_mul_right _ (by omega)
      · have := hright hahead.2 z hz htz hle
        omega
    · exact .inr ⟨by omega, hnone⟩

/-- **The way up** misses no slot with enough. -/
theorem searchUp_first (h : IsMaxTree NodesPerPage NonLeafNodesPerPage nodes)
    (hlevel : OnLevel nodeno d j) (hbef : NothingBefore nodes minvalue t nodeno d j) :
    ∃ d j, OnLevel (searchUp nodes minvalue nodeno) d j ∧
      NothingBefore nodes minvalue t (searchUp nodes minvalue nodeno) d j := by
  induction nodeno using searchUp.induct nodes minvalue generalizing d j with
  | case1 nodeno hpos hle =>
    rw [searchUp, dif_pos hpos, if_pos hle]
    exact ⟨d, j, hlevel, hbef⟩
  | case2 nodeno hpos hle ih =>
    rw [searchUp, dif_pos hpos, if_neg hle]
    obtain ⟨d, rfl⟩ : ∃ e, d = e + 1 := by
      refine exists_eq_add_one.mpr (pos_of_ne_zero ?_)
      rintro rfl
      have := hlevel.upper
      omega
    obtain ⟨hlevel', hbef'⟩ := hbef.step h hlevel (not_le.mp hle)
    exact ih hlevel' hbef'
  | case3 nodeno hpos =>
    rw [searchUp, dif_neg hpos]
    exact ⟨d, j, hlevel, hbef⟩

/-- How far a slot is to the right of another one, wrapping around. -/
def stepsRight (target slot : ℕ) : ℕ := (slot + SlotsPerFSMPage - target) % SlotsPerFSMPage

/-- The slot at which a search starts. -/
def startingSlot (page : FSMPage) : ℕ :=
  if page.fp_next_slot < 0 ∨ page.fp_next_slot ≥ LeafNodesPerPage then 0
  else page.fp_next_slot.toNat

theorem startingSlot_lt (page : FSMPage) : startingSlot page < SlotsPerFSMPage := by
  rw [startingSlot, SlotsPerFSMPage]
  split
  · decide
  · omega

/-- The slot where a pass over any page starts and the node it climbs to. -/
theorem searchUp_start (hroot : ¬ page.fp_nodes 0 < minvalue) :
    minvalue ≤ page.fp_nodes
      (searchUp page.fp_nodes minvalue (startingSlot page + NonLeafNodesPerPage)) ∧
    searchUp page.fp_nodes minvalue (startingSlot page + NonLeafNodesPerPage) < NodesPerPage := by
  refine searchUp_spec (not_lt.mp hroot) ?_
  rw [add_comm]
  exact (slot_node (startingSlot_lt page)).2

/-- What a search answers: no slot if the root promises less, and otherwise the first one with
enough. Only the hint is moved. -/
def SearchResult (page : FSMPage) (minvalue : ℕ) (r : Option ℕ × FSMPage) : Prop :=
  (fsm_get_max_avail page < minvalue ∧ r = (none, page)) ∨
  ∃ slot next, slot < SlotsPerFSMPage ∧ minvalue ≤ fsm_get_avail page slot ∧
    (∀ slot' < SlotsPerFSMPage, minvalue ≤ fsm_get_avail page slot' →
      stepsRight (startingSlot page) slot ≤ stepsRight (startingSlot page) slot') ∧
    r = (some slot, { page with fp_next_slot := next })

/-- **A pass over a page that is not torn** finds the first slot with enough, if there is one. -/
theorem NotTorn.searchPasses (h : NotTorn page) (hmin : 0 < minvalue) (advancenext : Bool)
    (fuel : ℕ) : ∃ r, searchPasses minvalue advancenext (fuel + 1) page = some r ∧
      SearchResult page minvalue r := by
  rw [FdPostgres.searchPasses]
  by_cases hroot : page.fp_nodes 0 < minvalue
  · rw [if_pos hroot]
    exact ⟨_, rfl, .inl ⟨hroot, rfl⟩⟩
  · rw [if_neg hroot, ← startingSlot]
    dsimp only
    have hstart := startingSlot_lt page
    have hinner : NonLeafNodesPerPage = 4095 := rfl
    have hnodes : NodesPerPage = 8164 := rfl
    obtain ⟨hle, hnode⟩ := searchUp_start hroot
    have hlevel : OnLevel (startingSlot page + NonLeafNodesPerPage) 12 0 :=
      ⟨rfl, by omega, by rw [slots_eq] at hstart; omega⟩
    obtain ⟨d, j, hlevel, hbef⟩ := searchUp_first
      (t := startingSlot page + NonLeafNodesPerPage) h hlevel
      (.inl ⟨by rw [pow_zero]; omega, fun z _ hz _ => by omega⟩)
    obtain ⟨i, hi, hbelow, hfirst⟩ := searchDown_first h hmin hle hlevel
    obtain ⟨hleaf, hi', hvalue⟩ := searchDown_sound hle hnode hi
    rw [hi]
    have hslot : NonLeafNodesPerPage + (i - NonLeafNodesPerPage) = i := Nat.add_sub_cancel' hleaf
    refine ⟨_, rfl, .inr ⟨i - NonLeafNodesPerPage, _, ?_, ?_, fun slot' hslot' hle' => ?_, rfl⟩⟩
    · rw [SlotsPerFSMPage, LeafNodesPerPage]
      omega
    · rw [fsm_get_avail, hslot]
      exact hvalue
    · have hz := (slot_node hslot').2
      rw [fsm_get_avail] at hle'
      rw [stepsRight, stepsRight, slots_eq]
      rw [Nat.le_div_iff_mul_le (Nat.two_pow_pos j)] at hbelow
      rcases hbef with ⟨hstart', hahead⟩ | ⟨hwrap, hnone⟩
      · by_cases hside : startingSlot page ≤ slot'
        · have hge := hfirst _ hz (hahead _ hz (by omega) hle') hle'
          omega
        · omega
      · have hside : slot' < startingSlot page := by
          by_contra hge
          have := hnone _ hz (by omega)
          omega
        have hge := hfirst _ hz (by
          rw [hwrap, Nat.le_div_iff_mul_le (Nat.two_pow_pos j), ← pow_add, hlevel.levels]
          omega) hle'
        omega

/-- **Two passes are enough** for any page, torn or not. -/
theorem searchPasses_two (page : FSMPage) (hmin : 0 < minvalue) (advancenext : Bool) :
    (searchPasses minvalue advancenext 2 page).isSome = true := by
  have hagain : (searchPasses minvalue advancenext 1 (fsm_rebuild_page page).2).isSome = true := by
    obtain ⟨r, heq, -⟩ := (rebuild_notTorn page).1.searchPasses hmin advancenext 0
    rw [heq]
    rfl
  rw [searchPasses]
  split
  · rfl
  · dsimp only
    split
    · rfl
    · exact hagain

/-- **The search of a page finds a slot exactly if there is one**, and moves the hint only. -/
theorem NotTorn.search_avail (h : NotTorn page) (hmin : 0 < minvalue) (advancenext : Bool) :
    SearchResult page minvalue (fsm_search_avail page minvalue advancenext) := by
  obtain ⟨r, heq, hr⟩ := h.searchPasses hmin advancenext 1
  rw [fsm_search_avail, heq]
  exact hr

/-- **A slot that is returned has enough**, on any page, torn or not. -/
theorem searchPasses_sound {advancenext : Bool} {fuel slot : ℕ} {r : Option ℕ × FSMPage}
    (h : searchPasses minvalue advancenext fuel page = some r) (hslot : r.1 = some slot) :
    slot < SlotsPerFSMPage ∧ minvalue ≤ fsm_get_avail page slot := by
  induction fuel generalizing page with
  | zero => cases h
  | succ fuel ih =>
    rw [searchPasses] at h
    dsimp only at h
    by_cases hroot : page.fp_nodes 0 < minvalue
    · rw [if_pos hroot] at h
      rw [← some.inj h] at hslot
      cases hslot
    · rw [if_neg hroot] at h
      obtain ⟨hle, hnode⟩ := searchUp_start hroot
      split at h
      · rename_i i hi
        obtain ⟨hleaf, hi', hvalue⟩ := searchDown_sound hle hnode hi
        rw [← some.inj h] at hslot
        obtain rfl := some.inj hslot
        rw [fsm_get_avail, Nat.add_sub_cancel' hleaf, SlotsPerFSMPage, LeafNodesPerPage]
        exact ⟨by omega, hvalue⟩
      · rw [← (rebuild_notTorn page).2 slot]
        exact ih h

/-- **Truncating a page** clears the slots from a slot on. -/
theorem NotTorn.truncate_avail (h : NotTorn page) (nslots : ℕ) :
    NotTorn (fsm_truncate_avail page nslots).2 ∧
      ∀ slot < SlotsPerFSMPage, fsm_get_avail (fsm_truncate_avail page nslots).2 slot =
        if nslots ≤ slot then 0 else fsm_get_avail page slot := by
  have hcleared : ∀ slot < SlotsPerFSMPage,
      (if NonLeafNodesPerPage + nslots ≤ NonLeafNodesPerPage + slot ∧
          NonLeafNodesPerPage + slot < NodesPerPage then 0
        else page.fp_nodes (NonLeafNodesPerPage + slot)) =
      if nslots ≤ slot then 0 else fsm_get_avail page slot := by
    intro slot hslot
    have hlt := (slot_node hslot).2
    by_cases hle : nslots ≤ slot
    · rw [if_pos hle, if_pos ⟨by omega, hlt⟩]
    · rw [if_neg hle, if_neg (by omega)]
      rfl
  rw [fsm_truncate_avail]
  cases hany : (List.range' (NonLeafNodesPerPage + nslots) (LeafNodesPerPage - nslots)).any
      fun i => page.fp_nodes i != 0 with
  | true =>
    obtain ⟨htree, hslots⟩ := rebuild_notTorn { page with fp_nodes := fun i =>
      if NonLeafNodesPerPage + nslots ≤ i ∧ i < NodesPerPage then 0 else page.fp_nodes i }
    exact ⟨htree, fun slot hslot => (hslots slot).trans (hcleared slot hslot)⟩
  | false =>
    refine ⟨?_, fun slot hslot => hcleared slot hslot⟩
    -- the slots were zero already
    have hnodes : (fun i => if NonLeafNodesPerPage + nslots ≤ i ∧ i < NodesPerPage then 0
        else page.fp_nodes i) = page.fp_nodes := by
      funext i
      split
      · rw [List.any_eq_false] at hany
        have hzero := hany i (by
          rw [List.mem_range'_1, LeafNodesPerPage]
          omega)
        rw [bne_iff_ne, not_not] at hzero
        exact hzero.symm
      · rfl
    rw [hnodes]
    exact h

end Specs

/-- **The search of a page is exact.** Any page is rebuilt to one that is not torn, with the same
slots. A page that is not torn stays so when a slot is set or the page is truncated, and only the
slots asked for change; its search finds no slot exactly if none has enough, and otherwise the first
one at or to the right of where it starts, wrapping around. On any page the search ends with at most
one rebuild, and a slot that it returns has enough. -/
theorem fsm_page_search_exact (page : FSMPage) :
    (NotTorn (fsm_rebuild_page page).2 ∧ SameSlots page (fsm_rebuild_page page).2) ∧
    (NotTorn page → (∀ slot < SlotsPerFSMPage, ∀ value, NotTorn (fsm_set_avail page slot value).2 ∧
        ∀ slot', fsm_get_avail (fsm_set_avail page slot value).2 slot' =
          if slot' = slot then value else fsm_get_avail page slot') ∧
      (∀ nslots, NotTorn (fsm_truncate_avail page nslots).2 ∧
        ∀ slot < SlotsPerFSMPage, fsm_get_avail (fsm_truncate_avail page nslots).2 slot =
          if nslots ≤ slot then 0 else fsm_get_avail page slot) ∧ ∀ minvalue > 0, ∀ advancenext,
        ((fsm_search_avail page minvalue advancenext).1 = none ↔
          ∀ slot < SlotsPerFSMPage, fsm_get_avail page slot < minvalue) ∧
        ∀ slot, (fsm_search_avail page minvalue advancenext).1 = some slot →
          ∀ slot' < SlotsPerFSMPage, minvalue ≤ fsm_get_avail page slot' →
            stepsRight (startingSlot page) slot ≤ stepsRight (startingSlot page) slot') ∧
    ∀ minvalue > 0, ∀ advancenext, ∃ r, searchPasses minvalue advancenext 2 page = some r ∧
      fsm_search_avail page minvalue advancenext = r ∧
      ∀ slot, r.1 = some slot → slot < SlotsPerFSMPage ∧ minvalue ≤ fsm_get_avail page slot := by
  refine ⟨rebuild_notTorn page, fun h => ⟨fun slot hslot => h.set_avail hslot, h.truncate_avail,
    fun minvalue hmin advancenext => ?_⟩, fun minvalue hmin advancenext => ?_⟩
  · rcases h.search_avail hmin advancenext with ⟨hless, heq⟩ | ⟨slot, next, hslot, hle, hfirst, heq⟩
    · rw [heq]
      refine ⟨⟨fun _ slot hslot => ?_, fun _ => rfl⟩, fun slot hslot => nomatch hslot⟩
      rw [h.max_avail] at hless
      exact (Finset.le_sup (Finset.mem_range.mpr hslot)).trans_lt hless
    · rw [heq]
      refine ⟨⟨(nomatch ·), fun hnone => ?_⟩, fun slot' hslot' => ?_⟩
      · exact absurd (hnone slot hslot) (not_lt.mpr hle)
      · obtain rfl := some.inj hslot'
        exact hfirst
  · obtain ⟨r, hr⟩ := isSome_iff_exists.mp (searchPasses_two page hmin advancenext)
    exact ⟨r, hr, by rw [fsm_search_avail, hr]; rfl, fun slot => searchPasses_sound hr⟩

end FdPostgres
