import FdPostgres.IntegerSet.Members

/-!
# Iterating over an Integer Set

An iteration decodes the items of the leaves one by one, and then goes through the buffer. What
it has not delivered yet are the values that remain of the current array, those of the items
behind the current one, and those of the buffer.

* `iterRest`: the values to come.
* `iterateRound` keeps them, or delivers the first one.
* `iterate_next_answer`: each call delivers the first of the values to come, or reports the end.
* `Contents.drain`: from its beginning an iteration delivers all values in order, and then the
  end.
-/

namespace FdPostgres

open List

/-! ### The set and its iteration -/

variable (s : IntegerSet)

/-- A set without its iteration. -/
def setPart : IntegerSet :=
  { s with
    iter_active := false
    iter_values := .null
    iter_num_values := 0
    iter_valueno := 0
    iter_node := none
    iter_itemno := 0
    iter_values_buf := [] }

section Congr

variable {s s' : IntegerSet} {l : List ℕ} {items : List LeafItem}

/-- The iteration does not matter for a set without a tree. -/
theorem NoTree.congr (h : NoTree s) (heq : setPart s' = setPart s) : NoTree s' where
  root := (show (setPart s').root = (setPart s).root by rw [heq]).trans h.root
  rightmost := (show (setPart s').rightmost_nodes 0 = (setPart s).rightmost_nodes 0 by
    rw [heq]).trans h.rightmost
  leftmost := (show (setPart s').leftmost_leaf = (setPart s).leftmost_leaf by
    rw [heq]).trans h.leftmost
  leaves := (show (setPart s').numLeaves = (setPart s).numLeaves by rw [heq]).trans h.leaves
  nodes l := (show (setPart s').numNodes l = (setPart s).numNodes l by
    rw [heq]).trans (h.nodes l)

/-- The buffer does not belong to the iteration. -/
theorem buffered_values_congr (heq : setPart s' = setPart s) :
    s'.buffered_values = s.buffered_values := by
  have h : (setPart s').buffered_values = (setPart s).buffered_values := by rw [heq]
  exact h

/-- **The iteration does not matter for the contents.** -/
theorem Contents.congr (h : Contents s l items) (heq : setPart s' = setPart s) :
    Contents s' l items where
  stored := by
    rcases h.stored with ⟨hnil, hnone⟩ | ⟨hne, htree⟩
    · exact .inl ⟨hnil, hnone.congr heq⟩
    · have hpart : treePart (setPart s') = treePart (setPart s) := congrArg treePart heq
      exact .inr ⟨hne, htree.congr hpart⟩
  itemsOk := h.itemsOk
  values := by rw [buffered_values_congr heq, h.values]
  sorted := h.sorted
  lt := h.lt
  entries := (show (setPart s').num_entries = (setPart s).num_entries by
    rw [heq]).trans h.entries
  highest y hy := (show (setPart s').highest_value = (setPart s).highest_value by
    rw [heq]).trans (h.highest y hy)
  short := by
    rw [buffered_values_congr heq]
    exact h.short

end Congr

/-! ### What is to come -/

variable (items : List LeafItem)

/-- The number of the next item to decode. -/
def iterPos : ℕ :=
  match s.iter_node with
  | some j => 64 * j + s.iter_itemno
  | none => items.length

/-- The values of the buffer, if the iteration has not turned to it yet. -/
def iterBuffer : List ℕ :=
  if s.iter_values = .iter_values_buf then s.buffered_values else []

/-- What remains of the current array. -/
def iterCurrent : List ℕ :=
  ((iterArray s).take s.iter_num_values).drop s.iter_valueno

/-- **The values that the iteration has not delivered yet.** -/
def iterRest : List ℕ :=
  iterCurrent s ++ ((items.drop (iterPos s items)).flatMap itemValues ++ iterBuffer s)

/-- The state of an iteration. -/
structure IterOk (s : IntegerSet) (items : List LeafItem) : Prop where
  active : s.iter_active = true
  array : s.iter_values ≠ .null
  count : s.iter_num_values ≤ (iterArray s).length
  node : ∀ j, s.iter_node = some j → items ≠ [] ∧ j ≤ (items.length - 1) / 64 ∧
    s.iter_itemno ≤ (slotRange (items.length - 1) j).length ∧
    s.iter_values = .iter_values_buf

/-- The answer of a call: the first of the values to come, or the end. -/
def IterAnswer (r : Option (Bool × ℕ) × IntegerSet) : Prop :=
  setPart r.2 = setPart s ∧
    ((iterRest s items = [] ∧ r.1 = some (false, 0) ∧ r.2.iter_active = false) ∨
      ∃ v, iterRest s items = v :: iterRest r.2 items ∧ r.1 = some (true, v) ∧ IterOk r.2 items)

section Rounds

variable {s s₁ : IntegerSet} {l : List ℕ} {items : List LeafItem} {fuel : ℕ}

/-- A round that delivers nothing and keeps what is to come. -/
theorem IterAnswer.of_round (hround : iterateRound s = (none, s₁))
    (hpart : setPart s₁ = setPart s) (hrest : iterRest s₁ items = iterRest s items)
    (h : IterAnswer s₁ items (iterateLoop fuel s₁)) :
    IterAnswer s items (iterateLoop (fuel + 1) s) := by
  obtain ⟨hsame, hans⟩ := h
  rw [hrest] at hans
  simp only [iterateLoop, hround]
  exact ⟨hsame.trans hpart, hans⟩

/-- Nothing remains of an array that was delivered. -/
theorem iterCurrent_eq_nil (h : ¬ s.iter_valueno < s.iter_num_values) : iterCurrent s = [] := by
  refine drop_of_length_le ?_
  rw [length_take]
  omega

/-- A value of the current array. -/
theorem IterOk.answer_value (h : IterOk s items) (hlt : s.iter_valueno < s.iter_num_values) :
    IterAnswer s items (iterateLoop (fuel + 1) s) := by
  have hround : iterateRound s = (some (true, (iterArray s).getD s.iter_valueno 0),
      { s with iter_valueno := s.iter_valueno + 1 }) := by
    rw [iterateRound, if_pos hlt]
  have hlen : s.iter_valueno < (iterArray s).length := lt_of_lt_of_le hlt h.count
  have hcurrent : iterCurrent s = (iterArray s).getD s.iter_valueno 0 ::
      iterCurrent { s with iter_valueno := s.iter_valueno + 1 } := by
    have htake : s.iter_valueno < ((iterArray s).take s.iter_num_values).length := by
      rw [length_take]
      omega
    rw [iterCurrent, drop_eq_getElem_cons htake, getElem_take, getD_eq_getElem _ _ hlen]
    rfl
  simp only [iterateLoop, hround]
  refine ⟨rfl, .inr ⟨(iterArray s).getD s.iter_valueno 0, ?_, rfl, { h with }⟩⟩
  rw [iterRest, hcurrent]
  rfl

/-- The end of the iteration. -/
theorem iterAnswer_end (hcurrent : ¬ s.iter_valueno < s.iter_num_values)
    (hnode : s.iter_node = none) (hvals : s.iter_values ≠ .iter_values_buf) :
    IterAnswer s items (iterateLoop (fuel + 1) s) := by
  have hround : iterateRound s = (some (false, 0), { s with iter_active := false }) := by
    simp only [iterateRound, if_neg hcurrent, hnode, if_neg hvals]
  have hrest : iterRest s items = [] := by
    rw [iterRest, iterCurrent_eq_nil hcurrent, iterPos, hnode, iterBuffer, if_neg hvals,
      drop_length]
    rfl
  simp only [iterateLoop, hround]
  exact ⟨rfl, .inl ⟨hrest, rfl, rfl⟩⟩

/-- The turn to the buffer. -/
theorem IterOk.answer_buffer (h : IterOk s items)
    (hcurrent : ¬ s.iter_valueno < s.iter_num_values) (hnode : s.iter_node = none)
    (hvals : s.iter_values = .iter_values_buf) :
    IterAnswer s items (iterateLoop (fuel + 2) s) := by
  have hround : iterateRound s = (none, { s with
      iter_values := .buffered_values
      iter_num_values := s.buffered_values.length
      iter_valueno := 0 }) := by
    simp only [iterateRound, if_neg hcurrent, hnode, if_pos hvals]
  have hok : IterOk { s with
      iter_values := .buffered_values
      iter_num_values := s.buffered_values.length
      iter_valueno := 0 } items :=
    ⟨h.active, by simp, le_rfl, fun j hj => absurd (hnode.symm.trans hj) (by simp)⟩
  refine IterAnswer.of_round hround rfl ?_ ?_
  · rw [iterRest, iterRest, iterCurrent_eq_nil hcurrent, iterPos, iterPos, hnode, iterBuffer,
      iterBuffer, if_pos hvals, iterCurrent]
    simp [iterArray]
  · by_cases hlt : 0 < s.buffered_values.length
    · exact hok.answer_value hlt
    · exact iterAnswer_end hlt hnode (by simp)

section InTree

variable (h : IterOk s items) (hcontents : Contents s l items)
  (hcurrent : ¬ s.iter_valueno < s.iter_num_values) {j : ℕ} (hnode : s.iter_node = some j)

include h hcontents hcurrent hnode

/-- The next item of a leaf. -/
theorem IterOk.answer_item (hitem : s.iter_itemno < (slotRange (items.length - 1) j).length) :
    IterAnswer s items (iterateLoop (fuel + 2) s) := by
  obtain ⟨hne, hj, -, hvals⟩ := h.node j hnode
  have hpos := length_pos_iff.mpr hne
  rcases hcontents.stored with ⟨hnil, -⟩ | ⟨-, htree⟩
  · exact absurd hnil hne
  · have hlen : s.iter_itemno < (s.leaves j).items.length := by
      rw [leaf_length htree hj]
      exact hitem
    have hround : iterateRound s =
        (none, decodeItem s (itemAt items (64 * j + s.iter_itemno))) := by
      simp only [iterateRound, if_neg hcurrent, hnode, if_pos hlen, leaf_item htree hj hitem]
    have hlt : 64 * j + s.iter_itemno < items.length := by
      rw [length_slotRange] at hitem
      omega
    have hdrop : items.drop (64 * j + s.iter_itemno) =
        itemAt items (64 * j + s.iter_itemno) :: items.drop (64 * j + (s.iter_itemno + 1)) := by
      rw [drop_eq_getElem_cons hlt, itemAt, getD_eq_getElem _ _ hlt]
      rfl
    refine IterAnswer.of_round hround rfl ?_ (IterOk.answer_value ⟨h.active, h.array, ?_, ?_⟩ ?_)
    · rw [iterRest, iterRest, iterCurrent_eq_nil hcurrent, iterPos, iterPos]
      simp only [decodeItem, hnode, hdrop, flatMap_cons, iterCurrent, iterArray, hvals,
        iterBuffer, itemValues]
      simp
    · simp only [decodeItem, hvals]
      exact le_rfl
    · intro j' hj'
      obtain rfl : j = j' := Option.some.inj (hnode.symm.trans hj')
      exact ⟨hne, hj, hitem, hvals⟩
    · exact Nat.succ_pos _

/-- The step to the next leaf. -/
theorem IterOk.answer_leaf
    (hitem : ¬ s.iter_itemno < (slotRange (items.length - 1) j).length) :
    IterAnswer s items (iterateLoop (fuel + 3) s) := by
  obtain ⟨hne, hj, hle, hvals⟩ := h.node j hnode
  have hpos := length_pos_iff.mpr hne
  rcases hcontents.stored with ⟨hnil, -⟩ | ⟨-, htree⟩
  · exact absurd hnil hne
  · have hlen : ¬ s.iter_itemno < (s.leaves j).items.length := by
      rw [leaf_length htree hj]
      exact hitem
    have hround : iterateRound s =
        (none, { s with iter_node := (s.leaves j).next, iter_itemno := 0 }) := by
      simp only [iterateRound, if_neg hcurrent, hnode, if_neg hlen]
    have hnext : (s.leaves j).next =
        if j < (items.length - 1) / 64 then some (j + 1) else none := by
      rw [htree.leaves.leaf j hj]
    have hcount : s.iter_itemno = min 64 (items.length - 1 + 1 - 64 * j) := by
      rw [length_slotRange] at hitem hle
      omega
    rw [hnext] at hround
    by_cases hlast : j < (items.length - 1) / 64
    · rw [if_pos hlast] at hround
      have hok : IterOk { s with iter_node := some (j + 1), iter_itemno := 0 } items := by
        refine ⟨h.active, h.array, h.count, fun j' hj' => ?_⟩
        obtain rfl : j + 1 = j' := Option.some.inj hj'
        exact ⟨hne, hlast, Nat.zero_le _, hvals⟩
      refine IterAnswer.of_round hround rfl ?_
        (hok.answer_item (hcontents.congr rfl) hcurrent rfl ?_)
      · have hat : 64 * (j + 1) + 0 = 64 * j + s.iter_itemno := by omega
        simp only [iterRest, iterPos, hnode, hat]
        rfl
      · change 0 < (slotRange (items.length - 1) (j + 1)).length
        rw [length_slotRange]
        omega
    · rw [if_neg hlast] at hround
      have hok : IterOk { s with iter_node := none, iter_itemno := 0 } items :=
        ⟨h.active, h.array, h.count, fun j' hj' => nomatch hj'⟩
      refine IterAnswer.of_round hround rfl ?_ (hok.answer_buffer hcurrent rfl hvals)
      have hat : items.length = 64 * j + s.iter_itemno := by omega
      simp only [iterRest, iterPos, hnode, ← hat]
      rfl

end InTree

/-- **Each call delivers the first of the values to come, or reports the end.** -/
theorem IterOk.iterate_next_answer (h : IterOk s items) (hcontents : Contents s l items) :
    IterAnswer s items (intset_iterate_next s) := by
  by_cases hcurrent : s.iter_valueno < s.iter_num_values
  · exact h.answer_value hcurrent
  · cases hnode : s.iter_node with
    | none =>
      by_cases hvals : s.iter_values = .iter_values_buf
      · exact h.answer_buffer hcurrent hnode hvals
      · exact iterAnswer_end hcurrent hnode hvals
    | some j =>
      by_cases hitem : s.iter_itemno < (slotRange (items.length - 1) j).length
      · exact h.answer_item hcontents hcurrent hnode hitem
      · exact h.answer_leaf hcontents hcurrent hnode hitem

end Rounds

/-! ### The whole iteration -/

section Drain

variable {s : IntegerSet} {l : List ℕ} {items : List LeafItem}

/-- At its beginning, an iteration has all values to come. -/
theorem Contents.begin_iterate (h : Contents s l items) :
    IterOk (intset_begin_iterate s) items ∧ iterRest (intset_begin_iterate s) items = l := by
  rcases h.stored with ⟨rfl, hnone⟩ | ⟨hne, htree⟩
  · refine ⟨⟨rfl, by simp [intset_begin_iterate], Nat.zero_le _, fun j hj => ?_⟩, ?_⟩
    · exact absurd (hnone.leftmost.symm.trans hj) (by simp)
    · rw [← h.values]
      simp [iterRest, iterCurrent, intset_begin_iterate, iterBuffer]
  · refine ⟨⟨rfl, by simp [intset_begin_iterate], Nat.zero_le _, fun j hj => ?_⟩, ?_⟩
    · obtain rfl : 0 = j := Option.some.inj (htree.leaves.leftmost.symm.trans hj)
      exact ⟨hne, Nat.zero_le _, Nat.zero_le _, rfl⟩
    · rw [← h.values]
      simp [iterRest, iterCurrent, iterPos, intset_begin_iterate, htree.leaves.leftmost, iterBuffer]

/-- The answers of a number of calls of `intset_iterate_next`. -/
def drain : ℕ → IntegerSet → List (Option (Bool × ℕ))
  | 0, _ => []
  | n + 1, s => (intset_iterate_next s).1 :: drain n (intset_iterate_next s).2

/-- The calls deliver what is to come, and then the end. -/
theorem IterOk.drain {rest : List ℕ} (h : IterOk s items) (hcontents : Contents s l items)
    (hrest : iterRest s items = rest) :
    drain (rest.length + 1) s = rest.map (fun v => some (true, v)) ++ [some (false, 0)] := by
  induction rest generalizing s with
  | nil =>
    rcases (h.iterate_next_answer hcontents).2 with ⟨-, hans, -⟩ | ⟨v, hv, -⟩
    · rw [FdPostgres.drain, hans]
      rfl
    · exact absurd (hrest.symm.trans hv) (by simp)
  | cons x rest ih =>
    obtain ⟨hpart, hans⟩ := h.iterate_next_answer hcontents
    rcases hans with ⟨hnil, -⟩ | ⟨v, hv, hvalue, hok⟩
    · exact absurd (hrest.symm.trans hnil) (by simp)
    · obtain ⟨rfl, hrest'⟩ := List.cons.inj (hrest.symm.trans hv)
      rw [length_cons, FdPostgres.drain, hvalue, ih hok (hcontents.congr hpart) hrest'.symm]
      rfl

/-- **An iteration delivers all values in order, and then the end.** -/
theorem Contents.drain (h : Contents s l items) :
    drain (l.length + 1) (intset_begin_iterate s) =
      l.map (fun v => some (true, v)) ++ [some (false, 0)] := by
  obtain ⟨hok, hrest⟩ := h.begin_iterate
  exact hok.drain (h.congr rfl) hrest

end Drain

end FdPostgres
