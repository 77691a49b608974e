import Mathlib

/-!
# Singly Linked Chains in a Store

A store maps locations to links: the location of a list head, or the link field of an element.
`next i` is the location of the link field of element `i`. A chain starts at a location and
follows the links to a location that holds no element.

* `IsPath`, `IsChain`: the elements from a location on; `lastLoc` is where the path ends.
* `search` walks a chain with a trailing pointer to the location that led to the current
  element.
* `relink` distributes the elements of a chain over two chains, in place and in one pass.
* Changing a location that a path does not read keeps the path (`IsPath.write`), so every
  operation is a few updates with side conditions on locations.
-/

namespace LinkedChain

open Function List

variable {L ι : Type*} (next : ι → L)

/-- The links from a location on lead through the elements of a list. -/
def IsPath (s : L → Option ι) : L → List ι → Prop
  | _, [] => True
  | loc, i :: l => s loc = some i ∧ IsPath s (next i) l

/-- The location behind the elements of a path. -/
def lastLoc : L → List ι → L
  | loc, [] => loc
  | _, i :: l => lastLoc (next i) l

/-- A path that ends. -/
def IsChain (s : L → Option ι) (loc : L) (l : List ι) : Prop :=
  IsPath next s loc l ∧ s (lastLoc next loc l) = none

/-- The locations that a path reads. -/
def inner : L → List ι → List L
  | _, [] => []
  | loc, i :: l => loc :: inner (next i) l

/-- A list head: not the link field of an element. -/
def IsHead (loc : L) : Prop :=
  ∀ i, loc ≠ next i

variable {next} {s : L → Option ι} {loc x : L} {v : Option ι}

/-! ### Paths -/

/-- The end of two paths in a row. -/
theorem lastLoc_append (loc : L) (l l' : List ι) :
    lastLoc next loc (l ++ l') = lastLoc next (lastLoc next loc l) l' := by
  induction l generalizing loc with
  | nil => rfl
  | cons i l ih => exact ih (next i)

variable {l l' : List ι} {i : ι}

/-- A path in two parts. -/
theorem isPath_append :
    IsPath next s loc (l ++ l') ↔ IsPath next s loc l ∧ IsPath next s (lastLoc next loc l) l' := by
  induction l generalizing loc with
  | nil => simp [IsPath, lastLoc]
  | cons i l ih => simp [IsPath, lastLoc, ih, and_assoc]

/-- A chain in two parts. -/
theorem isChain_append : IsChain next s loc (l ++ l') ↔
    IsPath next s loc l ∧ IsChain next s (lastLoc next loc l) l' := by
  rw [IsChain, isPath_append, lastLoc_append, and_assoc, IsChain]

/-- A path reads its start and the links of its elements only. -/
theorem notMem_inner (hloc : x ≠ loc) (hl : ∀ i ∈ l, x ≠ next i) : x ∉ inner next loc l := by
  induction l generalizing loc with
  | nil => exact not_mem_nil
  | cons i l ih =>
    rw [forall_mem_cons] at hl
    intro hmem
    rcases mem_cons.mp hmem with heq | hmem
    · exact hloc heq
    · exact ih hl.1 hl.2 hmem

/-- A path does not end at another location. -/
theorem ne_lastLoc (hloc : x ≠ loc) (hl : ∀ i ∈ l, x ≠ next i) : x ≠ lastLoc next loc l := by
  induction l generalizing loc with
  | nil => exact hloc
  | cons i l ih =>
    rw [forall_mem_cons] at hl
    exact ih hl.1 hl.2

/-- The end of a path without repetitions is not among the locations it reads. -/
theorem lastLoc_notMem_inner (hinj : Function.Injective next) (hl : l.Nodup)
    (hloc : ∀ i ∈ l, loc ≠ next i) : lastLoc next loc l ∉ inner next loc l := by
  induction l generalizing loc with
  | nil => exact not_mem_nil
  | cons i l ih =>
    obtain ⟨hi, hl⟩ := nodup_cons.mp hl
    rw [forall_mem_cons] at hloc
    intro hmem
    rcases mem_cons.mp hmem with heq | hmem
    · exact ne_lastLoc hloc.1 hloc.2 heq.symm
    · exact ih hl (fun j hj (heq : next i = next j) => hi (hinj heq ▸ hj)) hmem

variable {s' : L → Option ι}

/-- A path depends on the locations it reads only. -/
theorem IsPath.congr (h : IsPath next s loc l) (heq : ∀ x ∈ inner next loc l, s' x = s x) :
    IsPath next s' loc l := by
  induction l generalizing loc with
  | nil => trivial
  | cons i l ih =>
    refine ⟨?_, ih h.2 (fun x hx => heq x (mem_cons_of_mem _ hx))⟩
    rw [heq loc mem_cons_self]
    exact h.1

/-! ### Chains -/

/-- A chain depends on what its start leads to and on the links of its elements only. -/
theorem IsChain.congr {loc' : L} (h : IsChain next s loc l) (hloc : s' loc' = s loc)
    (hnext : ∀ i ∈ l, s' (next i) = s (next i)) : IsChain next s' loc' l := by
  induction l generalizing loc loc' with
  | nil => exact ⟨trivial, hloc.trans h.2⟩
  | cons i l ih =>
    have htail := ih ⟨h.1.2, h.2⟩ (hnext i mem_cons_self)
      (fun j hj => hnext j (mem_cons_of_mem i hj))
    exact ⟨⟨hloc.trans h.1.1, htail.1⟩, htail.2⟩

/-! ### Walking a chain -/

variable (next)

/-- The elements of the chain from a location on, at most `fuel` of them. -/
def collect (s : L → Option ι) : ℕ → L → List ι
  | 0, _ => []
  | fuel + 1, loc =>
      match s loc with
      | none => []
      | some i => i :: collect s fuel (next i)

/-- The first element of a chain with a property, and the location that leads to it; the end of
the chain if there is none. -/
def search (s : L → Option ι) (p : ι → Bool) : ℕ → L → L × Option ι
  | 0, loc => (loc, none)
  | fuel + 1, loc =>
      match s loc with
      | none => (loc, none)
      | some i => if p i then (loc, some i) else search s p fuel (next i)

variable {next} {fuel : ℕ}

/-- Enough fuel collects the whole chain. -/
theorem IsChain.collect_eq (h : IsChain next s loc l) (hfuel : l.length ≤ fuel) :
    collect next s fuel loc = l := by
  induction l generalizing loc fuel with
  | nil =>
    have hnone : s loc = none := h.2
    cases fuel with
    | zero => rfl
    | succ fuel => simp only [collect, hnone]
  | cons i l ih =>
    obtain ⟨fuel, rfl⟩ : ∃ n, fuel = n + 1 := ⟨fuel - 1, by rw [length_cons] at hfuel; omega⟩
    have hsome : s loc = some i := h.1.1
    simp only [collect, hsome]
    rw [ih ⟨h.1.2, h.2⟩ (by rw [length_cons] at hfuel; omega)]

/-- With enough fuel, a search either finds the first element with the property, or reaches
the end. -/
theorem IsChain.search_cases (h : IsChain next s loc l) (p : ι → Bool) (hfuel : l.length < fuel) :
    (∃ l₁ i l₂, l = l₁ ++ i :: l₂ ∧ p i = true ∧
      search next s p fuel loc = (lastLoc next loc l₁, some i)) ∨
    ((∀ j ∈ l, p j = false) ∧ search next s p fuel loc = (lastLoc next loc l, none)) := by
  induction l generalizing loc fuel with
  | nil =>
    obtain ⟨fuel, rfl⟩ : ∃ n, fuel = n + 1 := ⟨fuel - 1, by omega⟩
    have hnone : s loc = none := h.2
    refine .inr ⟨fun j hj => absurd hj not_mem_nil, ?_⟩
    simp only [search, hnone, lastLoc]
  | cons i l ih =>
    obtain ⟨fuel, rfl⟩ : ∃ n, fuel = n + 1 := ⟨fuel - 1, by omega⟩
    have hsome : s loc = some i := h.1.1
    by_cases hp : p i = true
    · refine .inl ⟨[], i, l, rfl, hp, ?_⟩
      simp only [search, hsome, if_pos hp, lastLoc]
    · have hstep : search next s p (fuel + 1) loc = search next s p fuel (next i) := by
        simp only [search, hsome, if_neg hp]
      rw [hstep]
      have hlen : l.length < fuel := by
        rw [length_cons] at hfuel
        omega
      rcases ih ⟨h.1.2, h.2⟩ hlen with
        ⟨l₁, j, l₂, rfl, hj, hfound⟩ | ⟨hall, hend⟩
      · exact .inl ⟨i :: l₁, j, l₂, rfl, hj, hfound⟩
      · exact .inr ⟨forall_mem_cons.mpr ⟨Bool.eq_false_iff.mpr hp, hall⟩, hend⟩

/-! ### Changing a chain -/

variable [DecidableEq L]

/-- Changing a location that a path does not read keeps it. -/
theorem IsPath.write (h : IsPath next s loc l) (hx : x ∉ inner next loc l) :
    IsPath next (update s x v) loc l := by
  refine h.congr (fun y hy => ?_)
  rw [update_of_ne]
  rintro rfl
  exact hx hy

/-- Changing a location that is not part of a chain keeps it. -/
theorem IsChain.write (h : IsChain next s loc l) (hloc : x ≠ loc) (hnext : ∀ i ∈ l, x ≠ next i) :
    IsChain next (update s x v) loc l :=
  h.congr (update_of_ne hloc.symm _ _)
    (fun i hi => update_of_ne (hnext i hi).symm _ _)

/-- Appending an element to a chain: its link ends the chain, and the old end leads to it. -/
theorem IsChain.append (hinj : Function.Injective next) (h : IsChain next s loc l)
    (hhead : IsHead next loc) (hl : l.Nodup) (hi : i ∉ l) :
    IsChain next (update (update s (lastLoc next loc l) (some i)) (next i) none)
      loc (l ++ [i]) := by
  have hnext : ∀ j ∈ l, next i ≠ next j := fun j hj heq => hi (hinj heq ▸ hj)
  refine isChain_append.mpr ⟨?_, ⟨?_, trivial⟩, update_self _ _ _⟩
  · exact (h.1.write (lastLoc_notMem_inner hinj hl (fun j _ => hhead j))).write
      (notMem_inner (hhead i).symm hnext)
  · rw [update_of_ne (ne_lastLoc (hhead i).symm hnext).symm, update_self]

/-- Removing an element from a chain: the location before it gets its link. -/
theorem IsChain.remove (hinj : Function.Injective next) (h : IsChain next s loc (l ++ i :: l'))
    (hhead : IsHead next loc) (hl : (l ++ i :: l').Nodup) :
    IsChain next (update s (lastLoc next loc l) (s (next i))) loc (l ++ l') := by
  obtain ⟨hfirst, hrest⟩ := isChain_append.mp h
  have htail : IsChain next s (next i) l' := ⟨hrest.1.2, hrest.2⟩
  have hnodup := nodup_append.mp hl
  have hother : ∀ j ∈ l', next j ≠ lastLoc next loc l := fun j hj =>
    ne_lastLoc (hhead j).symm fun k hk heq =>
      hnodup.2.2 k hk j (mem_cons_of_mem i hj) (hinj heq).symm
  refine isChain_append.mpr ⟨?_, ?_⟩
  · exact hfirst.write (lastLoc_notMem_inner hinj hnodup.1 (fun j _ => hhead j))
  · exact htail.congr (update_self _ _ _) fun j hj => update_of_ne (hother j hj) _ _

/-- Pushing an element in front of a chain. -/
theorem IsChain.push (h : IsChain next s loc l) (hhead : IsHead next loc)
    (hl : ∀ j ∈ l, next i ≠ next j) :
    IsChain next (update (update s (next i) (s loc)) loc (some i)) loc (i :: l) := by
  have hchain : IsChain next (update (update s (next i) (s loc)) loc (some i)) (next i) l := by
    refine h.congr ?_ fun k hk => ?_
    · rw [update_of_ne (hhead i).symm, update_self]
    · rw [update_of_ne (hhead k).symm, update_of_ne (hl k hk).symm]
  exact ⟨⟨update_self _ _ _, hchain.1⟩, hchain.2⟩

/-- Taking the first element off a chain. -/
theorem IsChain.pop (h : IsChain next s loc (i :: l)) (hhead : IsHead next loc) :
    IsChain next (update s loc (s (next i))) loc l := by
  have htail : IsChain next s (next i) l := ⟨h.1.2, h.2⟩
  exact htail.congr (update_self _ _ _) fun k _ => update_of_ne (hhead k).symm _ _

/-! ### Splitting a chain in place -/

variable (next)

/-- The elements from `cur` on are linked behind one of two ends, which follow along; at the
end both chains are terminated. -/
def relink (keep : ι → Bool) : ℕ → (L → Option ι) → Option ι → L → L → (L → Option ι)
  | 0, s, _, _, _ => s
  | _ + 1, s, none, oldlink, newlink =>
      update (update s oldlink none) newlink none
  | fuel + 1, s, some i, oldlink, newlink =>
      if keep i then
        relink keep fuel (update s oldlink (some i)) (s (next i)) (next i) newlink
      else
        relink keep fuel (update s newlink (some i)) (s (next i)) oldlink (next i)

/-- The element at `cur` starts the rest of a chain. -/
def StartsAt (s : L → Option ι) (cur : Option ι) (r : List ι) : Prop :=
  match r with
  | [] => cur = none
  | i :: r => cur = some i ∧ IsChain next s (next i) r

variable {next} {r : List ι}

omit [DecidableEq L] in
/-- What a location leads to starts its chain. -/
theorem IsChain.startsAt (h : IsChain next s loc r) : StartsAt next s (s loc) r := by
  cases r with
  | nil => exact h.2
  | cons j r => exact ⟨h.1.1, h.1.2, h.2⟩

/-- The rest of a chain survives a change elsewhere. -/
theorem StartsAt.write {cur : Option ι} (h : StartsAt next s cur r) (hx : ∀ i ∈ r, x ≠ next i) :
    StartsAt next (update s x v) cur r := by
  cases r with
  | nil => exact h
  | cons i r =>
    refine ⟨h.1, h.2.write (hx i mem_cons_self) ?_⟩
    exact fun j hj => hx j (mem_cons_of_mem i hj)

omit [DecidableEq L] in
/-- The end of a path is not a location of another one with other elements. -/
theorem lastLoc_ne_of_disjoint (hinj : Function.Injective next) {loc' : L} {l l' : List ι}
    (hhead : IsHead next loc) (hhead' : IsHead next loc') (hne : loc ≠ loc')
    (hdisj : ∀ i ∈ l, i ∉ l') :
    lastLoc next loc l ≠ loc' ∧ ∀ j ∈ l', lastLoc next loc l ≠ next j := by
  refine ⟨(ne_lastLoc hne.symm fun i _ => hhead' i).symm, fun j hj => ?_⟩
  exact (ne_lastLoc (hhead j).symm fun i hi (heq : next j = next i) =>
    hdisj i hi (hinj heq ▸ hj)).symm

variable (next) in
/-- Two paths that have been linked, and the rest of the chain. -/
structure Splitting (s : L → Option ι) (cur : Option ι) (old new : L) (a b r : List ι) : Prop where
  old : IsPath next s old a
  new : IsPath next s new b
  rest : StartsAt next s cur r
  nodup : (a ++ b ++ r).Nodup

variable {old new : L} {a b : List ι} {cur : Option ι}

omit [DecidableEq L] in
theorem Splitting.symm (h : Splitting next s cur old new a b r) :
    Splitting next s cur new old b a r :=
  ⟨h.new, h.old, h.rest, (perm_append_comm.append_right r).nodup_iff.mp h.nodup⟩

/-- The next element is linked behind one of the paths. -/
theorem Splitting.link (hinj : Function.Injective next)
    (h : Splitting next s (some i) old new a b (i :: r)) (hold : IsHead next old)
    (hnew : IsHead next new) (hne : old ≠ new) :
    Splitting next (update s (lastLoc next old a) (some i)) (s (next i)) old new (a ++ [i]) b
      r := by
  have hnodup : (a ++ (b ++ i :: r)).Nodup := append_assoc a b _ ▸ h.nodup
  obtain ⟨ha, -, hdisj⟩ := nodup_append.mp hnodup
  obtain ⟨hloc, hlocs⟩ := lastLoc_ne_of_disjoint hinj hold hnew hne
    fun j hj hmem => hdisj j hj j hmem rfl
  refine ⟨isPath_append.mpr ⟨?_, update_self _ _ _, trivial⟩, ?_, ?_, ?_⟩
  · exact h.old.write (lastLoc_notMem_inner hinj ha (fun j _ => hold j))
  · exact h.new.write (notMem_inner hloc fun j hj => hlocs j (mem_append_left _ hj))
  · exact h.rest.2.startsAt.write
      (fun j hj => hlocs j (mem_append_right _ (mem_cons_of_mem i hj)))
  · refine (Perm.nodup_iff ?_).mp h.nodup
    simpa using (@perm_middle _ i b r).append_left a

/-- **Splitting in place**: the kept elements end up in the old chain and the others in the
new one, both in their order, and no other location changes. -/
theorem relink_spec (hinj : Function.Injective next) (keep : ι → Bool) (hold : IsHead next old)
    (hnew : IsHead next new) (hne : old ≠ new) (h : Splitting next s cur old new a b r)
    (hfuel : r.length < fuel) :
    IsChain next (relink next keep fuel s cur (lastLoc next old a) (lastLoc next new b)) old
        (a ++ r.filter keep) ∧
      IsChain next (relink next keep fuel s cur (lastLoc next old a) (lastLoc next new b)) new
        (b ++ r.filter (fun i => !keep i)) ∧
      ∀ x, x ≠ old → x ≠ new → (∀ i ∈ a ++ b ++ r, x ≠ next i) →
        relink next keep fuel s cur (lastLoc next old a) (lastLoc next new b) x = s x := by
  obtain ⟨fuel, rfl⟩ : ∃ n, fuel = n + 1 := ⟨fuel - 1, by omega⟩
  induction r generalizing a b s cur fuel with
  | nil =>
    obtain ⟨ha, hb, rfl, hnodup⟩ := h
    rw [append_nil] at hnodup
    obtain ⟨hanodup, hbnodup, hdisj⟩ := nodup_append.mp hnodup
    have hdisj' : ∀ i ∈ a, i ∉ b := fun i hi hib => hdisj i hi i hib rfl
    obtain ⟨hab, habn⟩ := lastLoc_ne_of_disjoint hinj hold hnew hne hdisj'
    obtain ⟨hba, hban⟩ := lastLoc_ne_of_disjoint hinj hnew hold hne.symm
      (fun i hi hia => hdisj' i hia hi)
    simp only [relink, filter_nil, append_nil]
    refine ⟨⟨?_, ?_⟩, ⟨?_, update_self _ _ _⟩, ?_⟩
    · exact (ha.write (lastLoc_notMem_inner hinj hanodup (fun j _ => hold j))).write
        (notMem_inner hba hban)
    · rw [update_of_ne (ne_lastLoc hab habn), update_self]
    · exact (hb.write (notMem_inner hab habn)).write
        (lastLoc_notMem_inner hinj hbnodup (fun j _ => hnew j))
    · intro x hxo hxn hx
      rw [update_of_ne (ne_lastLoc hxn fun i hi => hx i (mem_append_right _ hi)),
        update_of_ne (ne_lastLoc hxo fun i hi => hx i (mem_append_left _ hi))]
  | cons i r ih =>
    obtain ⟨rfl, -⟩ := h.rest
    rw [length_cons] at hfuel
    obtain ⟨fuel, rfl⟩ : ∃ n, fuel = n + 1 := ⟨fuel - 1, by omega⟩
    rw [relink]
    by_cases hkeep : keep i = true
    · obtain ⟨h1, h2, h3⟩ := ih (h.link hinj hold hnew hne) fuel (by omega)
      rw [lastLoc_append, lastLoc, lastLoc] at h1 h2 h3
      have hfilt : (i :: r).filter keep = i :: r.filter keep := filter_cons_of_pos hkeep
      have hfilt' : (i :: r).filter (fun i => !keep i) = r.filter (fun i => !keep i) :=
        filter_cons_of_neg (by simp [hkeep])
      rw [if_pos hkeep, hfilt, hfilt']
      refine ⟨by simpa using h1, h2, fun x hxo hxn hx => ?_⟩
      refine (h3 x hxo hxn (fun j hj => hx j (by simp at hj ⊢; tauto))).trans ?_
      exact update_of_ne (ne_lastLoc hxo fun j hj => hx j (by simp [hj])) _ _
    · obtain ⟨h1, h2, h3⟩ := ih (h.symm.link hinj hnew hold hne.symm).symm fuel (by omega)
      rw [lastLoc_append, lastLoc, lastLoc] at h1 h2 h3
      have hfilt : (i :: r).filter keep = r.filter keep := filter_cons_of_neg hkeep
      have hfilt' : (i :: r).filter (fun i => !keep i) = i :: r.filter (fun i => !keep i) :=
        filter_cons_of_pos (by simp [hkeep])
      rw [if_neg hkeep, hfilt, hfilt']
      refine ⟨h1, by simpa using h2, fun x hxo hxn hx => ?_⟩
      refine (h3 x hxo hxn (fun j hj => hx j (by simp at hj ⊢; tauto))).trans ?_
      exact update_of_ne (ne_lastLoc hxn fun j hj => hx j (by simp [hj])) _ _

/-- Splitting a chain whose elements are all kept clears the new location and changes nothing
else; where the new location is the old one, this loses the chain. -/
theorem relink_of_keep {keep : ι → Bool} (new : L) (h : IsChain next s loc r)
    (hkeep : ∀ i ∈ r, keep i = true) (hfuel : r.length < fuel) :
    relink next keep fuel s (s loc) loc new = update s new none := by
  induction r generalizing loc fuel with
  | nil =>
    obtain ⟨fuel, rfl⟩ : ∃ n, fuel = n + 1 := ⟨fuel - 1, by omega⟩
    have hnone : s loc = none := h.2
    have hself : update s loc none = s := by rw [← hnone, update_eq_self]
    rw [hnone, relink, hself]
  | cons i r ih =>
    obtain ⟨fuel, rfl⟩ : ∃ n, fuel = n + 1 := ⟨fuel - 1, by omega⟩
    have hsome : s loc = some i := h.1.1
    have hself : update s loc (some i) = s := by rw [← hsome, update_eq_self]
    rw [hsome, relink, if_pos (hkeep i mem_cons_self), hself]
    refine ih ⟨h.1.2, h.2⟩ (fun j hj => hkeep j (mem_cons_of_mem i hj)) ?_
    rw [length_cons] at hfuel
    omega

end LinkedChain
