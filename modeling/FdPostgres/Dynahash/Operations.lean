import FdPostgres.Dynahash.Expand

/-!
# The Changes of the Dynamic Hash Table Operations

Every operation that changes the entries of a table changes a few links. Each of these changes
keeps the invariant, with the live elements, the free list and the chains of the abstract
change.

* `TableInv.alloc`: new elements in front of the free list.
* `TableInv.enter`: the first free element with a new key, at the end of its chain.
* `TableInv.remove`: an element out of its chain, and in front of the free list.
* `TableInv.rekey`, `TableInv.move`: an element with another key, in its chain or in another.
-/

namespace FdPostgres

open Function LinkedChain LinearHashing List Finset HashLoc

variable {K : Type} {ks : HashedKeys K} {t : HTAB K} {live : Finset ℕ} {f : List ℕ}
  {c : ℕ → List ℕ}

/-! ### Places -/

namespace TableChains

variable (h : TableChains t live f c)

include h

/-- Different chains have different elements. -/
theorem disjoint {b b' : ℕ} (hne : b ≠ b') : ∀ i ∈ c b, i ∉ c b' := by
  intro i hi hi'
  exact hne (((h.mem b i).mp hi).2.symm.trans ((h.mem b' i).mp hi').2)

theorem free_notMem {b e : ℕ} (he : e ∈ f) : e ∉ c b :=
  fun hmem => h.free_disj e ((h.mem b e).mp hmem).1 he

/-- A place in a chain is not a place of another chain. -/
theorem last_ne_chain {b b' : ℕ} (hne : b ≠ b') {l : List ℕ}
    (hl : ∀ i ∈ l, i ∈ c b) :
    lastLoc link (t.bucketLoc b) l ≠ t.bucketLoc b' ∧
      ∀ j ∈ c b', lastLoc link (t.bucketLoc b) l ≠ .link j :=
  lastLoc_ne_of_disjoint link_injective (bucketLoc_isHead t b) (bucketLoc_isHead t b')
    (fun heq => hne (bucketLoc_inj heq)) (fun i hi => h.disjoint hne i (hl i hi))

/-- A place in a chain is not a place of the free list. -/
theorem last_ne_free {b : ℕ} {l : List ℕ} (hl : ∀ i ∈ l, i ∈ c b) :
    lastLoc link (t.bucketLoc b) l ≠ .freeList 0 ∧
      ∀ j ∈ f, lastLoc link (t.bucketLoc b) l ≠ .link j :=
  lastLoc_ne_of_disjoint link_injective (bucketLoc_isHead t b) (freeList_isHead 0)
    (bucketLoc_ne_freeList t b 0) (fun i hi hif => h.free_notMem hif (hl i hi))

end TableChains

/-! ### Keys -/

namespace TableKeys

/-- The keys of fewer elements. -/
theorem mono (h : TableKeys ks t live) {live' : Finset ℕ} (hsub : live' ⊆ live) :
    TableKeys ks t live' where
  keyed e he := h.keyed e (hsub he)
  distinct e he e' he' := h.distinct e (hsub he) e' (hsub he')

/-- One more element, with a key that no other one has. -/
theorem assign (h : TableKeys ks t live) {e : ℕ} {k : K} (he : e ∉ live)
    (habs : ∀ e, ¬ KeyOf ks t live k e) {t' : HTAB K} (hkey : t'.key = update t.key e (some k))
    (hhash : t'.hashvalue = update t.hashvalue e (ks.hash k)) :
    TableKeys ks t' (insert e live) := by
  have hself : t'.key e = some k := by rw [hkey, update_self]
  have hother : ∀ e' ∈ live, t'.key e' = t.key e' ∧ t'.hashvalue e' = t.hashvalue e' := by
    intro e' he'
    have hne : e' ≠ e := fun heq => he (heq ▸ he')
    rw [hkey, hhash, update_of_ne hne, update_of_ne hne]
    exact ⟨rfl, rfl⟩
  refine ⟨?_, ?_⟩
  · intro e' he'
    rcases mem_insert.mp he' with rfl | hlive
    · exact ⟨k, hself, by rw [hhash, update_self]⟩
    · rw [(hother e' hlive).1, (hother e' hlive).2]
      exact h.keyed e' hlive
  · intro e₁ h₁ e₂ h₂ k₁ k₂ hk₁ hk₂ hsame
    rcases mem_insert.mp h₁ with heq₁ | hlive₁
    · rcases mem_insert.mp h₂ with heq₂ | hlive₂
      · rw [heq₁, heq₂]
      · rw [heq₁, hself] at hk₁
        rw [(hother e₂ hlive₂).1] at hk₂
        obtain rfl := Option.some.inj hk₁
        exact absurd ⟨hlive₂, k₂, hk₂, ks.same_symm hsame⟩ (habs e₂)
    · rw [(hother e₁ hlive₁).1] at hk₁
      rcases mem_insert.mp h₂ with heq₂ | hlive₂
      · rw [heq₂, hself] at hk₂
        obtain rfl := Option.some.inj hk₂
        exact absurd ⟨hlive₁, k₁, hk₁, hsame⟩ (habs e₁)
      · rw [(hother e₂ hlive₂).1] at hk₂
        exact h.distinct e₁ hlive₁ e₂ hlive₂ k₁ k₂ hk₁ hk₂ hsame

/-- Another key for a live element, that no element has. -/
theorem reassign (h : TableKeys ks t live) {e : ℕ} {k : K} (he : e ∈ live)
    (habs : ∀ e, ¬ KeyOf ks t live k e) {t' : HTAB K} (hkey : t'.key = update t.key e (some k))
    (hhash : t'.hashvalue = update t.hashvalue e (ks.hash k)) : TableKeys ks t' live := by
  have hrest := (h.mono (erase_subset e live)).assign (notMem_erase e live)
    (fun e' hkey' => habs e' ⟨mem_of_mem_erase hkey'.1, hkey'.2⟩) hkey hhash
  rwa [insert_erase he] at hrest

end TableKeys

/-! ### New elements -/

/-- The table with `n` new elements in front of its free list. -/
def withElements (t : HTAB K) (n : ℕ) : HTAB K :=
  { t with
    store := update (chainElements t.store t.nelements n 0) (.freeList 0)
      (some (t.nelements + n - 1))
    nelements := t.nelements + n }

/-- The new elements are chained to the old free list. -/
theorem isChain_new_elements (h : TableChains t live f c) {n : ℕ} (j : ℕ) (hj : j < n) :
    IsChain link (withElements t n).store (.link (t.nelements + j))
      ((range' t.nelements j).reverse ++ f) := by
  induction j with
  | zero =>
    refine h.free.congr ?_ (fun i hi => ?_)
    · simp [withElements, chainElements]
    · have hlt := h.free_lt i hi
      simp only [withElements, ne_eq, reduceCtorEq, not_false_eq_true, update_of_ne, chainElements]
      rw [if_neg (by omega), if_neg (by omega)]
  | succ j ih =>
    have htail := ih (by omega)
    have hlink : (withElements t n).store (.link (t.nelements + (j + 1))) =
        some (t.nelements + j) := by
      simp only [withElements, ne_eq, reduceCtorEq, not_false_eq_true, update_of_ne, chainElements]
      rw [if_neg (by omega), if_pos (by omega)]
      rfl
    rw [range'_1_concat, reverse_append]
    exact ⟨⟨hlink, htail.1⟩, htail.2⟩

/-- New elements are not on the free list. -/
theorem nodup_new_elements (h : TableChains t live f c) (n : ℕ) :
    ((range' t.nelements n).reverse ++ f).Nodup := by
  refine nodup_append.mpr
    ⟨nodup_reverse.mpr nodup_range', h.free_nodup, fun a ha b hb => ?_⟩
  rw [mem_reverse, mem_range'_1] at ha
  have hlt := h.free_lt b hb
  omega

/-- **New elements keep the invariant**, with the same live elements and chains. -/
theorem TableInv.alloc (h : TableInv ks t live f c) {n : ℕ} (hn : 0 < n) :
    TableInv ks (withElements t n) live ((range' t.nelements n).reverse ++ f) c := by
  obtain ⟨n, rfl⟩ : ∃ m, n = m + 1 := ⟨n - 1, by omega⟩
  have hlink : ∀ i < t.nelements,
      (withElements t (n + 1)).store (.link i) = t.store (.link i) := by
    intro i hi
    simp only [withElements, ne_eq, reduceCtorEq, not_false_eq_true, update_of_ne, chainElements]
    rw [if_neg (by omega), if_neg (by omega)]
  refine ⟨{ h.shape with }, ⟨?_, ?_, h.chains.nodup, ?_, h.chains.mem, ?_, ?_, ?_,
    h.chains.count⟩, { h.keys with }⟩
  · intro b hb
    refine (h.chains.chain b hb).congr rfl (fun i hi => hlink i ?_)
    exact h.chains.live_lt i ((h.chains.mem b i).mp hi).1
  · have htail := isChain_new_elements h.chains n (Nat.lt_succ_self n)
    rw [range'_1_concat, reverse_append]
    refine ⟨⟨?_, htail.1⟩, htail.2⟩
    rfl
  · exact nodup_new_elements h.chains (n + 1)
  · intro e he hmem
    have hlt := h.chains.live_lt e he
    rcases mem_append.mp hmem with hnew | hold
    · rw [mem_reverse, mem_range'_1] at hnew
      omega
    · exact h.chains.free_disj e he hold
  · intro e he
    exact lt_of_lt_of_le (h.chains.live_lt e he) (Nat.le_add_right _ _)
  · intro e he
    change e < t.nelements + (n + 1)
    rcases mem_append.mp he with hnew | hold
    · rw [mem_reverse, mem_range'_1] at hnew
      omega
    · have hlt := h.chains.free_lt e hold
      omega

variable {e : ℕ}

/-- The first free element is what the free list leads to. -/
theorem TableChains.store_free (h : TableChains t live (e :: f) c) :
    t.store (.freeList 0) = some e :=
  h.free.1.1

/-- **`get_hash_entry`**: the first element of the free list, perhaps after new elements were
added to it; or no element, when there is no memory for new ones. -/
theorem TableInv.get_entry (h : TableInv ks t live f c) (env : HashEnv) :
    (∃ t₁ e f', get_hash_entry env t 0 = (some e, takeElement t₁ e 0 0) ∧
      TableInv ks t₁ live (e :: f') c ∧ SameEntries t t₁ ∧ t₁.masks = t.masks ∧
      t₁.sshift = t.sshift) ∨
    ((t.isfixed = true ∨ env.elemOk = false) ∧ get_hash_entry env t 0 = (none, t)) := by
  cases f with
  | cons e f =>
    refine .inl ⟨t, e, f, ?_, h, .refl t, rfl, rfl⟩
    simp only [get_hash_entry, h.chains.store_free]
  | nil =>
    have hnone : t.store (.freeList 0) = none := h.chains.free.2
    have hpart := h.shape.isPartitioned_eq
    cases hfixed : t.isfixed with
    | true =>
      simp [get_hash_entry, hnone, element_alloc, hfixed, hpart]
    | false =>
      cases helem : env.elemOk with
      | false =>
        refine .inr ⟨.inr rfl, ?_⟩
        simp [get_hash_entry, hnone, element_alloc, helem, hpart]
      | true =>
        have hpos := h.shape.nelem_pos
        have hinv := h.alloc hpos
        have halloc : element_alloc env t t.nelem_alloc 0 =
            some (withElements t t.nelem_alloc) := by
          simp [element_alloc, hfixed, helem, withElements]
        obtain ⟨n, hn⟩ : ∃ n, t.nelem_alloc = n + 1 := ⟨t.nelem_alloc - 1, by omega⟩
        rw [hn, range'_1_concat, reverse_append] at hinv
        refine .inl ⟨_, _, _, ?_, hinv, ⟨rfl, rfl, rfl, rfl, rfl, rfl, rfl⟩, rfl, rfl⟩
        rw [hn] at halloc
        simp only [get_hash_entry, hnone, hn, halloc, hinv.chains.store_free]

/-! ### A new entry -/

/-- **An element is in no chain**, and nothing else has changed. -/
structure Unlinked (t : HTAB K) (f : List ℕ) (c : ℕ → List ℕ) (store : HashLoc → Option ℕ)
    (e : ℕ) (c' : ℕ → List ℕ) : Prop where
  chain : ∀ b, b >>> t.sshift < t.nsegs → IsChain link store (t.bucketLoc b) (c' b)
  free : IsChain link store (.freeList 0) f
  nodup : ∀ b, (c' b).Nodup
  mem : ∀ b e', e' ∈ c' b ↔ e' ≠ e ∧ e' ∈ c b

variable {store store' : HashLoc → Option ℕ} {c' d : ℕ → List ℕ}

/-- **An element that is in no chain goes to the end of one.** -/
theorem Unlinked.append {n : ℕ} {f' : List ℕ} (h : Unlinked t f c store e c')
    (hc : TableChains t live f' c) (hf : ∀ j ∈ f, j ∈ f') (hef : e ∉ f)
    (hn : n >>> t.sshift < t.nsegs)
    (hstore : store' = update (update store (lastLoc link (t.bucketLoc n) (c' n)) (some e))
      (.link e) none) (hd : d = update c' n (c' n ++ [e])) :
    (∀ b, b >>> t.sshift < t.nsegs → IsChain link store' (t.bucketLoc b) (d b)) ∧
      IsChain link store' (.freeList 0) f ∧ (∀ b, (d b).Nodup) ∧
      ∀ b e', e' ∈ d b ↔ if e' = e then b = n else e' ∈ c b := by
  subst hstore hd
  have hsub : ∀ i ∈ c' n, i ∈ c n := fun i hi => ((h.mem n i).mp hi).2
  have hlink : ∀ {b i}, i ∈ c' b → link e ≠ .link i :=
    fun hi heq => ((h.mem _ _).mp hi).1 (link_injective heq).symm
  have hen : e ∉ c' n := fun hi => hlink hi rfl
  refine ⟨fun b hb => ?_, ?_, fun b => ?_, fun b e' => ?_⟩
  · by_cases hbn : b = n
    · rw [hbn, update_self]
      exact (h.chain n hn).append link_injective (bucketLoc_isHead t n) (h.nodup n) hen
    · rw [update_of_ne hbn]
      obtain ⟨hlast, hlasts⟩ := hc.last_ne_chain (Ne.symm hbn) hsub
      refine ((h.chain b hb).write hlast fun i hi => ?_).write (bucketLoc_isHead t b e).symm
        fun i hi => hlink hi
      exact hlasts i ((h.mem b i).mp hi).2
  · obtain ⟨hlast, hlasts⟩ := hc.last_ne_free hsub
    refine (h.free.write hlast fun j hj => hlasts j (hf j hj)).write (freeList_isHead 0 e).symm ?_
    exact fun i hi heq => hef (link_injective heq ▸ hi)
  · by_cases hbn : b = n
    · rw [hbn, update_self, ← concat_eq_append]
      exact (h.nodup n).concat hen
    · rw [update_of_ne hbn]
      exact h.nodup b
  · by_cases hbn : b = n
    · rw [hbn, update_self, mem_append, h.mem]
      by_cases he' : e' = e <;> simp [he']
    · rw [update_of_ne hbn, h.mem]
      by_cases he' : e' = e <;> simp [hbn]

/-- **A new entry**: the first free element gets the key and goes to the end of its chain. -/
theorem TableInv.enter (h : TableInv ks t live (e :: f) c) {k : K}
    (habs : ∀ e, ¬ KeyOf ks t live k e) : TableInv ks (linkEntry (takeElement t e 0 0)
        (lastLoc link (t.bucketLoc (calc_bucket t (ks.hash k)))
          (c (calc_bucket t (ks.hash k)))) e k (ks.hash k)) (insert e live) f
      (update c (calc_bucket t (ks.hash k)) (c (calc_bucket t (ks.hash k)) ++ [e])) := by
  have hb := h.shape.calc_bucket_segs (ks.hash k)
  generalize hbuck : calc_bucket t (ks.hash k) = b at hb ⊢
  have hlive : e ∉ live := fun he => h.chains.free_disj e he mem_cons_self
  obtain ⟨hef, hfnodup⟩ := nodup_cons.mp h.chains.free_nodup
  have hpopped : Unlinked t f c (update t.store (.freeList 0) (t.store (.link e))) e c := by
    refine ⟨fun b' hb' => ?_, h.chains.free.pop (freeList_isHead 0), h.chains.nodup,
      fun b' e' => ?_⟩
    · exact (h.chains.chain b' hb').write (bucketLoc_ne_freeList t b' 0).symm
        (fun i _ => freeList_isHead 0 i)
    · refine ⟨fun hmem => ⟨?_, hmem⟩, And.right⟩
      rintro rfl
      exact h.chains.free_notMem mem_cons_self hmem
  obtain ⟨hchain, hfree, hnodup, hmem⟩ :=
    hpopped.append h.chains (fun j hj => mem_cons_of_mem e hj) hef hb rfl rfl
  refine ⟨{ h.shape with }, ⟨hchain, hfree, hnodup, hfnodup, fun b' e' => ?_, ?_, ?_, ?_, ?_⟩,
    h.keys.assign hlive habs rfl rfl⟩
  · change _ ↔ e' ∈ insert e live ∧ calc_bucket t (update t.hashvalue e (ks.hash k) e') = b'
    rw [hmem, h.chains.mem]
    by_cases he' : e' = e
    · simp [he', hbuck, eq_comm]
    · simp [he']
  · intro e' he'
    rcases mem_insert.mp he' with rfl | he'
    · exact hef
    · exact fun hmem => h.chains.free_disj e' he' (mem_cons_of_mem e hmem)
  · exact forall_mem_insert _ _ _ |>.mpr
      ⟨h.chains.free_lt e mem_cons_self, h.chains.live_lt⟩
  · exact fun e' he' => h.chains.free_lt e' (mem_cons_of_mem e he')
  · change update t.nentries 0 (t.nentries 0 + 1) 0 = _
    rw [h.chains.count, card_insert_of_notMem hlive]
    rfl

/-! ### Removing an entry -/

variable {b : ℕ}

/-- An element that was found in a chain is taken out of it. -/
theorem TableChains.unlink (h : TableChains t live f c) {l₁ l₂ : List ℕ}
    (hb : b >>> t.sshift < t.nsegs) (hc : c b = l₁ ++ e :: l₂) :
    e ∈ c b ∧ Unlinked t f c (update t.store (lastLoc link (t.bucketLoc b) l₁)
      (t.store (.link e))) e (update c b (l₁ ++ l₂)) := by
  have hmem : e ∈ c b := by
    rw [hc]
    exact mem_append_right _ mem_cons_self
  have hl₁ : ∀ i ∈ l₁, i ∈ c b := by
    intro i hi
    rw [hc]
    exact mem_append_left _ hi
  have hnodup := h.nodup b
  rw [hc] at hnodup
  obtain ⟨hnotin, hrest⟩ := nodup_cons.mp (perm_middle.nodup_iff.mp hnodup)
  refine ⟨hmem, ?_, ?_, ?_, ?_⟩
  · intro b' hb'
    by_cases heq : b' = b
    · rw [heq, update_self]
      have hchain := h.chain b hb
      rw [hc] at hchain
      exact hchain.remove link_injective (bucketLoc_isHead t b) hnodup
    · rw [update_of_ne heq]
      obtain ⟨hlast, hlasts⟩ := h.last_ne_chain (Ne.symm heq) hl₁
      exact (h.chain b' hb').write hlast hlasts
  · obtain ⟨hlast, hlasts⟩ := h.last_ne_free hl₁
    exact h.free.write hlast hlasts
  · intro b'
    by_cases heq : b' = b
    · rw [heq, update_self]
      exact hrest
    · rw [update_of_ne heq]
      exact h.nodup b'
  · intro b' e'
    by_cases heq : b' = b
    · rw [heq, hc]
      by_cases he' : e' = e
      · simp [he', hnotin]
      · simp [he']
    · rw [update_of_ne heq]
      refine ⟨fun hmem' => ⟨?_, hmem'⟩, And.right⟩
      rintro rfl
      exact h.disjoint heq e' hmem' hmem

/-- The link of an element that is in no chain may change. -/
theorem Unlinked.chain_update (h : Unlinked t f c store e c') (hb : b >>> t.sshift < t.nsegs)
    (next : Option ℕ) : IsChain link (update store (.link e) next) (t.bucketLoc b) (c' b) :=
  (h.chain b hb).write (bucketLoc_isHead t b e).symm
    fun i hi heq => ((h.mem b i).mp hi).1 (link_injective heq).symm

/-- **Removing an entry**: its element leaves its chain for the free list. -/
theorem TableInv.remove (h : TableInv ks t live f c) {l₁ l₂ : List ℕ}
    (hb : b >>> t.sshift < t.nsegs) (hc : c b = l₁ ++ e :: l₂) :
    TableInv ks (removeEntry t (lastLoc link (t.bucketLoc b) l₁) e 0) (live.erase e)
      (e :: f) (update c b (l₁ ++ l₂)) := by
  obtain ⟨hmem, hunl⟩ := h.chains.unlink hb hc
  obtain ⟨hlive, -⟩ := (h.chains.mem b e).mp hmem
  have hef : e ∉ f := h.chains.free_disj e hlive
  refine ⟨{ h.shape with }, ⟨?_, ?_, hunl.nodup, ?_, ?_, ?_, ?_, ?_, ?_⟩,
    { h.keys.mono (erase_subset e live) with }⟩
  · intro b' hb'
    exact (hunl.chain_update hb' _).write (bucketLoc_ne_freeList t b' 0).symm
      (fun i _ => freeList_isHead 0 i)
  · exact hunl.free.push (freeList_isHead 0) fun j hj heq => hef (link_injective heq ▸ hj)
  · exact nodup_cons.mpr ⟨hef, h.chains.free_nodup⟩
  · intro b' e'
    change _ ↔ e' ∈ live.erase e ∧ calc_bucket t (t.hashvalue e') = b'
    rw [hunl.mem, h.chains.mem, mem_erase, and_assoc]
  · intro e' he' hmem'
    obtain ⟨hne, hlive'⟩ := mem_erase.mp he'
    rcases mem_cons.mp hmem' with heq | hmem'
    · exact hne heq
    · exact h.chains.free_disj e' hlive' hmem'
  · exact fun e' he' => h.chains.live_lt e' (mem_of_mem_erase he')
  · exact forall_mem_cons.mpr ⟨h.chains.live_lt e hlive, h.chains.free_lt⟩
  · change update t.nentries 0 (t.nentries 0 - 1) 0 = _
    have hpos : 0 < live.card := card_pos.mpr ⟨e, hlive⟩
    rw [update_self, h.chains.count, card_erase_of_mem hlive]
    omega

/-! ### Another key -/

/-- **Another key in the same bucket** keeps the chains. -/
theorem TableInv.rekey (h : TableInv ks t live f c) {k : K} (he : e ∈ live)
    (habs : ∀ e, ¬ KeyOf ks t live k e)
    (hbuck : calc_bucket t (t.hashvalue e) = calc_bucket t (ks.hash k)) :
    TableInv ks (setKey t e k (ks.hash k)) live f c where
  shape := { h.shape with }
  chains :=
    { h.chains with
      mem := by
        intro b e'
        change _ ↔ e' ∈ live ∧
          calc_bucket t (update t.hashvalue e (ks.hash k) e') = b
        rw [h.chains.mem b]
        by_cases he' : e' = e
        · rw [he', update_self, hbuck]
        · rw [update_of_ne he'] }
  keys := h.keys.reassign he habs rfl rfl

/-- **Another key in another bucket**: the element goes to the end of its new chain. -/
theorem TableInv.move (h : TableInv ks t live f c) {k : K} {l₁ l₂ : List ℕ}
    (hb : b >>> t.sshift < t.nsegs) (hc : c b = l₁ ++ e :: l₂)
    (habs : ∀ e, ¬ KeyOf ks t live k e) (hne : b ≠ calc_bucket t (ks.hash k)) : TableInv ks
      (setKey (moveEntry t (lastLoc link (t.bucketLoc b) l₁)
        (lastLoc link (t.bucketLoc (calc_bucket t (ks.hash k)))
          (c (calc_bucket t (ks.hash k)))) e) e k (ks.hash k)) live f
      (update (update c b (l₁ ++ l₂)) (calc_bucket t (ks.hash k))
        (c (calc_bucket t (ks.hash k)) ++ [e])) := by
  have hn := h.shape.calc_bucket_segs (ks.hash k)
  generalize hbuck : calc_bucket t (ks.hash k) = n at hn hne ⊢
  obtain ⟨hmem, hunl⟩ := h.chains.unlink hb hc
  obtain ⟨hlive, -⟩ := (h.chains.mem b e).mp hmem
  have hef : e ∉ f := h.chains.free_disj e hlive
  have hcn : update c b (l₁ ++ l₂) n = c n := update_of_ne hne.symm _ _
  obtain ⟨hchain, hfree, hnodup, hmem'⟩ :=
    hunl.append h.chains (fun j hj => hj) hef hn (by rw [hcn]) (by rw [hcn])
  refine ⟨{ h.shape with }, ⟨hchain, hfree, hnodup, h.chains.free_nodup, fun b' e' => ?_,
    h.chains.free_disj, h.chains.live_lt, h.chains.free_lt, h.chains.count⟩,
    h.keys.reassign hlive habs rfl rfl⟩
  change _ ↔ e' ∈ live ∧
          calc_bucket t (update t.hashvalue e (ks.hash k) e') = b'
  rw [hmem', h.chains.mem]
  by_cases he' : e' = e
  · simp [he', hbuck, hlive, eq_comm]
  · simp [he']

end FdPostgres
