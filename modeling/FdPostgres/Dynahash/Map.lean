import FdPostgres.Dynahash.Operations

/-!
# A Dynamic Hash Table Is a Map

The abstract state of a table is a partial function from elements to keys (`HTAB.entry`). The
answers of the operations on it are relations between the abstract states before and after
(`SearchAnswer`, `UpdateAnswer`). A table with the invariant refines them.

* `TableInv.search_answer`, `TableInv.update_answer`: the operations answer as on a map, and keep
  the invariant.
* `hash_create_inv`: a new table has the invariant.
-/

namespace FdPostgres

open Function LinkedChain LinearHashing HASHACTION Finset HashLoc

variable {K : Type}

/-! ### The abstract state -/

variable (t : HTAB K)

/-- The chain of a bucket. -/
def HTAB.chain (bucket : ℕ) : List ℕ :=
  collect link t.store t.nelements (t.bucketLoc bucket)

/-- The elements that are stored in the table. -/
def HTAB.elements : Finset ℕ :=
  (range (t.max_bucket + 1)).biUnion fun bucket => (t.chain bucket).toFinset

/-- The keys of a set of elements. -/
def keysOf (live : Finset ℕ) (e : ℕ) : Option K :=
  if e ∈ live then t.key e else none

/-- The abstract state of a table: the stored elements with their keys. -/
def HTAB.entry : ℕ → Option K :=
  keysOf t t.elements

/-- The element that has a key. -/
def Holds (ks : HashedKeys K) (m : ℕ → Option K) (k : K) (e : ℕ) : Prop :=
  ∃ k', m e = some k' ∧ ks.same k' k = true

/-- The answers of `hash_search`, with the abstract states before and after. New entries go to
elements that were not stored; an insertion fails in a frozen table and without memory. -/
inductive SearchAnswer (ks : HashedKeys K) (frozen isshared : Bool) (full : Prop)
    (m : ℕ → Option K) (k : K) :
    HASHACTION → Except HashError (Option ℕ × Bool) → (ℕ → Option K) → Prop where
  | found {action : HASHACTION} {e : ℕ} (hact : action ≠ HASH_REMOVE) (he : Holds ks m k e) :
      SearchAnswer ks frozen isshared full m k action (.ok (some e, true)) m
  | absent {action : HASHACTION} (hact : action = HASH_FIND ∨ action = HASH_REMOVE)
      (habsent : ∀ e, ¬ Holds ks m k e) :
      SearchAnswer ks frozen isshared full m k action (.ok (none, false)) m
  | removed {e : ℕ} (he : Holds ks m k e) :
      SearchAnswer ks frozen isshared full m k HASH_REMOVE (.ok (some e, true))
        (update m e none)
  | entered {action : HASHACTION} {e : ℕ}
      (hact : action = HASH_ENTER ∨ action = HASH_ENTER_NULL) (hfrozen : frozen = false)
      (habsent : ∀ e, ¬ Holds ks m k e) (he : m e = none) :
      SearchAnswer ks frozen isshared full m k action (.ok (some e, false))
        (update m e (some k))
  | frozen {action : HASHACTION} (hact : action = HASH_ENTER ∨ action = HASH_ENTER_NULL)
      (hfrozen : frozen = true) (habsent : ∀ e, ¬ Holds ks m k e) :
      SearchAnswer ks frozen isshared full m k action (.error .frozenInsert) m
  | noRoom (hfull : full) (habsent : ∀ e, ¬ Holds ks m k e) :
      SearchAnswer ks frozen isshared full m k HASH_ENTER_NULL (.ok (none, false)) m
  | outOfMemory (hfull : full) (habsent : ∀ e, ¬ Holds ks m k e) :
      SearchAnswer ks frozen isshared full m k HASH_ENTER
        (.error (if isshared then .outOfSharedMemory else .outOfMemory)) m

/-- The answers of `hash_update_hash_key`. -/
inductive UpdateAnswer (ks : HashedKeys K) (frozen : Bool) (m : ℕ → Option K) (e : ℕ)
    (newKey : K) : Except HashError Bool → (ℕ → Option K) → Prop where
  | frozen (hfrozen : frozen = true) :
      UpdateAnswer ks frozen m e newKey (.error .frozenUpdate) m
  | notInTable (hfrozen : frozen = false) (he : m e = none) :
      UpdateAnswer ks frozen m e newKey (.error .notInTable) m
  | exists {e' : ℕ} (hfrozen : frozen = false) (he : m e ≠ none) (he' : Holds ks m newKey e') :
      UpdateAnswer ks frozen m e newKey (.ok false) m
  | updated (hfrozen : frozen = false) (he : m e ≠ none)
      (habsent : ∀ e', ¬ Holds ks m newKey e') :
      UpdateAnswer ks frozen m e newKey (.ok true) (update m e (some newKey))

variable {ks : HashedKeys K} {t : HTAB K} {live : Finset ℕ} {f : List ℕ} {c : ℕ → List ℕ}

/-! ### The abstract state under the invariant -/

variable (h : TableInv ks t live f c)

include h

/-- The chain of a bucket is the one of the invariant. -/
theorem TableInv.chain_eq {b : ℕ} (hb : b ≤ t.max_bucket) : t.chain b = c b :=
  (h.chains.chain b (h.shape.segs_of_le hb)).collect_eq (h.chains.length_le b)

/-- The stored elements are the live ones. -/
theorem TableInv.elements_eq : t.elements = live := by
  ext e
  simp only [HTAB.elements, mem_biUnion, mem_range, List.mem_toFinset]
  constructor
  · rintro ⟨b, hb, he⟩
    rw [h.chain_eq (Nat.lt_succ_iff.mp hb), h.chains.mem] at he
    exact he.1
  · intro he
    have hle := h.shape.calc_bucket_le (t.hashvalue e)
    refine ⟨calc_bucket t (t.hashvalue e), Nat.lt_succ_of_le hle, ?_⟩
    rw [h.chain_eq hle, h.chains.mem]
    exact ⟨he, rfl⟩

/-- The abstract state has the keys of the live elements. -/
theorem TableInv.entry_eq : t.entry = keysOf t live := by
  rw [HTAB.entry, h.elements_eq]

omit h in
/-- The live element of a key, in the abstract state. -/
theorem holds_keysOf {k : K} {e : ℕ} : Holds ks (keysOf t live) k e ↔ KeyOf ks t live k e := by
  rw [Holds, KeyOf, keysOf]
  by_cases he : e ∈ live
  · simp [he]
  · simp [he]

/-- A live element has a key in the abstract state. -/
theorem TableInv.keysOf_ne_none {e : ℕ} : keysOf t live e ≠ none ↔ e ∈ live := by
  rw [keysOf]
  by_cases he : e ∈ live
  · obtain ⟨k, hk, -⟩ := h.keys.keyed e he
    simp [hk]
  · simp [he]

omit h in
/-- The abstract state after an element was removed. -/
theorem keysOf_erase (e : ℕ) : keysOf t (live.erase e) = update (keysOf t live) e none := by
  funext e'
  by_cases heq : e' = e
  · rw [heq, update_self, keysOf, if_neg (notMem_erase e live)]
  · rw [update_of_ne heq, keysOf, keysOf]
    simp [mem_erase, heq]

omit h in
/-- The abstract state after an element got a key. -/
theorem keysOf_insert {t' : HTAB K} {e : ℕ} {k : K} (hkey : t'.key = update t.key e (some k)) :
    keysOf t' (insert e live) = update (keysOf t live) e (some k) := by
  funext e'
  by_cases heq : e' = e
  · rw [heq, update_self, keysOf, if_pos (mem_insert_self e live), hkey, update_self]
  · rw [update_of_ne heq, keysOf, keysOf, hkey, update_of_ne heq]
    simp [heq]

omit h in
/-- The abstract state after a table changed outside its entries. -/
theorem keysOf_congr {t' : HTAB K} (hsame : SameEntries t t') : keysOf t' live = keysOf t live := by
  funext e
  rw [keysOf, keysOf, hsame.key]

/-! ### Searching -/

variable {loc : HashLoc} (env : HashEnv)

/-- The insertion of a key that no element has: it fails in a frozen table and without memory,
and otherwise a free element becomes live. -/
theorem TableInv.enterEntry_cases {k : K} (habs : ∀ e, ¬ KeyOf ks t live k e)
    (action : HASHACTION)
    (hloc : loc = lastLoc link (t.bucketLoc (calc_bucket t (ks.hash k)))
      (c (calc_bucket t (ks.hash k)))) :
    (t.frozen = true ∧ enterEntry env t loc k (ks.hash k) 0 action = (.error .frozenInsert, t)) ∨
    (t.frozen = false ∧ (t.isfixed = true ∨ env.elemOk = false) ∧
      enterEntry env t loc k (ks.hash k) 0 action =
        if action = HASH_ENTER_NULL then (.ok (none, false), t)
        else (.error (if t.isshared then .outOfSharedMemory else .outOfMemory), t)) ∨
    (t.frozen = false ∧ ∃ t₁ e f' c', e ∉ live ∧ SameEntries t t₁ ∧ t₁.masks = t.masks ∧
      TableInv ks (linkEntry (takeElement t₁ e 0 0) loc e k (ks.hash k)) (insert e live) f' c' ∧
      enterEntry env t loc k (ks.hash k) 0 action =
        (.ok (some e, false), linkEntry (takeElement t₁ e 0 0) loc e k (ks.hash k))) := by
  cases hfroz : t.frozen with
  | true =>
    simp [enterEntry, hfroz]
  | false =>
    right
    rcases h.get_entry env with
      ⟨t₁, e, f', hget, hinv, hsame, hmasks, hsshift⟩ | ⟨hfull, hget⟩
    · have hcalc : calc_bucket t₁ (ks.hash k) = calc_bucket t (ks.hash k) :=
        congrArg (fun m => Masks.bucket m (ks.hash k)) hmasks
      have hbuck : t₁.bucketLoc = t.bucketLoc := by
        funext b
        rw [HTAB.bucketLoc, HTAB.bucketLoc, hsshift]
      have hkeys : ∀ e, ¬ KeyOf ks t₁ live k e := by
        intro e' he'
        rw [KeyOf, hsame.key] at he'
        exact habs e' he'
      have hentered := hinv.enter hkeys
      rw [hcalc, hbuck, ← hloc] at hentered
      refine .inr ⟨rfl, t₁, e, f', _, ?_, hsame, hmasks, hentered, ?_⟩
      · exact fun hlive => hinv.chains.free_disj e hlive List.mem_cons_self
      · simp [enterEntry, hfroz, hget]
    · refine .inl ⟨rfl, hfull, ?_⟩
      simp [enterEntry, hfroz, hget]

variable {action : HASHACTION}

/-- The insertion of a key that no element has answers as on a map. -/
theorem TableInv.enterEntry_answer {k : K} (habs : ∀ e, ¬ KeyOf ks t live k e)
    (hact : action = HASH_ENTER ∨ action = HASH_ENTER_NULL)
    (hloc : loc = lastLoc link (t.bucketLoc (calc_bucket t (ks.hash k)))
      (c (calc_bucket t (ks.hash k)))) :
    ∃ live' f' c', TableInv ks (enterEntry env t loc k (ks.hash k) 0 action).2 live' f' c' ∧
      SearchAnswer ks t.frozen t.isshared (t.isfixed = true ∨ env.elemOk = false)
        (keysOf t live) k action (enterEntry env t loc k (ks.hash k) 0 action).1
        (keysOf (enterEntry env t loc k (ks.hash k) 0 action).2 live') := by
  have habs' : ∀ e, ¬ Holds ks (keysOf t live) k e := fun e he => habs e (holds_keysOf.mp he)
  rcases h.enterEntry_cases env habs action hloc with
    ⟨hfroz, heq⟩ | ⟨hfroz, hfull, heq⟩ |
    ⟨hfroz, t₁, e, f', c', hlive, hsame, hmasks, hinv, heq⟩
  · rw [heq]
    exact ⟨live, f, c, h, .frozen hact hfroz habs'⟩
  · rw [heq]
    rcases hact with rfl | rfl
    · exact ⟨live, f, c, h, .outOfMemory hfull habs'⟩
    · exact ⟨live, f, c, h, .noRoom hfull habs'⟩
  · have hstate : keysOf (linkEntry (takeElement t₁ e 0 0) loc e k (ks.hash k))
        (insert e live) = update (keysOf t₁ live) e (some k) := keysOf_insert rfl
    rw [keysOf_congr hsame] at hstate
    rw [heq]
    refine ⟨_, _, _, hinv, ?_⟩
    rw [hstate]
    exact .entered hact hfroz habs' (if_neg hlive)

/-- An insertion that does not find its key goes to the end of the chain. -/
theorem TableInv.searchBucket_enter {k : K} (hact : action = HASH_ENTER ∨ action = HASH_ENTER_NULL)
    (hend : t.findIn (t.hasKey ks k (ks.hash k)) (calc_bucket t (ks.hash k)) = (loc, none)) :
    searchBucket ks env t k (ks.hash k) action = enterEntry env t loc k (ks.hash k) 0 action := by
  have hdir : t.dir (calc_bucket t (ks.hash k) >>> t.sshift) = true :=
    h.shape.dir _ (h.shape.calc_bucket_segs _)
  have hfl := h.shape.freelistIdx_eq (ks.hash k)
  rcases hact with rfl | rfl
  · simp [searchBucket, hdir, hend, hfl]
  · simp [searchBucket, hdir, hend, hfl]

/-- **The search in a bucket answers as on a map**, and keeps the invariant. -/
theorem TableInv.searchBucket_answer (k : K) (action : HASHACTION) :
    ∃ live' f' c', TableInv ks (searchBucket ks env t k (ks.hash k) action).2 live' f' c' ∧
      SearchAnswer ks t.frozen t.isshared (t.isfixed = true ∨ env.elemOk = false)
        (keysOf t live) k action (searchBucket ks env t k (ks.hash k) action).1
        (keysOf (searchBucket ks env t k (ks.hash k) action).2 live') := by
  have hdir : t.dir (calc_bucket t (ks.hash k) >>> t.sshift) = true :=
    h.shape.dir _ (h.shape.calc_bucket_segs _)
  have hfl := h.shape.freelistIdx_eq (ks.hash k)
  rcases h.find_key k with ⟨l₁, e, l₂, hc, hkey, hfound⟩ | ⟨habs, hend⟩
  · have hholds : Holds ks (keysOf t live) k e := holds_keysOf.mpr hkey
    by_cases hact : action = HASH_REMOVE
    · subst hact
      simp only [searchBucket, hdir, hfound, hfl, Bool.true_eq_false, if_false]
      refine ⟨live.erase e, e :: f, _, h.remove (h.shape.calc_bucket_segs _) hc, ?_⟩
      have herase : keysOf (removeEntry t (lastLoc link
          (t.bucketLoc (calc_bucket t (ks.hash k))) l₁) e 0) (live.erase e) =
          update (keysOf t live) e none := keysOf_erase e
      rw [herase]
      exact .removed hholds
    · have hunch : searchBucket ks env t k (ks.hash k) action = (.ok (some e, true), t) := by
        cases action with
        | HASH_REMOVE => exact absurd rfl hact
        | HASH_FIND | HASH_ENTER | HASH_ENTER_NULL => simp [searchBucket, hdir, hfound]
      rw [hunch]
      exact ⟨live, f, c, h, .found hact hholds⟩
  · by_cases hact : action = HASH_FIND ∨ action = HASH_REMOVE
    · have hunch : searchBucket ks env t k (ks.hash k) action = (.ok (none, false), t) := by
        rcases hact with rfl | rfl
        · simp [searchBucket, hdir, hend]
        · simp [searchBucket, hdir, hend]
      rw [hunch]
      exact ⟨live, f, c, h, .absent hact (fun e he => habs e (holds_keysOf.mp he))⟩
    · have hact' : action = HASH_ENTER ∨ action = HASH_ENTER_NULL := by
        cases action <;> simp_all
      rw [h.searchBucket_enter env hact' hend]
      exact h.enterEntry_answer env habs hact' rfl

/-- **`hash_search` answers as on a map** and keeps the invariant, as long as the split that may
come first has a bucket number of 32 bits. -/
theorem TableInv.search_answer (k : K) (action : HASHACTION)
    (hsafe : expandDue env t action = true → t.max_bucket + 1 < 2 ^ 32) :
    ∃ live' f' c', TableInv ks (hash_search ks env t k action).2 live' f' c' ∧
      SearchAnswer ks t.frozen t.isshared (t.isfixed = true ∨ env.elemOk = false)
        (keysOf t live) k action (hash_search ks env t k action).1
        (keysOf (hash_search ks env t k action).2 live') := by
  rw [hash_search, hash_search_with_hash_value]
  split_ifs with hdue
  · obtain ⟨⟨c', hinv⟩, hsame⟩ := h.expand env (hsafe hdue)
    have hans := hinv.searchBucket_answer env k action
    rw [keysOf_congr hsame, hsame.frozen, hsame.isshared, hsame.isfixed] at hans
    exact hans
  · exact h.searchBucket_answer env k action

/-! ### Another key -/

/-- The element that `hash_update_hash_key` is given is found exactly when it is stored. -/
theorem TableInv.find_element (e : ℕ) :
    (∃ l₁ l₂, c (calc_bucket t (t.hashvalue e)) = l₁ ++ e :: l₂ ∧ e ∈ live ∧
      t.findIn (fun e' => e' == e) (calc_bucket t (t.hashvalue e)) =
        (lastLoc link (t.bucketLoc (calc_bucket t (t.hashvalue e))) l₁, some e)) ∨
    (e ∉ live ∧ (t.findIn (fun e' => e' == e) (calc_bucket t (t.hashvalue e))).2 = none) := by
  have hb := h.shape.calc_bucket_segs (t.hashvalue e)
  rcases h.chains.find_cases hb (fun e' => e' == e) with
    ⟨l₁, e', l₂, hc, he', hfound⟩ | ⟨hall, hend⟩
  · obtain rfl : e' = e := beq_iff_eq.mp he'
    have hmem : e' ∈ c (calc_bucket t (t.hashvalue e')) := by
      rw [hc]
      exact List.mem_append_right _ List.mem_cons_self
    exact .inl ⟨l₁, l₂, hc, ((h.chains.mem _ e').mp hmem).1, hfound⟩
  · refine .inr ⟨fun hlive => ?_, by rw [hend]⟩
    have hfalse := hall e ((h.chains.mem _ e).mpr ⟨hlive, rfl⟩)
    simp at hfalse

/-- `hash_update_hash_key` on a stored element of a table that is not frozen, with a key that no
element has. -/
theorem TableInv.update_key {e : ℕ} {newKey : K} {l₁ l₂ : List ℕ}
    (hc : c (calc_bucket t (t.hashvalue e)) = l₁ ++ e :: l₂) (he : e ∈ live)
    (habs : ∀ e, ¬ KeyOf ks t live newKey e) {old new : HashLoc}
    (hold : old = lastLoc link (t.bucketLoc (calc_bucket t (t.hashvalue e))) l₁)
    (hnew : new = lastLoc link (t.bucketLoc (calc_bucket t (ks.hash newKey)))
      (c (calc_bucket t (ks.hash newKey)))) :
    ∃ c', TableInv ks (setKey (if calc_bucket t (t.hashvalue e) ≠ calc_bucket t (ks.hash newKey)
      then moveEntry t old new e else t) e newKey (ks.hash newKey)) live f c' := by
  split_ifs with hbuck
  · rw [hold, hnew]
    exact ⟨_, h.move (h.shape.calc_bucket_segs _) hc habs hbuck⟩
  · exact ⟨c, h.rekey he habs (not_not.mp hbuck)⟩

/-- **`hash_update_hash_key` answers as on a map** and keeps the invariant; it changes nothing
unless it returns true. -/
theorem TableInv.update_answer (e : ℕ) (newKey : K) :
    (∃ c', TableInv ks (hash_update_hash_key ks t e newKey).2 live f c') ∧
      UpdateAnswer ks t.frozen (keysOf t live) e newKey (hash_update_hash_key ks t e newKey).1
        (keysOf (hash_update_hash_key ks t e newKey).2 live) ∧
      ((hash_update_hash_key ks t e newKey).1 ≠ .ok true →
        (hash_update_hash_key ks t e newKey).2 = t) := by
  cases hfroz : t.frozen with
  | true =>
    simp only [hash_update_hash_key, hfroz, if_true]
    exact ⟨⟨c, h⟩, .frozen rfl, fun _ => trivial⟩
  | false =>
    have hdir : ∀ hash_val, t.dir (calc_bucket t hash_val >>> t.sshift) = true :=
      fun hash_val => h.shape.dir _ (h.shape.calc_bucket_segs hash_val)
    rcases h.find_element e with ⟨l₁, l₂, hc, he, hfound⟩ | ⟨he, hnone⟩
    · have hstor : keysOf t live e ≠ none := h.keysOf_ne_none.mpr he
      rcases h.find_key newKey with ⟨_, e', _, -, hkey, hfound'⟩ | ⟨habs, hend⟩
      · simp only [hash_update_hash_key, hfroz, hdir, hfound, hfound', if_false, reduceCtorEq,
          ne_eq, not_false_eq_true, if_true]
        exact ⟨⟨c, h⟩, .exists rfl hstor (holds_keysOf.mpr hkey), fun _ => trivial⟩
      · obtain ⟨c', hinv⟩ := h.update_key hc he habs rfl rfl
        generalize ht' : (if calc_bucket t (t.hashvalue e) ≠ calc_bucket t (ks.hash newKey)
          then moveEntry t _ _ e else t) = t' at hinv
        have hkey : t'.key = t.key := by
          rw [← ht']
          split <;> rfl
        have hstate : keysOf (setKey t' e newKey (ks.hash newKey)) (insert e live) =
            update (keysOf t live) e (some newKey) :=
          keysOf_insert (by rw [setKey, hkey])
        rw [insert_eq_self.mpr he] at hstate
        have heq : hash_update_hash_key ks t e newKey =
            (.ok true, setKey t' e newKey (ks.hash newKey)) := by
          simp [hash_update_hash_key, hfroz, hdir, hfound, hend, ← ht']
        rw [heq]
        refine ⟨⟨c', hinv⟩, ?_, fun hne => absurd rfl hne⟩
        rw [hstate]
        exact .updated rfl hstor (fun e' he' => habs e' (holds_keysOf.mp he'))
    · simp only [hash_update_hash_key, hfroz, hdir, hnone, Bool.false_eq_true,
        Bool.true_eq_false, if_false, if_true]
      refine ⟨⟨c, h⟩, .notInTable rfl ?_, fun _ => trivial⟩
      exact not_not.mp (fun hne => he (h.keysOf_ne_none.mp hne))

end FdPostgres
