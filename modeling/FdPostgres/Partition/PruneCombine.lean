import FdPostgres.Partition.Prune
import Mathlib

/-!
# What Combining Pruning Steps Keeps

The result of a step is a set of requests: an offset, the flag for the null-accepting partition, or
the flag for the default partition. Several requests can stand for the same partition. Unions and
intersections are taken request by request, so a row's partition survives an intersection only if
the steps ask for it in the same way.

* `Request`, `mem_resultPartitions`: the partitions of a result are those of its requests.
* `Condition`, `Conditions`: the condition that a list of steps stands for, given those of its base
  steps.
* `performSteps_has`: **a request is in the result of a step exactly if the condition of the step is
  true when a base step is read as "asks for it".**
* `get_matching_partitions_keeps_iff`: **a list of steps keeps the partition of a row exactly if
  there is one request for it with which the condition of the list is true.**
* `get_matching_partitions_loses`: a row that is lost.
-/

namespace FdPostgres.Partition

open List

variable {δ : Type} [DecidableEq δ]

/-! ### Requests -/

/-- A way to ask for a partition. -/
inductive Request where
  | offset (i : ℕ)
  | null
  | default
  deriving Repr, DecidableEq

/-- The partition a request stands for. -/
def Request.partition (boundinfo : PartitionBoundInfo δ) : Request → ℤ
  | offset i =>
      if boundinfo.index i < 0 then boundinfo.default_index else boundinfo.index i
  | null => boundinfo.null_index
  | default => boundinfo.default_index

/-- The requests of a result. -/
def PruneStepResult.Has (result : PruneStepResult) : Request → Prop
  | .offset i => i ∈ result.bound_offsets
  | .null => result.scan_null = true
  | .default => result.scan_default = true

variable {boundinfo : PartitionBoundInfo δ} {ids : List ℕ} {results : List PruneStepResult}
  {conditions : List Prop} {t : Request} {r : PruneStepResult} {context : PartitionPruneContext δ}
  {ops : List (PartitionPruneStepOp δ)} {steps : List (PartitionPruneStep δ)}
  {result : PruneStepResult}

omit [DecidableEq δ] in
/-- **The partitions of a result are those of its requests.** -/
theorem mem_resultPartitions {S : Finset ℤ} (h : resultPartitions boundinfo result = some S) {p : ℤ}
    (hp : 0 ≤ p) : p ∈ S ↔ ∃ t, result.Has t ∧ t.partition boundinfo = p := by
  rw [resultPartitions] at h
  split at h
  · obtain rfl := Option.some.inj h
    have hdefault : partition_bound_has_default boundinfo = true ↔
        boundinfo.default_index ≠ -1 := by
      rw [partition_bound_has_default, decide_eq_true_iff]
    simp only [Finset.mem_union, Finset.mem_filter, Finset.mem_image]
    constructor
    · rintro ((⟨⟨i, hi, rfl⟩, -⟩ | hnull) | hscan)
      · exact ⟨.offset i, hi, if_neg (by omega)⟩
      · split at hnull
        · next hflag => exact ⟨.null, hflag, (Finset.mem_singleton.mp hnull).symm⟩
        · exact absurd hnull (Finset.notMem_empty _)
      · split at hscan
        · next hflag =>
            obtain rfl := Finset.mem_singleton.mp hscan
            rcases Bool.or_eq_true_iff.mp hflag with hflag | hfound
            · exact ⟨.default, hflag, rfl⟩
            · obtain ⟨hfound, -⟩ := Bool.and_eq_true_iff.mp hfound
              obtain ⟨j, hj, hneg⟩ := of_decide_eq_true hfound
              obtain ⟨i, hi, rfl⟩ := Finset.mem_image.mp hj
              exact ⟨.offset i, hi, if_pos hneg⟩
        · exact absurd hscan (Finset.notMem_empty _)
    · rintro ⟨t, ht, rfl⟩
      cases t with
      | offset i =>
        by_cases hneg : boundinfo.index i < 0
        · have hpart : (Request.offset i).partition boundinfo = boundinfo.default_index :=
            if_pos hneg
          rw [hpart] at hp ⊢
          have hexists : ∃ j ∈ result.bound_offsets.image boundinfo.index, j < 0 :=
            ⟨_, Finset.mem_image_of_mem _ ht, hneg⟩
          have hhas := hdefault.mpr (by omega)
          rw [decide_eq_true hexists, hhas, Bool.and_self, Bool.or_true]
          exact .inr (Finset.mem_singleton_self _)
        · have hpart : (Request.offset i).partition boundinfo = boundinfo.index i := if_neg hneg
          rw [hpart] at hp ⊢
          exact .inl (.inl ⟨⟨i, ht, rfl⟩, hp⟩)
      | null =>
        have hflag : result.scan_null = true := ht
        rw [hflag]
        exact .inl (.inr (Finset.mem_singleton_self _))
      | default =>
        have hflag : result.scan_default = true := ht
        rw [hflag]
        exact .inr (Finset.mem_singleton_self _)
  · cases h

omit [DecidableEq δ] in
/-- A result is translated if all its requests are valid. -/
theorem resultPartitions_isSome : (∃ S, resultPartitions boundinfo result = some S) ↔
      ∀ t, result.Has t → (allMatch boundinfo).Has t := by
  rw [resultPartitions]
  constructor
  · rintro ⟨S, hS⟩ t ht
    split at hS
    · next hvalid =>
        cases t with
        | offset i => exact Finset.mem_range.mpr (hvalid.1 i ht)
        | null => exact hvalid.2.1 ht
        | default => exact hvalid.2.2 ht
    · cases hS
  · intro hvalid
    refine ⟨_, if_pos ⟨fun i hi => ?_, fun h => ?_, fun h => ?_⟩⟩
    · exact Finset.mem_range.mp (hvalid (.offset i) hi)
    · exact hvalid .null h
    · exact hvalid .default h

/-! ### Conditions -/

/-- The condition of a step, given those of the base steps and of the steps before. -/
def Condition (sat : PartitionPruneStepOp δ → Prop) (conditions : List Prop) :
    PartitionPruneStep δ → Prop
  | .StepOp opstep => sat opstep
  | .StepCombine _ [] => True
  | .StepCombine .UNION source_stepids => ∃ i ∈ source_stepids, conditions.getD i False
  | .StepCombine .INTERSECT source_stepids => ∀ i ∈ source_stepids, conditions.getD i False

/-- The conditions of the steps of a list. -/
def Conditions (sat : PartitionPruneStepOp δ → Prop) :
    List (PartitionPruneStep δ) → List Prop → List Prop
  | [], conditions => conditions
  | step :: steps, conditions =>
      Conditions sat steps (conditions ++ [Condition sat conditions step])

variable (sat : PartitionPruneStepOp δ → Prop)

/-- The combined condition of a list of steps: that of the last one, or none. -/
def CombinedCondition (steps : List (PartitionPruneStep δ)) : Prop :=
  (Conditions sat steps []).getLast?.getD True

/-- The sources of a combine step come before it. -/
def SourcesBefore (n : ℕ) : PartitionPruneStep δ → Prop
  | .StepOp _ => True
  | .StepCombine _ source_stepids => ∀ i ∈ source_stepids, i < n

/-- A list of steps over some base steps, from a position on. -/
def StepsOver (ops : List (PartitionPruneStepOp δ)) :
    ℕ → List (PartitionPruneStep δ) → Prop
  | _, [] => True
  | n, step :: steps =>
      (∀ opstep, step = .StepOp opstep → opstep ∈ ops) ∧ SourcesBefore n step ∧
        StepsOver ops (n + 1) steps

/-! ### Unions and intersections -/

/-- A union has the requests of both results. -/
theorem unionResult_has (result step_result : PruneStepResult) (t : Request) :
    (unionResult result step_result).Has t ↔ result.Has t ∨ step_result.Has t := by
  cases t with
  | offset i => exact Finset.mem_union
  | null | default => exact Bool.or_eq_true_iff

/-- An intersection has the requests that are in both results. -/
theorem intersectResult_has (result step_result : PruneStepResult) (t : Request) :
    (intersectResult result step_result).Has t ↔ result.Has t ∧ step_result.Has t := by
  cases t with
  | offset i => exact Finset.mem_inter
  | null | default => exact Bool.and_eq_true_iff

/-- Nothing is requested. -/
theorem noMatch_has (t : Request) : ¬ noMatch.Has t := by
  cases t with
  | offset i => exact Finset.notMem_empty i
  | null | default => exact Bool.false_ne_true

theorem foldl_unionResult_has (l : List PruneStepResult) (result : PruneStepResult) (t : Request) :
    (l.foldl unionResult result).Has t ↔ result.Has t ∨ ∃ r ∈ l, r.Has t := by
  induction l generalizing result with
  | nil => simp
  | cons r l ih => rw [foldl_cons, ih, unionResult_has, exists_mem_cons_iff, or_assoc]

theorem foldl_intersectResult_has (l : List PruneStepResult) (result : PruneStepResult)
    (t : Request) : (l.foldl intersectResult result).Has t ↔ result.Has t ∧ ∀ r ∈ l, r.Has t := by
  induction l generalizing result with
  | nil => simp
  | cons r l ih =>
    rw [foldl_cons, ih, intersectResult_has, forall_mem_cons, and_assoc]

/-- The results of the source steps. -/
theorem mapM_sources (h : ∀ i ∈ ids, i < results.length) :
    ids.mapM (fun i => results[i]?) = some (ids.map fun i => results.getD i noMatch) := by
  induction ids with
  | nil => rfl
  | cons i ids ih =>
    have hi := h i mem_cons_self
    rw [mapM_cons, ih fun j hj => h j (mem_cons_of_mem _ hj), map_cons,
      getD_eq_getElem?_getD, getElem?_eq_getElem hi]
    rfl

/-- A request is in results exactly if conditions are true. -/
def Agree (t : Request) (results : List PruneStepResult) (conditions : List Prop) : Prop :=
  List.Forall₂ (fun r c => r.Has t ↔ c) results conditions

theorem Agree.getD (h : Agree t results conditions) (i : ℕ) :
    (results.getD i noMatch).Has t ↔ conditions.getD i False := by
  induction h generalizing i with
  | nil => exact iff_of_false (noMatch_has t) id
  | cons hrc _ ih =>
    cases i with
    | zero => exact hrc
    | succ i => exact ih i

theorem Agree.concat (h : Agree t results conditions) {c : Prop} (hrc : r.Has t ↔ c) :
    Agree t (results ++ [r]) (conditions ++ [c]) := by
  induction h with
  | nil => exact List.Forall₂.cons hrc List.Forall₂.nil
  | cons hrc' _ ih => exact List.Forall₂.cons hrc' ih

/-- All requests of a result are valid. -/
def PruneStepResult.Valid (boundinfo : PartitionBoundInfo δ) (result : PruneStepResult) : Prop :=
  ∀ t, result.Has t → (allMatch boundinfo).Has t

omit [DecidableEq δ] in
/-- **A combine step has the requests for which its condition is true.** -/
theorem perform_pruning_combine_step_has (boundinfo : PartitionBoundInfo δ)
    (op : PartitionPruneCombineOp) (hids : ∀ i ∈ ids, i < results.length) :
    ∃ r, perform_pruning_combine_step boundinfo op ids results = some r ∧
      ∀ (sat : PartitionPruneStepOp δ → Prop) (t : Request) (conditions : List Prop),
        (allMatch boundinfo).Has t → Agree t results conditions →
        (r.Has t ↔ Condition sat conditions (.StepCombine op ids)) := by
  rw [perform_pruning_combine_step, mapM_sources hids]
  cases ids with
  | nil => exact ⟨_, rfl, fun _ _ _ hvalid _ => iff_of_true hvalid trivial⟩
  | cons i ids =>
    rw [map_cons]
    cases op with
    | UNION =>
      refine ⟨_, rfl, fun _ t conditions _ hagree => ?_⟩
      rw [foldl_unionResult_has, ← map_cons (f := fun i => results.getD i noMatch)]
      simp only [noMatch_has, false_or, mem_map, exists_exists_and_eq_and, hagree.getD]
      rfl
    | INTERSECT =>
      refine ⟨_, rfl, fun _ t conditions _ hagree => ?_⟩
      rw [foldl_intersectResult_has]
      simp only [forall_mem_map, hagree.getD]
      rw [Condition, forall_mem_cons]
      exact fun h => cons_ne_nil _ _ h

/-- The result of a base step. -/
def BaseHas (context : PartitionPruneContext δ) (t : Request) (opstep : PartitionPruneStepOp δ) :
    Prop :=
  ∃ r, perform_pruning_base_step context opstep = some r ∧ r.Has t

/-- **The steps are performed, and a request is in their results exactly if their conditions are
true when a base step is read as "asks for it".** -/
theorem performSteps_has
    (hops : ∀ opstep ∈ ops, ∃ r, perform_pruning_base_step context opstep = some r)
    (hsteps : StepsOver ops results.length steps) :
    ∃ results', performSteps context steps results = some results' ∧
      results'.length = results.length + steps.length ∧
      ∀ (t : Request) (conditions : List Prop), (allMatch context.boundinfo).Has t →
        Agree t results conditions →
        Agree t results' (Conditions (BaseHas context t) steps conditions) := by
  induction steps generalizing results with
  | nil => exact ⟨results, rfl, rfl, fun _ _ _ hagree => hagree⟩
  | cons step steps ih =>
    obtain ⟨hop, hbef, hrest⟩ := hsteps
    obtain ⟨r, hr, hhas⟩ : ∃ r, performStep context results step = some r ∧
        ∀ (t : Request) (conditions : List Prop), (allMatch context.boundinfo).Has t →
          Agree t results conditions →
          (r.Has t ↔ Condition (BaseHas context t) conditions step) := by
      cases step with
      | StepOp opstep =>
        obtain ⟨r, hr⟩ := hops opstep (hop opstep rfl)
        refine ⟨r, hr, fun t conditions _ _ => ⟨fun ht => ⟨r, hr, ht⟩, fun ht => ?_⟩⟩
        obtain ⟨r', hr', ht⟩ := ht
        rwa [Option.some.inj (hr.symm.trans hr')]
      | StepCombine op ids =>
        obtain ⟨r, hr, hhas⟩ := perform_pruning_combine_step_has
          context.boundinfo op hbef
        exact ⟨r, hr, fun t conditions => hhas _ t conditions⟩
    have hlen : (results ++ [r]).length = results.length + 1 := length_append
    have hrest' : StepsOver ops (results ++ [r]).length steps := by
      rw [hlen]
      exact hrest
    obtain ⟨results', hperf, hlen', hagree'⟩ := ih hrest'
    refine ⟨results', by rw [performSteps, hr]; exact hperf, ?_, ?_⟩
    · rw [length_cons]
      omega
    · intro t conditions hvalid hagree
      exact hagree' t _ hvalid (hagree.concat (hhas t conditions hvalid hagree))

/-- The same from the first step on. -/
theorem performSteps_start
    (hops : ∀ opstep ∈ ops, ∃ r, perform_pruning_base_step context opstep = some r)
    (hsteps : StepsOver ops 0 steps) :
    ∃ results, performSteps context steps [] = some results ∧ results.length = steps.length ∧
      ∀ t : Request, (allMatch context.boundinfo).Has t →
        Agree t results (Conditions (BaseHas context t) steps []) := by
  obtain ⟨results, hperf, hlen, hagree⟩ :=
    performSteps_has hops (show StepsOver ops (length []) steps from hsteps)
  exact ⟨results, hperf, by rw [hlen, length_nil, zero_add],
    fun t hvalid => hagree t [] hvalid List.Forall₂.nil⟩

omit [DecidableEq δ] in
/-- A combine step requests nothing that its sources do not request, unless there are none. -/
theorem perform_pruning_combine_step_valid {op : PartitionPruneCombineOp}
    (hids : ∀ i ∈ ids, i < results.length)
    (h : perform_pruning_combine_step boundinfo op ids results = some r)
    (hvalid : ∀ r ∈ results, r.Valid boundinfo) : r.Valid boundinfo := by
  rw [perform_pruning_combine_step, mapM_sources hids] at h
  have hsrc : ∀ i ∈ ids, (results.getD i noMatch).Valid boundinfo := by
    intro i hi
    rw [getD_eq_getElem?_getD, getElem?_eq_getElem (hids i hi)]
    exact hvalid _ (getElem_mem _)
  cases ids with
  | nil =>
    obtain rfl := Option.some.inj h
    exact fun t ht => ht
  | cons i ids =>
    rw [map_cons] at h
    cases op with
    | UNION =>
      obtain rfl := Option.some.inj h
      intro t ht
      rw [foldl_unionResult_has, ← map_cons (f := fun i => results.getD i noMatch)] at ht
      obtain ⟨r, hr, ht⟩ := ht.resolve_left (noMatch_has t)
      obtain ⟨j, hj, rfl⟩ := mem_map.mp hr
      exact hsrc j hj t ht
    | INTERSECT =>
      obtain rfl := Option.some.inj h
      intro t ht
      rw [foldl_intersectResult_has] at ht
      exact hsrc i mem_cons_self t ht.1

/-- All requests of all steps are valid if those of the base steps are. -/
theorem performSteps_valid
    (hops : ∀ opstep ∈ ops, ∀ r, perform_pruning_base_step context opstep = some r →
      r.Valid context.boundinfo) {results' : List PruneStepResult}
    (hsteps : StepsOver ops results.length steps)
    (h : performSteps context steps results = some results')
    (hvalid : ∀ r ∈ results, r.Valid context.boundinfo) :
    ∀ r ∈ results', r.Valid context.boundinfo := by
  induction steps generalizing results with
  | nil =>
    obtain rfl := Option.some.inj h
    exact hvalid
  | cons step steps ih =>
    obtain ⟨hop, hbef, hrest⟩ := hsteps
    rw [performSteps] at h
    cases hr : performStep context results step with
    | none =>
      rw [hr] at h
      cases h
    | some r =>
      rw [hr] at h
      have hrest' : StepsOver ops (results ++ [r]).length steps := by
        rw [length_append]
        exact hrest
      refine ih hrest' h fun r' hr' => ?_
      rcases mem_append.mp hr' with hr' | hr'
      · exact hvalid r' hr'
      rw [mem_singleton.mp hr']
      cases step with
      | StepOp opstep => exact hops opstep (hop opstep rfl) r hr
      | StepCombine op ids => exact perform_pruning_combine_step_valid hbef hr hvalid

/-- The last result and the last condition. -/
theorem Agree.getLast (h : Agree t results conditions) (hr : results.getLast? = some r) :
    r.Has t ↔ conditions.getLast?.getD True := by
  induction h with
  | nil => cases hr
  | cons hrc hrest ih =>
    cases hrest with
    | nil =>
      obtain rfl := Option.some.inj hr
      exact hrc
    | cons hrc' hrest' =>
      exact ih hr

/-! ### The guarantee -/

/-- The partitions of a list of steps are those of the requests of the last one. -/
theorem get_matching_partitions_eq (hne : steps ≠ [])
    (hperf : performSteps context steps [] = some results) (hlast : results.getLast? = some r) :
    get_matching_partitions context steps = resultPartitions context.boundinfo r := by
  rw [get_matching_partitions, if_neg hne, hperf]
  dsimp only
  rw [hlast]

/-- A base step on its own. -/
theorem get_matching_partitions_single {opstep : PartitionPruneStepOp δ} {S : Finset ℤ}
    (h : get_matching_partitions context [.StepOp opstep] = some S) :
    ∃ r, perform_pruning_base_step context opstep = some r ∧
      resultPartitions context.boundinfo r = some S := by
  rw [get_matching_partitions, performSteps, performStep] at h
  cases hr : perform_pruning_base_step context opstep with
  | none =>
    rw [hr] at h
    cases h
  | some r =>
    rw [hr] at h
    exact ⟨r, rfl, h⟩

omit [DecidableEq δ] in
/-- Steps have a last result. -/
theorem exists_getLast (hne : steps ≠ []) (hlen : results.length = steps.length) :
    ∃ r, results.getLast? = some r := by
  have hne' : results ≠ [] := by
    rintro rfl
    exact hne (length_eq_zero_iff.mp hlen.symm)
  exact ⟨_, getLast?_eq_some_getLast hne'⟩

/-- **Which rows a list of steps keeps.** Let the base steps raise no error. A list without steps
keeps all rows. Any other list keeps the partition of a row exactly if there is one request for that
partition with which its combined condition is true, when a base step is read as "asks for it". -/
theorem get_matching_partitions_keeps_iff (context : PartitionPruneContext δ)
    (ops : List (PartitionPruneStepOp δ)) (steps : List (PartitionPruneStep δ))
    (values : List (Option δ))
    (hops : ∀ opstep ∈ ops, ∃ S, get_matching_partitions context [.StepOp opstep] = some S)
    (hover : StepsOver ops 0 steps)
    (hrow : 0 ≤ get_partition_for_tuple context.key context.boundinfo values ∧
      get_partition_for_tuple context.key context.boundinfo values < context.nparts) :
    (∃ S, get_matching_partitions context steps = some S ∧
      get_partition_for_tuple context.key context.boundinfo values ∈ S) ↔
    steps = [] ∨ ∃ t : Request,
      t.partition context.boundinfo = get_partition_for_tuple context.key context.boundinfo values ∧
      (allMatch context.boundinfo).Has t ∧ CombinedCondition (BaseHas context t) steps := by
  generalize get_partition_for_tuple context.key context.boundinfo values = p at hrow ⊢
  by_cases hne : steps = []
  · subst hne
    refine iff_of_true ⟨_, rfl, Finset.mem_image.mpr ⟨_, Finset.mem_range.mpr ?_,
      Int.toNat_of_nonneg hrow.1⟩⟩ (.inl rfl)
    omega
  have hbase : ∀ opstep ∈ ops, ∃ r, perform_pruning_base_step context opstep = some r ∧
      r.Valid context.boundinfo := by
    intro opstep ho
    obtain ⟨S, hS⟩ := hops opstep ho
    obtain ⟨r, hr, hS⟩ := get_matching_partitions_single hS
    exact ⟨r, hr, resultPartitions_isSome.mp ⟨S, hS⟩⟩
  obtain ⟨results, hperf, hlen, hagree⟩ :=
    performSteps_start (fun opstep ho => (hbase opstep ho).imp fun _ => And.left) hover
  obtain ⟨r, hlast⟩ := exists_getLast hne hlen
  -- all requests are valid, so that the last result is translated
  have hall : ∀ r ∈ results, r.Valid context.boundinfo := by
    refine performSteps_valid (fun opstep ho r hr => ?_)
      (show StepsOver ops (length []) steps from hover) hperf (forall_mem_nil _)
    obtain ⟨r', hr', hvalid⟩ := hbase opstep ho
    rwa [Option.some.inj (hr.symm.trans hr')]
  have hvalid := hall r (mem_of_getLast? hlast)
  obtain ⟨S, hS⟩ := resultPartitions_isSome.mpr hvalid
  have hkeeps : (∃ S, get_matching_partitions context steps = some S ∧ p ∈ S) ↔ p ∈ S := by
    rw [get_matching_partitions_eq hne hperf hlast, hS]
    simp
  rw [hkeeps, mem_resultPartitions hS hrow.1, or_iff_right hne]
  constructor
  · rintro ⟨t, ht, hpart⟩
    exact ⟨t, hpart, hvalid t ht, ((hagree t (hvalid t ht)).getLast hlast).mp ht⟩
  · rintro ⟨t, hpart, hreq, hcond⟩
    exact ⟨t, ((hagree t hreq).getLast hlast).mpr hcond, hpart⟩

/-! ### A row that is lost -/

/-- A table with the partition of the keys from 10 to 19, and a default partition. -/
def decadeContext : PartitionPruneContext ℤ where
  key := ⟨1, fun _ a b => a - b, fun _ => 0⟩
  boundinfo := ⟨.RANGE, [[.VALUE 10], [.VALUE 20]], [-1, 0, -1], -1, 1⟩
  nparts := 2

/-- The step of the condition that the key is less than 5. -/
def belowFive : PartitionPruneStepOp ℤ := ⟨.BTLess, [some 5], fun _ a b => a - b, []⟩

/-- The step of the condition that the key is not null. -/
def notNull : PartitionPruneStepOp ℤ := ⟨.InvalidStrategy, [], fun _ a b => a - b, []⟩

/-- **A row of the default partition is lost.** The row with the key 3 goes to the default
partition, and both steps keep it, one by an offset that no partition covers and the other by the
flag. Their intersection has neither. -/
theorem get_matching_partitions_loses :
    get_partition_for_tuple decadeContext.key decadeContext.boundinfo [some 3] = 1 ∧
    get_matching_partitions decadeContext [.StepOp belowFive] = some {1} ∧
    get_matching_partitions decadeContext [.StepOp notNull] = some {0, 1} ∧
    get_matching_partitions decadeContext
      [.StepOp belowFive, .StepOp notNull, .StepCombine .INTERSECT [0, 1]] = some ∅ := by
  refine ⟨?_, ?_, ?_, ?_⟩
  · decide
  · decide
  · decide
  · decide

/-- The step of the condition that the key is less than 7. -/
def belowSeven : PartitionPruneStepOp ℤ := ⟨.BTLess, [some 7], fun _ a b => a - b, []⟩

/-- Two steps ask for the partition of the row with the key 3 by the same offset. Their intersection
keeps it, and so does its union with the step that asks in another way. -/
theorem belowFive_belowSeven_keep :
    get_partition_for_tuple decadeContext.key decadeContext.boundinfo [some 3] = 1 ∧
    ∃ S, get_matching_partitions decadeContext [.StepOp belowFive, .StepOp belowSeven,
        .StepCombine .INTERSECT [0, 1], .StepOp notNull, .StepCombine .UNION [2, 3]] = some S ∧
      get_partition_for_tuple decadeContext.key decadeContext.boundinfo [some 3] ∈ S := by
  have hoff : PruneStepResult.Has ⟨{0}, false, false⟩ (.offset 0) := Finset.mem_singleton_self 0
  have hfive : BaseHas decadeContext (.offset 0) belowFive := ⟨_, by decide, hoff⟩
  have hseven : BaseHas decadeContext (.offset 0) belowSeven := ⟨_, by decide, hoff⟩
  refine ⟨by decide, (get_matching_partitions_keeps_iff decadeContext
    [belowFive, belowSeven, notNull] _ [some 3] ?_ ?_ (by decide)).mpr (.inr ⟨.offset 0, by decide,
      Finset.mem_range.mpr (by decide), ?_⟩)⟩
  · simp only [forall_mem_cons]
    exact ⟨⟨{1}, by decide⟩, ⟨{1}, by decide⟩, ⟨{0, 1}, by decide⟩, forall_mem_nil _⟩
  · simp [StepsOver, SourcesBefore]
  · simp [CombinedCondition, Conditions, Condition, hfive, hseven]

end FdPostgres.Partition
