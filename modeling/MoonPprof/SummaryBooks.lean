/-
The books of the rollup.

`selfOf`, `cumOf`, `memCumOf` say of a list of samples what each function is to
be charged; `Books` says that the accumulators of the loop hold these sums.

* `computeSummary_books` — they do at the end of the loop.
-/
import MoonPprof.Summary
import MoonPprof.Aggregate
import Mathlib.Tactic.Ring

open MachineInt Proto

/-! ### Charging an entry -/

namespace HashMap

variable {K V : Type} [DecidableEq K]

theorem getD_lookup_entryOr (m : HashMap K V) (k k' : K) (init : V) (f : V → V) :
    ((m.entryOr k init f).lookup k').getD init =
      if k' = k then f ((m.lookup k').getD init) else (m.lookup k').getD init := by
  by_cases hk : k' = k
  · rw [if_pos hk, hk, lookup_entryOr_self, Option.getD_some]
  · rw [if_neg hk, lookup_entryOr_ne hk]

theorem mem_entryOr {m : HashMap K V} {k k' : K} {init : V} {f : V → V} :
    k' ∈ m.entryOr k init f ↔ k' = k ∨ k' ∈ m :=
  AList.mem_insert _

/-- Entries are what their keys look up. -/
theorem map_entries_lookup {β : Type} {m : HashMap K V} {l : List (Sigma fun _ : K => V)}
    (hl : l ⊆ m.entries) (init : V) (f : V → β) :
    (l.map fun e => f e.2) = (l.map Sigma.fst).map fun k => f ((m.lookup k).getD init) := by
  rw [List.map_map]
  refine List.map_congr_left fun e he => ?_
  rw [Function.comp_apply, AList.mem_lookup_iff.mpr (hl he), Option.getD_some]

end HashMap

namespace CmdSummary

/-- What a function has been charged. -/
def Stats.at (stats : Stats) (f : String) : FuncStats := (stats.lookup f).getD .zero

theorem Stats.at_entryOr (stats : Stats) (name f : String) (g : FuncStats → FuncStats) :
    Stats.at (stats.entryOr name .zero g) f = if f = name then g (stats.at f) else stats.at f := by
  rw [Stats.at, HashMap.getD_lookup_entryOr]
  by_cases hf : f = name
  · rw [if_pos hf, if_pos hf, hf, Stats.at]
  · rw [if_neg hf, if_neg hf, Stats.at]

variable {locToName : HashMap Nat String} {id : Nat} {ids : List Nat} {f name : String}

theorem namesOf_cons_none (h : locToName.lookup id = none) :
    namesOf locToName (id :: ids) = namesOf locToName ids :=
  List.filterMap_cons_none h

theorem namesOf_cons_some (h : locToName.lookup id = some name) :
    namesOf locToName (id :: ids) = name :: namesOf locToName ids :=
  List.filterMap_cons_some h

/-- A name of the stack that has not been seen is charged once. -/
theorem at_chargeCum (v : Int) (seen : List String) (stats : Stats) :
    Stats.at (chargeCum locToName v seen ids stats) f =
      if f ∈ namesOf locToName ids ∧ f ∉ seen then (stats.at f).addCum v else stats.at f := by
  induction ids generalizing seen stats with
  | nil => rw [chargeCum, if_neg (fun h => List.not_mem_nil h.1)]
  | cons id ids ih =>
    rw [chargeCum]
    cases hname : locToName.lookup id with
    | none => rw [namesOf_cons_none hname, ih]
    | some name =>
      rw [namesOf_cons_some hname]
      by_cases hseen : name ∈ seen
      · -- a repeated name changes nothing, so it may be dropped from the stack
        simp only [hseen, if_true]
        rw [ih]
        refine if_congr ⟨fun h => ⟨List.mem_cons_of_mem _ h.1, h.2⟩, fun h => ⟨?_, h.2⟩⟩ rfl rfl
        rcases List.mem_cons.mp h.1 with rfl | hf
        · exact absurd hseen h.2
        · exact hf
      · simp only [hseen, if_false]
        rw [ih, Stats.at_entryOr]
        by_cases hf : f = name
        · rw [if_neg fun h => h.2 (hf ▸ List.mem_cons_self), if_pos hf,
            if_pos ⟨hf ▸ List.mem_cons_self, hf ▸ hseen⟩]
        · rw [if_neg hf]
          refine if_congr ?_ rfl rfl
          rw [List.mem_cons, List.mem_cons, or_iff_right hf, or_iff_right hf]

theorem mem_chargeCum {v : Int} {seen : List String} {stats : Stats}
    (hseen : ∀ name ∈ seen, name ∈ stats) :
    f ∈ chargeCum locToName v seen ids stats ↔ f ∈ namesOf locToName ids ∨ f ∈ stats := by
  induction ids generalizing seen stats with
  | nil => rw [chargeCum, namesOf, List.filterMap_nil, or_iff_right List.not_mem_nil]
  | cons id ids ih =>
    rw [chargeCum]
    cases hname : locToName.lookup id with
    | none => rw [namesOf_cons_none hname, ih hseen]
    | some name =>
      rw [namesOf_cons_some hname, List.mem_cons]
      by_cases hmem : name ∈ seen
      · simp only [hmem, if_true]
        rw [ih hseen]
        constructor
        · exact fun h => h.imp_left Or.inr
        · rintro ((rfl | h) | h)
          · exact Or.inr (hseen _ hmem)
          · exact Or.inl h
          · exact Or.inr h
      · simp only [hmem, if_false]
        rw [ih, HashMap.mem_entryOr]
        · tauto
        · intro x hx
          rw [HashMap.mem_entryOr]
          rcases List.mem_cons.mp hx with rfl | hx
          · exact Or.inl rfl
          · exact Or.inr (hseen x hx)

/-- A name that is not a memory primitive is charged for each of its locations. -/
theorem at_chargeMemCum (memMgmt : String → Bool) (v : Int) (stats : Stats) :
    Stats.at (chargeMemCum locToName memMgmt v ids stats) f =
      if memMgmt f then stats.at f
      else ((namesOf locToName ids).filter (· = f)).foldl (fun e _ => e.addMemCum v)
        (stats.at f) := by
  induction ids generalizing stats with
  | nil =>
    rw [chargeMemCum]
    exact (ite_self _).symm
  | cons id ids ih =>
    rw [chargeMemCum]
    cases hname : locToName.lookup id with
    | none => rw [namesOf_cons_none hname, ih]
    | some name =>
      rw [namesOf_cons_some hname]
      by_cases hf : name = f
      · subst hf
        rw [List.filter_cons_of_pos (by simp), List.foldl_cons]
        by_cases hmem : memMgmt name
        · simp only [hmem, if_true]
          rw [ih, if_pos hmem]
        · simp only [hmem, Bool.false_eq_true, if_false]
          rw [ih, Stats.at_entryOr, if_pos rfl, if_neg hmem]
      · rw [List.filter_cons_of_neg (by simpa using hf)]
        by_cases hmem : memMgmt name
        · simp only [hmem, if_true]
          rw [ih]
        · simp only [hmem, Bool.false_eq_true, if_false]
          rw [ih, Stats.at_entryOr, if_neg (Ne.symm hf)]

theorem mem_chargeMemCum {memMgmt : String → Bool} {v : Int} {stats : Stats}
    (h : ∀ name ∈ namesOf locToName ids, name ∈ stats) :
    f ∈ chargeMemCum locToName memMgmt v ids stats ↔ f ∈ stats := by
  induction ids generalizing stats with
  | nil => rfl
  | cons id ids ih =>
    rw [chargeMemCum]
    cases hname : locToName.lookup id with
    | none => exact ih (namesOf_cons_none hname ▸ h)
    | some name =>
      rw [namesOf_cons_some hname, List.forall_mem_cons] at h
      by_cases hmem : memMgmt name
      · simp only [hmem, if_true]
        exact ih h.2
      · simp only [hmem, Bool.false_eq_true, if_false]
        rw [ih fun x hx => HashMap.mem_entryOr.mpr (Or.inr (h.2 x hx)), HashMap.mem_entryOr]
        constructor
        · rintro (rfl | hf)
          · exact h.1
          · exact hf
        · exact Or.inr

/-! ### What the accumulators hold -/

/-- The sum over the samples that satisfy `P`. -/
def sumWhere (P : Sample → Bool) (value : Sample → Int) (samples : List Sample) : Int :=
  ((samples.filter P).map value).sum

theorem wrap_sumWhere_concat (P : Sample → Bool) (value : Sample → Int) (samples : List Sample)
    (s : Sample) :
    wrap 64 (sumWhere P value (samples ++ [s])) =
      if P s then wrap 64 (wrap 64 (sumWhere P value samples) + value s)
      else wrap 64 (sumWhere P value samples) := by
  rw [sumWhere, List.filter_append, List.map_append, List.sum_append, wrap_add_left, ← sumWhere]
  by_cases hs : P s
  · rw [if_pos hs, List.filter_cons_of_pos hs, List.filter_nil, List.map_singleton,
      List.sum_singleton]
  · rw [if_neg hs, List.filter_cons_of_neg hs, List.filter_nil, List.map_nil, List.sum_nil,
      add_zero]

section

variable (compile : String → Option (String → Bool)) (memMgmt : String → Bool) (p : Profile)

/-- The names of the locations of a sample. -/
def stackNames (s : Sample) : List String := namesOf (resolveTopLines p) s.locationId

def leafIsMem (s : Sample) : Bool := !(valueAxis p).isHeap && memMgmt (leafOf compile p s)

/-- The samples charged to `f`. -/
def selfOf (f : String) : List Sample → Int :=
  sumWhere (leafOf compile p · = f) (valueOf (valueAxis p))

def self2Of (f : String) : List Sample → Int :=
  sumWhere (leafOf compile p · = f) (value2Of (valueAxis p))

/-- The samples that run through `f`. -/
def cumOf (f : String) : List Sample → Int := sumWhere (f ∈ stackNames p ·) (valueOf (valueAxis p))

def memOf : List Sample → Int := sumWhere (leafIsMem compile memMgmt p) (valueOf (valueAxis p))

/-- A caller of memory primitives, once for each of its locations. -/
def memCumOf (f : String) : List Sample → Int :=
  sumWhere (fun s => leafIsMem compile memMgmt p s && !memMgmt f)
    fun s => (stackNames p s).count f * valueOf (valueAxis p) s

def totalOf : List Sample → Int := sumWhere (fun _ => true) (valueOf (valueAxis p))

def total2Of : List Sample → Int := sumWhere (fun _ => true) (value2Of (valueAxis p))

structure Books (samples : List Sample) (acc : Summary) : Prop where
  axis : acc.axis = valueAxis p
  total : acc.total = wrap 64 (totalOf p samples)
  total2 : acc.total2 = wrap 64 (total2Of p samples)
  memMgmtTotal : acc.memMgmtTotal = wrap 64 (memOf compile memMgmt p samples)
  mem_stats : ∀ f, f ∈ acc.stats ↔ ∃ s ∈ samples, f = leafOf compile p s ∨ f ∈ stackNames p s
  at_stats : ∀ f, acc.stats.at f = ⟨wrap 64 (selfOf compile p f samples),
    wrap 64 (cumOf p f samples), wrap 64 (memCumOf compile memMgmt p f samples),
    wrap 64 (self2Of compile p f samples)⟩

end

variable {compile : String → Option (String → Bool)} {memMgmt : String → Bool} {p : Profile}

theorem foldl_addMemCum (v x : Int) (names : List String) (e : FuncStats)
    (h : e.memCum = wrap 64 x) :
    names.foldl (fun e _ => e.addMemCum v) e =
      { e with memCum := wrap 64 (x + names.length * v) } := by
  induction names generalizing e x with
  | nil => rw [List.foldl_nil, List.length_nil, Nat.cast_zero, zero_mul, add_zero, ← h]
  | cons name names ih =>
    have hadd : (e.addMemCum v).memCum = wrap 64 (x + v) := by
      rw [FuncStats.addMemCum, h, wrap_add_left]
    rw [List.foldl_cons, ih (x + v) _ hadd, FuncStats.addMemCum, List.length_cons]
    congr 2
    push_cast
    ring

/-- What a sample adds to each function. -/
theorem at_addSample {acc : Summary} (haxis : acc.axis = valueAxis p) (s : Sample) {f : String}
    {x : Int} (hmem : (acc.stats.at f).memCum = wrap 64 x) :
    (addSample compile memMgmt p acc s).stats.at f =
      let e := acc.stats.at f
      let e := if leafOf compile p s = f then
        e.addSelf (valueOf (valueAxis p) s) (value2Of (valueAxis p) s) else e
      let e := if f ∈ stackNames p s then e.addCum (valueOf (valueAxis p) s) else e
      if leafIsMem compile memMgmt p s && !memMgmt f then
        { e with memCum := wrap 64 (x + (stackNames p s).count f * valueOf (valueAxis p) s) }
      else e := by
  -- what each of the three charges of a sample does to the entry of `f`
  have hbefore : ∀ stats : Stats, (stats.at f).memCum = wrap 64 x →
      Stats.at (chargeMemCum (resolveTopLines p) memMgmt (valueOf (valueAxis p) s) s.locationId
        stats) f = if memMgmt f then stats.at f else { stats.at f with
          memCum := wrap 64 (x + (stackNames p s).count f * valueOf (valueAxis p) s) } := by
    intro stats hstats
    rw [at_chargeMemCum, foldl_addMemCum _ _ _ _ hstats, ← List.countP_eq_length_filter, stackNames,
      List.count_eq_countP]
    rfl
  have hcum : ∀ stats : Stats,
      Stats.at (chargeCum (resolveTopLines p) (valueOf (valueAxis p) s) [] s.locationId stats) f =
        if f ∈ stackNames p s then (stats.at f).addCum (valueOf (valueAxis p) s) else stats.at f := by
    intro stats
    rw [at_chargeCum]
    exact if_congr (and_iff_left List.not_mem_nil) rfl rfl
  have hself : Stats.at (acc.stats.entryOr (leafOf compile p s) .zero
      (·.addSelf (valueOf (valueAxis p) s) (value2Of (valueAxis p) s))) f =
        if leafOf compile p s = f then
          (acc.stats.at f).addSelf (valueOf (valueAxis p) s) (value2Of (valueAxis p) s)
        else acc.stats.at f := by
    rw [Stats.at_entryOr]
    exact if_congr eq_comm rfl rfl
  -- the first two charges leave `memCum` alone
  have hkeep : ∀ e : FuncStats, e.memCum = wrap 64 x → ∀ v v2 : Int, ∀ P Q : Prop,
      ∀ [Decidable P] [Decidable Q],
      (if Q then (if P then e.addSelf v v2 else e).addCum v else if P then e.addSelf v v2 else e).memCum =
        wrap 64 x := by
    intro e he v v2 P Q _ _
    split
    · split
      · exact he
      · exact he
    · split
      · exact he
      · exact he
  simp only [addSample, haxis]
  by_cases hleaf : leafIsMem compile memMgmt p s
  · rw [leafIsMem] at hleaf
    simp only [leafIsMem, hleaf, if_true, Bool.true_and]
    rw [hbefore, hcum, hself]
    · by_cases hf : memMgmt f
      · simp only [hf, if_true, Bool.not_true, Bool.false_eq_true, if_false]
      · simp only [hf, Bool.not_false, if_true, Bool.false_eq_true, if_false]
    · rw [hcum, hself]
      exact hkeep _ hmem _ _ _ _
  · rw [leafIsMem] at hleaf
    simp only [leafIsMem, hleaf, Bool.false_eq_true, if_false, Bool.false_and]
    rw [hcum, hself]

theorem mem_addSample {acc : Summary} (s : Sample) {f : String} :
    f ∈ (addSample compile memMgmt p acc s).stats ↔
      f = leafOf compile p s ∨ f ∈ stackNames p s ∨ f ∈ acc.stats := by
  have hcum : ∀ x, x ∈ chargeCum (resolveTopLines p) (valueOf acc.axis s) [] s.locationId
      (acc.stats.entryOr (leafOf compile p s) .zero
        (·.addSelf (valueOf acc.axis s) (value2Of acc.axis s))) ↔
      x ∈ stackNames p s ∨ x = leafOf compile p s ∨ x ∈ acc.stats := by
    intro x
    rw [mem_chargeCum (fun _ h => absurd h List.not_mem_nil), HashMap.mem_entryOr]
    rfl
  simp only [addSample]
  split
  · rw [mem_chargeMemCum fun name hname => (hcum name).mpr (Or.inl hname), hcum, or_left_comm]
  · rw [hcum, or_left_comm]

theorem books_addSample {samples : List Sample} {acc : Summary}
    (h : Books compile memMgmt p samples acc) (s : Sample) :
    Books compile memMgmt p (samples ++ [s]) (addSample compile memMgmt p acc s) where
  axis := h.axis
  total := by
    rw [totalOf, wrap_sumWhere_concat, if_pos rfl, ← totalOf, ← h.total, ← h.axis]
    rfl
  total2 := by
    rw [total2Of, wrap_sumWhere_concat, if_pos rfl, ← total2Of, ← h.total2, ← h.axis]
    rfl
  memMgmtTotal := by
    rw [memOf, wrap_sumWhere_concat, ← memOf, ← h.memMgmtTotal, leafIsMem, ← h.axis]
    rfl
  mem_stats := by
    intro f
    rw [mem_addSample, h.mem_stats]
    simp only [List.mem_append, List.mem_singleton]
    constructor
    · rintro (hf | hf | ⟨x, hx, hf⟩)
      · exact ⟨s, Or.inr rfl, Or.inl hf⟩
      · exact ⟨s, Or.inr rfl, Or.inr hf⟩
      · exact ⟨x, Or.inl hx, hf⟩
    · rintro ⟨x, hx | rfl, hf⟩
      · exact Or.inr (Or.inr ⟨x, hx, hf⟩)
      · rcases hf with hf | hf
        · exact Or.inl hf
        · exact Or.inr (Or.inl hf)
  at_stats := by
    intro f
    have hat := h.at_stats f
    rw [at_addSample h.axis s (congrArg FuncStats.memCum hat), hat]
    simp only [selfOf, cumOf, memCumOf, self2Of, wrap_sumWhere_concat, decide_eq_true_eq,
      wrap_add_left]
    -- the leaf, the stack and the memory charge are independent of each other
    split <;> split <;> split <;> simp only [FuncStats.addSelf, FuncStats.addCum, wrap_add_left]

/-- At the end of the loop the accumulators hold the sums over all samples. -/
theorem computeSummary_books (compile : String → Option (String → Bool)) (memMgmt : String → Bool)
    (p : Profile) : Books compile memMgmt p p.sample (computeSummary compile memMgmt p) := by
  have hrun : ∀ samples : List Sample, Books compile memMgmt p samples
      (samples.foldl (addSample compile memMgmt p) ⟨0, 0, 0, p.sample.length, ∅, valueAxis p⟩) := by
    intro samples
    induction samples using List.reverseRecOn with
    | nil =>
      refine ⟨rfl, rfl, rfl, rfl, fun f => ?_, fun f => rfl⟩
      exact ⟨fun hf => absurd hf (AList.notMem_empty f),
        fun ⟨_, hs, _⟩ => absurd hs List.not_mem_nil⟩
    | append_singleton samples s ih =>
      rw [List.foldl_append, List.foldl_cons, List.foldl_nil]
      exact books_addSample ih s
  exact hrun p.sample

end CmdSummary
