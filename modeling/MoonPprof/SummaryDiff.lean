/-
What a diff of two profiles compares.

`runDiff` lets two profiles through when both are heap profiles or neither is,
and prints their numbers on the axis of the first one.  `LikeAxes` says that the
columns it reads measure the same quantity in the same unit.

* `valueAxis_heap`, `valueAxis_time` — the axis and its column in terms of the
  sample types;
* `kindOf_inj` — the kind of a time axis tells its unit;
* `runDiff_like_iff` — the diff is refused, or compares like with like, exactly
  when the sample types of the two profiles agree.
-/
import MoonPprof.SummaryBooks

open MachineInt Proto

namespace CmdSummary

/-! ### Sample types -/

def spaceNames : List String := ["alloc_space", "inuse_space", "space"]

def objectNames : List String := ["alloc_objects", "inuse_objects", "objects"]

/-- Some sample type has one of the names. -/
def HasType (p : Profile) (names : List String) : Prop :=
  ∃ st ∈ p.sampleType, stringAt p st.type ∈ names

instance (p : Profile) (names : List String) : Decidable (HasType p names) :=
  inferInstanceAs (Decidable (∃ st ∈ p.sampleType, stringAt p st.type ∈ names))

def IsHeap (p : Profile) : Prop := HasType p spaceNames ∨ HasType p objectNames

/-- The unit of the first column with one of the names. -/
def unitOf (p : Profile) (names : List String) : Option String :=
  (p.sampleType.find? (stringAt p ·.type ∈ names)).map fun st => stringAt p st.unit

/-- The units that a time axis may have. -/
def timeUnits : List String := ["nanoseconds", "microseconds", "milliseconds", "count"]

/-- The unit of a sample type of computing or waiting, if it is one of them. -/
def knownUnit (p : Profile) (st : ValueType) : Option String :=
  if isTimeSampleType (stringAt p st.type) ∧ stringAt p st.unit ∈ timeUnits then
    some (stringAt p st.unit)
  else none

/-- The first of these units. -/
def timeUnit (p : Profile) : Option String := p.sampleType.findSome? (knownUnit p)

/-- The kind of the axis with this unit. -/
def kindOf (unit : Option String) : AxisKind :=
  match unit with
  | some "nanoseconds" => .time 1000000 "ms"
  | some "microseconds" => .time 1000 "ms"
  | some "milliseconds" => .time 1 "ms"
  | some "count" => .count "samples"
  | _ => .count "units"

/-- What the numbers of a column are about. -/
inductive Quantity where
  | space
  | objects
  | time
  | other (type : String)
deriving DecidableEq

def quantityOf (type : String) : Quantity :=
  if type ∈ spaceNames then .space
  else if type ∈ objectNames then .objects
  else if isTimeSampleType type then .time
  else .other type

/-- A quantity in a unit. -/
structure Measure where
  quantity : Quantity
  unit : String
deriving DecidableEq

def measureOf (p : Profile) (st : ValueType) : Measure :=
  ⟨quantityOf (stringAt p st.type), stringAt p st.unit⟩

/-- What column `i` measures; behind the last column there is nothing. -/
def measureAt (p : Profile) (i : Nat) : Option Measure := p.sampleType[i]?.map (measureOf p)

variable {p : Profile}

theorem isSome_findIdx?_iff (names : List String) :
    (p.sampleType.findIdx? (stringAt p ·.type ∈ names)).isSome ↔ HasType p names := by
  rw [List.findIdx?_isSome, List.any_eq_true]
  simp only [decide_eq_true_eq]
  rfl

theorem hasType_of_findIdx? {names : List String} {i : Nat}
    (h : p.sampleType.findIdx? (stringAt p ·.type ∈ names) = some i) : HasType p names := by
  rw [← isSome_findIdx?_iff, h]
  rfl

theorem not_hasType_of_findIdx? {names : List String}
    (h : p.sampleType.findIdx? (stringAt p ·.type ∈ names) = none) : ¬ HasType p names := by
  rw [← isSome_findIdx?_iff, h]
  exact Bool.false_ne_true

theorem isSome_unitOf_iff (names : List String) : (unitOf p names).isSome ↔ HasType p names := by
  rw [unitOf, Option.isSome_map, List.find?_isSome]
  simp only [decide_eq_true_eq]
  rfl

theorem unitOf_eq_none (names : List String) : unitOf p names = none ↔ ¬ HasType p names := by
  rw [← isSome_unitOf_iff, Option.not_isSome_iff_eq_none]

theorem quantityOf_space {type : String} (h : type ∈ spaceNames) : quantityOf type = .space :=
  if_pos h

theorem quantityOf_objects {type : String} (h : type ∈ objectNames) :
    quantityOf type = .objects := by
  have hno : type ∉ spaceNames := by
    simp only [objectNames, List.mem_cons, List.not_mem_nil, or_false] at h
    rcases h with rfl | rfl | rfl <;> decide
  rw [quantityOf, if_neg hno, if_pos h]

theorem quantityOf_time {type : String} (h : isTimeSampleType type) :
    quantityOf type = .time := by
  have hno : type ∉ spaceNames ∧ type ∉ objectNames := by
    simp only [isTimeSampleType, List.mem_cons, List.not_mem_nil, or_false, decide_eq_true_eq] at h
    rcases h with rfl | rfl | rfl | rfl | rfl | rfl | rfl | rfl <;> decide
  rw [quantityOf, if_neg hno.1, if_neg hno.2, if_pos h]

/-- The first column with one of the names measures their quantity. -/
theorem measureAt_findIdx? {names : List String} {q : Quantity}
    (hq : ∀ type ∈ names, quantityOf type = q) {i : Nat}
    (h : p.sampleType.findIdx? (stringAt p ·.type ∈ names) = some i) :
    measureAt p i = (unitOf p names).map (⟨q, ·⟩) := by
  have hfind : p.sampleType[i]? = p.sampleType.find? (stringAt p ·.type ∈ names) := by
    rw [List.find?_eq_bind_findIdx?_getElem?, h, Option.bind_some]
  rw [measureAt, unitOf, hfind, Option.map_map]
  refine Option.map_congr fun st hst => ?_
  have hname : stringAt p st.type ∈ names := by simpa using List.find?_some hst
  rw [Function.comp_apply, measureOf, hq _ hname]

theorem mem_timeUnits {unit : String} (h : unit ∈ timeUnits) :
    unit = "nanoseconds" ∨ unit = "microseconds" ∨ unit = "milliseconds" ∨ unit = "count" := by
  simpa [timeUnits] using h

theorem timeUnit_mem {unit : String} (h : timeUnit p = some unit) : unit ∈ timeUnits := by
  obtain ⟨st, -, hst⟩ := List.exists_of_findSome?_eq_some h
  rw [knownUnit] at hst
  split at hst
  · rename_i hcond
    obtain rfl := Option.some.inj hst
    exact hcond.2
  · cases hst

/-- Different units make different kinds. -/
theorem kindOf_inj {unit unit' : Option String} (h : ∀ u, unit = some u → u ∈ timeUnits)
    (h' : ∀ u, unit' = some u → u ∈ timeUnits) : kindOf unit = kindOf unit' ↔ unit = unit' := by
  refine ⟨fun heq => ?_, fun heq => heq ▸ rfl⟩
  have hcases : ∀ {x : Option String}, (∀ u, x = some u → u ∈ timeUnits) → x = none ∨
      x = some "nanoseconds" ∨ x = some "microseconds" ∨ x = some "milliseconds" ∨
        x = some "count" := by
    intro x hx
    cases x with
    | none => exact .inl rfl
    | some u => simpa using mem_timeUnits (hx u rfl)
  rcases hcases h with rfl | rfl | rfl | rfl | rfl <;>
    rcases hcases h' with rfl | rfl | rfl | rfl | rfl <;>
    first
      | rfl
      | simp [kindOf] at heq

/-- The loop over the sample types stops at the first one in a known unit. -/
theorem timeAxis_cons (st : ValueType) (i : Nat) (l : List (ValueType × Nat)) :
    timeAxis p ((st, i) :: l) =
      match knownUnit p st with
      | some unit => some ⟨i, kindOf (some unit), none, false⟩
      | none => timeAxis p l := by
  rw [timeAxis, knownUnit]
  by_cases htime : isTimeSampleType (stringAt p st.type)
  · rw [if_pos htime]
    split
    · rename_i hunit
      rw [hunit, if_pos ⟨htime, by decide⟩]
      rfl
    · rename_i hunit
      rw [hunit, if_pos ⟨htime, by decide⟩]
      rfl
    · rename_i hunit
      rw [hunit, if_pos ⟨htime, by decide⟩]
      rfl
    · rename_i hunit
      rw [hunit, if_pos ⟨htime, by decide⟩]
      rfl
    -- the loop goes on behind a time axis whose unit it does not know
    · rename_i hns hus hms hcount
      rw [if_neg fun h => by
        rcases mem_timeUnits h.2 with hunit | hunit | hunit | hunit
        · exact hns hunit
        · exact hus hunit
        · exact hms hunit
        · exact hcount hunit]
  · rw [if_neg htime, if_neg fun h => htime h.1]

theorem timeAxis_spec (l : List (ValueType × Nat)) :
    let axis := (timeAxis p l).getD ⟨0, .count "units", none, false⟩
    axis.kind = kindOf ((l.map Prod.fst).findSome? (knownUnit p)) ∧ axis.secondaryIdx = none ∧
      axis.isHeap = false := by
  induction l with
  | nil => exact ⟨rfl, rfl, rfl⟩
  | cons x l ih =>
    rw [timeAxis_cons, List.map_cons, List.findSome?_cons]
    cases knownUnit p x.1 with
    | some unit => exact ⟨rfl, rfl, rfl⟩
    | none => exact ih

theorem measureOf_knownUnit {st : ValueType} {unit : String} (h : knownUnit p st = some unit) :
    measureOf p st = ⟨.time, unit⟩ := by
  rw [knownUnit] at h
  split at h
  · rename_i hcond
    rw [measureOf, quantityOf_time hcond.1, Option.some.inj h]
  · cases h

/-- The column of a time axis: the first one in a known unit, or else the first of all. -/
def timeMeasure (p : Profile) : Option Measure :=
  match timeUnit p with
  | some unit => some ⟨.time, unit⟩
  | none => p.sampleType.head?.map (measureOf p)

theorem measureAt_timeAxis (l : List (ValueType × Nat))
    (hl : ∀ x ∈ l, p.sampleType[x.2]? = some x.1) :
    measureAt p ((timeAxis p l).getD ⟨0, .count "units", none, false⟩).idx =
      match (l.map Prod.fst).findSome? (knownUnit p) with
      | some unit => some ⟨.time, unit⟩
      | none => p.sampleType.head?.map (measureOf p) := by
  induction l with
  | nil => rw [measureAt, List.head?_eq_getElem?]; rfl
  | cons x l ih =>
    obtain ⟨hx, hl⟩ := List.forall_mem_cons.mp hl
    rw [timeAxis_cons, List.map_cons, List.findSome?_cons]
    cases hunit : knownUnit p x.1 with
    | some unit =>
      dsimp only [Option.getD_some]
      rw [measureAt, hx, Option.map_some, measureOf_knownUnit hunit]
    | none => exact ih hl

/-! ### The axis -/

theorem valueAxis_eq (p : Profile) : valueAxis p =
    match p.sampleType.findIdx? (stringAt p ·.type ∈ spaceNames),
      p.sampleType.findIdx? (stringAt p ·.type ∈ objectNames) with
    | some idx, _ =>
      ⟨idx, .bytes, p.sampleType.findIdx? (stringAt p ·.type ∈ objectNames), true⟩
    | none, some idx => ⟨idx, .count "allocs", none, true⟩
    | none, none =>
      (timeAxis p p.sampleType.zipIdx).getD ⟨0, .count "units", none, false⟩ := rfl

/-- The axis of a heap profile. -/
theorem valueAxis_heap (h : IsHeap p) : (valueAxis p).isHeap = true ∧
    (valueAxis p).kind = (if HasType p spaceNames then .bytes else .count "allocs") ∧
    measureAt p (valueAxis p).idx = (if HasType p spaceNames then
      (unitOf p spaceNames).map (⟨.space, ·⟩) else (unitOf p objectNames).map (⟨.objects, ·⟩)) ∧
    ((valueAxis p).secondaryIdx.isSome ↔ HasType p spaceNames ∧ HasType p objectNames) ∧
    ∀ i, (valueAxis p).secondaryIdx = some i →
      measureAt p i = (unitOf p objectNames).map (⟨.objects, ·⟩) := by
  have hobjectsAt : ∀ {i}, p.sampleType.findIdx? (stringAt p ·.type ∈ objectNames) = some i →
      measureAt p i = (unitOf p objectNames).map (⟨.objects, ·⟩) :=
    fun h => measureAt_findIdx? (fun _ h => quantityOf_objects h) h
  rw [valueAxis_eq]
  rcases hspace : p.sampleType.findIdx? (stringAt p ·.type ∈ spaceNames) with _ | idx
  · have hno := not_hasType_of_findIdx? hspace
    rcases hobjects : p.sampleType.findIdx? (stringAt p ·.type ∈ objectNames) with _ | idx
    · exact absurd h (not_or.mpr ⟨hno, not_hasType_of_findIdx? hobjects⟩)
    · simp only [hspace, hobjects]
      refine ⟨trivial, (if_neg hno).symm, ?_, iff_of_false Bool.false_ne_true fun h => hno h.1, ?_⟩
      · rw [if_neg hno, hobjectsAt hobjects]
      · intro i hi
        cases hi
  · have hyes := hasType_of_findIdx? hspace
    simp only [hspace]
    refine ⟨trivial, (if_pos hyes).symm, ?_, ?_, fun i hi => hobjectsAt hi⟩
    · rw [if_pos hyes, measureAt_findIdx? (fun _ h => quantityOf_space h) hspace]
    · rw [and_iff_right hyes, isSome_findIdx?_iff]

/-- The axis of any other profile. -/
theorem valueAxis_time (h : ¬ IsHeap p) : (valueAxis p).isHeap = false ∧
    (valueAxis p).kind = kindOf (timeUnit p) ∧
    measureAt p (valueAxis p).idx = timeMeasure p ∧ (valueAxis p).secondaryIdx = none := by
  have hnone : ∀ names, ¬ HasType p names →
      p.sampleType.findIdx? (stringAt p ·.type ∈ names) = none := by
    intro names hno
    rwa [← isSome_findIdx?_iff, Option.not_isSome_iff_eq_none] at hno
  obtain ⟨hspace, hobjects⟩ := not_or.mp h
  rw [valueAxis_eq, hnone _ hspace, hnone _ hobjects]
  obtain ⟨hkind, hsecondary, hheap⟩ := timeAxis_spec (p := p) p.sampleType.zipIdx
  have hmeasure := measureAt_timeAxis (p := p) p.sampleType.zipIdx fun x hx =>
    List.mem_zipIdx_iff_getElem?.mp hx
  rw [List.zipIdx_map_fst] at hkind hmeasure
  exact ⟨hheap, hkind, hmeasure, hsecondary⟩

/-! ### The diff -/

/-- The two axes are of one kind and scale, their columns measure the same quantity in the same
unit, and so do the columns of the allocations, which are not compared with nothing. -/
structure LikeAxes (base patched : Profile) : Prop where
  kind : (valueAxis base).kind = (valueAxis patched).kind
  measure : measureAt base (valueAxis base).idx = measureAt patched (valueAxis patched).idx
  allocations : ∀ i, (valueAxis base).secondaryIdx = some i →
    ∃ j, (valueAxis patched).secondaryIdx = some j ∧ measureAt base i = measureAt patched j

theorem map_measure_inj {q : Quantity} {unit unit' : Option String} :
    unit.map (Measure.mk q) = unit'.map (Measure.mk q) ↔ unit = unit' :=
  (Option.map_injective fun _ _ h => congrArg Measure.unit h).eq_iff

theorem likeAxes_heap {base patched : Profile} (hbase : IsHeap base) (hpatched : IsHeap patched) :
    LikeAxes base patched ↔ unitOf base spaceNames = unitOf patched spaceNames ∧
      (HasType base objectNames → unitOf base objectNames = unitOf patched objectNames) := by
  obtain ⟨-, hkind, hmeasure, hsome, hobjects⟩ := valueAxis_heap hbase
  obtain ⟨-, hkind', hmeasure', hsome', hobjects'⟩ := valueAxis_heap hpatched
  constructor
  · rintro ⟨hsame, hmain, halloc⟩
    rw [hkind, hkind'] at hsame
    rw [hmeasure, hmeasure'] at hmain
    have hspace : HasType base spaceNames ↔ HasType patched spaceNames := by
      by_cases hs : HasType base spaceNames <;> by_cases hs' : HasType patched spaceNames <;>
        simp [hs, hs'] at hsame ⊢
    by_cases hs : HasType base spaceNames
    · rw [if_pos hs, if_pos (hspace.mp hs), map_measure_inj] at hmain
      refine ⟨hmain, fun ho => ?_⟩
      obtain ⟨i, hi⟩ := Option.isSome_iff_exists.mp (hsome.mpr ⟨hs, ho⟩)
      obtain ⟨j, hj, hsame⟩ := halloc i hi
      rwa [hobjects i hi, hobjects' j hj, map_measure_inj] at hsame
    · have hs' := mt hspace.mpr hs
      rw [if_neg hs, if_neg hs', map_measure_inj] at hmain
      exact ⟨by rw [(unitOf_eq_none _).mpr hs, (unitOf_eq_none _).mpr hs'], fun _ => hmain⟩
  · rintro ⟨hunit, hobjectsUnit⟩
    have hspace : HasType base spaceNames ↔ HasType patched spaceNames := by
      rw [← isSome_unitOf_iff, ← isSome_unitOf_iff, hunit]
    refine ⟨?_, ?_, fun i hi => ?_⟩
    · rw [hkind, hkind']
      exact if_congr hspace rfl rfl
    · rw [hmeasure, hmeasure', hunit]
      by_cases hs : HasType base spaceNames
      · rw [if_pos hs, if_pos (hspace.mp hs)]
      · rw [if_neg hs, if_neg (mt hspace.mpr hs), hobjectsUnit (hbase.resolve_left hs)]
    · obtain ⟨hs, ho⟩ := hsome.mp (Option.isSome_of_eq_some hi)
      have ho' : HasType patched objectNames := by
        rwa [← isSome_unitOf_iff, ← hobjectsUnit ho, isSome_unitOf_iff]
      obtain ⟨j, hj⟩ := Option.isSome_iff_exists.mp (hsome'.mpr ⟨hspace.mp hs, ho'⟩)
      exact ⟨j, hj, by rw [hobjects i hi, hobjects' j hj, hobjectsUnit ho]⟩

theorem likeAxes_time {base patched : Profile} (hbase : ¬ IsHeap base)
    (hpatched : ¬ IsHeap patched) :
    LikeAxes base patched ↔ timeUnit base = timeUnit patched ∧ (timeUnit base = none →
      base.sampleType.head?.map (measureOf base) =
        patched.sampleType.head?.map (measureOf patched)) := by
  obtain ⟨-, hkind, hmeasure, hsecondary⟩ := valueAxis_time hbase
  obtain ⟨-, hkind', hmeasure', -⟩ := valueAxis_time hpatched
  have hinj := kindOf_inj (fun u hu => timeUnit_mem (p := base) hu)
    (fun u hu => timeUnit_mem (p := patched) hu)
  constructor
  · rintro ⟨hsame, hmain, -⟩
    rw [hkind, hkind', hinj] at hsame
    refine ⟨hsame, fun hnone => ?_⟩
    have hnone' := hsame.symm.trans hnone
    rwa [hmeasure, hmeasure', timeMeasure, timeMeasure, hnone, hnone'] at hmain
  · rintro ⟨hunit, hhead⟩
    refine ⟨by rw [hkind, hkind', hunit], ?_, fun i hi => ?_⟩
    · rw [hmeasure, hmeasure', timeMeasure, timeMeasure, ← hunit]
      cases hbase : timeUnit base with
      | some unit => rfl
      | none => exact hhead hbase
    · rw [hsecondary] at hi
      cases hi

section

variable (compile : String → Option (String → Bool)) (memMgmt : String → Bool)

theorem runDiff_error_iff (it : IterOrder String) (base patched : Profile) :
    (∃ e, runDiff compile memMgmt it base patched = .error e) ↔
      ¬ (IsHeap base ↔ IsHeap patched) := by
  have hheap : ∀ p, (computeSummary compile memMgmt p).axis.isHeap = true ↔ IsHeap p := by
    intro p
    rw [(computeSummary_books compile memMgmt p).axis]
    by_cases h : IsHeap p
    · exact iff_of_true (valueAxis_heap h).1 h
    · exact iff_of_false (by rw [(valueAxis_time h).1]; exact Bool.false_ne_true) h
  rw [← hheap base, ← hheap patched, ← Bool.eq_iff_iff, runDiff]
  split
  · rename_i hne
    exact iff_of_true ⟨_, rfl⟩ hne
  · rename_i heq
    exact iff_of_false (fun ⟨_, h⟩ => by cases h) heq

/-- A diff of two profiles is refused, or compares columns of one quantity and unit, exactly when
one of them is a heap profile and the other is not; or both are, with the same unit of space, if
any, and of objects, if the base has them; or neither is, and the first known unit of time is the
same in both, or there is none and the first columns measure the same. -/
theorem runDiff_like_iff (it : IterOrder String) (base patched : Profile) :
    ((∃ e, runDiff compile memMgmt it base patched = .error e) ∨ LikeAxes base patched) ↔
      (IsHeap base ↔ ¬ IsHeap patched) ∨
      (IsHeap base ∧ IsHeap patched ∧ unitOf base spaceNames = unitOf patched spaceNames ∧
        (HasType base objectNames → unitOf base objectNames = unitOf patched objectNames)) ∨
      (¬ IsHeap base ∧ ¬ IsHeap patched ∧ timeUnit base = timeUnit patched ∧
        (timeUnit base = none → base.sampleType.head?.map (measureOf base) =
          patched.sampleType.head?.map (measureOf patched))) := by
  rw [runDiff_error_iff]
  by_cases hbase : IsHeap base <;> by_cases hpatched : IsHeap patched
  · rw [likeAxes_heap hbase hpatched]
    simp [hbase, hpatched]
  · simp [hbase, hpatched]
  · simp [hbase, hpatched]
  · rw [likeAxes_time hbase hpatched]
    simp [hbase, hpatched]

end

/-- A profile of one function with one column. -/
def oneColumn (unit : String) : Profile :=
  { sampleType := [⟨1, 2⟩]
    sample := [⟨[1], [5000000], []⟩]
    mapping := []
    location := [⟨1, 0, 0, [⟨1, 0, 0⟩], false⟩]
    function := [⟨1, 3, 3, 0, 0⟩]
    stringTable := ["", "cpu", unit, "main"]
    dropFrames := 0, keepFrames := 0, timeNanos := 0, durationNanos := 0, periodType := none
    period := 0, comment := [], defaultSampleType := 0, docUrl := 0 }

/-- Nanoseconds are compared with a number of samples. -/
theorem runDiff_unlike :
    (∃ report, runDiff (fun _ => none) (· = "malloc") ⟨id, fun _ => .refl _⟩
      (oneColumn "nanoseconds") (oneColumn "count") = .ok report) ∧
    ¬ LikeAxes (oneColumn "nanoseconds") (oneColumn "count") := by
  refine ⟨⟨_, rfl⟩, fun h => ?_⟩
  exact absurd h.kind (by decide)

end CmdSummary
