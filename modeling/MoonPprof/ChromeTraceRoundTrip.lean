/-
pprof to Chrome trace and back.

* `sum_parts` — the parts a delta is split into add up to it;
* `convertSamples_spec` — the tree and the charges after the loop;
* `traceOf_traceJson` — the exported trace streams the recording they make;
* `exported_trace_converts_back` — so the import gives one sample for each
  distinct stack, with the counts and times of all samples on it.
-/
import MoonPprof.ChromeTraceStreams
import MoonPprof.StackTree
import Mathlib.Algebra.BigOperators.Ring.Finset

open MachineInt Proto V8

namespace ChromeTraceExport

/-! ### Values -/

theorem valueToUs_inRange {raw : Int} (h : InRange 64 raw) (unit : String) :
    InRange 64 (valueToUs raw unit) := by
  have hmax : ∀ us, InRange 64 us → InRange 64 (if raw > 0 then max us 1 else 0) := by
    intro us hus
    obtain ⟨hlo, hhi⟩ := hus
    split
    · exact ⟨by omega, by omega⟩
    · exact inRange_zero 64
  rw [valueToUs]
  refine hmax _ ?_
  split
  · exact tdiv_inRange (wrap_inRange (by omega) _) (by omega)
  · split
    · exact h
    · split
      · exact saturate_inRange 64 _
      · split
        · exact saturate_inRange 64 _
        · exact h

theorem valueToUs_pos {raw : Int} (h : 0 < raw) (unit : String) : 0 < valueToUs raw unit := by
  rw [valueToUs, if_pos h]
  omega

/-- The deltas of the V8 samples that stand for one sample. -/
def parts (deltaUs count : Int) : List Int :=
  (List.range count.toNat).map fun i : Nat =>
    deltaUs.tdiv count + if (i : Int) < deltaUs.tmod count then 1 else 0

theorem length_parts (deltaUs count : Int) : (parts deltaUs count).length = count.toNat := by
  rw [parts, List.length_map, List.length_range]

theorem sum_range_split (base remainder : Int) (h : 0 ≤ remainder) (n : Nat) :
    ((List.range n).map fun i : Nat => base + if (i : Int) < remainder then 1 else 0).sum =
      n * base + min (n : Int) remainder := by
  induction n with
  | zero => simp [h]
  | succ n ih =>
    rw [List.range_succ, List.map_append, List.sum_append, ih]
    simp only [List.map_cons, List.map_nil, List.sum_cons, List.sum_nil]
    push_cast
    rw [add_mul, one_mul]
    split <;> omega

theorem sum_parts {deltaUs count : Int} (hdelta : 0 ≤ deltaUs) (hcount : 0 < count) :
    (parts deltaUs count).sum = deltaUs := by
  have hnonneg : 0 ≤ deltaUs.tmod count := Int.tmod_nonneg _ hdelta
  have hlt : deltaUs.tmod count < count := Int.tmod_lt_of_pos _ hcount
  rw [parts, sum_range_split _ _ hnonneg]
  have htoNat : (count.toNat : Int) = count := by omega
  rw [htoNat, min_eq_right hlt.le, Int.mul_tdiv_add_tmod]

theorem parts_inRange {deltaUs count : Int} (hdelta : 0 ≤ deltaUs) (h : InRange 64 deltaUs)
    (hcount : 0 < count) : ∀ x ∈ parts deltaUs count, InRange 64 x := by
  intro x hx
  obtain ⟨i, -, rfl⟩ := List.mem_map.mp hx
  have hnonneg : 0 ≤ deltaUs.tmod count := Int.tmod_nonneg _ hdelta
  have hdiv := Int.mul_tdiv_add_tmod deltaUs count
  have hbase : 0 ≤ deltaUs.tdiv count := Int.tdiv_nonneg hdelta hcount.le
  have hmul : deltaUs.tdiv count ≤ count * deltaUs.tdiv count := by nlinarith
  obtain ⟨-, hhi⟩ := h
  constructor
  · split <;> omega
  · split <;> omega

/-! ### The loop over the samples -/

/-- A sample with a positive value and a stack is exported. -/
def isExported (axis : ValueAxis) (s : Sample) : Bool :=
  decide (0 < rawValue axis s) && !s.locationId.isEmpty

def exported (profile : Profile) (axis : ValueAxis) : List Sample :=
  profile.sample.filter (isExported axis)

def deltaUs (axis : ValueAxis) (s : Sample) : Int := valueToUs (rawValue axis s) axis.unit

/-- The number of V8 samples that are written for a sample. -/
def copies (countIndex : Option Nat) (expandSamples : Bool) (s : Sample) : Nat :=
  if expandSamples then (sampleCount countIndex s).toNat else 1

/-- The frames of all stacks, counted with repetition. -/
def stackSize (samples : List Sample) : Nat := (samples.map fun s => s.locationId.length).sum

section

variable (profile : Profile) (axis : ValueAxis) (countIndex : Option Nat)

/-- After the exported samples `done`: their stacks are in the tree, and each is
charged to its node as often as it counts. -/
structure Charged (done : List Sample) (st : State) (t : PrefixTable CallFrame) : Prop where
  tree : Represents st.builder t
  interned : ∀ s ∈ done, stackFrames profile s ∈ t.items
  only : ∀ p ∈ t.items, p = [] ∨ ∃ s ∈ done, p <+: stackFrames profile s
  size : t.items.length ≤ stackSize done + 1
  ids : st.sampleNodeIds = done.flatMap fun s =>
    List.replicate (sampleCount countIndex s).toNat (t.idOf (stackFrames profile s))
  deltas : st.timeDeltas = done.flatMap fun s => parts (deltaUs axis s) (sampleCount countIndex s)

theorem charged_new : Charged profile axis countIndex [] .new .empty where
  tree := represents_new
  interned := by intro s hs; cases hs
  only := by
    intro p hp
    exact Or.inl (List.mem_singleton.mp hp)
  size := Nat.le_refl _
  ids := rfl
  deltas := rfl

variable {profile axis countIndex}

theorem isExported_eq_false_of_nil {s : Sample} (h : (stackFrames profile s).isEmpty = true) :
    isExported axis s = false := by
  have hnil : s.locationId = [] := by simpa [stackFrames] using h
  simp [isExported, hnil]

/-- What a turn of the loop does: a sample that is not exported changes nothing,
an exported one adds its stack to the tree and its copies to the samples. -/
theorem convertSample_cases {expandSamples : Bool} {s : Sample} {st st' : State}
    (hs : convertSample profile axis countIndex expandSamples st s = .ok st') :
    (isExported axis s = false ∧ st' = st) ∨
      (isExported axis s = true ∧
        st' = ⟨(st.builder.internStack (stackFrames profile s)).2,
          st.sampleNodeIds ++ List.replicate (copies countIndex expandSamples s)
            (st.builder.internStack (stackFrames profile s)).1,
          st.timeDeltas ++ if expandSamples then parts (deltaUs axis s) (sampleCount countIndex s)
            else [deltaUs axis s]⟩) := by
  rw [convertSample] at hs
  simp only at hs
  split at hs
  · rename_i hraw
    exact Or.inl ⟨by simp [isExported, hraw], (Except.ok.inj hs).symm⟩
  · rename_i hraw
    split at hs
    · rename_i hempty
      exact Or.inl ⟨isExported_eq_false_of_nil hempty, (Except.ok.inj hs).symm⟩
    · rename_i hempty
      refine Or.inr ⟨?_, ?_⟩
      · have hne : s.locationId ≠ [] := by
          rintro hnil
          simp [stackFrames, hnil] at hempty
        simp [isExported, hne]
        omega
      · cases expandSamples with
        | false => exact (Except.ok.inj hs).symm
        | true =>
          simp only [if_true, pushExpandedSamples] at hs
          split at hs
          · cases hs
          · split at hs
            · cases hs
            · exact (Except.ok.inj hs).symm

theorem convertSample_spec {done : List Sample} {st : State} {t : PrefixTable CallFrame}
    (h : Charged profile axis countIndex done st t) {s : Sample} {st' : State}
    (hs : convertSample profile axis countIndex true st s = .ok st') :
    ∃ t', Charged profile axis countIndex
      (done ++ [s].filter (isExported axis)) st' t' := by
  have hframes : (stackFrames profile s).length = s.locationId.length := by
    rw [stackFrames, List.length_map, List.length_reverse]
  rcases convertSample_cases hs with ⟨hno, rfl⟩ | ⟨hyes, rfl⟩
  · rw [List.filter_cons_of_neg (by simp [hno]), List.filter_nil, List.append_nil]
    exact ⟨t, h⟩
  · obtain ⟨t', hpre, hmem, hid, hrep, hlen, honly⟩ :=
      internStack_spec h.tree (stackFrames profile s)
    rw [List.filter_cons_of_pos hyes, List.filter_nil]
    refine ⟨t', hrep, ?_, ?_, ?_, ?_, ?_⟩
    · intro x hx
      rcases List.mem_append.mp hx with hx | hx
      · exact hpre.subset (h.interned x hx)
      · rw [List.mem_singleton.mp hx]
        exact hmem
    · -- only prefixes of the new stack have been added
      intro p hp
      rcases honly p hp with hp | hp
      · rcases h.only p hp with hnil | ⟨x, hx, hpx⟩
        · exact Or.inl hnil
        · exact Or.inr ⟨x, List.mem_append_left _ hx, hpx⟩
      · exact Or.inr ⟨s, by simp, hp⟩
    · have hsize := h.size
      rw [stackSize, List.map_append, List.sum_append, ← stackSize, List.map_singleton,
        List.sum_singleton]
      omega
    · rw [List.flatMap_append, List.flatMap_singleton, ← hid]
      refine congrArg (· ++ _) (h.ids.trans ?_)
      refine List.flatMap_congr fun x hx => ?_
      rw [PrefixTable.idOf_of_isPrefix hpre (h.interned x hx)]
    · rw [List.flatMap_append, List.flatMap_singleton, ← h.deltas]
      rfl

/-- What every turn of the loop preserves that succeeds, as a property of the exported
samples so far and the state, holds after the loop. -/
theorem convertSamples_induct {expandSamples : Bool} {P : List Sample → State → Prop}
    (hstep : ∀ done st s st', P done st →
      convertSample profile axis countIndex expandSamples st s = .ok st' →
      P (done ++ [s].filter (isExported axis)) st')
    {samples done : List Sample} {st st' : State} (h : P done st)
    (hrun : samples.foldlM (convertSample profile axis countIndex expandSamples) st = .ok st') :
    P (done ++ samples.filter (isExported axis)) st' := by
  induction samples generalizing done st with
  | nil =>
    obtain rfl := Except.ok.inj hrun
    rwa [List.filter_nil, List.append_nil]
  | cons s samples ih =>
    obtain ⟨st₁, hs, hrest⟩ := foldlM_cons_eq_ok.mp hrun
    have hafter := ih (hstep done st s st₁ h hs) hrest
    rwa [List.append_assoc, ← List.filter_append, List.singleton_append] at hafter

theorem convertSamples_spec {samples done : List Sample} {st : State}
    {t : PrefixTable CallFrame} (h : Charged profile axis countIndex done st t) {st' : State}
    (hrun : samples.foldlM (convertSample profile axis countIndex true) st = .ok st') :
    ∃ t', Charged profile axis countIndex
      (done ++ samples.filter (isExported axis)) st' t' := by
  have hstep : ∀ done st s st', (∃ t, Charged profile axis countIndex done st t) →
      convertSample profile axis countIndex true st s = .ok st' →
      ∃ t, Charged profile axis countIndex (done ++ [s].filter (isExported axis)) st' t := by
    rintro done st s st' ⟨t, h⟩ hs
    exact convertSample_spec h hs
  exact convertSamples_induct hstep ⟨t, h⟩ hrun

theorem sampleCount_pos (countIndex : Option Nat) (s : Sample) : 0 < sampleCount countIndex s := by
  rw [sampleCount]
  omega

theorem copies_pos (countIndex : Option Nat) (expandSamples : Bool) (s : Sample) :
    0 < copies countIndex expandSamples s := by
  rw [copies]
  split
  · have := sampleCount_pos countIndex s
    omega
  · exact Nat.one_pos

/-! ### The recording -/

variable {done : List Sample} {st : State} {t : PrefixTable CallFrame}

theorem Charged.mem_ids (h : Charged profile axis countIndex done st t) {id : Int} :
    id ∈ st.sampleNodeIds ↔ ∃ s ∈ done, id = t.idOf (stackFrames profile s) := by
  rw [h.ids, List.mem_flatMap]
  refine exists_congr fun s => and_congr_right fun _ => ?_
  have hpos := sampleCount_pos countIndex s
  rw [List.mem_replicate]
  exact ⟨fun hid => hid.2, fun hid => ⟨by omega, hid⟩⟩

/-- What the exported trace records. -/
def Charged.recording (h : Charged profile axis countIndex done st t) : Recording where
  tree := callTree t
  samples := st.sampleNodeIds
  timeDeltas := st.timeDeltas
  sampled := by
    intro id hid
    obtain ⟨s, hs, rfl⟩ := h.mem_ids.mp hid
    exact List.mem_map.mpr ⟨treeNode t _, List.mem_map_of_mem (h.interned s hs), rfl⟩
  deltas := by
    rw [h.ids, h.deltas, List.length_flatMap, List.length_flatMap]
    simp only [length_parts, List.length_replicate]

/-- A node of the tree has the root's frame or one of an exported stack. -/
theorem Charged.frameAt_mem (h : Charged profile axis countIndex done st t) {p : List CallFrame}
    (hp : p ∈ t.items) : frameAt p = rootFrame ∨ ∃ s ∈ done, frameAt p ∈ stackFrames profile s := by
  rcases h.only p hp with rfl | ⟨s, hs, hprefix⟩
  · exact Or.inl rfl
  · rcases List.eq_nil_or_concat p with rfl | ⟨q, a, rfl⟩
    · exact Or.inl rfl
    · refine Or.inr ⟨s, hs, hprefix.subset ?_⟩
      simp [frameAt]

theorem Charged.idOf_inRange (h : Charged profile axis countIndex done st t)
    (hsize : stackSize done + 1 < 2 ^ 63) {p : List CallFrame} (hp : p ∈ t.items) :
    InRange 64 (t.idOf p) := by
  obtain ⟨i, hi, hid⟩ := PrefixTable.exists_get hp
  have hlt : i < t.items.length := (List.getElem?_eq_some_iff.mp hi).1
  have hlen := h.size
  rw [hid]
  constructor <;> omega

/-! ### The trace -/

/-- The numbers of a frame fit the importer's fields, and its strings are free
of the importer's separator. -/
structure FrameFits (f : CallFrame) : Prop where
  lineNumber : InRange 32 f.lineNumber
  columnNumber : InRange 32 f.columnNumber
  functionName : '\u001f' ∉ f.functionName.toList
  url : '\u001f' ∉ f.url.toList

instance (f : CallFrame) : Decidable (FrameFits f) :=
  decidable_of_iff (InRange 32 f.lineNumber ∧ InRange 32 f.columnNumber ∧
    '\u001f' ∉ f.functionName.toList ∧ '\u001f' ∉ f.url.toList)
    ⟨fun ⟨hl, hc, hn, hu⟩ => ⟨hl, hc, hn, hu⟩, fun ⟨hl, hc, hn, hu⟩ => ⟨hl, hc, hn, hu⟩⟩

theorem frameFits_root : FrameFits rootFrame := by decide

theorem FrameFits.frameJson {f : CallFrame} (h : FrameFits f) :
    ChromeTrace.FrameJson f.toJson f.toV8 :=
  ⟨rfl, Or.inl rfl, Or.inl rfl, Or.inl rfl, ⟨Or.inl rfl, h.lineNumber⟩,
    ⟨Or.inl rfl, h.columnNumber⟩⟩

theorem nodeJson_toJson {n : Node} (hid : InRange 64 n.id) (hframe : FrameFits n.callFrame)
    (hchildren : ∀ x ∈ n.children, InRange 64 x) : ChromeTrace.NodeJson n.toJson n.toRaw where
  object := rfl
  id := by
    refine ⟨?_, hid⟩
    rw [Node.toJson]
    rcases n.children with _ | ⟨x, xs⟩
    · rfl
    · rfl
  callFrame := ⟨_, rfl, hframe.frameJson⟩
  children := by
    refine ⟨?_, hchildren⟩
    show Value.Says n.toJson "children" Value.ints n.children []
    rw [Node.toJson]
    rcases n.children with _ | ⟨x, xs⟩
    · exact Or.inr ⟨rfl, rfl⟩
    · exact Or.inl rfl
  parent := by
    refine ⟨?_, by intro q hq; cases hq⟩
    rw [Node.toJson]
    rcases n.children with _ | ⟨x, xs⟩
    · rfl
    · rfl

/-- The stream of the exported trace. -/
def Charged.stream (h : Charged profile axis countIndex done st t) (display : Value → String)
    (opts : ConvertOptions) (ts endTime : Int) : ChromeTrace.Stream where
  key := ChromeTrace.renderKey display
    (profileChunkEvent opts ts ⟨st.builder.nodes, st.sampleNodeIds, st.timeDeltas, ts, endTime⟩)
  recording := h.recording
  chunks := [⟨ts, st.builder.nodes.map Node.toRaw, st.sampleNodeIds, st.timeDeltas⟩]
  cut := h.tree.cut ts rfl

/-- Everything in the exported trace is in the range of its JSON fields. -/
structure Fits (st : State) : Prop where
  nodes : ∀ n ∈ st.builder.nodes, InRange 64 n.id ∧ FrameFits n.callFrame ∧
    ∀ x ∈ n.children, InRange 64 x
  ids : ∀ x ∈ st.sampleNodeIds, InRange 64 x
  deltas : ∀ x ∈ st.timeDeltas, InRange 64 x

theorem Charged.fits (h : Charged profile axis countIndex done st t)
    (hsize : stackSize done + 1 < 2 ^ 63)
    (hframes : ∀ s ∈ done, ∀ f ∈ stackFrames profile s, FrameFits f)
    (hvalues : ∀ s ∈ done, 0 < rawValue axis s ∧ InRange 64 (rawValue axis s)) : Fits st where
  nodes := by
    intro n hn
    obtain ⟨i, hi⟩ := List.mem_iff_getElem?.mp hn
    obtain ⟨p, hp, hid, hframe, hchildren⟩ := h.tree.node i n hi
    have hmem := List.mem_of_getElem? hp
    refine ⟨?_, ?_, fun x hx => ?_⟩
    · rw [hid, ← PrefixTable.idOf_of_get hp]
      exact h.idOf_inRange hsize hmem
    · rw [hframe]
      rcases h.frameAt_mem hmem with hroot | ⟨s, hs, hin⟩
      · rw [hroot]
        exact frameFits_root
      · exact hframes s hs _ hin
    · obtain ⟨a, ha, rfl⟩ := (hchildren x).mp hx
      exact h.idOf_inRange hsize ha
  ids := by
    intro x hx
    obtain ⟨s, hs, rfl⟩ := h.mem_ids.mp hx
    exact h.idOf_inRange hsize (h.interned s hs)
  deltas := by
    intro x hx
    rw [h.deltas] at hx
    obtain ⟨s, hs, hx⟩ := List.mem_flatMap.mp hx
    obtain ⟨hpos, hraw⟩ := hvalues s hs
    exact parts_inRange (valueToUs_pos hpos _).le (valueToUs_inRange hraw _)
      (sampleCount_pos countIndex s) x hx

theorem otherJson_metadata (pid tid ts : Int) {name : String}
    (hname : name ∉ ["Profile", "ProfileChunk"]) (value : String) :
    ChromeTrace.OtherJson (metadataEvent pid tid ts name value) :=
  ⟨rfl, Or.inr ⟨_, rfl, Or.inl hname⟩⟩

/-- The header carries a start time only. -/
theorem otherJson_profile (opts : ConvertOptions) (ts : Int) :
    ChromeTrace.OtherJson (profileEvent opts ts) := by
  refine ⟨rfl, Or.inr ⟨_, rfl, Or.inr fun data hdata => ?_⟩⟩
  cases hdata with
  | nested hargs hdata =>
    cases hargs
    cases hdata
    exact ⟨⟨rfl, rfl⟩, Or.inr ⟨rfl, rfl⟩, by simp⟩
  | flat hargs _ hdata =>
    cases hargs
    cases hdata

theorem carriedJson_chunk (hfits : Fits st) (hsamples : st.sampleNodeIds ≠ [])
    (hdeltas : st.timeDeltas ≠ []) (opts : ConvertOptions) (ts endTime : Int) :
    ChromeTrace.CarriedJson
      (profileChunkEvent opts ts ⟨st.builder.nodes, st.sampleNodeIds, st.timeDeltas, ts, endTime⟩)
      ⟨ts, st.builder.nodes.map Node.toRaw, st.sampleNodeIds, st.timeDeltas⟩ := by
  refine ⟨_, _, .nested rfl rfl, .nested rfl, rfl, Or.inl ⟨_, rfl, ?_⟩,
    ⟨_, [], ⟨Or.inl rfl, hfits.ids⟩, ⟨Or.inr ⟨rfl, rfl⟩, by simp⟩, Or.inl ⟨rfl, hsamples⟩⟩,
    ⟨_, [], ⟨Or.inl rfl, hfits.deltas⟩, ⟨Or.inr ⟨rfl, rfl⟩, by simp⟩, Or.inl ⟨rfl, hdeltas⟩⟩⟩
  rw [List.forall₂_map_left_iff, List.forall₂_map_right_iff]
  refine List.forall₂_same.mpr fun n hn => ?_
  obtain ⟨hid, hframe, hchildren⟩ := hfits.nodes n hn
  exact nodeJson_toJson hid hframe hchildren

theorem Charged.timeDeltas_ne_nil (h : Charged profile axis countIndex done st t)
    (hne : st.sampleNodeIds ≠ []) : st.timeDeltas ≠ [] := by
  have hlen := h.recording.deltas
  rintro hnil
  rw [show h.recording.timeDeltas = [] from hnil, List.length_nil] at hlen
  exact hne (List.length_eq_zero_iff.mp hlen.symm)

theorem traceOf_traceJson (h : Charged profile axis countIndex done st t) (hfits : Fits st)
    (hne : st.sampleNodeIds ≠ []) (display : Value → String) (opts : ConvertOptions)
    {ts : Int} (hts : InRange 64 ts) (endTime : Int) :
    ChromeTrace.TraceOf display [h.stream display opts ts endTime]
      (traceJson opts ts ⟨st.builder.nodes, st.sampleNodeIds, st.timeDeltas, ts, endTime⟩) where
  events := by
    refine ⟨_, [none, none, none, some ((h.stream display opts ts endTime).key,
      ⟨ts, st.builder.nodes.map Node.toRaw, st.sampleNodeIds, st.timeDeltas⟩)], Or.inr rfl, ?_,
      List.Perm.refl _⟩
    refine .cons (otherJson_metadata _ _ _ (by simp) _) (.cons (otherJson_metadata _ _ _ (by simp) _)
      (.cons (otherJson_profile opts ts) (.cons ?_ .nil)))
    refine ⟨rfl, ⟨"ProfileChunk", by simp, rfl⟩, rfl, ?_,
      Or.inl (carriedJson_chunk hfits hne (h.timeDeltas_ne_nil hne) opts ts endTime)⟩
    show ChromeTrace.valueToI64 (.int ts) = some ts
    rw [ChromeTrace.valueToI64, Value.asI64, if_pos hts]

/-- The samples are beside the profile with the nodes. -/
theorem carriesSamples_traceJson (hfits : Fits st) (hsamples : st.sampleNodeIds ≠ [])
    (hdeltas : st.timeDeltas ≠ []) (display : Value → String) (opts : ConvertOptions)
    (ts endTime : Int) (key : String) :
    ChromeTrace.CarriesSamples display
      (traceJson opts ts ⟨st.builder.nodes, st.sampleNodeIds, st.timeDeltas, ts, endTime⟩) key := by
  intro vs hvs v hv hname _
  obtain rfl := hvs.unique (Or.inr rfl : ChromeTrace.Events (traceJson _ _ _) _)
  simp only [List.mem_cons, List.not_mem_nil, or_false] at hv
  rcases hv with rfl | rfl | rfl | rfl
  · exact ChromeTrace.samplesCarried_of_otherJson (otherJson_metadata _ _ _ (by simp) _) hname
  · exact ChromeTrace.samplesCarried_of_otherJson (otherJson_metadata _ _ _ (by simp) _) hname
  · exact ChromeTrace.samplesCarried_of_otherJson (otherJson_profile opts ts) hname
  · exact ChromeTrace.samplesCarried_of_carriedJson
      (carriedJson_chunk hfits hsamples hdeltas opts ts endTime)

theorem inRange_64_of_32 {x : Int} (h : InRange 32 x) : InRange 64 x := by
  obtain ⟨hlo, hhi⟩ := h
  constructor <;> omega

theorem plain_frame {f : CallFrame} (h : FrameFits f) : f.toJson.Plain := by
  refine .object (by simp) ?_
  simp only [List.forall_mem_cons, List.not_mem_nil, false_imp_iff, implies_true, and_true]
  exact ⟨.int (inRange_64_of_32 h.columnNumber), .string _,
    .int (inRange_64_of_32 h.lineNumber), .string _, .string _⟩

theorem plain_node {n : Node} (hid : InRange 64 n.id) (hframe : FrameFits n.callFrame)
    (hchildren : ∀ x ∈ n.children, InRange 64 x) : n.toJson.Plain := by
  rw [Node.toJson]
  split
  · refine .object (by simp) ?_
    simp only [List.append_nil, List.cons_append, List.nil_append, List.forall_mem_cons,
      List.not_mem_nil, false_imp_iff, implies_true, and_true]
    exact ⟨plain_frame hframe, .int hid⟩
  · refine .object (by simp) ?_
    simp only [List.cons_append, List.nil_append, List.forall_mem_cons, List.not_mem_nil,
      false_imp_iff, implies_true, and_true]
    exact ⟨plain_frame hframe, Value.plain_ints hchildren, .int hid⟩

theorem plain_event {pid tid ts : Int} (hpid : InRange 64 pid) (htid : InRange 64 tid)
    (hts : InRange 64 ts) (ph cat name : String) (id : Option String) {args : Value}
    (hargs : args.Plain) : (eventJson pid tid ts ph cat name id args).Plain := by
  rw [eventJson]
  refine .object (by cases id <;> simp) ?_
  cases id <;>
    simp only [Option.toList_none, Option.toList_some, List.map_nil, List.map_cons,
      List.cons_append, List.nil_append, List.append_nil, List.forall_mem_cons, List.not_mem_nil,
      false_imp_iff, implies_true, and_true]
  · exact ⟨.int hpid, .int htid, .int hts, .string _, .string _, .string _, hargs⟩
  · exact ⟨.int hpid, .int htid, .int hts, .string _, .string _, .string _, .string _, hargs⟩

theorem plain_field {name : String} {v : Value} (h : v.Plain) : (Value.object [(name, v)]).Plain :=
  .object (by simp) (by simpa using h)

theorem plain_traceJson (hfits : Fits st) {opts : ConvertOptions} (hpid : InRange 64 opts.pid)
    (htid : InRange 64 opts.tid) {ts : Int} (hts : InRange 64 ts) {endTime : Int}
    (hend : InRange 64 endTime) :
    (traceJson opts ts
      ⟨st.builder.nodes, st.sampleNodeIds, st.timeDeltas, ts, endTime⟩).Plain := by
  have hnodes : (Value.array (st.builder.nodes.map Node.toJson)).Plain := by
    refine .array fun v hv => ?_
    obtain ⟨n, hn, rfl⟩ := List.mem_map.mp hv
    obtain ⟨hid, hframe, hchildren⟩ := hfits.nodes n hn
    exact plain_node hid hframe hchildren
  have hprofile : (Value.object [("endTime", .int endTime),
      ("nodes", .array (st.builder.nodes.map Node.toJson)), ("startTime", .int ts)]).Plain := by
    refine .object (by simp) ?_
    simp only [List.forall_mem_cons, List.not_mem_nil, false_imp_iff, implies_true, and_true]
    exact ⟨.int hend, hnodes, .int hts⟩
  have hdata : (Value.object [("cpuProfile", .object [("endTime", .int endTime),
      ("nodes", .array (st.builder.nodes.map Node.toJson)), ("startTime", .int ts)]),
      ("samples", Value.ints st.sampleNodeIds),
      ("timeDeltas", Value.ints st.timeDeltas)]).Plain := by
    refine .object (by simp) ?_
    simp only [List.forall_mem_cons, List.not_mem_nil, false_imp_iff, implies_true, and_true]
    exact ⟨hprofile, Value.plain_ints hfits.ids, Value.plain_ints hfits.deltas⟩
  refine plain_field (.array ?_)
  simp only [List.forall_mem_cons, List.not_mem_nil, false_imp_iff, implies_true, and_true]
  exact ⟨plain_event hpid htid hts _ _ _ _ (plain_field (.string _)),
    plain_event hpid htid hts _ _ _ _ (plain_field (.string _)),
    plain_event hpid htid hts _ _ _ _ (plain_field (plain_field (.int hts))),
    plain_event hpid htid hts _ _ _ _ (plain_field hdata)⟩

/-! ### The readings -/

/-- How a resolved frame reads after the trip. -/
def CallFrame.read (f : CallFrame) : ReadFrame where
  name := f.functionName
  systemName := f.functionName
  filename := f.url
  line := if f.lineNumber ≥ 0 then f.lineNumber + 1 else 0

theorem functionName_ne (profile : Profile) (locs : HashMap Nat Location)
    (funcs : HashMap Nat Function) (locId : Nat) :
    (frameForLocation profile locs funcs locId).functionName ≠ "" := by
  rw [frameForLocation]
  split
  · simp [CallFrame.unknown]
  · split
    · simp [CallFrame.unknown]
    · split
      · simp [CallFrame.unknown]
      · simp only
        split
        · decide
        · rename_i hne
          simpa using hne

theorem readFrame_toV8 {f : CallFrame} (h : f.functionName ≠ "") :
    readFrame (fun s => s) f.toV8 = f.read := by
  have hname : rawName f.toV8 = f.functionName := by
    rw [rawName, if_neg (by simpa [CallFrame.toV8] using h)]
    rfl
  rw [readFrame_eq, hname]
  rfl

/-- The stacks of some samples, each distinct one once, below the root: how
often they were seen, and for how long. -/
def stackReadings (profile : Profile) (axis : ValueAxis) (countIndex : Option Nat)
    (samples : List Sample) : List (Option (List ReadFrame) × List Int) :=
  (samples.map (stackFrames profile)).dedup.map fun frames =>
    let onStack := samples.filter (stackFrames profile · = frames)
    (some ((frames.map CallFrame.read).reverse ++ [rootFrame.read]),
      [(onStack.map (sampleCount countIndex)).sum, 1000 * (onStack.map (deltaUs axis)).sum])

theorem count_flatMap_replicate {α : Type} (l : List α) (n : α → Nat) (key : α → Int) (k : Int) :
    (l.flatMap fun s => List.replicate (n s) (key s)).count k =
      ((l.filter (key · = k)).map n).sum := by
  induction l with
  | nil => rfl
  | cons s l ih =>
    rw [List.flatMap_cons, List.count_append, ih, List.count_replicate]
    by_cases hk : key s = k
    · rw [List.filter_cons_of_pos (by simpa using hk), List.map_cons, List.sum_cons]
      simp [hk]
    · rw [List.filter_cons_of_neg (by simpa using hk)]
      simp [hk]

theorem sum_zip_flatMap {α : Type} (l : List α) (n : α → Nat) (key : α → Int)
    (parts : α → List Int) (hlen : ∀ s, (parts s).length = n s) (k : Int) :
    ((((l.flatMap fun s => List.replicate (n s) (key s)).zip (l.flatMap parts)).filter
      (·.1 = k)).map Prod.snd).sum = ((l.filter (key · = k)).map fun s => (parts s).sum).sum := by
  induction l with
  | nil => rfl
  | cons s l ih =>
    have hzip : (List.replicate (n s) (key s)).zip (parts s) =
        (parts s).map fun d => (key s, d) := by
      rw [← hlen s, ← List.map_const', List.zip_map_left, List.zip, List.zipWith_self, List.map_map]
      rfl
    rw [List.flatMap_cons, List.flatMap_cons, List.zip_append (by simp [hlen]), hzip,
      List.filter_append, List.map_append, List.sum_append, ih]
    by_cases hk : key s = k
    · rw [List.filter_cons_of_pos (by simpa using hk), List.map_cons, List.sum_cons,
        List.filter_map, List.map_map]
      simp [hk, Function.comp_def]
    · rw [List.filter_cons_of_neg (by simpa using hk), List.filter_map]
      simp [hk, Function.comp_def]

/-- On the way to the node of a stack its frames are met, below the root. -/
theorem read_path {s : Sample} (hs : stackFrames profile s ∈ t.items) {path : List TreeNode}
    (hpath : NodePath (callTree t).nodes (t.idOf (stackFrames profile s)) path) :
    path.map (fun n => readFrame (fun s => s) n.callFrame) =
      ((stackFrames profile s).map CallFrame.read).reverse ++ [rootFrame.read] := by
  have hread : (stackFrames profile s).inits.reverse.map
      ((fun n => readFrame (fun s => s) n.callFrame) ∘ treeNode t) =
      ((stackFrames profile s).inits.reverse.map frameAt).map
        fun f => readFrame (fun s => s) f.toV8 := by
    rw [List.map_map]
    rfl
  rw [hpath.unique (callTree t).ids (nodePath t hs), List.map_map, hread, map_frameAt_inits,
    List.map_append, List.map_reverse, List.map_singleton,
    readFrame_toV8 (show rootFrame.functionName ≠ "" by decide)]
  refine congrArg (· ++ _) (congrArg _ (List.map_congr_left fun f hin => readFrame_toV8 ?_))
  obtain ⟨locId, -, rfl⟩ := List.mem_map.mp hin
  exact functionName_ne _ _ _ _

theorem Charged.readings_perm (h : Charged profile axis countIndex done st t)
    (hpos : ∀ s ∈ done, 0 < rawValue axis s) {path : Int → List TreeNode}
    (hpath : ∀ id ∈ st.sampleNodeIds, NodePath (callTree t).nodes id (path id)) :
    (h.recording.readings path).Perm (stackReadings profile axis countIndex done) := by
  set distinct := (done.map (stackFrames profile)).dedup with hdistinct
  have hmem : ∀ {frames}, frames ∈ distinct → ∃ s ∈ done, stackFrames profile s = frames :=
    fun hf => List.mem_map.mp (List.mem_dedup.mp hf)
  have hitems : ∀ {frames}, frames ∈ distinct → frames ∈ t.items := by
    intro frames hf
    obtain ⟨s, hs, rfl⟩ := hmem hf
    exact h.interned s hs
  -- the sampled nodes are those of the stacks
  have hnodes : st.sampleNodeIds.dedup.Perm (distinct.map t.idOf) := by
    refine (List.perm_ext_iff_of_nodup (List.nodup_dedup _) ?_).mpr fun id => ?_
    · exact (List.nodup_dedup _).map_on fun p hp q hq heq =>
        PrefixTable.idOf_inj (hitems hp) (hitems hq) heq
    · rw [List.mem_dedup, h.mem_ids, List.mem_map]
      constructor
      · rintro ⟨s, hs, rfl⟩
        exact ⟨_, List.mem_dedup.mpr (List.mem_map_of_mem hs), rfl⟩
      · rintro ⟨frames, hf, rfl⟩
        obtain ⟨s, hs, rfl⟩ := hmem hf
        exact ⟨s, hs, rfl⟩
  refine (hnodes.map _).trans (List.Perm.of_eq ?_)
  rw [List.map_map, stackReadings, ← hdistinct]
  refine List.map_congr_left fun frames hf => ?_
  have hfilter : done.filter (fun s => t.idOf (stackFrames profile s) = t.idOf frames) =
      done.filter (stackFrames profile · = frames) := by
    refine List.filter_congr fun s hs => ?_
    rw [decide_eq_decide]
    exact ⟨PrefixTable.idOf_inj (h.interned s hs) (hitems hf), congrArg t.idOf⟩
  have hframes : (path (t.idOf frames)).map (fun n => readFrame (fun s => s) n.callFrame) =
      (frames.map CallFrame.read).reverse ++ [rootFrame.read] := by
    obtain ⟨s, hs, rfl⟩ := hmem hf
    exact read_path (hitems hf) (hpath _ (h.mem_ids.mpr ⟨s, hs, rfl⟩))
  have hcount : (st.sampleNodeIds.count (t.idOf frames) : Int) =
      ((done.filter (stackFrames profile · = frames)).map (sampleCount countIndex)).sum := by
    rw [h.ids, count_flatMap_replicate, hfilter, Nat.cast_list_sum, List.map_map]
    refine congrArg List.sum (List.map_congr_left fun s _ => ?_)
    have := sampleCount_pos countIndex s
    simp only [Function.comp_apply]
    omega
  have htime : h.recording.timeOf (t.idOf frames) =
      ((done.filter (stackFrames profile · = frames)).map (deltaUs axis)).sum := by
    show ((((st.sampleNodeIds.zip st.timeDeltas).filter _).map Prod.snd).sum : Int) = _
    rw [h.ids, h.deltas, sum_zip_flatMap _ _ _ _ (fun s => length_parts _ _), hfilter]
    refine congrArg List.sum (List.map_congr_left fun s hs => ?_)
    exact sum_parts (valueToUs_pos (hpos s (List.mem_filter.mp hs).1) _).le (sampleCount_pos _ s)
  simp only [Function.comp_apply]
  rw [hframes, htime, ← hcount]
  rfl

end

/-! ### The trip -/

/-- The integers of a profile and of the options are 64-bit values. -/
structure Int64Fields (profile : Profile) (opts : ConvertOptions) : Prop where
  values : ∀ s ∈ profile.sample, ∀ v ∈ s.value, InRange 64 v
  timeNanos : InRange 64 profile.timeNanos
  durationNanos : InRange 64 profile.durationNanos
  pid : InRange 64 opts.pid
  tid : InRange 64 opts.tid

theorem startUs_inRange {profile : Profile} (h : InRange 64 profile.timeNanos) :
    InRange 64 (startUs profile) := by
  rw [startUs]
  split
  · exact tdiv_inRange h (by omega)
  · exact inRange_zero 64

theorem endUs_inRange (profile : Profile) (timeDeltas : List Int) :
    InRange 64 (endUs profile timeDeltas) := by
  rw [endUs]
  split <;> exact saturate_inRange 64 _

theorem rawValue_inRange {profile : Profile} {opts : ConvertOptions}
    (h : Int64Fields profile opts) (axis : ValueAxis) {s : Sample} (hs : s ∈ profile.sample) :
    InRange 64 (rawValue axis s) := by
  rw [rawValue]
  rcases hget : s.value[axis.idx]? with _ | v
  · exact inRange_zero 64
  · exact h.values s hs v (List.mem_of_getElem? hget)

/-- What a conversion that succeeds has written. -/
theorem buildTrace_ok {profile : Profile} {opts : ConvertOptions} {axis : ValueAxis}
    (haxis : selectValueAxis profile opts.valueIndex = .ok axis) {trace : Value} {stats : Stats}
    (htrace : buildTrace profile opts = .ok (trace, stats)) :
    ∃ st, profile.sample.foldlM (convertSample profile axis
        (opts.countIndex.or (findCountAxis profile)) opts.expandSamples) .new = .ok st ∧
      st.sampleNodeIds ≠ [] ∧
      stats = ⟨st.builder.nodes.length, st.sampleNodeIds.length, totalDeltaUs st.timeDeltas⟩ ∧
      trace = traceJson opts (startUs profile) ⟨st.builder.nodes, st.sampleNodeIds,
        st.timeDeltas, startUs profile, endUs profile st.timeDeltas⟩ := by
  rw [buildTrace, haxis] at htrace
  rcases hrun : profile.sample.foldlM (convertSample profile axis
      (opts.countIndex.or (findCountAxis profile)) opts.expandSamples) .new with e | st
  · simp only [bind, Except.bind, hrun] at htrace
    cases htrace
  · simp only [bind, Except.bind, hrun] at htrace
    split at htrace
    · cases htrace
    · rename_i hne
      obtain ⟨rfl, rfl⟩ := Prod.mk.inj (Except.ok.inj htrace)
      exact ⟨st, rfl, by simpa using hne, rfl, rfl⟩

theorem convertProfile_ok {showFloat : F64 → String} {profile : Profile} {opts : ConvertOptions}
    {out : EncodedTrace} (hout : convertProfile showFloat profile opts = .ok out) :
    ∃ trace stats, buildTrace profile opts = .ok (trace, stats) ∧
      out = ⟨trace.toStringPretty showFloat, stats⟩ := by
  rw [convertProfile] at hout
  rcases htrace : buildTrace profile opts with e | ⟨trace, stats⟩
  · rw [htrace] at hout
    cases hout
  · rw [htrace] at hout
    exact ⟨trace, stats, rfl, (Except.ok.inj hout).symm⟩

/-- pprof to Chrome trace and back: a trace exported with one V8 sample per
count imports, without demangling, as one pprof sample for each distinct stack
of the exported samples, below the added root and with the frames the exporter
resolved, and with the counts and times of all samples on that stack. -/
theorem exported_trace_converts_back {showFloat : F64 → String} {fromStr : String → Option Value}
    (display : Value → String) (it : IterOrder (Sigma fun _ : Int => Int)) {profile : Profile}
    {opts : ConvertOptions}
    (hserde : ∀ trace stats, buildTrace profile opts = .ok (trace, stats) → trace.Plain →
      fromStr (trace.toStringPretty showFloat) = some trace)
    (hfields : Int64Fields profile opts) (hexpand : opts.expandSamples = true)
    {axis : ValueAxis} (haxis : selectValueAxis profile opts.valueIndex = .ok axis)
    (hframes : ∀ s ∈ exported profile axis, ∀ f ∈ stackFrames profile s, FrameFits f)
    (hsize : stackSize (exported profile axis) + 1 < 2 ^ 63)
    (hsums : ∀ x ∈ stackReadings profile axis (opts.countIndex.or (findCountAxis profile))
      (exported profile axis), ∀ v ∈ x.2, InRange 64 v)
    {out : EncodedTrace} (hout : convertProfile showFloat profile opts = .ok out)
    {importOpts : ChromeTrace.ConvertOptions} (hdemangle : importOpts.noDemangle = true)
    (hindex : importOpts.profileIndex = 0) {fuel : Nat}
    (hfuel : stackSize (exported profile axis) + 1 ≤ fuel) :
    ∃ imported, ChromeTrace.convert fromStr display it fuel out.json importOpts =
        some (.ok imported) ∧
      (imported.profile.sample.map fun s => (imported.profile.readStack s, s.value)).Perm
        (stackReadings profile axis (opts.countIndex.or (findCountAxis profile))
          (exported profile axis)) := by
  obtain ⟨trace, stats, htrace, rfl⟩ := convertProfile_ok hout
  obtain ⟨st, hrun, hne, -, rfl⟩ := buildTrace_ok haxis htrace
  rw [hexpand] at hrun
  obtain ⟨t, h⟩ := convertSamples_spec (charged_new profile axis _) hrun
  rw [List.nil_append, ← exported] at h
  have hvalues : ∀ s ∈ exported profile axis,
      0 < rawValue axis s ∧ InRange 64 (rawValue axis s) := by
    intro s hs
    obtain ⟨hmem, hexp⟩ := List.mem_filter.mp hs
    rw [isExported, Bool.and_eq_true, decide_eq_true_eq] at hexp
    exact ⟨hexp.1, rawValue_inRange hfields axis hmem⟩
  have hfits := h.fits hsize hframes hvalues
  have hstart := startUs_inRange hfields.timeNanos
  have hplain := plain_traceJson hfits hfields.pid hfields.tid hstart
    (endUs_inRange profile st.timeDeltas)
  obtain ⟨profiles, hprofiles, hall⟩ := ChromeTrace.extract_spec (by simp)
    (traceOf_traceJson h hfits hne display opts hstart (endUs profile st.timeDeltas))
    (fun s _ => carriesSamples_traceJson hfits hne (h.timeDeltas_ne_nil hne) display opts _ _ s.key)
    (hserde _ _ htrace hplain) importOpts.defaultSampleDeltaUs
  obtain ⟨x, hx, hr⟩ : ∃ x, profiles[importOpts.profileIndex]? = some x ∧
      x.profile.Realizes h.recording := by
    rw [hindex]
    cases hall with
    | cons hx hnil => exact ⟨_, rfl, hx⟩
  -- a node is the added root or the last frame of an exported stack
  have hsep : ∀ m ∈ h.recording.tree.nodes, Separable m.callFrame := by
    intro m hm
    obtain ⟨p, hp, rfl⟩ := List.mem_map.mp hm
    have hfit : FrameFits (frameAt p) := by
      rcases h.frameAt_mem hp with hroot | ⟨s, hs, hin⟩
      · rw [hroot]
        exact frameFits_root
      · exact hframes s hs _ hin
    exact ⟨hfit.functionName, hfit.url⟩
  have hnodes : h.recording.tree.nodes.length ≤ fuel := by
    show (t.items.map (treeNode t)).length ≤ fuel
    rw [List.length_map]
    exact h.size.trans hfuel
  obtain ⟨path, imported, hpath, hconvert, hperm⟩ :=
    ChromeTrace.convert_of_realizes it hdemangle hprofiles hx hr hsep hnodes
  refine ⟨imported, hconvert, ?_⟩
  have hreadings := h.readings_perm (fun s hs => (hvalues s hs).1) hpath
  refine hperm.trans ((hreadings.map wrapReading).trans (List.Perm.of_eq ?_))
  exact map_wrapReading hsums

/-! ### Two stacks -/

/-- `main` in `main.js`, once by itself and three times under `hot`, of which
nothing but the name is known. -/
def smallProfile : Profile where
  sampleType := [⟨1, 2⟩, ⟨3, 4⟩]
  sample := [⟨[2, 1], [3, 3000000], []⟩, ⟨[1], [1, 500000], []⟩]
  mapping := []
  location := [⟨1, 0, 0, [⟨1, 5, 0⟩], false⟩, ⟨2, 0, 0, [⟨2, 0, 0⟩], false⟩]
  function := [⟨1, 5, 5, 7, 1⟩, ⟨2, 6, 6, 0, 0⟩]
  stringTable := ["", "samples", "count", "cpu", "nanoseconds", "main", "hot", "main.js"]
  dropFrames := 0
  keepFrames := 0
  timeNanos := 1000000
  durationNanos := 0
  periodType := none
  period := 0
  comment := []
  defaultSampleType := 0
  docUrl := 0

def smallOpts : ConvertOptions := { ConvertOptions.default with expandSamples := true }

def smallTrace : Value :=
  match buildTrace smallProfile smallOpts with
  | .ok (trace, _) => trace
  | .error _ => .null

theorem exported_trace_converts_back_small :
    ∃ out imported, convertProfile (fun _ => "0.0") smallProfile smallOpts = .ok out ∧
      ChromeTrace.convert
        (fun text => if text = smallTrace.toStringPretty (fun _ => "0.0") then some smallTrace else none)
        ChromeTrace.displayInt ⟨fun l => l, fun _ => .refl _⟩ 4 out.json
        { ChromeTrace.ConvertOptions.default with noDemangle := true } = some (.ok imported) ∧
      (imported.profile.sample.map fun s => (imported.profile.readStack s, s.value)).Perm
        (stackReadings smallProfile ⟨1, "nanoseconds"⟩ (some 0)
          (exported smallProfile ⟨1, "nanoseconds"⟩)) := by
  have htrace : (buildTrace smallProfile smallOpts).isOk = true := by decide +kernel
  obtain ⟨⟨trace, stats⟩, hok⟩ : ∃ x, buildTrace smallProfile smallOpts = .ok x := by
    rcases h : buildTrace smallProfile smallOpts with e | x
    · rw [h] at htrace
      cases htrace
    · exact ⟨x, rfl⟩
  have hsmall : smallTrace = trace := by rw [smallTrace, hok]
  have hout : convertProfile (fun _ => "0.0") smallProfile smallOpts =
      .ok ⟨trace.toStringPretty fun _ => "0.0", stats⟩ := by
    rw [convertProfile, hok]
    rfl
  have hfields : Int64Fields smallProfile smallOpts :=
    ⟨by decide, by decide, by decide, by decide, by decide⟩
  rw [hsmall]
  set fromStr : String → Option Value := fun text =>
    if text = trace.toStringPretty (fun _ => "0.0") then some trace else none
  have hserde : ∀ trace' stats', buildTrace smallProfile smallOpts = .ok (trace', stats') →
      trace'.Plain → fromStr (trace'.toStringPretty fun _ => "0.0") = some trace' := by
    intro trace' stats' h _
    obtain ⟨rfl, -⟩ := Prod.mk.inj (Except.ok.inj (hok.symm.trans h))
    exact if_pos rfl
  have hback := exported_trace_converts_back ChromeTrace.displayInt ⟨fun l => l, fun _ => .refl _⟩
    hserde hfields rfl (show _ = Except.ok ⟨1, "nanoseconds"⟩ from rfl) (by decide +kernel)
    (by decide +kernel) (by decide +kernel) hout
    (show ({ ChromeTrace.ConvertOptions.default with noDemangle := true } :
      ChromeTrace.ConvertOptions).noDemangle = true from rfl) rfl (show _ ≤ 4 by decide +kernel)
  obtain ⟨imported, hconvert, hperm⟩ := hback
  exact ⟨_, imported, hout, hconvert, hperm⟩

end ChromeTraceExport
