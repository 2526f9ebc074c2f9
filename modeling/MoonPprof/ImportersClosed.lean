/-
The profiles of the importers, whatever they read.

`importers_closed` has no assumption on the input: node ids may repeat, children and
parents may form cycles, frame indices may be out of range, weights may be anything.

* `Framed` — tables that gain a function and a location for each frame;
* `Framework.closed` — the profile of an importer, made of closed rows;
* `pushSample_closed`, `importSample_closed`, `walk_closed` — what one line, one
  sample or one subtree adds;
* `importers_closed` — each profile that is written is closed.
-/
import MoonPprof.ChromeTrace
import MoonPprof.CpuProfileTables
import MoonPprof.FoldedImport
import MoonPprof.HeapProfile
import MoonPprof.ProfileClosed
import MoonPprof.SpeedscopeRoundTrip

open Proto StackFormats

namespace Proto

/-! ### Tables of frames -/

/-- The tables are closed, in one mapping, with a function and a line for each location. -/
structure Framed (t : Tables) : Prop where
  closed : t.Closed
  mapped : ∀ loc ∈ t.locations, loc.mappingId = 1
  lined : ∀ loc ∈ t.locations, loc.line ≠ []
  paired : t.locations.length = t.functions.length

theorem framed_nil (strings : List String) : Framed ⟨strings, [], []⟩ where
  closed := ⟨nofun, nofun, nofun, nofun⟩
  mapped := nofun
  lined := nofun
  paired := rfl

/-- One more frame, with its function and its location. -/
theorem Framed.push {t : Tables} (h : Framed t) {strings : List String}
    (hext : t.strings <+: strings) {name filename : Int} (hname : ValidString strings name)
    (hfile : ValidString strings filename) (startLine line column : Int) :
    Framed ⟨strings, t.functions ++ [⟨t.functions.length + 1, name, name, filename, startLine⟩],
      t.locations ++ [⟨t.functions.length + 1, 1, 0,
        [⟨t.functions.length + 1, line, column⟩], false⟩]⟩ := by
  have hfunction := (h.closed.pushStrings hext).pushFunction
    (f := ⟨t.functions.length + 1, name, name, filename, startLine⟩) rfl ⟨hname, hname, hfile⟩
  refine ⟨hfunction.pushLocation ?_ ?_, fun loc hloc => ?_, fun loc hloc => ?_, ?_⟩
  · exact congrArg (· + 1) h.paired.symm
  · intro l hl
    rw [List.mem_singleton.mp hl]
    exact validId_concat _ _
  · rcases List.mem_append.mp hloc with hloc | hloc
    · exact h.mapped loc hloc
    · rw [List.mem_singleton.mp hloc]
  · rcases List.mem_append.mp hloc with hloc | hloc
    · exact h.lined loc hloc
    · rw [List.mem_singleton.mp hloc]
      exact List.cons_ne_nil _ _
  · rw [List.length_append, List.length_append, h.paired]
    rfl

/-- What an importer writes around its rows: a count and a value for each sample,
and one mapping. -/
structure Framework (p : Profile) (count value : ValueType) (m : Mapping) : Prop where
  sampleType : p.sampleType = [count, value]
  periodType : p.periodType = some value
  defaultSampleType : p.defaultSampleType = value.type
  mapping : p.mapping = [m]
  mappingId : m.id = 1
  buildId : m.buildId = 0
  other : p.dropFrames = 0 ∧ p.keepFrames = 0 ∧ p.docUrl = 0 ∧ p.comment = []

/-- With closed rows and valid strings around them, the profile is closed. -/
theorem Framework.closed {p : Profile} {count value : ValueType} {m : Mapping}
    (hp : Framework p count value m) (h : p.tables.Closed)
    (hmapped : ∀ loc ∈ p.location, loc.mappingId = 1)
    (hsamples : ∀ s ∈ p.sample, s.label = [] ∧ ∀ id ∈ s.locationId, ValidId p.location id)
    (hempty : p.stringTable[0]? = some "") (hfile : ValidString p.stringTable m.filename)
    (hcount : ValidString p.stringTable count.type ∧ ValidString p.stringTable count.unit)
    (hvalue : ValidString p.stringTable value.type ∧ ValidString p.stringTable value.unit) :
    p.Closed := by
  have hzero : ValidString p.stringTable 0 := ⟨"", (getString_natCast _ 0).trans hempty⟩
  obtain ⟨hdrop, hkeep, hurl, hcomment⟩ := hp.other
  refine Profile.closed_of_tables h (fun s hs => (hsamples s hs).1) (fun t ht => ?_)
    (fun n hn => ?_) (fun idx hidx => ?_) (fun s hs => (hsamples s hs).2) fun loc hloc _ => ?_
  · rw [hp.sampleType, hp.periodType] at ht
    simp only [Option.toList_some, List.cons_append, List.nil_append, List.mem_cons,
      List.not_mem_nil, or_false] at ht
    rcases ht with rfl | rfl | rfl
    · exact hcount
    · exact hvalue
    · exact hvalue
  · rw [hp.mapping, List.mem_singleton] at hn
    rw [hn, hp.buildId]
    exact ⟨hfile, hzero⟩
  · rw [hdrop, hkeep, hurl, hcomment, hp.defaultSampleType] at hidx
    simp only [List.append_nil, List.mem_cons, List.not_mem_nil, or_false] at hidx
    rcases hidx with rfl | rfl | rfl | rfl
    · exact hzero
    · exact hzero
    · exact hvalue.1
    · exact hzero
  · rw [hmapped loc hloc, hp.mapping, OneRow, List.countP_singleton, hp.mappingId]
    rfl

/-- Interning, with the index and the table it leaves. -/
theorem exists_internString (pool : InternTable String) (s : String) :
    ∃ idx pool', internString pool s = (idx, pool') ∧ getString pool'.items idx = some s ∧
      pool.items <+: pool'.items := by
  obtain ⟨hget, hext⟩ := internString_spec pool s
  exact ⟨_, _, rfl, hget, hext⟩

end Proto

/-! ### Folded stacks -/

namespace Folded

/-- What the tables, the known frames and the samples refer to is there. -/
structure ImportState.Closed (emptyStr : Int) (st : ImportState) : Prop where
  framed : Framed st.tables
  empty : ValidString st.strings.items emptyStr
  frameIds : ∀ name id, st.frameIds.lookup name = some id → ValidId st.locations id
  samples : ∀ s ∈ st.samples, s.label = [] ∧ ∀ id ∈ s.locationId, ValidId st.locations id

variable {emptyStr : Int} {st : ImportState}

theorem frameId_closed (h : st.Closed emptyStr) (frame : String) :
    (frameId emptyStr st frame).2.Closed emptyStr ∧
      ValidId (frameId emptyStr st frame).2.locations (frameId emptyStr st frame).1 ∧
      st.tables.Extends (frameId emptyStr st frame).2.tables ∧
      (frameId emptyStr st frame).2.samples = st.samples := by
  rw [frameId]
  rcases hlookup : st.frameIds.lookup frame with _ | id
  · obtain ⟨hname, hext⟩ := internString_spec st.strings frame
    have hnew : ∀ loc : Location, ValidId (st.locations ++ [loc]) (st.functions.length + 1) := by
      intro loc
      rw [← show st.locations.length = st.functions.length from h.framed.paired]
      exact validId_concat _ _
    have hempty := h.empty.of_isPrefix hext
    refine ⟨⟨h.framed.push hext ⟨frame, hname⟩ hempty 0 0 0, hempty, fun name id hid => ?_,
      fun s hs => ?_⟩, hnew _, ⟨hext, List.prefix_append _ _, List.prefix_append _ _⟩, rfl⟩
    · rcases HashMap.lookup_insert_cases hid with ⟨-, rfl⟩ | hold
      · exact hnew _
      · exact (h.frameIds name id hold).of_isPrefix (List.prefix_append _ _)
    · exact ⟨(h.samples s hs).1,
        fun id hid => ((h.samples s hs).2 id hid).of_isPrefix (List.prefix_append _ _)⟩
  · exact ⟨h, h.frameIds frame id hlookup, .refl _, rfl⟩

theorem frameIdsOf_closed (h : st.Closed emptyStr) (frames : List String) :
    (frameIdsOf emptyStr st frames).2.Closed emptyStr ∧
      (∀ id ∈ (frameIdsOf emptyStr st frames).1,
        ValidId (frameIdsOf emptyStr st frames).2.locations id) ∧
      st.tables.Extends (frameIdsOf emptyStr st frames).2.tables := by
  induction frames using List.reverseRecOn with
  | nil => exact ⟨h, fun id hid => absurd hid List.not_mem_nil, .refl _⟩
  | append_singleton frames frame ih =>
    rw [frameIdsOf, List.foldl_append, ← frameIdsOf, List.foldl_cons, List.foldl_nil]
    obtain ⟨hclosed, hids, hext⟩ := ih
    obtain ⟨hclosed', hid', hext', -⟩ := frameId_closed hclosed frame
    refine ⟨hclosed', fun id hid => ?_, hext.trans hext'⟩
    rcases List.mem_append.mp hid with hid | hid
    · exact (hids id hid).of_isPrefix hext'.locations
    · rwa [List.mem_singleton.mp hid]

theorem pushSample_closed (h : st.Closed emptyStr) (x : List String × Int) :
    (pushSample emptyStr st x).Closed emptyStr ∧
      st.tables.Extends (pushSample emptyStr st x).tables := by
  obtain ⟨hclosed, hids, hext⟩ := frameIdsOf_closed h x.1
  refine ⟨⟨hclosed.framed, hclosed.empty, hclosed.frameIds, fun s hs => ?_⟩, hext⟩
  rcases List.mem_append.mp hs with hs | hs
  · exact hclosed.samples s hs
  · rw [List.mem_singleton.mp hs]
    exact ⟨rfl, fun id hid => hids id (List.mem_reverse.mp hid)⟩

theorem importLines_closed {ls : List (List Char × Nat)} {st' : ImportState}
    (h : st.Closed emptyStr) (hrun : ls.foldlM (importLine emptyStr) st = .ok st') :
    st'.Closed emptyStr ∧ st.tables.Extends st'.tables := by
  induction ls generalizing st with
  | nil =>
    cases hrun
    exact ⟨h, .refl _⟩
  | cons line ls ih =>
    obtain ⟨st₁, hline, hrest⟩ := foldlM_cons_eq_ok.mp hrun
    have hstep : st₁.Closed emptyStr ∧ st.tables.Extends st₁.tables := by
      rw [importLine] at hline
      rcases hparse : parseFoldedLine line.1 (line.2 + 1) with e | _ | row
      · rw [hparse] at hline
        cases hline
      · rw [hparse] at hline
        cases hline
        exact ⟨h, .refl _⟩
      · rw [hparse] at hline
        cases hline
        exact pushSample_closed h row
    obtain ⟨hclosed, hext⟩ := ih hstep.1 hrest
    exact ⟨hclosed, hstep.2.trans hext⟩

theorem foldedToPprof_closed {input : String} {opts : ImportOptions} {imported : ImportedPprof}
    (hrun : foldedToPprof input opts = .ok imported) : imported.profile.Closed := by
  rw [foldedToPprof] at hrun
  obtain ⟨samplesStr, strings₁, h₁, hsamples, hext₁⟩ := exists_internString stringPool "samples"
  obtain ⟨countStr, strings₂, h₂, hcount, hext₂⟩ := exists_internString strings₁ "count"
  obtain ⟨typeStr, strings₃, h₃, htype, hext₃⟩ := exists_internString strings₂ opts.sampleType
  obtain ⟨unitStr, strings₄, h₄, hunit, hext₄⟩ := exists_internString strings₃ opts.unit
  obtain ⟨emptyStr, strings₅, h₅, hempty, hext₅⟩ := exists_internString strings₄ ""
  obtain ⟨fileStr, strings₆, h₆, hfile, hext₆⟩ := exists_internString strings₅ opts.mappingFilename
  simp only [h₁, h₂, h₃, h₄, h₅, h₆] at hrun
  obtain ⟨st, hlines, hok⟩ := bind_eq_ok.mp hrun
  cases hok
  have hnew : ImportState.Closed emptyStr ⟨strings₆, ∅, [], [], [], 0⟩ :=
    ⟨framed_nil _, ValidString.of_isPrefix hext₆ ⟨"", hempty⟩, by simp,
      fun _ hs => absurd hs List.not_mem_nil⟩
  obtain ⟨hclosed, hext⟩ := importLines_closed hnew hlines
  have hstrings : strings₆.items <+: st.strings.items := hext.strings
  have hext₅' := hext₆.trans hstrings
  have hext₄' := hext₅.trans hext₅'
  have hext₃' := hext₄.trans hext₄'
  have hext₂' := hext₃.trans hext₃'
  have hempty' : st.strings.items[0]? = some "" :=
    getElem?_of_isPrefix (hext₁.trans (hext₂.trans hext₂')) rfl
  exact Framework.closed ⟨rfl, rfl, rfl, rfl, rfl, rfl, rfl, rfl, rfl, rfl⟩ hclosed.framed.closed
    hclosed.framed.mapped hclosed.samples hempty' ⟨_, getString_of_isPrefix hstrings hfile⟩
    ⟨⟨_, getString_of_isPrefix (hext₂.trans hext₂') hsamples⟩,
      ⟨_, getString_of_isPrefix hext₂' hcount⟩⟩
    ⟨⟨_, getString_of_isPrefix hext₃' htype⟩, ⟨_, getString_of_isPrefix hext₄' hunit⟩⟩

end Folded

/-! ### Speedscope files -/

namespace Speedscope

theorem framed_pushFrame {st : FrameTables} (h : Framed st.tables) (frame : Frame) :
    Framed (pushFrame st frame).tables ∧ st.strings.items <+: (pushFrame st frame).strings.items := by
  obtain ⟨hname, hext⟩ := internString_spec st.strings
    (if frame.name.isEmpty then "(unknown)" else frame.name)
  obtain ⟨hfile, hext'⟩ := internString_spec (internString st.strings
    (if frame.name.isEmpty then "(unknown)" else frame.name)).2 (frame.file.getD "")
  exact ⟨h.push (hext.trans hext') ⟨_, getString_of_isPrefix hext' hname⟩ ⟨_, hfile⟩ _ _ _,
    hext.trans hext'⟩

theorem framed_pushFrames {st : FrameTables} (h : Framed st.tables) (frames : List Frame) :
    Framed (frames.foldl pushFrame st).tables ∧
      st.strings.items <+: (frames.foldl pushFrame st).strings.items := by
  induction frames generalizing st with
  | nil => exact ⟨h, List.prefix_refl _⟩
  | cons frame frames ih =>
    obtain ⟨h₁, hext₁⟩ := framed_pushFrame h frame
    obtain ⟨h₂, hext₂⟩ := ih h₁
    exact ⟨h₂, hext₁.trans hext₂⟩

/-- The samples name locations that are there: an index out of range is dropped. -/
theorem importSamples_closed {locations : List Location} (hids : CountsFrom1 Location.id locations)
    (weights : List F64) (xs : List (List Nat × Nat)) {acc : List Sample × Int}
    (h : ∀ s ∈ acc.1, s.label = [] ∧ ∀ id ∈ s.locationId, ValidId locations id) :
    ∀ s ∈ (xs.foldl (importSample locations weights) acc).1,
      s.label = [] ∧ ∀ id ∈ s.locationId, ValidId locations id := by
  induction xs generalizing acc with
  | nil => exact h
  | cons x xs ih =>
    refine ih fun s hs => ?_
    rw [importSample] at hs
    split at hs
    · exact h s hs
    · dsimp only at hs
      split at hs
      · exact h s hs
      · rcases List.mem_append.mp hs with hs | hs
        · exact h s hs
        · rw [List.mem_singleton.mp hs]
          refine ⟨rfl, fun id hid => ?_⟩
          obtain ⟨i, -, hloc⟩ := List.mem_filterMap.mp hid
          obtain ⟨loc, hget, rfl⟩ := Option.map_eq_some_iff.mp hloc
          rw [hids i loc hget]
          exact validId_of_getElem? hget

/-- What an imported profile has around its samples. -/
structure Header (frames : List Frame) (profile : SampledProfile) (mappingFilename : String)
    (p : Profile) (count value : ValueType) (m : Mapping) : Prop where
  framework : Framework p count value m
  framed : Framed p.tables
  empty : p.stringTable[0]? = some ""
  mapping : getString p.stringTable m.filename = some mappingFilename
  count : getString p.stringTable count.type = some "samples" ∧
    getString p.stringTable count.unit = some "count"
  value : getString p.stringTable value.type = some (speedscopeValueType profile.unit).1 ∧
    getString p.stringTable value.unit = some (speedscopeValueType profile.unit).2

theorem importProfile_header (frames : List Frame) (profile : SampledProfile)
    (mappingFilename : String) : ∃ count value m, Header frames profile mappingFilename
      (importProfile frames profile mappingFilename).profile count value m := by
  rw [importProfile]
  obtain ⟨samplesStr, strings₁, h₁, hsamples, hext₁⟩ := exists_internString stringPool "samples"
  obtain ⟨countStr, strings₂, h₂, hcount, hext₂⟩ := exists_internString strings₁ "count"
  obtain ⟨typeStr, strings₃, h₃, htype, hext₃⟩ :=
    exists_internString strings₂ (speedscopeValueType profile.unit).1
  obtain ⟨unitStr, strings₄, h₄, hunit, hext₄⟩ :=
    exists_internString strings₃ (speedscopeValueType profile.unit).2
  obtain ⟨fileStr, strings₅, h₅, hfile, hext₅⟩ := exists_internString strings₄ mappingFilename
  simp only [h₁, h₂, h₃, h₄, h₅]
  have hnew : Framed (FrameTables.mk strings₅ [] []).tables := framed_nil _
  obtain ⟨hframed, hstrings⟩ := framed_pushFrames hnew frames
  set tables := frames.foldl pushFrame ⟨strings₅, [], []⟩
  have hext₄' := hext₅.trans hstrings
  have hext₃' := hext₄.trans hext₄'
  have hext₂' := hext₃.trans hext₃'
  exact ⟨_, _, _, ⟨rfl, rfl, rfl, rfl, rfl, rfl, rfl, rfl, rfl, rfl⟩, hframed,
    getElem?_of_isPrefix (hext₁.trans (hext₂.trans hext₂')) rfl,
    getString_of_isPrefix hstrings hfile,
    ⟨getString_of_isPrefix (hext₂.trans hext₂') hsamples, getString_of_isPrefix hext₂' hcount⟩,
    ⟨getString_of_isPrefix hext₃' htype, getString_of_isPrefix hext₄' hunit⟩⟩

/-- The imported samples name locations that are there. -/
theorem importProfile_stacks (frames : List Frame) (profile : SampledProfile)
    (mappingFilename : String) :
    let p := (importProfile frames profile mappingFilename).profile
    ∀ s ∈ p.sample, s.label = [] ∧ ∀ id ∈ s.locationId, ValidId p.location id := by
  obtain ⟨_, _, _, h⟩ := importProfile_header frames profile mappingFilename
  exact importSamples_closed h.framed.closed.locationIds _ _ nofun

theorem importProfile_closed (frames : List Frame) (profile : SampledProfile)
    (mappingFilename : String) : (importProfile frames profile mappingFilename).profile.Closed := by
  obtain ⟨_, _, _, h⟩ := importProfile_header frames profile mappingFilename
  exact h.framework.closed h.framed.closed h.framed.mapped
    (importProfile_stacks frames profile mappingFilename) h.empty ⟨_, h.mapping⟩
    ⟨⟨_, h.count.1⟩, ⟨_, h.count.2⟩⟩ ⟨⟨_, h.value.1⟩, ⟨_, h.value.2⟩⟩

end Speedscope

/-! ### Heap profiles -/

namespace Heap

open V8

/-- What the tables, the path and the samples of the walk refer to is there. -/
structure Walk.Closed (w : Walk) : Prop where
  state : w.state.Closed
  stack : ∀ id ∈ w.stack, ValidId w.state.locations id
  out : ∀ s ∈ w.out, s.label = [] ∧ ∀ id ∈ s.locationId, ValidId w.state.locations id

section

variable (display : Value → String) (demangle : String → String) (counts : HashMap Int Int)
  (haveSamples : Bool)

theorem enter_closed {w : Walk} (h : w.Closed) (node : HeapNode) :
    (w.enter display demangle counts haveSamples node).Closed ∧
      w.state.tables.Extends (w.enter display demangle counts haveSamples node).state.tables := by
  obtain ⟨hstate, hid, hext, -⟩ := @internLocation_closed display demangle _ h.state
    ⟨node.id, node.callFrame, []⟩
  rw [Walk.enter, internLocation]
  set r := w.state.internLocation display demangle ⟨node.id, node.callFrame, []⟩
  have hstack : ∀ id ∈ w.stack ++ [r.1], ValidId r.2.locations id := by
    intro id hmem
    rcases List.mem_append.mp hmem with hmem | hmem
    · exact (h.stack id hmem).of_isPrefix hext.locations
    · rwa [List.mem_singleton.mp hmem]
  have hout : ∀ s ∈ w.out, s.label = [] ∧ ∀ id ∈ s.locationId, ValidId r.2.locations id :=
    fun s hs => ⟨(h.out s hs).1,
      fun id hmem => ((h.out s hs).2 id hmem).of_isPrefix hext.locations⟩
  dsimp only
  split
  · refine ⟨⟨hstate, hstack, fun s hs => ?_⟩, hext⟩
    rcases List.mem_append.mp hs with hs | hs
    · exact hout s hs
    · rw [List.mem_singleton.mp hs]
      exact ⟨rfl, fun id hmem => hstack id (List.mem_reverse.mp hmem)⟩
  · exact ⟨⟨hstate, hstack, hout⟩, hext⟩

theorem leave_closed {w : Walk} (h : w.Closed) : w.leave.Closed :=
  ⟨h.state, fun id hid => h.stack id (List.dropLast_subset _ hid), h.out⟩

mutual

theorem walk_closed (node : HeapNode) {w : Walk} (h : w.Closed) :
    (walk display demangle counts haveSamples node w).Closed ∧
      w.state.tables.Extends (walk display demangle counts haveSamples node w).state.tables := by
  match node with
  | ⟨callFrame, selfSize, id, children⟩ =>
    obtain ⟨hclosed, hext⟩ := enter_closed display demangle counts haveSamples h
      ⟨callFrame, selfSize, id, children⟩
    obtain ⟨hclosed', hext'⟩ := walkChildren_closed children hclosed
    rw [walk]
    exact ⟨leave_closed hclosed', hext.trans hext'⟩

theorem walkChildren_closed (children : List HeapNode) {w : Walk} (h : w.Closed) :
    (walkChildren display demangle counts haveSamples children w).Closed ∧
      w.state.tables.Extends
        (walkChildren display demangle counts haveSamples children w).state.tables := by
  match children with
  | [] =>
    rw [walkChildren]
    exact ⟨h, .refl _⟩
  | child :: children =>
    obtain ⟨hclosed, hext⟩ := walk_closed child h
    obtain ⟨hclosed', hext'⟩ := walkChildren_closed children hclosed
    rw [walkChildren]
    exact ⟨hclosed', hext.trans hext'⟩

end

theorem closed_stateNew : stateNew.Closed where
  empty := rfl
  tables := ⟨nofun, nofun, nofun, nofun⟩
  mappings := nofun
  funcIndex := nofun
  locByNode := nofun
  labels := nofun
  samples := nofun

theorem build_closed (mappingFilename : Option String) (p : HeapProfile) :
    (build display demangle mappingFilename p).1.Closed := by
  obtain ⟨hstate, hfile, -⟩ := closed_stateNew.intern (mappingFilename.getD "")
  obtain ⟨h, hext⟩ := walk_closed display demangle (countByNode p.samples) (!p.samples.isEmpty)
    p.head (w := ⟨[], (stateNew.intern (mappingFilename.getD "")).2, [], 0, 0⟩)
    ⟨hstate, nofun, nofun⟩
  rw [build]
  exact Framework.closed ⟨rfl, rfl, rfl, rfl, rfl, rfl, rfl, rfl, rfl, rfl⟩ h.state.tables
    h.state.mappings h.out h.state.empty (hfile.of_isPrefix hext.strings)
    ⟨h.state.stringId _, h.state.stringId _⟩ ⟨h.state.stringId _, h.state.stringId _⟩

end

end Heap


/-! ### Chrome traces -/

namespace ChromeTrace

theorem convert_closed {fromStr : String → Option Value} {display : Value → String}
    {it : IterOrder (Sigma fun _ : Int => Int)} {fuel : Nat} {input : String}
    {opts : ConvertOptions} {converted : Converted}
    (hrun : convert fromStr display it fuel input opts = some (.ok converted)) :
    converted.profile.Closed := by
  rw [convert] at hrun
  split at hrun
  · cases hrun
  · split at hrun
    · cases hrun
    · split at hrun
      · cases hrun
      · obtain ⟨⟨profile, stats⟩, hbuild, heq⟩ := Option.map_eq_some_iff.mp hrun
        cases heq
        exact (V8.build_closed hbuild).1

end ChromeTrace

/-! ### All importers -/

namespace Importers

/-- Whatever the importers accept, in the profile they write every string index lies in the
string table, and every location, function and mapping id names exactly one row: folded texts,
Speedscope files (also with frame indices out of range), V8 CPU profiles and Chrome traces (also
with repeated ids and dangling or circular links, if the walk up the parents ends) and V8 heap
profiles (also with repeated ids). -/
theorem importers_closed :
    (∀ (input : String) (opts : Folded.ImportOptions) (imported : ImportedPprof),
      Folded.foldedToPprof input opts = .ok imported → imported.profile.Closed) ∧
    (∀ (fromStr : String → Option Value) (json : String) (opts : Speedscope.ImportOptions)
        (imported : ImportedPprof),
      Speedscope.speedscopeToPprof fromStr json opts = .ok imported → imported.profile.Closed) ∧
    (∀ (display : Value → String) (demangle : String → String) (filename : Option String)
        (it : IterOrder (Sigma fun _ : Int => Int)) (fuel : Nat) (p : V8.CpuProfile)
        (profile : Profile) (stats : V8.Stats),
      V8.build display demangle filename it fuel p = some (profile, stats) → profile.Closed) ∧
    (∀ (fromStr : String → Option Value) (display : Value → String)
        (it : IterOrder (Sigma fun _ : Int => Int)) (fuel : Nat) (input : String)
        (opts : ChromeTrace.ConvertOptions) (converted : ChromeTrace.Converted),
      ChromeTrace.convert fromStr display it fuel input opts = some (.ok converted) →
        converted.profile.Closed) ∧
    ∀ (display : Value → String) (demangle : String → String) (filename : Option String)
      (p : Heap.HeapProfile), (Heap.build display demangle filename p).1.Closed := by
  refine ⟨fun _ _ _ h => Folded.foldedToPprof_closed h, fun fromStr json opts imported h => ?_,
    fun _ _ _ _ _ _ _ _ h => (V8.build_closed h).1, fun _ _ _ _ _ _ _ h =>
      ChromeTrace.convert_closed h, Heap.build_closed⟩
  rw [Speedscope.speedscopeToPprof] at h
  split at h
  · cases h
  · split at h
    · cases h
    · split at h
      · cases h
      · cases h
        exact Speedscope.importProfile_closed _ _ _

/-- A file whose samples name a frame that is not there. -/
def danglingFile : Speedscope.SpeedscopeFile where
  schema := ""
  name := "profile"
  activeProfileIndex := 0
  exporter := ""
  shared := ⟨[.named "main"]⟩
  profiles := [⟨"sampled", "profile", "none", .fin 0, .fin 3, [[0, 7], [7]], [.fin 2, .fin 1]⟩]

/-- Two nodes that are children of each other, and a child and a sample that are missing. -/
def loopedProfile : V8.CpuProfile where
  nodes := [⟨1, ⟨"main", "", .null, 0, 0⟩, [9]⟩, ⟨2, ⟨"f", "", .null, 0, 0⟩, [3]⟩,
    ⟨3, ⟨"g", "", .null, 0, 0⟩, [2]⟩]
  samples := [1, 8]
  timeDeltas := [5, 5]
  startTime := 0
  endTime := 10

/-- An event with a node and a sample of it. -/
def oneNodeTrace : Value :=
  .array [.object [("name", .string "ProfileChunk"), ("args", .object [("data", .object [
    ("cpuProfile", .object [("nodes", .array [.object [("id", .int 1),
      ("callFrame", .object [("functionName", .string "main")])]]),
      ("samples", .array [.int 1]), ("timeDeltas", .array [.int 5])])])])]]

theorem importers_closed_dangling :
    (∃ imported, Folded.foldedToPprof "main;f 2\n" ⟨"cpu", "nanoseconds", "[folded]"⟩ =
      .ok imported ∧ imported.profile.Closed) ∧
    (∃ imported, Speedscope.speedscopeToPprof (fun _ => some danglingFile.toJson) "" ⟨0, "[wasm]"⟩ =
      .ok imported ∧ imported.profile.Closed) ∧
    (∃ profile stats, V8.build (fun _ => "") id none ⟨id, fun _ => .refl _⟩ 4 loopedProfile =
      some (profile, stats) ∧ profile.Closed) ∧
    ∃ converted, ChromeTrace.convert (fun _ => some oneNodeTrace) (fun _ => "0")
      ⟨id, fun _ => .refl _⟩ 2 "" .default = some (.ok converted) ∧ converted.profile.Closed := by
  have hok : ∀ {α : Type} (x : Except Error α), x.isOk = true → ∃ a, x = .ok a := by
    rintro α (e | a) h
    · cases h
    · exact ⟨a, rfl⟩
  obtain ⟨hfolded, hspeedscope, hcpu, htrace, -⟩ := importers_closed
  refine ⟨?_, ?_, ?_, ?_⟩
  · obtain ⟨imported, h⟩ := hok (Folded.foldedToPprof "main;f 2\n"
      ⟨"cpu", "nanoseconds", "[folded]"⟩) (by decide +kernel)
    exact ⟨imported, h, hfolded _ _ _ h⟩
  · obtain ⟨imported, h⟩ := hok (Speedscope.speedscopeToPprof
      (fun _ => some danglingFile.toJson) "" ⟨0, "[wasm]"⟩) (by decide +kernel)
    exact ⟨imported, h, hspeedscope _ _ _ _ h⟩
  · obtain ⟨⟨profile, stats⟩, h⟩ := Option.isSome_iff_exists.mp
      (show (V8.build (fun _ => "") id none ⟨id, fun _ => .refl _⟩ 4 loopedProfile).isSome = true by
        decide +kernel)
    exact ⟨profile, stats, h, hcpu _ _ _ _ _ _ _ _ h⟩
  · have hrun : ((ChromeTrace.convert (fun _ => some oneNodeTrace) (fun _ => "0")
        ⟨id, fun _ => .refl _⟩ 2 "" .default).map Except.isOk) = some true := by decide +kernel
    obtain ⟨x, hx, hisOk⟩ := Option.map_eq_some_iff.mp hrun
    obtain ⟨converted, rfl⟩ := hok x hisOk
    exact ⟨converted, hx, htrace _ _ _ _ _ _ _ hx⟩

end Importers
