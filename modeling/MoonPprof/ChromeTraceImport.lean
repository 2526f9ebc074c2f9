/-
The events of a Chrome trace, and what the importer takes in of them.

The first part says, on the JSON itself, what it is for an event to carry a
chunk (`ChunkJson`) or to be of no concern (`OtherJson`).  A chunk whose event has
no V8 profile is lost (`BareJson`), with the samples it may have.

* `decodeTraceEvent_of_describes` — such events decode, and are taken in so;
* `decode_events` — of the events of a trace, the chunks that are taken in and
  those that are lost;
* `streams_spec` — after the loop, each key has the chunks taken in for it.
-/
import MoonPprof.ChromeTraceMerge
import Mathlib.Data.List.ReduceOption

open MachineInt Proto V8

namespace ChromeTrace

/-! ### Events as JSON -/

/-- A field whose `null` reads as absent. -/
def present (v : Value) (name : String) : Option Value :=
  match v.get name with
  | some .null => none
  | x => x

structure FrameJson (v : Value) (call : CallFrame) : Prop where
  object : v.isObject = true
  functionName : v.Says "functionName" .string call.functionName ""
  url : v.Says "url" .string call.url ""
  scriptId : v.Says "scriptId" (fun x => x) call.scriptId .null
  lineNumber : v.Says "lineNumber" .int call.lineNumber (-1) ∧ InRange 32 call.lineNumber
  columnNumber : v.Says "columnNumber" .int call.columnNumber (-1) ∧ InRange 32 call.columnNumber

/-- A list of integers that may be left out when empty. -/
def SaysInts (v : Value) (name : String) (xs : List Int) : Prop :=
  v.Says name Value.ints xs [] ∧ ∀ x ∈ xs, InRange 64 x

structure NodeJson (v : Value) (n : RawNode) : Prop where
  object : v.isObject = true
  id : v.get "id" = some (.int n.id) ∧ InRange 64 n.id
  callFrame : ∃ frame, v.get "callFrame" = some frame ∧ FrameJson frame n.callFrame
  children : SaysInts v "children" n.children
  parent : present v "parent" = n.parent.map .int ∧ ∀ q, n.parent = some q → InRange 64 q

/-- The data of an event: `args.data`, or the arguments themselves. -/
inductive DataJson (v : Value) : Value → Prop
  | nested {args data : Value} (_ : v.get "args" = some args) (_ : args.get "data" = some data) :
      DataJson v data
  | flat {args : Value} (_ : v.get "args" = some args) (_ : args.isObject = true)
      (_ : args.get "data" = none) : DataJson v args

/-- The V8 profile in the data, under `cpuProfile` or spelled out there. -/
inductive EmbeddedJson (data : Value) : Value → Prop
  | nested {p : Value} (_ : data.get "cpuProfile" = some p) : EmbeddedJson data p
  | flat {nodes : Value} (_ : data.get "cpuProfile" = none) (_ : data.get "nodes" = some nodes) :
      EmbeddedJson data data

/-- A list given beside the profile or, when that one is empty, in it. -/
def GivenInts (data p : Value) (name : String) (xs : List Int) : Prop :=
  ∃ outer inner, SaysInts data name outer ∧ SaysInts p name inner ∧
    (outer = xs ∧ xs ≠ [] ∨ outer = [] ∧ inner = xs)

def NodesJson (p : Value) (nodes : List RawNode) : Prop :=
  (∃ vs, p.get "nodes" = some (.array vs) ∧ List.Forall₂ NodeJson vs nodes) ∨
    p.get "nodes" = none ∧ nodes = []

/-- The rendered key of the event's stream. -/
def renderKey (display : Value → String) (v : Value) : String :=
  "pid=" ++ valueKey display (present v "pid") ++ "/tid=" ++ valueKey display (present v "tid") ++
    "/id=" ++ ((((present v "id").or (present v "id2")).map fun x =>
      valueKey display (some x)).getD "none")

/-- The chunk of an event with a V8 profile. -/
def CarriedJson (v : Value) (c : ProfileChunk) : Prop :=
  ∃ data p, DataJson v data ∧ EmbeddedJson data p ∧ p.isObject = true ∧
    NodesJson p c.nodes ∧ GivenInts data p "samples" c.samples ∧
    GivenInts data p "timeDeltas" c.timeDeltas

def NoProfile (data : Value) : Prop := data.get "cpuProfile" = none ∧ data.get "nodes" = none

/-- The chunk of an event without one: samples, with as many time deltas, of nodes that other
chunks have. -/
structure BareJson (v : Value) (c : ProfileChunk) : Prop where
  data : ∃ data, DataJson v data ∧ NoProfile data ∧ SaysInts data "samples" c.samples ∧
    SaysInts data "timeDeltas" c.timeDeltas
  nodes : c.nodes = []
  deltas : c.samples.length = c.timeDeltas.length

/-- An event of the profiler. -/
def ProfilerEvent (v : Value) : Prop :=
  ∃ name ∈ ["Profile", "ProfileChunk"], v.get "name" = some (.string name)

/-- A `ProfileChunk` event, or a `Profile` event used like one, that carries the
chunk `c` of the stream `key`; its timestamp reads as a whole number. -/
structure ChunkJson (display : Value → String) (v : Value) (key : String)
    (c : ProfileChunk) : Prop where
  object : v.isObject = true
  name : ProfilerEvent v
  key : renderKey display v = key
  ts : (present v "ts").bind valueToI64 = some c.ts
  profile : CarriedJson v c ∨ BareJson v c

/-- An event without samples: of another name, without a name, or the header of
a stream, which has neither a V8 profile nor samples. -/
structure OtherJson (v : Value) : Prop where
  object : v.isObject = true
  other : present v "name" = none ∨
    ∃ name, v.get "name" = some (.string name) ∧ (name ∉ ["Profile", "ProfileChunk"] ∨
      ∀ data, DataJson v data → NoProfile data ∧ SaysInts data "samples" [])

/-- What one event of a trace is: a chunk of a stream, or nothing of concern. -/
def Describes (display : Value → String) (v : Value) : Option (String × ProfileChunk) → Prop
  | some (key, c) => ChunkJson display v key c
  | none => OtherJson v

/-- A trace with these events, as an array or as an object with `traceEvents`. -/
def Events (json : Value) (vs : List Value) : Prop :=
  json = .array vs ∨ json.get "traceEvents" = some (.array vs)

/-- Samples in the data of the event come with a V8 profile. -/
def SamplesCarried (v : Value) : Prop :=
  ∀ data xs, DataJson v data → data.get "samples" = some (.ints xs) → xs ≠ [] → ¬ NoProfile data

/-- So do all samples in the events of the profiler for a stream. -/
def CarriesSamples (display : Value → String) (json : Value) (key : String) : Prop :=
  ∀ vs, Events json vs → ∀ v ∈ vs, ProfilerEvent v → renderKey display v = key → SamplesCarried v

/-! ### Decoding -/

theorem fieldOpt_some (v : Value) (name : String) :
    v.fieldOpt name some = some (present v name) := by
  rw [Value.fieldOpt, present]
  split <;> simp_all

theorem fieldOr_ints {v : Value} {name : String} {xs : List Int} (h : SaysInts v name xs) :
    v.fieldOr name [] (Value.decodeVec (Value.decodeInt 64)) = some xs :=
  Value.fieldOr_of_says h.1 (Value.decodeVec_ints h.2)

theorem decodeCallFrame_of_frameJson {v : Value} {call : CallFrame} (h : FrameJson v call) :
    decodeCallFrame v = some call := by
  rw [decodeCallFrame, h.object, Value.fieldOr_of_says h.functionName rfl,
    Value.fieldOr_of_says h.url rfl, Value.fieldOr_of_says h.scriptId rfl,
    Value.fieldOr_of_says h.lineNumber.1 (Value.decodeInt_int h.lineNumber.2),
    Value.fieldOr_of_says h.columnNumber.1 (Value.decodeInt_int h.columnNumber.2)]
  rfl

theorem decodeRawNode_of_nodeJson {v : Value} {n : RawNode} (h : NodeJson v n) :
    decodeRawNode v = some n := by
  obtain ⟨frame, hframe, hcall⟩ := h.callFrame
  have hparent : v.fieldOpt "parent" (Value.decodeInt 64) = some n.parent := by
    obtain ⟨hp, hrange⟩ := h.parent
    rw [present] at hp
    rw [Value.fieldOpt]
    rcases hn : n.parent with _ | q
    · rw [hn] at hp
      split at hp <;> simp_all
    · rw [hn] at hp
      split at hp
      · cases hp
      · rw [hp]
        show (Value.decodeInt 64 (.int q)).map some = some (some q)
        rw [Value.decodeInt_int (hrange q hn)]
        rfl
  rw [decodeRawNode, h.object, Value.field, h.id.1, Value.field, hframe, fieldOr_ints h.children,
    hparent]
  simp only [Option.bind_some, Value.decodeInt_int h.id.2, decodeCallFrame_of_frameJson hcall]
  rfl

theorem decodeTraceEvent_eq {v : Value} (hobject : v.isObject = true) {name : Option String}
    (hname : v.fieldOpt "name" Value.decodeString = some name) :
    decodeTraceEvent v = some ⟨name, present v "pid", present v "tid", present v "ts",
      present v "id", present v "id2", (v.get "args").getD .null⟩ := by
  have hargs : v.fieldOr "args" .null some = some ((v.get "args").getD .null) := by
    rw [Value.fieldOr]
    cases v.get "args" <;> rfl
  rw [decodeTraceEvent, hobject, hname, fieldOpt_some, fieldOpt_some, fieldOpt_some, fieldOpt_some,
    fieldOpt_some, hargs]
  rfl

/-! ### Taking events in -/

/-- What an event does to the streams: a chunk is appended to the stream of its
key, and any other event leaves all chunks alone. -/
inductive Ingests (display : Value → String) (e : TraceEvent) :
    Option (String × ProfileChunk) → Prop
  | skip (_ : ∀ name, e.name = some name → name ≠ "Profile" ∧ name ≠ "ProfileChunk") :
      Ingests display e none
  | header {name : String} (_ : e.name = some name)
      (_ : ∀ stream : PartialProfile, ∃ stream' : PartialProfile,
        ingestProfileEvent stream e = .ok stream' ∧ stream'.key = stream.key ∧
          stream'.chunks = stream.chunks) :
      Ingests display e none
  | chunk {name : String} {c : ProfileChunk} (_ : e.name = some name)
      (_ : name = "Profile" ∨ name = "ProfileChunk")
      (_ : ∀ stream : PartialProfile, ∃ stream' : PartialProfile,
        ingestProfileEvent stream e = .ok stream' ∧ stream'.key = stream.key ∧
          stream'.chunks = stream.chunks ++ [c]) :
      Ingests display e (some (e.profileKey display, c))

theorem data_of_dataJson {v data : Value} (h : DataJson v data) (e : TraceEvent)
    (hargs : e.args = (v.get "args").getD .null) : e.data = some data := by
  rw [TraceEvent.data, hargs]
  cases h with
  | nested h hdata =>
    rw [h, Option.getD_some]
    rename_i args
    rw [hdata]
    cases args with
    | object fields => rfl
    | _ => cases hdata
  | flat h hobject hdata =>
    rw [h, Option.getD_some, hobject, hdata]
    rfl

theorem cpuProfileValue_of_embeddedJson {data p : Value} (h : EmbeddedJson data p) :
    cpuProfileValue data = some p := by
  rw [cpuProfileValue]
  cases h with
  | nested h => rw [h]; rfl
  | flat h hnodes => rw [h, hnodes]; rfl

theorem i64VecField_of_saysInts {v : Value} {name : String} {xs : List Int}
    (h : SaysInts v name xs) : i64VecField v name = .ok xs := by
  rw [i64VecField]
  rcases h.1 with hget | ⟨hget, rfl⟩
  · rw [hget]
    simp only [Value.decodeVec_ints h.2]
  · rw [hget]

theorem decodeRawCpuProfile_of_json {p : Value} (hobject : p.isObject = true)
    {nodes : List RawNode} (hnodes : NodesJson p nodes) {samples timeDeltas : List Int}
    (hsamples : SaysInts p "samples" samples) (hdeltas : SaysInts p "timeDeltas" timeDeltas) :
    decodeRawCpuProfile p = some ⟨nodes, samples, timeDeltas⟩ := by
  have hfield : p.fieldOr "nodes" [] (Value.decodeVec decodeRawNode) = some nodes := by
    rw [Value.fieldOr]
    rcases hnodes with ⟨vs, hget, hvs⟩ | ⟨hget, rfl⟩
    · rw [hget]
      exact Value.decodeVec_array (hvs.imp fun _ _ h => decodeRawNode_of_nodeJson h)
    · rw [hget]
  rw [decodeRawCpuProfile, hobject, hfield, fieldOr_ints hsamples, fieldOr_ints hdeltas]
  rfl

/-- The list that the importer settles on. -/
theorem GivenInts.choice {outer inner xs : List Int}
    (h : outer = xs ∧ xs ≠ [] ∨ outer = [] ∧ inner = xs) :
    (if outer.isEmpty then inner else outer) = xs := by
  rcases h with ⟨rfl, hne⟩ | ⟨rfl, rfl⟩
  · rw [if_neg (by simpa using hne)]
  · rfl

/-- Without a V8 profile nothing is appended. -/
theorem ingestProfileEvent_of_noProfile {e : TraceEvent} {data : Value} (hdata : e.data = some data)
    (h : NoProfile data) (stream : PartialProfile) : ∃ stream' : PartialProfile,
      ingestProfileEvent stream e = .ok stream' ∧ stream'.key = stream.key ∧
        stream'.chunks = stream.chunks := by
  have hvalue : cpuProfileValue data = none := by
    rw [cpuProfileValue, h.1, h.2]
    rfl
  rw [ingestProfileEvent, hdata]
  simp only [hvalue]
  exact ⟨_, rfl, rfl, rfl⟩

/-- What is taken in of the event: its chunk, unless it is bare. -/
inductive Taken (v : Value) : Option (String × ProfileChunk) → Option (String × ProfileChunk) → Prop
  | other : Taken v none none
  | carried {key : String} {c : ProfileChunk} (_ : CarriedJson v c) :
      Taken v (some (key, c)) (some (key, c))
  | bare {key : String} {c : ProfileChunk} (_ : BareJson v c) : Taken v (some (key, c)) none

theorem ingests_of_chunkJson {display : Value → String} {v : Value} {key : String}
    {c : ProfileChunk} (h : ChunkJson display v key c) :
    ∃ e taken, decodeTraceEvent v = some e ∧ Ingests display e taken ∧
      Taken v (some (key, c)) taken := by
  obtain ⟨name, hname, hget⟩ := h.name
  have hdecode := decodeTraceEvent_eq h.object
    (show v.fieldOpt "name" Value.decodeString = some (some name) by rw [Value.fieldOpt, hget]; rfl)
  set e : TraceEvent := ⟨some name, present v "pid", present v "tid", present v "ts",
    present v "id", present v "id2", (v.get "args").getD .null⟩ with he
  have hkey : e.profileKey display = key := h.key
  rcases h.profile with hcarried | hbare
  · refine ⟨e, some (key, c), hdecode, ?_, .carried hcarried⟩
    rw [← hkey]
    refine Ingests.chunk rfl (by simpa using hname) fun stream => ?_
    obtain ⟨data, p, hdata, hp, hobject, hnodes, ⟨outer, inner, houter, hinner, hsamples⟩,
      ⟨outer', inner', houter', hinner', hdeltas⟩⟩ := hcarried
    rw [ingestProfileEvent, data_of_dataJson hdata e rfl]
    simp only [cpuProfileValue_of_embeddedJson hp, decodeRawCpuProfile_of_json hobject hnodes hinner
      hinner', i64VecField_of_saysInts houter, i64VecField_of_saysInts houter']
    have hts : e.tsI64 = c.ts := by
      rw [TraceEvent.tsI64, show e.ts = present v "ts" from rfl, h.ts]
      rfl
    refine ⟨_, rfl, rfl, ?_⟩
    simp only [hts, GivenInts.choice hsamples, GivenInts.choice hdeltas]
  -- the importer returns before it reads the samples of a bare event
  · obtain ⟨data, hdata, hno, -⟩ := hbare.data
    exact ⟨e, none, hdecode, .header rfl
      (ingestProfileEvent_of_noProfile (data_of_dataJson hdata e rfl) hno), .bare hbare⟩

theorem dataJson_of_data {v data : Value} {e : TraceEvent}
    (hargs : e.args = (v.get "args").getD .null) (h : e.data = some data) : DataJson v data := by
  rw [TraceEvent.data, hargs] at h
  rcases hget : v.get "args" with _ | args
  · rw [hget] at h
    cases h
  · rw [hget, Option.getD_some] at h
    split at h
    · rename_i hobject
      rcases hdata : args.get "data" with _ | d
      · rw [hdata] at h
        obtain rfl : args = data := Option.some.inj h
        exact .flat hget hobject hdata
      · rw [hdata] at h
        obtain rfl : d = data := Option.some.inj h
        exact .nested hget hdata
    · cases h

theorem ingests_of_otherJson {v : Value} (h : OtherJson v) (display : Value → String) :
    ∃ e, decodeTraceEvent v = some e ∧ Ingests display e none := by
  rcases h.other with hnone | ⟨name, hget, hother⟩
  · have hname : v.fieldOpt "name" Value.decodeString = some none := by
      rw [present] at hnone
      rw [Value.fieldOpt]
      split at hnone <;> simp_all
    exact ⟨_, decodeTraceEvent_eq h.object hname, .skip (by intro name hn; cases hn)⟩
  · have hname : v.fieldOpt "name" Value.decodeString = some (some name) := by
      rw [Value.fieldOpt, hget]
      rfl
    refine ⟨_, decodeTraceEvent_eq h.object hname, ?_⟩
    rcases hother with hnot | hheader
    · refine .skip fun n hn => ?_
      obtain rfl : name = n := Option.some.inj hn
      simpa using hnot
    · refine .header rfl fun stream => ?_
      rw [ingestProfileEvent]
      split
      · exact ⟨_, rfl, rfl, rfl⟩
      · rename_i data hdata
        have h := ingestProfileEvent_of_noProfile hdata
          (hheader data (dataJson_of_data rfl hdata)).1 stream
        rw [ingestProfileEvent, hdata] at h
        exact h

theorem decodeTraceEvent_of_describes {display : Value → String} {v : Value}
    {kind : Option (String × ProfileChunk)} (h : Describes display v kind) :
    ∃ e taken, decodeTraceEvent v = some e ∧ Ingests display e taken ∧ Taken v kind taken := by
  rcases kind with _ | ⟨key, c⟩
  · obtain ⟨e, hdecode, hingests⟩ := ingests_of_otherJson h display
    exact ⟨e, none, hdecode, hingests, .other⟩
  · exact ingests_of_chunkJson h

/-! ### Lost chunks -/

theorem DataJson.unique {v data data' : Value} (h : DataJson v data) (h' : DataJson v data') :
    data = data' := by
  let e : TraceEvent := ⟨none, none, none, none, none, none, (v.get "args").getD .null⟩
  exact Option.some.inj ((data_of_dataJson h e rfl).symm.trans (data_of_dataJson h' e rfl))

theorem SaysInts.eq_of_get {v : Value} {name : String} {xs ys : List Int} (h : SaysInts v name xs)
    (hget : v.get name = some (.ints ys)) : ys = xs := by
  rcases h.1 with hxs | ⟨hnone, -⟩
  · exact Value.ints_injective (Option.some.inj (hget.symm.trans hxs))
  · rw [hnone] at hget
    cases hget

theorem samplesCarried_of_carriedJson {v : Value} {c : ProfileChunk} (h : CarriedJson v c) :
    SamplesCarried v := by
  intro data xs hdata _ _ hno
  obtain ⟨data', p, hdata', hp, -⟩ := h
  obtain rfl := hdata.unique hdata'
  cases hp with
  | nested hget =>
    rw [hno.1] at hget
    cases hget
  | flat _ hget =>
    rw [hno.2] at hget
    cases hget

theorem samplesCarried_of_otherJson {v : Value} (h : OtherJson v) (hname : ProfilerEvent v) :
    SamplesCarried v := by
  intro data xs hdata hget hne _
  obtain ⟨name, hmem, hname⟩ := hname
  rcases h.other with hnone | ⟨name', hname', hnot | hheader⟩
  · rw [present, hname] at hnone
    cases hnone
  · rw [hname, Option.some.injEq, Value.string.injEq] at hname'
    exact hnot (hname' ▸ hmem)
  · exact hne ((hheader data hdata).2.eq_of_get hget)

/-- A bare chunk has its samples in the data, if it has any. -/
theorem samplesCarried_of_bareJson {v : Value} {c : ProfileChunk} (h : BareJson v c) :
    SamplesCarried v ↔ c.samples = [] := by
  obtain ⟨data, hdata, hno, hsamples, -⟩ := h.data
  constructor
  · intro hcarried
    rcases hsamples.1 with hget | ⟨-, hnil⟩
    · by_contra hne
      exact hcarried data c.samples hdata hget hne hno
    · exact hnil
  · intro hnil data' xs hdata' hget hne
    obtain rfl := hdata.unique hdata'
    exact absurd ((hsamples.eq_of_get hget).trans hnil) hne

/-- The events of a trace decode; the chunks that they describe are those taken in and the lost
ones, which have samples only if those are not carried. -/
theorem decode_events {display : Value → String} {vs : List Value}
    {kinds : List (Option (String × ProfileChunk))}
    (h : List.Forall₂ (Describes display) vs kinds) :
    ∃ es taken lost, vs.mapM decodeTraceEvent = some es ∧
      List.Forall₂ (Ingests display) es taken ∧
      kinds.reduceOption.Perm (taken.reduceOption ++ lost) ∧
      (∀ x ∈ lost, x.2.nodes = [] ∧ x.2.samples.length = x.2.timeDeltas.length) ∧
      ∀ key, (∀ v ∈ vs, ProfilerEvent v → renderKey display v = key → SamplesCarried v) ↔
        ∀ x ∈ lost, x.1 = key → x.2.samples = [] := by
  induction h with
  | nil => exact ⟨[], [], [], rfl, .nil, .refl _, by simp, by simp⟩
  | @cons v kind vs kinds hv _ ih =>
    obtain ⟨es, taken, lost, hes, hingests, hperm, hbare, hcarried⟩ := ih
    obtain ⟨e, t, he, hingest, htaken⟩ := decodeTraceEvent_of_describes hv
    have hdecode : (v :: vs).mapM decodeTraceEvent = some (e :: es) := by
      rw [List.mapM_cons, he, hes]
      rfl
    cases htaken with
    | other =>
      refine ⟨e :: es, none :: taken, lost, hdecode, .cons hingest hingests, hperm, hbare,
        fun key => ?_⟩
      rw [List.forall_mem_cons, hcarried key]
      exact and_iff_right fun hname _ => samplesCarried_of_otherJson hv hname
    | @carried key c hc =>
      refine ⟨e :: es, some (key, c) :: taken, lost, hdecode, .cons hingest hingests, ?_, hbare,
        fun key => ?_⟩
      · rw [List.reduceOption_cons_of_some, List.reduceOption_cons_of_some]
        exact hperm.cons _
      · rw [List.forall_mem_cons, hcarried key]
        exact and_iff_right fun _ _ => samplesCarried_of_carriedJson hc
    | @bare key c hc =>
      refine ⟨e :: es, none :: taken, (key, c) :: lost, hdecode, .cons hingest hingests, ?_,
        List.forall_mem_cons.mpr ⟨⟨hc.nodes, hc.deltas⟩, hbare⟩, fun key' => ?_⟩
      · rw [List.reduceOption_cons_of_some, List.reduceOption_cons_of_none]
        exact (hperm.cons _).trans List.perm_middle.symm
      · obtain ⟨-, hname, hkey, -, -⟩ := hv
        rw [List.forall_mem_cons, List.forall_mem_cons, hcarried key', hkey,
          samplesCarried_of_bareJson hc]
        exact and_congr_left fun _ => ⟨fun h => h hname, fun h _ => h⟩

/-! ### The loop over the events -/

/-- The chunks of one stream, in the order they came. -/
def chunksOf (key : String) (kinds : List (Option (String × ProfileChunk))) : List ProfileChunk :=
  (kinds.reduceOption.filter (·.1 = key)).map Prod.snd

/-- After events of these kinds, every key has its chunks. -/
def StreamsInv (kinds : List (Option (String × ProfileChunk)))
    (streams : HashMap String PartialProfile) : Prop :=
  ∀ key, ((streams.lookup key).map PartialProfile.chunks).getD [] = chunksOf key kinds

theorem chunksOf_concat_none (key : String) (kinds : List (Option (String × ProfileChunk))) :
    chunksOf key (kinds ++ [none]) = chunksOf key kinds := by
  rw [chunksOf, List.reduceOption_append, List.reduceOption_singleton, Option.toList_none,
    List.append_nil, ← chunksOf]

theorem chunksOf_concat_some (key : String) (kinds : List (Option (String × ProfileChunk)))
    (x : String × ProfileChunk) :
    chunksOf key (kinds ++ [some x]) =
      if x.1 = key then chunksOf key kinds ++ [x.2] else chunksOf key kinds := by
  rw [chunksOf, List.reduceOption_append, List.reduceOption_singleton, Option.toList_some,
    List.filter_append, List.map_append, ← chunksOf]
  by_cases hx : x.1 = key
  · simp [hx]
  · simp [hx]

/-- Storing a stream under its key changes nothing for the others. -/
theorem StreamsInv.insert {kinds kinds' : List (Option (String × ProfileChunk))}
    {streams : HashMap String PartialProfile} (h : StreamsInv kinds streams) {key : String}
    {stream : PartialProfile} (hself : stream.chunks = chunksOf key kinds')
    (hother : ∀ key', key' ≠ key → chunksOf key' kinds' = chunksOf key' kinds) :
    StreamsInv kinds' (streams.insert key stream) := by
  intro key'
  by_cases hkey : key' = key
  · rw [hkey, AList.lookup_insert]
    exact hself
  · rw [AList.lookup_insert_ne hkey, h key', hother key' hkey]

theorem ingestEvent_spec {display : Value → String}
    {kinds : List (Option (String × ProfileChunk))} {streams : HashMap String PartialProfile}
    (hinv : StreamsInv kinds streams) {e : TraceEvent} {kind : Option (String × ProfileChunk)}
    (h : Ingests display e kind) :
    ∃ streams', ingestEvent display streams e = .ok streams' ∧
      StreamsInv (kinds ++ [kind]) streams' := by
  have hchunks : ∀ key, ((streams.lookup key).getD ⟨key, none, none, []⟩).chunks =
      chunksOf key kinds := by
    intro key
    rw [← hinv key]
    cases streams.lookup key <;> rfl
  have hskip : StreamsInv (kinds ++ [none]) streams := fun key => by
    rw [chunksOf_concat_none, hinv key]
  rw [ingestEvent]
  cases h with
  | skip hname =>
    refine ⟨streams, ?_, hskip⟩
    split
    · rfl
    · rename_i name hn
      rw [if_pos (hname name hn)]
  | @header name hn hingest =>
    rw [hn]
    simp only
    split
    · exact ⟨streams, rfl, hskip⟩
    · obtain ⟨stream', hok, -, hsame⟩ := hingest
        ((streams.lookup (e.profileKey display)).getD ⟨e.profileKey display, none, none, []⟩)
      rw [hok]
      refine ⟨_, rfl, hinv.insert ?_ fun key' _ => chunksOf_concat_none key' kinds⟩
      rw [hsame, hchunks, chunksOf_concat_none]
  | @chunk name c hn hname hingest =>
    rw [hn]
    simp only
    rw [if_neg fun hne => hname.elim hne.1 hne.2]
    obtain ⟨stream', hok, -, hnew⟩ := hingest
      ((streams.lookup (e.profileKey display)).getD ⟨e.profileKey display, none, none, []⟩)
    rw [hok]
    refine ⟨_, rfl, hinv.insert ?_ fun key' hkey' => ?_⟩
    · rw [hnew, hchunks, chunksOf_concat_some, if_pos rfl]
    · rw [chunksOf_concat_some, if_neg (Ne.symm hkey')]

theorem streams_spec {display : Value → String} {es : List TraceEvent}
    {kinds : List (Option (String × ProfileChunk))}
    (h : List.Forall₂ (Ingests display) es kinds)
    {done : List (Option (String × ProfileChunk))} {streams : HashMap String PartialProfile}
    (hinv : StreamsInv done streams) :
    ∃ streams', es.foldlM (ingestEvent display) streams = .ok streams' ∧
      StreamsInv (done ++ kinds) streams' := by
  induction h generalizing done streams with
  | nil => exact ⟨streams, rfl, by rwa [List.append_nil]⟩
  | @cons e kind es kinds he _ ih =>
    obtain ⟨streams₁, hok₁, hinv₁⟩ := ingestEvent_spec hinv he
    obtain ⟨streams', hok', hinv'⟩ := ih hinv₁
    refine ⟨streams', ?_, by rwa [List.append_assoc] at hinv'⟩
    rw [List.foldlM_cons, hok₁]
    exact hok'

end ChromeTrace
