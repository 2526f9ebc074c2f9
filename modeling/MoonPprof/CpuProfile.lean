/-
V8 CPU profiles to pprof (`crates/cpuprofile-to-pprof`).

`build` inverts the children lists into a parent map, charges each sample to its
node and emits one pprof sample per sampled node; the hash map of the counts is
walked in an arbitrary order, and the walk up the parents has an explicit number
of turns, for nothing else bounds it.  The three tables that intern strings,
functions and locations carry the invariant `State.Inv`:

* `internFunction_spec`, `internLocation_spec` — what is interned reads back;
* `stackFrom_spec` — the walk of a node whose parents end (`Ancestry`) emits
  that line of nodes;
* `build_spec` — a profile all of whose sampled nodes have such a line: one
  sample for each, with its stack, its count and its time.
-/
import MoonPprof.Delimited
import MoonPprof.Demangle
import MoonPprof.Json
import MoonPprof.Proto
import Mathlib.Data.List.Dedup

open MachineInt Proto

namespace V8

/-! ### The profile -/

structure CallFrame where
  functionName : String
  url : String
  scriptId : Value
  lineNumber : Int
  columnNumber : Int

structure CpuNode where
  id : Int
  callFrame : CallFrame
  children : List Int

structure CpuProfile where
  nodes : List CpuNode
  samples : List Int
  timeDeltas : List Int
  startTime : Int
  endTime : Int

structure Stats where
  samples : Nat
  functions : Nat
  locations : Nat
deriving DecidableEq

/-! ### The interning state -/

structure State where
  strings : InternTable String
  functions : List Function
  funcIndex : HashMap String Nat
  locations : List Location
  locByNode : HashMap Int Nat
  samples : List Sample

def State.intern (st : State) (s : String) : Int × State :=
  let (id, strings) := st.strings.intern s
  (id, { st with strings })

/-- The fixed strings are interned first. -/
def State.new : State :=
  let st : State := ⟨(InternTable.empty.intern "").2, [], ∅, [], ∅, []⟩
  let (_, st) := st.intern "samples"
  let (_, st) := st.intern "count"
  let (_, st) := st.intern "cpu"
  let (_, st) := st.intern "nanoseconds"
  st

/-- The function name, an empty one being anonymous. -/
def rawName (call : CallFrame) : String :=
  if call.functionName.isEmpty then "(anonymous)" else call.functionName

/-- A line counted from 1, with 0 for an unknown one. -/
def lineFrom1 (call : CallFrame) : Int :=
  if call.lineNumber ≥ 0 then call.lineNumber + 1 else 0

section

-- `display` prints a JSON value; `demangle` is the symbol decoder in use.
variable (display : Value → String) (demangle : String → String)

/-- The key by which functions are told apart. -/
def funcKey (call : CallFrame) : String :=
  rawName call ++ "\u001f" ++ call.url ++ "\u001f" ++ display call.scriptId

def State.internFunction (st : State) (call : CallFrame) : Nat × State :=
  let raw := rawName call
  let key := funcKey display call
  match st.funcIndex.lookup key with
  | some id => (id, st)
  | none =>
    let pretty := demangle raw
    let id := st.functions.length + 1
    let (name, st) := st.intern pretty
    let (systemName, st) := st.intern raw
    let (filename, st) := st.intern call.url
    (id, { st with
      functions := st.functions ++ [⟨id, name, systemName, filename, lineFrom1 call⟩]
      funcIndex := st.funcIndex.insert key id })

def State.internLocation (st : State) (node : CpuNode) : Nat × State :=
  match st.locByNode.lookup node.id with
  | some id => (id, st)
  | none =>
    let (funcId, st) := st.internFunction display demangle node.callFrame
    let id := st.locations.length + 1
    (id, { st with
      locations := st.locations ++ [⟨id, 1, 0, [⟨funcId, lineFrom1 node.callFrame, 0⟩], false⟩]
      locByNode := st.locByNode.insert node.id id })

/-- `string_index[s]`. -/
def State.stringId (st : State) (s : String) : Int := ((st.strings.index.lookup s).getD 0 : Nat)

def State.finish (st : State) (mappingFilename periodNs timeNanos durationNanos : Int) : Profile :=
  let cpu : ValueType := ⟨st.stringId "cpu", st.stringId "nanoseconds"⟩
  { sampleType := [⟨st.stringId "samples", st.stringId "count"⟩, cpu]
    sample := st.samples
    mapping := [⟨1, 0, 0, 0, mappingFilename, 0, true, false, false, false⟩]
    location := st.locations
    function := st.functions
    stringTable := st.strings.items
    dropFrames := 0
    keepFrames := 0
    timeNanos := timeNanos
    durationNanos := durationNanos
    periodType := some cpu
    period := periodNs
    comment := []
    defaultSampleType := 0
    docUrl := 0 }

/-! ### The conversion -/

def nodeById (nodes : List CpuNode) : HashMap Int CpuNode := HashMap.indexBy CpuNode.id nodes

/-- The parent of each node that some node lists as its child. -/
def parentMap (nodes : List CpuNode) : HashMap Int Int :=
  nodes.foldl (fun m n => n.children.foldl (fun m c => m.insert c n.id) m) ∅

/-- The `while` loop of `stack_for_node`, with the turns it may take. -/
def stackFrom (byId : HashMap Int CpuNode) (parent : HashMap Int Int) :
    Nat → Option Int → State → List Nat → Option (List Nat × State)
  | _, none, st, stack => some (stack, st)
  | 0, some _, _, _ => none
  | fuel + 1, some nid, st, stack =>
    match byId.lookup nid with
    | none => some (stack, st)
    | some node =>
      let (loc, st) := st.internLocation display demangle node
      stackFrom byId parent fuel (parent.lookup nid) st (stack ++ [loc])

def stackForNode (byId : HashMap Int CpuNode) (parent : HashMap Int Int) (fuel : Nat) (leaf : Int)
    (st : State) (cache : HashMap Int (List Nat)) :
    Option (List Nat × State × HashMap Int (List Nat)) :=
  match cache.lookup leaf with
  | some cached => some (cached, st, cache)
  | none => do
    let (stack, st) ← stackFrom display demangle byId parent fuel (some leaf) st []
    some (stack, st, cache.insert leaf stack)

/-- Each sample with its time delta, missing deltas being 0. -/
def CpuProfile.charges (p : CpuProfile) : List (Int × Int) :=
  p.samples.zipIdx.map fun x => (x.1, p.timeDeltas[x.2]?.getD 0)

def countByNode (charges : List (Int × Int)) : HashMap Int Int :=
  HashMap.groupFold Prod.fst (fun count _ => wrap 64 (count + 1)) 0 charges ∅

def usByNode (charges : List (Int × Int)) : HashMap Int Int :=
  HashMap.groupFold Prod.fst (fun us x => wrap 64 (us + x.2)) 0 charges ∅

/-- The sample of one entry of the counts. -/
def pushSample (byId : HashMap Int CpuNode) (parent us : HashMap Int Int) (fuel : Nat)
    (acc : State × HashMap Int (List Nat)) (e : Sigma fun _ : Int => Int) :
    Option (State × HashMap Int (List Nat)) := do
  let us := (us.lookup e.1).getD 0
  let (locationId, st, cache) ← stackForNode display demangle byId parent fuel e.1 acc.1 acc.2
  some ({ st with samples := st.samples ++ [⟨locationId, [e.2, wrap 64 (us * 1000)], []⟩] }, cache)

def periodNs (charges : List (Int × Int)) : Int :=
  let totalUs := charges.foldl (fun total x => wrap 64 (total + x.2)) 0
  if charges.isEmpty then 1
  else
    let avgUs := ((F64.ofInt totalUs).div (F64.ofInt charges.length)).round.toI64
    max (wrap 64 (avgUs * 1000)) 1

/-- `Builder::build`; `none` when `fuel` turns do not end a walk up the parents. -/
def build (mappingFilename : Option String) (it : IterOrder (Sigma fun _ : Int => Int))
    (fuel : Nat) (p : CpuProfile) : Option (Profile × Stats) := do
  let (filename, st) := State.new.intern (mappingFilename.getD "")
  let (st, _) ← (it.order (countByNode p.charges).entries).foldlM
    (pushSample display demangle (nodeById p.nodes) (parentMap p.nodes) (usByNode p.charges) fuel)
    (st, ∅)
  let stats := ⟨st.samples.length, st.functions.length, st.locations.length⟩
  let timeNanos := saturate 64 (p.startTime * 1000)
  let durationNanos := saturate 64 (saturate 64 (p.endTime - p.startTime) * 1000)
  some (st.finish filename (periodNs p.charges) timeNanos durationNanos, stats)

end

/-- The default demangler, `moonbit_demangle::demangle`. -/
def moonbitDemangle (s : String) : String :=
  (String.fromUTF8? ⟨(Demangle.demangle s.toUTF8.toList).toArray⟩).getD s

/-! ### Known and new rows -/

section

variable {display : Value → String} {demangle : String → String} {st : State}

theorem internFunction_known {call : CallFrame} {id : Nat}
    (h : st.funcIndex.lookup (funcKey display call) = some id) :
    st.internFunction display demangle call = (id, st) := by
  rw [State.internFunction]
  simp only [h]

/-- A new function: its three strings, and then its row. -/
theorem internFunction_new {call : CallFrame}
    (h : st.funcIndex.lookup (funcKey display call) = none) :
    let st₁ := (st.intern (demangle (rawName call))).2
    let st₂ := (st₁.intern (rawName call)).2
    let st₃ := (st₂.intern call.url).2
    st.internFunction display demangle call = (st.functions.length + 1, { st₃ with
      functions := st.functions ++ [⟨st.functions.length + 1,
        (st.intern (demangle (rawName call))).1, (st₁.intern (rawName call)).1,
        (st₂.intern call.url).1, lineFrom1 call⟩]
      funcIndex := st.funcIndex.insert (funcKey display call) (st.functions.length + 1) }) := by
  rw [State.internFunction]
  simp only [h]
  rfl

theorem internLocation_known {node : CpuNode} {id : Nat}
    (h : st.locByNode.lookup node.id = some id) :
    st.internLocation display demangle node = (id, st) := by
  rw [State.internLocation]
  simp only [h]

/-- A new location: its function, and then its row. -/
theorem internLocation_new {node : CpuNode} (h : st.locByNode.lookup node.id = none) :
    let r := st.internFunction display demangle node.callFrame
    st.internLocation display demangle node = (r.2.locations.length + 1, { r.2 with
      locations := r.2.locations ++ [⟨r.2.locations.length + 1, 1, 0,
        [⟨r.1, lineFrom1 node.callFrame, 0⟩], false⟩]
      locByNode := r.2.locByNode.insert node.id (r.2.locations.length + 1) }) := by
  rw [State.internLocation]
  simp only [h]

end

/-! ### What is interned reads back -/

theorem State.intern_spec (st : State) (s : String) :
    getString (st.intern s).2.strings.items (st.intern s).1 = some s ∧
      st.strings.items <+: (st.intern s).2.strings.items := by
  refine ⟨?_, st.strings.intern_isPrefix s⟩
  show getString (st.strings.intern s).2.items ((st.strings.intern s).1 : Int) = some s
  rw [getString_natCast, InternTable.intern_get]

def State.tables (st : State) : Tables := ⟨st.strings.items, st.functions, st.locations⟩

/-- The separator of the function keys occurs in neither string. -/
def Separable (call : CallFrame) : Prop :=
  '\u001f' ∉ call.functionName.toList ∧ '\u001f' ∉ call.url.toList

/-- The name by which a call is shown: that of its function, if it has one. -/
def shownName (call : CallFrame) : String :=
  if call.functionName = "" then "(anonymous)" else call.functionName

/-- How a node reads in the finished profile: lines are counted from 1 there. -/
def readFrame (demangle : String → String) (call : CallFrame) : ReadFrame where
  name := demangle (shownName call)
  systemName := shownName call
  filename := call.url
  line := max 0 (call.lineNumber + 1)

theorem rawName_eq (call : CallFrame) : rawName call = shownName call := by
  rw [rawName, shownName]
  by_cases hempty : call.functionName = ""
  · rw [if_pos hempty, if_pos (String.isEmpty_iff.mpr hempty)]
  · rw [if_neg hempty, if_neg fun h => hempty (String.isEmpty_iff.mp h)]

theorem lineFrom1_eq (call : CallFrame) : lineFrom1 call = max 0 (call.lineNumber + 1) := by
  rw [lineFrom1]
  split
  · rw [max_eq_right (by omega)]
  · rw [max_eq_left (by omega)]

/-- A node reads as the converter writes it. -/
theorem readFrame_eq (demangle : String → String) (call : CallFrame) :
    readFrame demangle call = ⟨demangle (rawName call), rawName call, call.url, lineFrom1 call⟩ := by
  rw [rawName_eq, lineFrom1_eq]
  rfl

section

variable {display : Value → String} {demangle : String → String} {byId : HashMap Int CpuNode}
  {parent : HashMap Int Int}

/-- Equal keys belong to equal names and URLs. -/
theorem funcKey_inj {call call' : CallFrame} (h : Separable call) (h' : Separable call')
    (hkey : funcKey display call = funcKey display call') :
    rawName call = rawName call' ∧ call.url = call'.url := by
  have hraw : ∀ {c : CallFrame}, Separable c → '\u001f' ∉ (rawName c).toList := by
    intro c hc
    rw [rawName]
    split
    · decide
    · exact hc.1
  have hlist := congrArg String.toList hkey
  simp only [funcKey, String.toList_append] at hlist
  have hsep : ("\u001f" : String).toList = ['\u001f'] := by decide
  rw [hsep] at hlist
  simp only [List.append_assoc, List.singleton_append] at hlist
  obtain ⟨hname, hrest⟩ := Delimited.append_cons_inj (hraw h) (hraw h') hlist
  obtain ⟨hurl, -⟩ := Delimited.append_cons_inj h.2 h'.2 hrest
  exact ⟨String.toList_inj.mp hname, String.toList_inj.mp hurl⟩

/-- The tables agree with the maps that index them. -/
structure State.Inv (display : Value → String) (demangle : String → String)
    (byId : HashMap Int CpuNode) (st : State) : Prop where
  functionIds : CountsFrom1 Function.id st.functions
  locationIds : CountsFrom1 Location.id st.locations
  funcIndex : ∀ key id, st.funcIndex.lookup key = some id → ∃ call, Separable call ∧
    key = funcKey display call ∧
    st.tables.FunctionAt id (demangle (rawName call)) (rawName call) call.url
  locByNode : ∀ nid id, st.locByNode.lookup nid = some id → ∃ node, byId.lookup nid = some node ∧
    st.tables.LocationAt id (readFrame demangle node.callFrame)

theorem internFunction_spec {st : State} (hinv : st.Inv display demangle byId) {call : CallFrame}
    (hsep : Separable call) :
    let r := st.internFunction display demangle call
    r.2.Inv display demangle byId ∧ st.tables.Extends r.2.tables ∧
      r.2.tables.FunctionAt r.1 (demangle (rawName call)) (rawName call) call.url ∧
      r.2.locations = st.locations ∧ r.2.samples = st.samples := by
  intro r
  rcases hlookup : st.funcIndex.lookup (funcKey display call) with _ | id
  · -- a new function: three strings and a row
    obtain ⟨hname, hext₁⟩ := st.intern_spec (demangle (rawName call))
    set st₁ := (st.intern (demangle (rawName call))).2
    obtain ⟨hsys, hext₂⟩ := st₁.intern_spec (rawName call)
    set st₂ := (st₁.intern (rawName call)).2
    obtain ⟨hfile, hext₃⟩ := st₂.intern_spec call.url
    set st₃ := (st₂.intern call.url).2
    set f : Function := ⟨st.functions.length + 1, (st.intern (demangle (rawName call))).1,
      (st₁.intern (rawName call)).1, (st₂.intern call.url).1, lineFrom1 call⟩
    have hr : r = (st.functions.length + 1, { st₃ with
        functions := st.functions ++ [f]
        funcIndex := st.funcIndex.insert (funcKey display call) (st.functions.length + 1) }) :=
      internFunction_new hlookup
    have hext : st.tables.Extends r.2.tables := by
      rw [hr]
      exact ⟨hext₁.trans (hext₂.trans hext₃), List.prefix_append _ _, List.prefix_refl _⟩
    have hat : r.2.tables.FunctionAt r.1 (demangle (rawName call)) (rawName call) call.url := by
      rw [hr]
      exact Tables.functionAt_concat (getString_of_isPrefix (hext₂.trans hext₃) hname)
        (getString_of_isPrefix hext₃ hsys) hfile
    refine ⟨⟨?_, ?_, ?_, ?_⟩, hext, hat, by rw [hr]; rfl, by rw [hr]; rfl⟩
    · rw [hr]
      exact hinv.functionIds.append rfl
    · rw [hr]
      exact hinv.locationIds
    · intro key id hid
      rw [hr] at hid
      rcases HashMap.lookup_insert_cases hid with ⟨hkey, rfl⟩ | hold
      · rw [hr] at hat ⊢
        exact ⟨call, hsep, hkey, hat⟩
      · obtain ⟨call', hsep', hkey', hf⟩ := hinv.funcIndex key id hold
        exact ⟨call', hsep', hkey', hf.extend hext⟩
    · intro nid id hid
      have hold : st.locByNode.lookup nid = some id := by
        rw [hr] at hid
        exact hid
      obtain ⟨node, hnode, hloc⟩ := hinv.locByNode nid id hold
      exact ⟨node, hnode, hloc.extend hext⟩
  · have hr : r = (id, st) := internFunction_known hlookup
    -- a known key was made from the same name and URL
    obtain ⟨call', hsep', hkey, hf⟩ := hinv.funcIndex _ _ hlookup
    obtain ⟨hname, hurl⟩ := funcKey_inj hsep hsep' hkey
    rw [hr, hname, hurl]
    exact ⟨hinv, .refl _, hf, rfl, rfl⟩

theorem internLocation_spec {st : State} (hinv : st.Inv display demangle byId) {node : CpuNode}
    (hnode : byId.lookup node.id = some node) (hsep : Separable node.callFrame) :
    let r := st.internLocation display demangle node
    r.2.Inv display demangle byId ∧ st.tables.Extends r.2.tables ∧
      r.2.tables.LocationAt r.1 (readFrame demangle node.callFrame) ∧
      r.2.samples = st.samples := by
  intro r
  rcases hlookup : st.locByNode.lookup node.id with _ | id
  · obtain ⟨hinv₁, hext₁, hf, hlocs, hsamples⟩ := internFunction_spec hinv hsep
    set r₁ := st.internFunction display demangle node.callFrame
    set loc : Location :=
      ⟨st.locations.length + 1, 1, 0, [⟨r₁.1, lineFrom1 node.callFrame, 0⟩], false⟩
    have hr : r = (st.locations.length + 1, { r₁.2 with
        locations := st.locations ++ [loc]
        locByNode := r₁.2.locByNode.insert node.id (st.locations.length + 1) }) := by
      show st.internLocation display demangle node = _
      rw [internLocation_new hlookup, show (st.internFunction display demangle
        node.callFrame).2.locations = st.locations from hlocs]
    -- the new location is the only row that is added after the function
    have hext₂ : r₁.2.tables.Extends r.2.tables := by
      rw [hr]
      refine ⟨List.prefix_refl _, List.prefix_refl _, ?_⟩
      show r₁.2.locations <+: st.locations ++ [loc]
      rw [hlocs]
      exact List.prefix_append _ _
    have hat : r.2.tables.LocationAt r.1 (readFrame demangle node.callFrame) := by
      have hf' := hf.extend hext₂
      rw [readFrame_eq, hr]
      rw [hr] at hf'
      refine ⟨st.locations.length, loc, _, rfl, ?_, rfl, rfl, hf'⟩
      show (st.locations ++ [loc])[st.locations.length]? = some loc
      exact List.getElem?_concat_length
    refine ⟨⟨?_, ?_, ?_, ?_⟩, hext₁.trans hext₂, hat, by rw [hr]; exact hsamples⟩
    · rw [hr]
      exact hinv₁.functionIds
    · rw [hr]
      exact hinv.locationIds.append rfl
    · intro key id hid
      rw [hr] at hid
      obtain ⟨call', hsep', hkey', hf'⟩ := hinv₁.funcIndex key id hid
      exact ⟨call', hsep', hkey', hf'.extend hext₂⟩
    · intro nid id hid
      rw [hr] at hid
      rcases HashMap.lookup_insert_cases hid with ⟨rfl, rfl⟩ | hold
      · rw [hr] at hat ⊢
        exact ⟨node, hnode, hat⟩
      · obtain ⟨node', hnode', hloc⟩ := hinv₁.locByNode nid id hold
        exact ⟨node', hnode', hloc.extend hext₂⟩
  · have hr : r = (id, st) := internLocation_known hlookup
    obtain ⟨node', hnode', hloc⟩ := hinv.locByNode _ _ hlookup
    obtain rfl : node = node' := Option.some.inj (hnode.symm.trans hnode')
    rw [hr]
    exact ⟨hinv, .refl _, hloc, rfl⟩

/-! ### The walk up the parents -/

/-- The nodes from `id` up, ending at one without a parent. -/
inductive Ancestry (byId : HashMap Int CpuNode) (parent : HashMap Int Int) :
    Int → List CpuNode → Prop
  | root {id : Int} {n : CpuNode} (_ : byId.lookup id = some n) (_ : parent.lookup id = none) :
      Ancestry byId parent id [n]
  | child {id q : Int} {n : CpuNode} {ns : List CpuNode} (_ : byId.lookup id = some n)
      (_ : parent.lookup id = some q) (_ : Ancestry byId parent q ns) :
      Ancestry byId parent id (n :: ns)

theorem stackFrom_spec (hid : ∀ id n, byId.lookup id = some n → n.id = id)
    (hsep : ∀ id n, byId.lookup id = some n → Separable n.callFrame) {leaf : Int}
    {ns : List CpuNode} (hanc : Ancestry byId parent leaf ns) {fuel : Nat}
    (hfuel : ns.length ≤ fuel) {st : State} (hinv : st.Inv display demangle byId)
    (stack : List Nat) :
    ∃ ids st', stackFrom display demangle byId parent fuel (some leaf) st stack =
        some (stack ++ ids, st') ∧
      st'.Inv display demangle byId ∧ st.tables.Extends st'.tables ∧
      List.Forall₂ st'.tables.LocationAt ids (ns.map fun n => readFrame demangle n.callFrame) ∧
      st'.samples = st.samples := by
  induction hanc generalizing fuel st stack with
  | @root id n hn hp =>
    obtain ⟨fuel, rfl⟩ : ∃ k, fuel = k + 1 := ⟨fuel - 1, by simp at hfuel; omega⟩
    obtain ⟨hinv', hext, hloc, hsamples⟩ := internLocation_spec hinv
      (by rw [hid id n hn]; exact hn) (hsep id n hn)
    refine ⟨_, _, ?_, hinv', hext, List.Forall₂.cons hloc List.Forall₂.nil, hsamples⟩
    rw [stackFrom, hn]
    simp only
    rw [hp, stackFrom]
  | @child id q n ns hn hp hrest ih =>
    obtain ⟨fuel, rfl⟩ : ∃ k, fuel = k + 1 := ⟨fuel - 1, by simp at hfuel; omega⟩
    obtain ⟨hinv₁, hext₁, hloc, hsamples₁⟩ := internLocation_spec hinv
      (by rw [hid id n hn]; exact hn) (hsep id n hn)
    obtain ⟨ids, st', hrun, hinv', hext', hids, hsamples'⟩ :=
      ih (show ns.length ≤ fuel by simpa using hfuel) hinv₁
        (stack ++ [(st.internLocation display demangle n).1])
    refine ⟨(st.internLocation display demangle n).1 :: ids, st', ?_, hinv', hext₁.trans hext',
      List.Forall₂.cons (hloc.extend hext') hids, hsamples'.trans hsamples₁⟩
    rw [stackFrom, hn]
    simp only
    rw [hp, hrun, List.append_assoc, List.singleton_append]

/-! ### The indices -/

theorem nodeById_lookup {nodes : List CpuNode} {id : Int} {n : CpuNode}
    (h : (nodeById nodes).lookup id = some n) : n ∈ nodes ∧ n.id = id :=
  HashMap.lookup_indexBy h

/-- With distinct ids every node is found under its own. -/
theorem nodeById_of_mem {nodes : List CpuNode} (hnodup : (nodes.map CpuNode.id).Nodup)
    {n : CpuNode} (h : n ∈ nodes) : (nodeById nodes).lookup n.id = some n :=
  HashMap.indexBy_of_mem hnodup h

theorem lookup_foldl_children (q c : Int) (children : List Int) (m : HashMap Int Int) :
    (children.foldl (fun m c => m.insert c q) m).lookup c =
      if c ∈ children then some q else m.lookup c := by
  induction children generalizing m with
  | nil => simp
  | cons x children ih =>
    rw [List.foldl_cons, ih]
    by_cases hc : c ∈ children
    · rw [if_pos hc, if_pos (List.mem_cons_of_mem _ hc)]
    · rw [if_neg hc]
      by_cases hx : c = x
      · rw [hx, AList.lookup_insert, if_pos List.mem_cons_self]
      · rw [AList.lookup_insert_ne hx, if_neg (by simp [hx, hc])]

/-- The parent map holds a node that lists the child, when there is one. -/
theorem parentMap_lookup (nodes : List CpuNode) (c : Int) :
    match (parentMap nodes).lookup c with
    | some q => ∃ n ∈ nodes, n.id = q ∧ c ∈ n.children
    | none => ∀ n ∈ nodes, c ∉ n.children := by
  induction nodes using List.reverseRecOn with
  | nil => simp [parentMap]
  | append_singleton nodes x ih =>
    rw [parentMap, List.foldl_append, List.foldl_cons, List.foldl_nil, ← parentMap,
      lookup_foldl_children]
    by_cases hc : c ∈ x.children
    · rw [if_pos hc]
      exact ⟨x, by simp, rfl, hc⟩
    · rw [if_neg hc]
      rcases hl : (parentMap nodes).lookup c with _ | q
      · rw [hl] at ih
        intro n hn
        rcases List.mem_append.mp hn with hn | hn
        · exact ih n hn
        · rwa [List.mem_singleton.mp hn]
      · rw [hl] at ih
        obtain ⟨n, hn, hid, hcn⟩ := ih
        exact ⟨n, by simp [hn], hid, hcn⟩

/-! ### Counts and times -/

theorem charges_map_fst (p : CpuProfile) : p.charges.map Prod.fst = p.samples := by
  rw [CpuProfile.charges, List.map_map]
  exact List.zipIdx_map_fst 0 p.samples

/-- The time charged to a node. -/
def CpuProfile.timeOf (p : CpuProfile) (id : Int) : Int :=
  ((p.charges.filter (·.1 = id)).map Prod.snd).sum

theorem filter_charges (p : CpuProfile) (id : Int) :
    (p.charges.filter (·.1 = id)).length = p.samples.count id := by
  rw [← charges_map_fst p, List.count_eq_countP, List.countP_map, ← List.countP_eq_length_filter]
  rfl

theorem filter_charges_isEmpty (p : CpuProfile) (id : Int) :
    (p.charges.filter (·.1 = id)).isEmpty = true ↔ id ∉ p.samples := by
  rw [List.isEmpty_iff, ← List.length_eq_zero_iff, filter_charges, List.count_eq_zero]

theorem lookup_countByNode (p : CpuProfile) (id : Int) :
    (countByNode p.charges).lookup id =
      if id ∈ p.samples.dedup then some (wrap 64 (p.samples.count id)) else none := by
  have hcount := foldl_wrap_add 64 (fun _ => 1) (p.charges.filter (·.1 = id)) 0
  rw [wrap_zero, zero_add, List.map_const', List.sum_replicate, filter_charges, nsmul_eq_mul,
    mul_one] at hcount
  rw [countByNode, HashMap.lookup_groupFold, hcount]
  by_cases hmem : id ∈ p.samples
  · rw [if_neg (by rw [filter_charges_isEmpty]; simpa using hmem),
      if_pos (List.mem_dedup.mpr hmem)]
  · rw [if_pos ((filter_charges_isEmpty p id).mpr hmem),
      if_neg (by rwa [List.mem_dedup])]

theorem lookup_usByNode (p : CpuProfile) (id : Int) :
    ((usByNode p.charges).lookup id).getD 0 = wrap 64 (p.timeOf id) := by
  have htime := foldl_wrap_add 64 Prod.snd (p.charges.filter (·.1 = id)) 0
  rw [wrap_zero, zero_add] at htime
  rw [usByNode, HashMap.lookup_groupFold, CpuProfile.timeOf]
  by_cases hmem : id ∈ p.samples
  · rw [if_neg (by rw [filter_charges_isEmpty]; simpa using hmem), htime, Option.getD_some]
  · have hnil := (filter_charges_isEmpty p id).mpr hmem
    rw [if_pos hnil, List.isEmpty_iff.mp hnil]
    simp

/-! ### One sample per node -/

/-- The stacks in the cache read as the lines of nodes they stand for. -/
def CacheReads (demangle : String → String) (anc : Int → List CpuNode) (st : State)
    (cache : HashMap Int (List Nat)) : Prop :=
  ∀ k ids, cache.lookup k = some ids →
    List.Forall₂ st.tables.LocationAt ids ((anc k).map fun n => readFrame demangle n.callFrame)

theorem forall₂_extend {t t' : Tables} (h : t.Extends t') {ids : List Nat}
    {frames : List ReadFrame} (hids : List.Forall₂ t.LocationAt ids frames) :
    List.Forall₂ t'.LocationAt ids frames :=
  hids.imp fun _ _ hl => hl.extend h

theorem stackForNode_spec (hid : ∀ id n, byId.lookup id = some n → n.id = id)
    (hsep : ∀ id n, byId.lookup id = some n → Separable n.callFrame)
    {anc : Int → List CpuNode} {leaf : Int} (hanc : Ancestry byId parent leaf (anc leaf))
    {fuel : Nat} (hfuel : (anc leaf).length ≤ fuel) {st : State}
    (hinv : st.Inv display demangle byId) {cache : HashMap Int (List Nat)}
    (hcache : CacheReads demangle anc st cache) :
    ∃ ids st' cache', stackForNode display demangle byId parent fuel leaf st cache =
        some (ids, st', cache') ∧
      st'.Inv display demangle byId ∧ st.tables.Extends st'.tables ∧
      CacheReads demangle anc st' cache' ∧
      List.Forall₂ st'.tables.LocationAt ids
        ((anc leaf).map fun n => readFrame demangle n.callFrame) ∧
      st'.samples = st.samples := by
  rw [stackForNode]
  rcases hlookup : cache.lookup leaf with _ | ids
  · obtain ⟨ids, st', hrun, hinv', hext, hids, hsamples⟩ :=
      stackFrom_spec hid hsep hanc hfuel hinv []
    refine ⟨ids, st', cache.insert leaf ids, by simp [hrun], hinv', hext, ?_, hids, hsamples⟩
    intro k ids' hk
    rcases HashMap.lookup_insert_cases hk with ⟨rfl, rfl⟩ | hold
    · exact hids
    · exact forall₂_extend hext (hcache k ids' hold)
  · exact ⟨ids, st, cache, rfl, hinv, .refl _, hcache, hcache leaf ids hlookup, rfl⟩

/-- The loop over the counts pushes one sample per entry. -/
theorem pushSamples_spec (hid : ∀ id n, byId.lookup id = some n → n.id = id)
    (hsep : ∀ id n, byId.lookup id = some n → Separable n.callFrame)
    {anc : Int → List CpuNode} (us : HashMap Int Int) {fuel : Nat}
    {entries : List (Sigma fun _ : Int => Int)}
    (hanc : ∀ e ∈ entries, Ancestry byId parent e.1 (anc e.1))
    (hfuel : ∀ e ∈ entries, (anc e.1).length ≤ fuel) {st : State}
    (hinv : st.Inv display demangle byId) {cache : HashMap Int (List Nat)}
    (hcache : CacheReads demangle anc st cache) :
    ∃ st' cache' new, entries.foldlM (pushSample display demangle byId parent us fuel)
        (st, cache) = some (st', cache') ∧
      st'.Inv display demangle byId ∧ st.tables.Extends st'.tables ∧
      st'.samples = st.samples ++ new ∧
      List.Forall₂ (fun (s : Sample) e => s.value = [e.2, wrap 64 ((us.lookup e.1).getD 0 * 1000)] ∧
        List.Forall₂ st'.tables.LocationAt s.locationId
          ((anc e.1).map fun n => readFrame demangle n.callFrame)) new entries := by
  induction entries generalizing st cache with
  | nil => exact ⟨st, cache, [], rfl, hinv, .refl _, by simp, List.Forall₂.nil⟩
  | cons e entries ih =>
    obtain ⟨ids, st₁, cache₁, hstack, hinv₁, hext₁, hcache₁, hids, hsamples₁⟩ :=
      stackForNode_spec hid hsep (hanc e (by simp)) (hfuel e (by simp)) hinv hcache
    set s : Sample := ⟨ids, [e.2, wrap 64 ((us.lookup e.1).getD 0 * 1000)], []⟩
    obtain ⟨st', cache', new, hrun, hinv', hext', hsamples', hnew⟩ :=
      ih (fun x hx => hanc x (by simp [hx])) (fun x hx => hfuel x (by simp [hx]))
        (show State.Inv display demangle byId { st₁ with samples := st₁.samples ++ [s] } from
          ⟨hinv₁.functionIds, hinv₁.locationIds, hinv₁.funcIndex, hinv₁.locByNode⟩) hcache₁
    refine ⟨st', cache', s :: new, ?_, hinv', hext₁.trans hext', ?_,
      List.Forall₂.cons ⟨rfl, forall₂_extend hext' hids⟩ hnew⟩
    · rw [List.foldlM_cons, pushSample, hstack]
      exact hrun
    · rw [hsamples', hsamples₁, List.append_assoc, List.singleton_append]

theorem inv_new (display : Value → String) (demangle : String → String)
    (byId : HashMap Int CpuNode) (s : String) :
    (State.new.intern s).2.Inv display demangle byId where
  functionIds := by intro i f h; cases h
  locationIds := by intro i f h; cases h
  funcIndex := by intro key id h; cases h
  locByNode := by intro nid id h; cases h

/-- Pushed samples read back in the finished profile. -/
theorem map_readStack {st : State} (hinv : st.Inv display demangle byId)
    {anc : Int → List CpuNode} {value : (Sigma fun _ : Int => Int) → List Int}
    {new : List Sample} {entries : List (Sigma fun _ : Int => Int)}
    (hnew : List.Forall₂ (fun (s : Sample) e => s.value = value e ∧
      List.Forall₂ st.tables.LocationAt s.locationId
        ((anc e.1).map fun n => readFrame demangle n.callFrame)) new entries)
    (filename period time duration : Int) :
    new.map (fun s => ((st.finish filename period time duration).readStack s, s.value)) =
      entries.map fun e =>
        (some ((anc e.1).map fun n => readFrame demangle n.callFrame), value e) := by
  induction hnew with
  | nil => rfl
  | cons hs _ ih =>
    rw [List.map_cons, List.map_cons, ih, hs.1,
      readStack_of_locationAt (p := st.finish filename period time duration) hinv.functionIds
        hinv.locationIds hs.2]

/-- A profile whose sampled nodes all have an ancestry: `build` returns, with
one sample for each of them, which reads as that ancestry, counts the samples of
the node and adds up their time. -/
theorem build_spec (mappingFilename : Option String)
    (it : IterOrder (Sigma fun _ : Int => Int)) {p : CpuProfile} {anc : Int → List CpuNode}
    (hsep : ∀ n ∈ p.nodes, Separable n.callFrame)
    (hanc : ∀ id ∈ p.samples, Ancestry (nodeById p.nodes) (parentMap p.nodes) id (anc id))
    {fuel : Nat} (hfuel : ∀ id ∈ p.samples, (anc id).length ≤ fuel) :
    ∃ profile stats, build display demangle mappingFilename it fuel p = some (profile, stats) ∧
      (profile.sample.map fun s => (profile.readStack s, s.value)).Perm
        (p.samples.dedup.map fun id =>
          (some ((anc id).map fun n => readFrame demangle n.callFrame),
            [wrap 64 (p.samples.count id), wrap 64 (1000 * p.timeOf id)])) := by
  set entries := it.order (countByNode p.charges).entries with hentries
  have hperm : entries.Perm
      (p.samples.dedup.map fun id => ⟨id, wrap 64 (p.samples.count id)⟩) :=
    (it.perm _).trans (HashMap.entries_perm_map (List.nodup_dedup _) (lookup_countByNode p))
  have hmem : ∀ e ∈ entries, e.1 ∈ p.samples := by
    intro e he
    obtain ⟨id, hid, rfl⟩ := List.mem_map.mp (hperm.mem_iff.mp he)
    exact List.mem_dedup.mp hid
  obtain ⟨st, cache, new, hrun, hinv, -, hsamples, hnew⟩ :=
    pushSamples_spec (fun id n h => (nodeById_lookup h).2)
      (fun id n h => hsep n (nodeById_lookup h).1) (usByNode p.charges)
      (fun e he => hanc e.1 (hmem e he)) (fun e he => hfuel e.1 (hmem e he))
      (inv_new display demangle (nodeById p.nodes) (mappingFilename.getD ""))
      (show CacheReads demangle anc _ ∅ by intro k ids hk; cases hk)
  refine ⟨_, _, by rw [build, ← hentries]; simp only [hrun]; rfl, ?_⟩
  show (st.samples.map _).Perm _
  rw [show st.samples = new from hsamples, map_readStack hinv hnew]
  refine (hperm.map _).trans (List.Perm.of_eq ?_)
  rw [List.map_map]
  refine List.map_congr_left fun id _ => ?_
  simp only [Function.comp_apply]
  rw [lookup_usByNode, wrap_mul_left, mul_comm]

end

end V8
