/-
V8 sampling heap profiles to pprof (`crates/heapprofile-to-pprof`).

`walk` descends the tree of nodes with one path stack, and emits a sample for
each node to which bytes are attributed.  The interning state is that of the CPU
profiles (`V8.State`), whose functions are the same text in both crates.

* `walk_stack` — the walk leaves the path stack as it found it;
* `walk_spec` — it emits the rows of the tree, each with its path to the root;
* `flattened_iff` — the flattened profile is the tree, and the totals are its sums
  exactly when these fit into 64 bits.
-/
import MoonPprof.CpuProfile

open MachineInt Proto

namespace Heap

open V8 (State CallFrame readFrame Separable)

/-! ### The profile -/

structure HeapNode where
  callFrame : CallFrame
  selfSize : Int
  id : Int
  children : List HeapNode

structure HeapSample where
  size : Int
  nodeId : Int
  ordinal : Int

structure HeapProfile where
  head : HeapNode
  samples : List HeapSample

structure Stats where
  samples : Nat
  functions : Nat
  locations : Nat
  totalBytes : Int
  totalObjects : Int

/-! ### The conversion -/

/-- `State::new`. -/
def stateNew : State :=
  let st : State := ⟨(InternTable.empty.intern "").2, [], ∅, [], ∅, []⟩
  let (_, st) := st.intern "alloc_objects"
  let (_, st) := st.intern "count"
  let (_, st) := st.intern "alloc_space"
  let (_, st) := st.intern "bytes"
  st

/-- `State::finish`. -/
def finish (st : State) (mappingFilename : Int) : Profile :=
  let allocSpace : ValueType := ⟨st.stringId "alloc_space", st.stringId "bytes"⟩
  { sampleType := [⟨st.stringId "alloc_objects", st.stringId "count"⟩, allocSpace]
    sample := st.samples
    mapping := [⟨1, 0, 0, 0, mappingFilename, 0, true, false, false, false⟩]
    location := st.locations
    function := st.functions
    stringTable := st.strings.items
    dropFrames := 0
    keepFrames := 0
    timeNanos := 0
    durationNanos := 0
    periodType := some allocSpace
    period := 1
    comment := []
    defaultSampleType := st.stringId "alloc_space"
    docUrl := 0 }

/-- What the walk carries: the path from the root to the node, the tables, the
samples and the totals. -/
structure Walk where
  stack : List Nat
  state : State
  out : List Sample
  totalBytes : Int
  totalObjects : Int

/-- The number of flat samples that name each node. -/
def countByNode (samples : List HeapSample) : HashMap Int Int :=
  HashMap.groupFold HeapSample.nodeId (fun count _ => wrap 64 (count + 1)) 0 samples ∅

section

-- `display` prints a JSON value; `demangle` is the symbol decoder in use.
variable (display : Value → String) (demangle : String → String) (counts : HashMap Int Int)
  (haveSamples : Bool)

def internLocation (st : State) (node : HeapNode) : Nat × State :=
  st.internLocation display demangle ⟨node.id, node.callFrame, []⟩

/-- The part of `walk` before the children. -/
def Walk.enter (w : Walk) (node : HeapNode) : Walk :=
  let (locId, state) := internLocation display demangle w.state node
  let stack := w.stack ++ [locId]
  if node.selfSize > 0 then
    let count := if haveSamples then (counts.lookup node.id).getD 0 else 1
    { stack := stack
      state := state
      out := w.out ++ [⟨stack.reverse, [count, node.selfSize], []⟩]
      totalBytes := wrap 64 (w.totalBytes + node.selfSize)
      totalObjects := wrap 64 (w.totalObjects + count) }
  else { w with stack := stack, state := state }

/-- `stack.pop()`. -/
def Walk.leave (w : Walk) : Walk := { w with stack := w.stack.dropLast }

mutual

def walk (node : HeapNode) (w : Walk) : Walk :=
  match node with
  | ⟨callFrame, selfSize, id, children⟩ =>
    (walkChildren children
      (w.enter display demangle counts haveSamples ⟨callFrame, selfSize, id, children⟩)).leave

def walkChildren (children : List HeapNode) (w : Walk) : Walk :=
  match children with
  | [] => w
  | child :: children => walkChildren children (walk child w)

end

/-- `Builder::build`. -/
def build (mappingFilename : Option String) (p : HeapProfile) : Profile × Stats :=
  let (filename, st) := stateNew.intern (mappingFilename.getD "")
  let w := walk display demangle (countByNode p.samples) (!p.samples.isEmpty) p.head
    ⟨[], st, [], 0, 0⟩
  let stats := ⟨w.out.length, w.state.functions.length, w.state.locations.length, w.totalBytes,
    w.totalObjects⟩
  (finish { w.state with samples := w.out } filename, stats)

end

/-! ### The rows of the tree -/

mutual

/-- The nodes in preorder, each with the frames from it up to the root. -/
def HeapNode.rows (node : HeapNode) (above : List CallFrame) : List (HeapNode × List CallFrame) :=
  match node with
  | ⟨callFrame, selfSize, id, children⟩ =>
    (⟨callFrame, selfSize, id, children⟩, callFrame :: above) ::
      rowsOfChildren children (callFrame :: above)

def rowsOfChildren (children : List HeapNode) (above : List CallFrame) :
    List (HeapNode × List CallFrame) :=
  match children with
  | [] => []
  | child :: children => child.rows above ++ rowsOfChildren children above

end

def HeapProfile.rows (p : HeapProfile) : List (HeapNode × List CallFrame) := p.head.rows []

/-- The rows to which bytes are attributed. -/
def HeapProfile.emitted (p : HeapProfile) : List (HeapNode × List CallFrame) :=
  p.rows.filter fun x => 0 < x.1.selfSize

/-- The allocations of a node: one without flat samples, else those that name it. -/
def HeapProfile.objects (p : HeapProfile) (node : HeapNode) : Int :=
  if p.samples = [] then 1 else (p.samples.countP (·.nodeId = node.id) : Nat)

section

variable {display : Value → String} {demangle : String → String} {counts : HashMap Int Int}
  {haveSamples : Bool}

theorem enter_stack (w : Walk) (node : HeapNode) :
    (w.enter display demangle counts haveSamples node).stack =
      w.stack ++ [(internLocation display demangle w.state node).1] := by
  by_cases hsize : node.selfSize > 0 <;> simp [Walk.enter, hsize]

mutual

theorem walk_stack (node : HeapNode) (w : Walk) :
    (walk display demangle counts haveSamples node w).stack = w.stack := by
  match node with
  | ⟨callFrame, selfSize, id, children⟩ =>
    rw [walk, Walk.leave, walkChildren_stack children, enter_stack, List.dropLast_concat]

theorem walkChildren_stack (children : List HeapNode) (w : Walk) :
    (walkChildren display demangle counts haveSamples children w).stack = w.stack := by
  match children with
  | [] => rw [walkChildren]
  | child :: children => rw [walkChildren, walkChildren_stack children, walk_stack child]

end

/-! ### What the walk emits -/

/-- The allocations that are counted for a node. -/
def countOf (counts : HashMap Int Int) (haveSamples : Bool) (node : HeapNode) : Int :=
  if haveSamples then (counts.lookup node.id).getD 0 else 1

/-- The sample reads as the row. -/
def ReadsAs (demangle : String → String) (counts : HashMap Int Int) (haveSamples : Bool)
    (t : Tables) (s : Sample) (row : HeapNode × List CallFrame) : Prop :=
  s.value = [countOf counts haveSamples row.1, row.1.selfSize] ∧
    List.Forall₂ t.LocationAt s.locationId (row.2.map (readFrame demangle))

/-- From `w` to `w'` the rows are emitted, and the tables only grow. -/
structure Walked (display : Value → String) (demangle : String → String)
    (counts : HashMap Int Int) (haveSamples : Bool) (byId : HashMap Int V8.CpuNode)
    (w w' : Walk) (rows : List (HeapNode × List CallFrame)) : Prop where
  inv : w'.state.Inv display demangle byId
  tables : w.state.tables.Extends w'.state.tables
  out : ∃ new, w'.out = w.out ++ new ∧
    List.Forall₂ (ReadsAs demangle counts haveSamples w'.state.tables) new rows
  bytes : w'.totalBytes = rows.foldl (fun total x => wrap 64 (total + x.1.selfSize)) w.totalBytes
  objects : w'.totalObjects = rows.foldl
    (fun total x => wrap 64 (total + countOf counts haveSamples x.1)) w.totalObjects

variable {byId : HashMap Int V8.CpuNode} {w w' w'' : Walk}
  {rows rows' : List (HeapNode × List CallFrame)}

theorem ReadsAs.extend {t t' : Tables} (h : t.Extends t') {s : Sample}
    {row : HeapNode × List CallFrame} (hs : ReadsAs demangle counts haveSamples t s row) :
    ReadsAs demangle counts haveSamples t' s row :=
  ⟨hs.1, V8.forall₂_extend h hs.2⟩

theorem Walked.trans (h : Walked display demangle counts haveSamples byId w w' rows)
    (h' : Walked display demangle counts haveSamples byId w' w'' rows') :
    Walked display demangle counts haveSamples byId w w'' (rows ++ rows') where
  inv := h'.inv
  tables := h.tables.trans h'.tables
  out := by
    obtain ⟨new, hnew, hreads⟩ := h.out
    obtain ⟨new', hnew', hreads'⟩ := h'.out
    refine ⟨new ++ new', by rw [hnew', hnew, List.append_assoc], ?_⟩
    exact List.rel_append (hreads.imp fun _ _ hs => hs.extend h'.tables) hreads'
  bytes := by rw [h'.bytes, h.bytes, List.foldl_append]
  objects := by rw [h'.objects, h.objects, List.foldl_append]

/-- The nodes have distinct ids under which `byId` finds them, and separable frames. -/
def Indexed (byId : HashMap Int V8.CpuNode) (rows : List (HeapNode × List CallFrame)) : Prop :=
  ∀ x ∈ rows, byId.lookup x.1.id = some ⟨x.1.id, x.1.callFrame, []⟩ ∧ Separable x.1.callFrame

variable (counts haveSamples) in
/-- Entering a node interns its location behind the path, and emits its row. -/
theorem enter_spec (hinv : w.state.Inv display demangle byId) {above : List CallFrame}
    (hstack : List.Forall₂ w.state.tables.LocationAt w.stack.reverse
      (above.map (readFrame demangle))) {node : HeapNode}
    (hnode : byId.lookup node.id = some ⟨node.id, node.callFrame, []⟩)
    (hsep : Separable node.callFrame) :
    let w' := w.enter display demangle counts haveSamples node
    Walked display demangle counts haveSamples byId w w'
        ([(node, node.callFrame :: above)].filter fun x => 0 < x.1.selfSize) ∧
      List.Forall₂ w'.state.tables.LocationAt w'.stack.reverse
        ((node.callFrame :: above).map (readFrame demangle)) := by
  intro w'
  set n : V8.CpuNode := ⟨node.id, node.callFrame, []⟩
  obtain ⟨hinv', hext, hloc, -⟩ :=
    V8.internLocation_spec hinv (show byId.lookup n.id = some n from hnode) hsep
  set r := internLocation display demangle w.state node with hr
  replace hloc : r.2.tables.LocationAt r.1 (readFrame demangle node.callFrame) := hloc
  -- the stack is kept root first and written leaf first
  have hpath : List.Forall₂ r.2.tables.LocationAt (w.stack ++ [r.1]).reverse
      ((node.callFrame :: above).map (readFrame demangle)) := by
    rw [List.reverse_append, List.reverse_singleton, List.singleton_append, List.map_cons]
    exact List.Forall₂.cons hloc (V8.forall₂_extend hext hstack)
  by_cases hsize : 0 < node.selfSize
  · have hw' : w' = ⟨w.stack ++ [r.1], r.2,
        w.out ++
          [⟨(w.stack ++ [r.1]).reverse, [countOf counts haveSamples node, node.selfSize], []⟩],
        wrap 64 (w.totalBytes + node.selfSize),
        wrap 64 (w.totalObjects + countOf counts haveSamples node)⟩ := by
      show w.enter display demangle counts haveSamples node = _
      simp [Walk.enter, hsize, countOf, hr]
    rw [List.filter_cons_of_pos (by simpa using hsize), List.filter_nil, hw']
    exact ⟨⟨hinv', hext, ⟨_, rfl, List.Forall₂.cons ⟨rfl, hpath⟩ List.Forall₂.nil⟩, rfl, rfl⟩,
      hpath⟩
  · have hw' : w' = { w with stack := w.stack ++ [r.1], state := r.2 } := by
      show w.enter display demangle counts haveSamples node = _
      simp [Walk.enter, hsize, hr]
    rw [List.filter_cons_of_neg (by simpa using hsize), List.filter_nil, hw']
    exact ⟨⟨hinv', hext, ⟨[], (List.append_nil _).symm, List.Forall₂.nil⟩, rfl, rfl⟩, hpath⟩

mutual

/-- The walk of a tree emits its rows, below the path on the stack. -/
theorem walk_spec (node : HeapNode) {w : Walk} (hinv : w.state.Inv display demangle byId)
    {above : List CallFrame}
    (hstack : List.Forall₂ w.state.tables.LocationAt w.stack.reverse
      (above.map (readFrame demangle))) (hindexed : Indexed byId (node.rows above)) :
    Walked display demangle counts haveSamples byId w
      (walk display demangle counts haveSamples node w)
      ((node.rows above).filter fun x => 0 < x.1.selfSize) := by
  match node with
  | ⟨callFrame, selfSize, id, children⟩ =>
    rw [HeapNode.rows] at hindexed ⊢
    obtain ⟨⟨hnode, hsep⟩, hchildren⟩ := List.forall_mem_cons.mp hindexed
    obtain ⟨hwalked, hpath⟩ := enter_spec counts haveSamples hinv hstack hnode hsep
    have hrest := walkChildren_spec children hwalked.inv hpath hchildren
    rw [walk, ← List.singleton_append, List.filter_append]
    have htrans := hwalked.trans hrest
    exact ⟨htrans.inv, htrans.tables, htrans.out, htrans.bytes, htrans.objects⟩

theorem walkChildren_spec (children : List HeapNode) {w : Walk}
    (hinv : w.state.Inv display demangle byId) {above : List CallFrame}
    (hstack : List.Forall₂ w.state.tables.LocationAt w.stack.reverse
      (above.map (readFrame demangle))) (hindexed : Indexed byId (rowsOfChildren children above)) :
    Walked display demangle counts haveSamples byId w
      (walkChildren display demangle counts haveSamples children w)
      ((rowsOfChildren children above).filter fun x => 0 < x.1.selfSize) := by
  match children with
  | [] =>
    rw [walkChildren, rowsOfChildren]
    exact ⟨hinv, .refl _, ⟨[], (List.append_nil _).symm, List.Forall₂.nil⟩, rfl, rfl⟩
  | child :: children =>
    rw [rowsOfChildren] at hindexed ⊢
    obtain ⟨hchild, hrest⟩ := List.forall_mem_append.mp hindexed
    have hwalked := walk_spec child hinv hstack hchild
    -- the next child starts from the same path
    have hpath := V8.forall₂_extend hwalked.tables hstack
    rw [← walk_stack child w] at hpath
    rw [walkChildren, List.filter_append]
    exact hwalked.trans (walkChildren_spec children hwalked.inv hpath hrest)

end

end

/-! ### The flattened profile -/

theorem countOf_countByNode (p : HeapProfile) (node : HeapNode) :
    countOf (countByNode p.samples) (!p.samples.isEmpty) node = wrap 64 (p.objects node) := by
  rw [countOf, HeapProfile.objects, countByNode]
  by_cases hnil : p.samples = []
  · rw [if_neg (by simp [hnil]), if_pos hnil]
    exact (wrap_of_inRange (by decide) (by decide)).symm
  · have hcount := foldl_wrap_add 64 (fun _ => 1) (p.samples.filter (·.nodeId = node.id)) 0
    rw [wrap_zero, zero_add, List.map_const', List.sum_replicate, nsmul_eq_mul, mul_one,
      ← List.countP_eq_length_filter] at hcount
    rw [if_pos (by simp [hnil]), if_neg hnil, HashMap.lookup_groupFold, hcount]
    split
    · rename_i hempty
      rw [List.countP_eq_length_filter, List.isEmpty_iff.mp hempty, List.length_nil]
      simp
    · rw [Option.getD_some]

theorem inRange_64 {x : Int} (hlo : 0 ≤ x) (hhi : x < 2 ^ 63) : InRange 64 x :=
  ⟨le_trans (by decide) hlo, hhi⟩

theorem objects_nonneg (p : HeapProfile) (node : HeapNode) : 0 ≤ p.objects node := by
  rw [HeapProfile.objects]
  split <;> omega

theorem inv_new (display : Value → String) (demangle : String → String)
    (byId : HashMap Int V8.CpuNode) (s : String) :
    (stateNew.intern s).2.Inv display demangle byId where
  functionIds := by intro i f h; cases h
  locationIds := by intro i f h; cases h
  funcIndex := by intro key id h; cases h
  locByNode := by intro nid id h; cases h

/-- The profile is the tree, and the totals are those of its samples. -/
structure Flattened (display : Value → String) (demangle : String → String)
    (mappingFilename : Option String) (p : HeapProfile) : Prop where
  samples : let profile := (build display demangle mappingFilename p).1
    profile.sample.map (fun s => (profile.readStack s, s.value)) =
      p.emitted.map fun x =>
        (some (x.2.map (readFrame demangle)), [p.objects x.1, x.1.selfSize])
  stack : ∀ w, (walk display demangle (countByNode p.samples) (!p.samples.isEmpty) p.head w).stack =
    w.stack
  bytes : (build display demangle mappingFilename p).2.totalBytes =
    (p.emitted.map fun x => x.1.selfSize).sum
  objects : (build display demangle mappingFilename p).2.totalObjects =
    (p.emitted.map fun x => p.objects x.1).sum

section

variable (display : Value → String) (demangle : String → String) (mappingFilename : Option String)

/-- What `build` makes of the tree, with sums in 64 bits. -/
theorem build_spec {p : HeapProfile} (hids : (p.rows.map fun x => x.1.id).Nodup)
    (hsep : ∀ x ∈ p.rows, Separable x.1.callFrame) :
    let out := build display demangle mappingFilename p
    out.1.sample.map (fun s => (out.1.readStack s, s.value)) = (p.emitted.map fun x =>
        (some (x.2.map (readFrame demangle)), [wrap 64 (p.objects x.1), x.1.selfSize])) ∧
      out.2.totalBytes = wrap 64 (p.emitted.map fun x => x.1.selfSize).sum ∧
      out.2.totalObjects = wrap 64 (p.emitted.map fun x => p.objects x.1).sum := by
  set nodes : List V8.CpuNode := p.rows.map fun x => ⟨x.1.id, x.1.callFrame, []⟩ with hnodes
  have hindexed : Indexed (V8.nodeById nodes) p.rows := by
    intro x hx
    refine ⟨?_, hsep x hx⟩
    have hnodup : (nodes.map V8.CpuNode.id).Nodup := by
      rw [hnodes, List.map_map]
      exact hids
    exact V8.nodeById_of_mem hnodup (List.mem_map_of_mem hx)
  set w : Walk := ⟨[], (stateNew.intern (mappingFilename.getD "")).2, [], 0, 0⟩ with hw
  have hinv : w.state.Inv display demangle (V8.nodeById nodes) := inv_new _ _ _ _
  have hstack : List.Forall₂ w.state.tables.LocationAt w.stack.reverse
      (([] : List CallFrame).map (readFrame demangle)) := List.Forall₂.nil
  have hwalked : Walked display demangle (countByNode p.samples) (!p.samples.isEmpty)
      (V8.nodeById nodes) w _ p.emitted := walk_spec p.head hinv hstack hindexed
  obtain ⟨new, hnew, hreads⟩ := hwalked.out
  intro out
  refine ⟨?_, ?_, ?_⟩
  · refine map_eq_map_of_forall₂ ((show out.1.sample = new from hnew) ▸ hreads) fun s x hs => ?_
    rw [← countOf_countByNode, ← hs.1]
    exact Prod.ext
      (readStack_of_locationAt hwalked.inv.functionIds hwalked.inv.locationIds hs.2) rfl
  · have hsum := foldl_wrap_add 64 (fun x => x.1.selfSize) p.emitted 0
    rw [wrap_zero, zero_add] at hsum
    exact hwalked.bytes.trans hsum
  · have hsum := foldl_wrap_add 64 (fun x => p.objects x.1) p.emitted 0
    rw [wrap_zero, zero_add] at hsum
    refine hwalked.objects.trans (Eq.trans ?_ hsum)
    simp only [countOf_countByNode, wrap_add_right]
    rfl

/-- The samples are those of the tree and the totals their sums, for distinct ids and
separable frames, exactly when the sums fit into 64 bits. -/
theorem flattened_iff {p : HeapProfile} (hids : (p.rows.map fun x => x.1.id).Nodup)
    (hsep : ∀ x ∈ p.rows, Separable x.1.callFrame) :
    Flattened display demangle mappingFilename p ↔
      (p.emitted.map fun x => x.1.selfSize).sum < 2 ^ 63 ∧
        (p.emitted.map fun x => p.objects x.1).sum < 2 ^ 63 := by
  obtain ⟨hsamples, hbytes, hobjects⟩ := build_spec display demangle mappingFilename hids hsep
  constructor
  · intro h
    have hb := wrap_inRange (show 0 < 64 by decide) (p.emitted.map fun x => x.1.selfSize).sum
    have ho := wrap_inRange (show 0 < 64 by decide) (p.emitted.map fun x => p.objects x.1).sum
    rw [← hbytes, h.bytes] at hb
    rw [← hobjects, h.objects] at ho
    exact ⟨hb.2, ho.2⟩
  · rintro ⟨hb, ho⟩
    have hpos : ∀ x ∈ p.emitted.map fun x => x.1.selfSize, 0 ≤ x := by
      intro y hy
      obtain ⟨x, hx, rfl⟩ := List.mem_map.mp hy
      exact le_of_lt (by simpa using (List.mem_filter.mp hx).2)
    have hnonneg : ∀ x ∈ p.emitted.map fun x => p.objects x.1, 0 ≤ x := by
      intro y hy
      obtain ⟨x, -, rfl⟩ := List.mem_map.mp hy
      exact objects_nonneg p x.1
    refine ⟨?_, fun w => walk_stack p.head w, ?_, ?_⟩
    · refine hsamples.trans (List.map_congr_left fun x hx => ?_)
      have hle := List.single_le_sum hnonneg _
        (List.mem_map_of_mem (f := fun x => p.objects x.1) hx)
      rw [wrap_of_inRange (by decide) (inRange_64 (objects_nonneg p x.1) (lt_of_le_of_lt hle ho))]
    · rw [hbytes, wrap_of_inRange (by decide) (inRange_64 (List.sum_nonneg hpos) hb)]
    · rw [hobjects, wrap_of_inRange (by decide) (inRange_64 (List.sum_nonneg hnonneg) ho)]

end

/-- A root with one child, and two flat samples for the child. -/
theorem flattened_child :
    let call : CallFrame := ⟨"alloc", "a.js", .string "1", 0, 0⟩
    Flattened (fun _ => "") id none
      ⟨⟨call, 0, 1, [⟨call, 4096, 2, []⟩]⟩, [⟨2048, 2, 0⟩, ⟨2048, 2, 1⟩]⟩ := by
  intro call
  have hsep : Separable call := by
    constructor <;> decide
  refine (flattened_iff _ _ _ ?_ ?_).mpr ⟨?_, ?_⟩
  · simp [HeapProfile.rows, HeapNode.rows, rowsOfChildren]
  · simp [HeapProfile.rows, HeapNode.rows, rowsOfChildren, hsep]
  · simp [HeapProfile.emitted, HeapProfile.rows, HeapNode.rows, rowsOfChildren]
  · simp [HeapProfile.emitted, HeapProfile.rows, HeapNode.rows, rowsOfChildren,
      HeapProfile.objects]

/-- Two nodes whose sizes add up to more than 64 bits hold. -/
theorem not_flattened_large :
    let call : CallFrame := ⟨"alloc", "a.js", .string "1", 0, 0⟩
    let p : HeapProfile := ⟨⟨call, 2 ^ 63 - 1, 1, [⟨call, 1, 2, []⟩]⟩, []⟩
    (p.rows.map fun x => x.1.id).Nodup ∧ (∀ x ∈ p.rows, Separable x.1.callFrame) ∧
      (build (fun _ => "") id none p).2.totalBytes = -2 ^ 63 ∧
      ¬Flattened (fun _ => "") id none p := by
  intro call p
  have hsep : Separable call := by
    constructor <;> decide
  have hids : (p.rows.map fun x => x.1.id).Nodup := by
    simp [p, HeapProfile.rows, HeapNode.rows, rowsOfChildren]
  have hseps : ∀ x ∈ p.rows, Separable x.1.callFrame := by
    simp [p, HeapProfile.rows, HeapNode.rows, rowsOfChildren, hsep]
  have hsum : (p.emitted.map fun x => x.1.selfSize).sum = 2 ^ 63 := by
    simp [p, HeapProfile.emitted, HeapProfile.rows, HeapNode.rows, rowsOfChildren]
  have htotal : (build (fun _ => "") id none p).2.totalBytes = -2 ^ 63 := by
    rw [(build_spec _ _ _ hids hseps).2.1, hsum]
    decide
  refine ⟨hids, hseps, htotal, fun h => ?_⟩
  have hbytes := h.bytes
  rw [htotal, hsum] at hbytes
  cases hbytes

end Heap
