/-
What the exporters keep of inlined frames (`crates/pprof-stack-formats` and
`crates/pprof-to-chrome-trace`).

A location of a profile has one `Line` for its function and one for each call
that was inlined into it, innermost first.  `inlinedStack` and `inlinedFrames`
are the stacks with all of them; the exporters resolve a location to the frame
of its first line.

* `length_flatMap_eq_iff` — when lists for the elements of a list have one each;
* `framesOfSample` — a stack with a frame for each line of its locations;
* `leads_iff` — what a tree of stacks says of a stack;
* `exporters_keep_inlined_iff` — the exporters write all frames of the exported
  samples exactly when no location on their stacks has two lines.
-/
import MoonPprof.ChromeTraceRoundTrip
import MoonPprof.FoldedRoundTrip
import MoonPprof.SpeedscopeRoundTrip

open MachineInt Proto

/-- Nonempty lists for the elements of a list are as many elements together only
when none has two. -/
theorem length_flatMap_eq_iff {α β : Type} {g : α → List β} (hne : ∀ a, g a ≠ []) (xs : List α) :
    (xs.flatMap g).length = xs.length ↔ ∀ a ∈ xs, (g a).length ≤ 1 := by
  have hpos : ∀ a, 1 ≤ (g a).length := fun a => List.length_pos_iff.mpr (hne a)
  have hle : ∀ ys : List α, ys.length ≤ (ys.flatMap g).length := by
    intro ys
    induction ys with
    | nil => exact Nat.le_refl _
    | cons a ys ih =>
      have := hpos a
      rw [List.flatMap_cons, List.length_append, List.length_cons]
      omega
  induction xs with
  | nil => simp
  | cons a xs ih =>
    have ha := hpos a
    have hrest := hle xs
    rw [List.flatMap_cons, List.length_append, List.length_cons, List.forall_mem_cons]
    constructor
    · intro hlen
      exact ⟨by omega, ih.mp (by omega)⟩
    · rintro ⟨hone, hall⟩
      have := ih.mpr hall
      omega

/-! ### Locations and their lines -/

namespace Proto

section

variable {β : Type} (profile : Profile) (fallback : Nat → β) (ofLine : Line → β)

/-- The frames of the location with this id: one for each line, caller first, or
the fallback for a location without lines. -/
def framesOfLocation (locId : Nat) : List β :=
  match (locationMap profile).lookup locId with
  | none => [fallback locId]
  | some loc => if loc.line.isEmpty then [fallback locId] else loc.line.reverse.map ofLine

/-- All frames of a sample, root first. -/
def framesOfSample (s : Sample) : List β :=
  s.locationId.reverse.flatMap (framesOfLocation profile fallback ofLine)

/-- No location on the stack of the sample has two lines. -/
def SingleLined (s : Sample) : Prop :=
  ∀ locId ∈ s.locationId, ∀ loc, (locationMap profile).lookup locId = some loc → loc.line.length ≤ 1

variable {profile fallback ofLine}

theorem framesOfLocation_ne_nil (locId : Nat) :
    framesOfLocation profile fallback ofLine locId ≠ [] := by
  rw [framesOfLocation]
  split
  · simp
  · split
    · simp
    · rename_i hne
      simpa using hne

theorem length_framesOfLocation_le_iff {locId : Nat} :
    (framesOfLocation profile fallback ofLine locId).length ≤ 1 ↔
      ∀ loc, (locationMap profile).lookup locId = some loc → loc.line.length ≤ 1 := by
  rw [framesOfLocation]
  rcases (locationMap profile).lookup locId with _ | loc
  · simp
  · simp only [Option.some.injEq, forall_eq']
    split
    · rename_i hempty
      rw [List.isEmpty_iff.mp hempty]
      simp
    · rw [List.length_map, List.length_reverse]

theorem singleLined_of_length_eq {s : Sample}
    (h : (framesOfSample profile fallback ofLine s).length = s.locationId.length) :
    SingleLined profile s := by
  have hlen : _ = s.locationId.reverse.length := h.trans List.length_reverse.symm
  have hall := (length_flatMap_eq_iff framesOfLocation_ne_nil _).mp hlen
  intro locId hlocId
  exact length_framesOfLocation_le_iff.mp (hall locId (List.mem_reverse.mpr hlocId))

theorem framesOfSample_ne_nil {s : Sample} (h : s.locationId ≠ []) :
    framesOfSample profile fallback ofLine s ≠ [] := by
  obtain ⟨locId, hlocId⟩ := List.exists_mem_of_ne_nil _ h
  intro hnil
  exact framesOfLocation_ne_nil locId
    (List.flatMap_eq_nil_iff.mp hnil locId (List.mem_reverse.mpr hlocId))

/-- A resolver that agrees with `ofLine` on locations of one line resolves a stack
of these to all of its frames. -/
theorem framesOfSample_of_singleLined (hline : ∀ locId loc line,
      (locationMap profile).lookup locId = some loc → loc.line = [line] →
        fallback locId = ofLine line) {s : Sample} (h : SingleLined profile s) :
    s.locationId.reverse.map fallback = framesOfSample profile fallback ofLine s := by
  refine ((List.flatMap_congr fun locId hlocId => ?_).trans (List.flatMap_pure_eq_map _ _)).symm
  show _ = [fallback locId]
  have hlocation := h locId (List.mem_reverse.mp hlocId)
  rw [framesOfLocation]
  rcases hloc : (locationMap profile).lookup locId with _ | loc
  · rfl
  · have hlen := hlocation loc hloc
    rcases hlines : loc.line with _ | ⟨line, lines⟩
    · simp [hlines]
    · obtain rfl : lines = [] := by simpa [hlines] using hlen
      simp [hlines, hline locId loc line hloc hlines]

end

end Proto

namespace StackFormats

/-! ### The stack formats -/

/-- The frame of a line. -/
def PprofResolver.frameForLine (r : PprofResolver) (line : Line) : Frame :=
  match r.functions.lookup line.functionId with
  | none => .named ("function:" ++ toString line.functionId)
  | some func =>
    let name := stringAt r.profile func.name
    let file := stringAt r.profile func.filename
    { name := if name.isEmpty then "(unknown)" else name
      file := if file.isEmpty then none else some file
      line :=
        if line.line > 0 then some line.line
        else if func.startLine > 0 then some func.startLine
        else none
      col := if line.column > 0 then some line.column else none }

/-- The stack of a sample with its inlined frames, root first. -/
def inlinedStack (profile : Profile) : Sample → List Frame :=
  framesOfSample profile (PprofResolver.new profile).frameForLocation
    (PprofResolver.new profile).frameForLine

theorem length_stackOf (profile : Profile) (s : Sample) :
    (stackOf profile s).length = s.locationId.length := by
  rw [stackOf, PprofResolver.stack, List.length_map, List.length_reverse]

theorem mem_exported {profile : Profile} {axis : Axis} {s : Sample}
    (hs : s ∈ exported profile axis) : 0 < valueOn axis s ∧ s.locationId ≠ [] := by
  simpa using (List.mem_filter.mp hs).2

theorem stackOf_ne_nil {profile : Profile} {s : Sample} (h : s.locationId ≠ []) :
    stackOf profile s ≠ [] := by
  rwa [← List.length_pos_iff, length_stackOf, List.length_pos_iff]

theorem stackOf_eq_inlinedStack {profile : Profile} {s : Sample} (h : SingleLined profile s) :
    stackOf profile s = inlinedStack profile s := by
  refine framesOfSample_of_singleLined (fun locId loc line hloc hline => ?_) h
  have hlookup : (PprofResolver.new profile).locations.lookup locId = some loc := hloc
  simp only [PprofResolver.frameForLocation, hlookup, hline, List.head?_cons]
  rfl

end StackFormats

namespace Folded

open StackFormats

/-- The profile with these samples. -/
def withSamples (profile : Profile) (samples : List Sample) : Profile :=
  { profile with sample := samples }

/-- The text that `pprofToFolded` prints has the stacks with all of their frames.  A line adds up
the samples of one stack, so this is said of every selection of the samples. -/
def KeepsInlined (profile : Profile) (opts : ExportOptions) (axis : Axis) : Prop :=
  ∀ samples, samples.Sublist profile.sample →
    ∃ stats, pprofToFolded (withSamples profile samples) opts =
      .ok (textOf ((exported (withSamples profile samples) axis).map fun s =>
        (namesOf (inlinedStack profile s), valueOn axis s)), stats)

/-- The text of one stack determines it. -/
theorem textOf_singleton_inj {stack stack' : List String} (h : Separated stack)
    (h' : Separated stack') {v : Int} (heq : textOf [(stack, v)] = textOf [(stack', v)]) :
    stack = stack' := by
  have htext : ∀ stack : List String,
      (textOf [(stack, v)]).toList =
        (joined stack).toList ++ (" " ++ toString (wrap 64 v) ++ "\n").toList := by
    intro stack
    simp [textOf, aggregate, sortByKey, sumAt, foldedText]
  have hlists := congrArg String.toList heq
  rw [htext, htext, List.append_left_inj] at hlists
  exact joined_inj h h' (String.toList_inj.mp hlists)

theorem keepsInlined_iff {profile : Profile} {opts : ExportOptions} {axis : Axis}
    (haxis : selectPprofAxis profile opts.valueIndex = .ok axis) :
    KeepsInlined profile opts axis ↔ ∀ s ∈ exported profile axis, SingleLined profile s := by
  -- neither the axis nor the stacks depend on the samples
  have hprinted : ∀ samples, ∃ stats, pprofToFolded (withSamples profile samples) opts =
      .ok (textOf ((exported (withSamples profile samples) axis).map fun s =>
        (namesOf (stackOf profile s), valueOn axis s)), stats) := by
    intro samples
    obtain ⟨stats, hprint⟩ := pprofToFolded_textOf
      (show selectPprofAxis (withSamples profile samples) opts.valueIndex = .ok axis from haxis)
    rw [rowsOn, stacksOn, List.map_map] at hprint
    exact ⟨stats, hprint⟩
  constructor
  · intro h s hs
    obtain ⟨hmem, hexported⟩ := List.mem_filter.mp hs
    have hone : exported (withSamples profile [s]) axis = [s] :=
      List.filter_cons_of_pos hexported
    obtain ⟨stats, hprint⟩ := hprinted [s]
    obtain ⟨stats', hfull⟩ := h [s] (List.singleton_sublist.mpr hmem)
    have htext := (Prod.mk.inj (Except.ok.inj (hprint.symm.trans hfull))).1
    rw [hone, List.map_singleton, List.map_singleton] at htext
    have hne := (mem_exported hs).2
    have hnames := textOf_singleton_inj (separated_namesOf (stackOf_ne_nil hne))
      (separated_namesOf (framesOfSample_ne_nil hne)) htext
    have hlen := congrArg List.length hnames
    rw [namesOf, namesOf, List.length_map, List.length_map, length_stackOf] at hlen
    exact singleLined_of_length_eq hlen.symm
  · intro h samples hsub
    obtain ⟨stats, hprint⟩ := hprinted samples
    refine ⟨stats, hprint.trans ?_⟩
    have hrows := List.map_congr_left fun s hs =>
      congrArg (fun stack => (namesOf stack, valueOn axis s))
        (stackOf_eq_inlinedStack (h s ((hsub.filter _).subset hs)))
    exact congrArg (fun rows => Except.ok (textOf rows, stats)) hrows

end Folded

namespace Speedscope

open StackFormats

/-- In the file that `pprofToSpeedscope` prints, each exported sample has the
indices of all of its frames. -/
def KeepsInlined (profile : Profile) (opts : ExportOptions) (axis : Axis) : Prop :=
  ∃ file stats, buildSpeedscope profile opts = .ok (file, stats) ∧ ∀ p ∈ file.profiles,
    List.Forall₂ (List.Forall₂ fun (i : Nat) f => file.shared.frames[i]? = some f) p.samples
      ((exported profile axis).map (inlinedStack profile))

theorem keepsInlined_iff {profile : Profile} {opts : ExportOptions} {axis : Axis}
    (haxis : selectPprofAxis profile opts.valueIndex = .ok axis) :
    KeepsInlined profile opts axis ↔ ∀ s ∈ exported profile axis, SingleLined profile s := by
  have hbuild := buildSpeedscope_eq haxis
  have hsamples := (pushStacks_spec (stacksOn profile axis)).samples
  set st := (stacksOn profile axis).foldl pushStack .new
  rw [stacksOn, List.forall₂_map_right_iff] at hsamples
  replace hsamples : List.Forall₂ (List.Forall₂ fun (i : Nat) f => st.frames.items[i]? = some f)
      st.samples ((exported profile axis).map (stackOf profile)) :=
    List.forall₂_map_right_iff.mpr hsamples
  constructor
  · rintro ⟨file, stats, hfile, hkeeps⟩ s hs
    rw [hbuild] at hfile
    obtain ⟨rfl, -⟩ := Prod.mk.inj (Except.ok.inj hfile)
    -- each list of indices is as long as both stacks
    have hlengths := (map_eq_map_of_forall₂ hsamples fun _ _ h => h.length_eq).symm.trans
      (map_eq_map_of_forall₂ (hkeeps _ (List.mem_singleton_self _)) fun _ _ h => h.length_eq)
    rw [List.map_map, List.map_map] at hlengths
    have hlen := List.map_inj_left.mp hlengths s hs
    exact singleLined_of_length_eq (hlen.symm.trans (length_stackOf profile s))
  · intro h
    refine ⟨_, _, hbuild, fun p hp => ?_⟩
    obtain rfl := List.mem_singleton.mp hp
    rw [← List.map_congr_left fun s hs => stackOf_eq_inlinedStack (h s hs)]
    exact hsamples

end Speedscope

namespace ChromeTraceExport

/-! ### The Chrome trace -/

/-- The frame of a line. -/
def frameForLine (profile : Profile) (funcs : HashMap Nat Function) (line : Line) : CallFrame :=
  match funcs.lookup line.functionId with
  | none => .unknown ("function:" ++ toString line.functionId)
  | some func =>
    let name := stringAt profile func.name
    let filename := stringAt profile func.filename
    let lineNumber :=
      if line.line > 0 then line.line - 1
      else if func.startLine > 0 then func.startLine - 1
      else -1
    { functionName := if name.isEmpty then "(unknown)" else name
      scriptId := "0"
      url := filename
      lineNumber := lineNumber
      columnNumber := max line.column 0 }

/-- The stack of a sample with its inlined frames, root first. -/
def inlinedFrames (profile : Profile) : Sample → List CallFrame :=
  framesOfSample profile (frameForLocation profile (locationMap profile) (functionMap profile))
    (frameForLine profile (functionMap profile))

theorem stackFrames_eq_inlinedFrames {profile : Profile} {s : Sample} (h : SingleLined profile s) :
    stackFrames profile s = inlinedFrames profile s := by
  refine framesOfSample_of_singleLined (fun locId loc line hloc hline => ?_) h
  simp only [frameForLocation, hloc, hline, List.head?_cons]
  rfl

/-- The frames that lead from the root, the node 1, down to a node. -/
inductive Leads (nodes : List Node) : Int → List CallFrame → Prop
  | root : Leads nodes 1 []
  | child {n m : Node} {frames : List CallFrame} (hpath : Leads nodes n.id frames)
      (hn : n ∈ nodes) (hm : m ∈ nodes) (hchild : m.id ∈ n.children) :
      Leads nodes m.id (frames ++ [m.callFrame])

/-- In a tree of stacks, exactly the stacks of the table lead to their nodes. -/
theorem leads_iff {b : TreeBuilder} {t : PrefixTable CallFrame} (h : Represents b t) {id : Int}
    {frames : List CallFrame} :
    Leads b.nodes id frames ↔ frames ∈ t.items ∧ id = t.idOf frames := by
  constructor
  · intro hleads
    induction hleads with
    | root => exact ⟨t.nil_mem, t.idOf_nil.symm⟩
    | @child n m frames _ hn hm hchild ih =>
      obtain ⟨hmem, hid⟩ := ih
      obtain ⟨p, hp, hidp, -, hchildren⟩ := h.entry hn
      obtain ⟨q, hq, hidq, hframe, -⟩ := h.entry hm
      obtain rfl := PrefixTable.idOf_inj hp hmem (hidp.symm.trans hid)
      obtain ⟨a, ha, hida⟩ := (hchildren m.id).mp hchild
      obtain rfl := PrefixTable.idOf_inj hq ha (hidq.symm.trans hida)
      have hlast : m.callFrame = a := by simp [hframe, frameAt]
      rw [hlast]
      exact ⟨ha, hida⟩
  · rintro ⟨hmem, rfl⟩
    induction frames using List.reverseRecOn with
    | nil =>
      rw [t.idOf_nil]
      exact .root
    | append_singleton frames a ih =>
      have hparent := t.closed frames a hmem
      obtain ⟨n, hn, hidn, -, hchildren⟩ := h.exists_node hparent
      obtain ⟨m, hm, hidm, hframe, -⟩ := h.exists_node hmem
      have hlast : m.callFrame = a := by simp [hframe, frameAt]
      rw [← hidm, ← hlast]
      refine .child ?_ hn hm ((hchildren m.id).mpr ⟨a, hmem, hidm⟩)
      rw [hidn]
      exact ih hparent

section

variable (profile : Profile) (axis : ValueAxis) (countIndex : Option Nat) (expandSamples : Bool)

/-- The stacks of the samples `done` are in the tree, and their nodes are the
samples of the trace. -/
structure Drawn (done : List Sample) (st : State) (t : PrefixTable CallFrame) : Prop where
  tree : Represents st.builder t
  interned : ∀ s ∈ done, stackFrames profile s ∈ t.items
  ids : st.sampleNodeIds = done.flatMap fun s =>
    List.replicate (copies countIndex expandSamples s) (t.idOf (stackFrames profile s))

variable {profile axis countIndex expandSamples}

theorem drawn_convertSample {done : List Sample} {st st' : State} {t : PrefixTable CallFrame}
    (h : Drawn profile countIndex expandSamples done st t) {s : Sample}
    (hs : convertSample profile axis countIndex expandSamples st s = .ok st') :
    ∃ t', Drawn profile countIndex expandSamples (done ++ [s].filter (isExported axis)) st' t' := by
  rcases convertSample_cases hs with ⟨hno, rfl⟩ | ⟨hyes, rfl⟩
  · rw [List.filter_cons_of_neg (by simp [hno]), List.filter_nil, List.append_nil]
    exact ⟨t, h⟩
  · obtain ⟨t', hpre, hmem, hid, hrep, -⟩ := internStack_spec h.tree (stackFrames profile s)
    rw [List.filter_cons_of_pos hyes, List.filter_nil]
    refine ⟨t', hrep, fun x hx => ?_, ?_⟩
    · rcases List.mem_append.mp hx with hx | hx
      · exact hpre.subset (h.interned x hx)
      · rwa [List.mem_singleton.mp hx]
    · rw [List.flatMap_append, List.flatMap_singleton, ← hid]
      refine congrArg (· ++ _) (h.ids.trans (List.flatMap_congr fun x hx => ?_))
      rw [PrefixTable.idOf_of_isPrefix hpre (h.interned x hx)]

theorem drawn_convertSamples {samples done : List Sample} {st st' : State}
    {t : PrefixTable CallFrame} (h : Drawn profile countIndex expandSamples done st t)
    (hrun : samples.foldlM (convertSample profile axis countIndex expandSamples) st = .ok st') :
    ∃ t', Drawn profile countIndex expandSamples
      (done ++ samples.filter (isExported axis)) st' t' := by
  have hstep : ∀ done st s st', (∃ t, Drawn profile countIndex expandSamples done st t) →
      convertSample profile axis countIndex expandSamples st s = .ok st' →
      ∃ t, Drawn profile countIndex expandSamples (done ++ [s].filter (isExported axis)) st' t := by
    rintro done st s st' ⟨t, h⟩ hs
    exact drawn_convertSample h hs
  exact convertSamples_induct hstep ⟨t, h⟩ hrun

end

/-- Runs of equal elements, of which none is empty, determine the elements. -/
theorem flatMap_replicate_inj {α β : Type} {n : α → Nat} {f g : α → β} (hn : ∀ a, 0 < n a)
    {xs : List α} (h : (xs.flatMap fun a => List.replicate (n a) (f a)) =
      xs.flatMap fun a => List.replicate (n a) (g a)) : ∀ a ∈ xs, f a = g a := by
  induction xs with
  | nil =>
    intro a ha
    cases ha
  | cons a xs ih =>
    rw [List.flatMap_cons, List.flatMap_cons] at h
    obtain ⟨hhead, hrest⟩ := List.append_inj h (by simp)
    intro x hx
    rcases List.mem_cons.mp hx with rfl | hx
    · exact (List.replicate_right_inj (hn x).ne').mp hhead
    · exact ih hrest x hx

theorem callFrame_toJson_injective : Function.Injective CallFrame.toJson := by
  intro f g h
  cases f
  cases g
  simp only [CallFrame.toJson, Value.object.injEq, List.cons.injEq, Prod.mk.injEq, true_and,
    and_true, Value.int.injEq, Value.string.injEq] at h
  obtain ⟨rfl, rfl, rfl, rfl, rfl⟩ := h
  rfl

theorem node_toJson_injective : Function.Injective Node.toJson := by
  intro n m h
  obtain ⟨id, frame, children⟩ := n
  obtain ⟨id', frame', children'⟩ := m
  simp only [Node.toJson, List.cons_append, List.nil_append, Value.object.injEq, List.cons.injEq,
    Prod.mk.injEq, true_and] at h
  obtain ⟨hframe, hrest⟩ := h
  obtain rfl := callFrame_toJson_injective hframe
  obtain ⟨hchildren, hid⟩ := List.append_inj' hrest rfl
  obtain rfl : id = id' := by simpa using hid
  have hsame : children = children' := by
    rcases children with _ | ⟨c, cs⟩
    · rcases children' with _ | ⟨d, ds⟩
      · rfl
      · simp at hchildren
    · rcases children' with _ | ⟨d, ds⟩
      · simp at hchildren
      · exact Value.ints_injective (by simpa using hchildren)
  rw [hsame]

/-- The trace determines the nodes and the samples. -/
theorem traceJson_inj {opts : ConvertOptions} {ts : Int} {cpu cpu' : CpuProfile}
    (h : traceJson opts ts cpu = traceJson opts ts cpu') :
    cpu.nodes = cpu'.nodes ∧ cpu.samples = cpu'.samples := by
  simp only [traceJson, profileChunkEvent, eventJson, Value.object.injEq, Value.array.injEq,
    List.cons.injEq, Prod.mk.injEq, List.append_cancel_left_eq, true_and, and_true] at h
  obtain ⟨⟨-, hnodes, -⟩, hsamples, -⟩ := h
  exact ⟨List.map_injective_iff.mpr node_toJson_injective hnodes, Value.ints_injective hsamples⟩

/-- In the trace that `convertProfile` prints, each exported sample has a node, as
often as it counts, to which all of its frames lead. -/
def KeepsInlined (profile : Profile) (opts : ConvertOptions) (axis : ValueAxis) (trace : Value) :
    Prop :=
  ∃ cpu : CpuProfile, trace = traceJson opts (startUs profile) cpu ∧ ∃ leaf : Sample → Int,
    (cpu.samples = (exported profile axis).flatMap fun s => List.replicate
      (copies (opts.countIndex.or (findCountAxis profile)) opts.expandSamples s) (leaf s)) ∧
    ∀ s ∈ exported profile axis, Leads cpu.nodes (leaf s) (inlinedFrames profile s)

theorem keepsInlined_iff {profile : Profile} {opts : ConvertOptions} {axis : ValueAxis}
    (haxis : selectValueAxis profile opts.valueIndex = .ok axis) {trace : Value} {stats : Stats}
    (htrace : buildTrace profile opts = .ok (trace, stats)) :
    KeepsInlined profile opts axis trace ↔ ∀ s ∈ exported profile axis, SingleLined profile s := by
  obtain ⟨st, hrun, -, -, rfl⟩ := buildTrace_ok haxis htrace
  have hnew : Drawn profile (opts.countIndex.or (findCountAxis profile)) opts.expandSamples []
      .new .empty := ⟨represents_new, List.forall_mem_nil _, rfl⟩
  obtain ⟨t, hdrawn⟩ := drawn_convertSamples hnew hrun
  rw [List.nil_append, ← exported] at hdrawn
  constructor
  · rintro ⟨cpu, hcpu, leaf, hsamples, hleads⟩ s hs
    obtain ⟨hnodes, hids⟩ := traceJson_inj hcpu
    rw [← hids, hdrawn.ids] at hsamples
    have hleaf := flatMap_replicate_inj (copies_pos _ _) hsamples s hs
    have hpath := hleads s hs
    rw [← hnodes, ← hleaf, leads_iff hdrawn.tree] at hpath
    have hframes := PrefixTable.idOf_inj (hdrawn.interned s hs) hpath.1 hpath.2
    refine singleLined_of_length_eq ((congrArg List.length hframes).symm.trans ?_)
    rw [stackFrames, List.length_map, List.length_reverse]
  · intro h
    refine ⟨_, rfl, fun s => t.idOf (stackFrames profile s), hdrawn.ids, fun s hs => ?_⟩
    rw [← stackFrames_eq_inlinedFrames (h s hs)]
    exact (leads_iff hdrawn.tree).mpr ⟨hdrawn.interned s hs, rfl⟩

end ChromeTraceExport

namespace StackFormats

/-! ### All three exporters -/

/-- The exporters keep inlined frames: each of the three writes all frames of the
exported samples exactly when no location on their stacks has two lines. -/
theorem exporters_keep_inlined_iff (profile : Profile) :
    (∀ (opts : Folded.ExportOptions) axis, selectPprofAxis profile opts.valueIndex = .ok axis →
      (Folded.KeepsInlined profile opts axis ↔
        ∀ s ∈ exported profile axis, SingleLined profile s)) ∧
    (∀ (opts : Speedscope.ExportOptions) axis,
      selectPprofAxis profile opts.valueIndex = .ok axis →
        (Speedscope.KeepsInlined profile opts axis ↔
          ∀ s ∈ exported profile axis, SingleLined profile s)) ∧
    ∀ (opts : ChromeTraceExport.ConvertOptions) axis trace stats,
      ChromeTraceExport.selectValueAxis profile opts.valueIndex = .ok axis →
      ChromeTraceExport.buildTrace profile opts = .ok (trace, stats) →
        (ChromeTraceExport.KeepsInlined profile opts axis trace ↔
          ∀ s ∈ ChromeTraceExport.exported profile axis, SingleLined profile s) :=
  ⟨fun _ _ haxis => Folded.keepsInlined_iff haxis,
    fun _ _ haxis => Speedscope.keepsInlined_iff haxis,
    fun _ _ _ _ haxis htrace => ChromeTraceExport.keepsInlined_iff haxis htrace⟩

/-- One sample of `main` over a location with these lines. -/
def leafProfile (lines : List Line) : Profile where
  sampleType := [⟨1, 2⟩]
  sample := [⟨[2, 1], [3000], []⟩]
  mapping := []
  location := [⟨1, 0, 0, [⟨1, 0, 0⟩], false⟩, ⟨2, 0, 0, lines, false⟩]
  function := [⟨1, 3, 3, 0, 0⟩, ⟨2, 4, 4, 0, 0⟩, ⟨3, 5, 5, 0, 0⟩]
  stringTable := ["", "cpu", "nanoseconds", "main", "outer", "inner"]
  dropFrames := 0
  keepFrames := 0
  timeNanos := 0
  durationNanos := 0
  periodType := none
  period := 0
  comment := []
  defaultSampleType := 0
  docUrl := 0

/-- One location with one line. -/
def plainLeaf : Profile := leafProfile [⟨3, 0, 0⟩]

/-- `inner` inlined into `outer`: the exporters write `main;inner`. -/
def inlinedLeaf : Profile := leafProfile [⟨3, 0, 0⟩, ⟨2, 0, 0⟩]

theorem buildTrace_of_isOk {profile : Profile}
    (hok : (ChromeTraceExport.buildTrace profile .default).isOk = true) :
    ∃ trace stats, ChromeTraceExport.buildTrace profile .default = .ok (trace, stats) := by
  rcases h : ChromeTraceExport.buildTrace profile .default with e | ⟨trace, stats⟩
  · rw [h] at hok
    cases hok
  · exact ⟨trace, stats, rfl⟩

theorem not_singleLined_inlinedLeaf :
    ¬ ∀ s ∈ inlinedLeaf.sample, SingleLined inlinedLeaf s := by
  intro h
  have hlen := h _ (List.mem_singleton_self _) 2 (by decide)
    ⟨2, 0, 0, [⟨3, 0, 0⟩, ⟨2, 0, 0⟩], false⟩ (by decide)
  simp at hlen

theorem exporters_drop_inlined :
    Folded.pprofToFolded inlinedLeaf ⟨none⟩ = .ok ("main;inner 3000\n", ⟨1, 3000⟩) ∧
    (inlinedLeaf.sample.map fun s => (inlinedStack inlinedLeaf s).map Frame.name) =
      [["main", "outer", "inner"]] ∧
    ¬ Folded.KeepsInlined inlinedLeaf ⟨none⟩ ⟨0, "nanoseconds"⟩ ∧
    ¬ Speedscope.KeepsInlined inlinedLeaf ⟨none, "moon-pprof", "profile"⟩ ⟨0, "nanoseconds"⟩ ∧
    ∃ trace stats, ChromeTraceExport.buildTrace inlinedLeaf .default = .ok (trace, stats) ∧
      ¬ ChromeTraceExport.KeepsInlined inlinedLeaf .default ⟨0, "nanoseconds"⟩ trace := by
  refine ⟨by decide +kernel, by decide +kernel, ?_, ?_, ?_⟩
  · rw [Folded.keepsInlined_iff (show selectPprofAxis _ _ = _ from rfl)]
    exact not_singleLined_inlinedLeaf
  · rw [Speedscope.keepsInlined_iff (show selectPprofAxis _ _ = _ from rfl)]
    exact not_singleLined_inlinedLeaf
  · obtain ⟨trace, stats, htrace⟩ : ∃ trace stats,
        ChromeTraceExport.buildTrace inlinedLeaf .default = .ok (trace, stats) :=
      buildTrace_of_isOk (by decide +kernel)
    refine ⟨trace, stats, htrace, ?_⟩
    have haxis : ChromeTraceExport.selectValueAxis inlinedLeaf
        ChromeTraceExport.ConvertOptions.default.valueIndex = .ok ⟨0, "nanoseconds"⟩ := rfl
    rw [ChromeTraceExport.keepsInlined_iff haxis htrace]
    exact not_singleLined_inlinedLeaf

/-- With one line all three keep the stack. -/
theorem exporters_keep_inlined_iff_plainLeaf :
    Folded.KeepsInlined plainLeaf ⟨none⟩ ⟨0, "nanoseconds"⟩ ∧
    Speedscope.KeepsInlined plainLeaf ⟨none, "moon-pprof", "profile"⟩ ⟨0, "nanoseconds"⟩ ∧
    ∃ trace stats, ChromeTraceExport.buildTrace plainLeaf .default = .ok (trace, stats) ∧
      ChromeTraceExport.KeepsInlined plainLeaf .default ⟨0, "nanoseconds"⟩ trace := by
  have hsingle : ∀ s ∈ plainLeaf.sample, SingleLined plainLeaf s := by
    intro s _ locId _ loc hloc
    have hlines : ∀ l ∈ plainLeaf.location, l.line.length ≤ 1 := by decide
    exact hlines loc (HashMap.lookup_indexBy hloc).1
  obtain ⟨trace, stats, htrace⟩ : ∃ trace stats,
      ChromeTraceExport.buildTrace plainLeaf .default = .ok (trace, stats) :=
    buildTrace_of_isOk (by decide +kernel)
  obtain ⟨hfolded, hspeedscope, hchrome⟩ := exporters_keep_inlined_iff plainLeaf
  exact ⟨(hfolded _ _ rfl).mpr hsingle, (hspeedscope _ _ rfl).mpr hsingle, trace, stats, htrace,
    (hchrome _ _ _ _ rfl htrace).mpr hsingle⟩

end StackFormats
