/-
What the stack formats share (`crates/pprof-stack-formats`): the choice of the
exported axis, and how a location of a profile resolves to a frame.

* `Written` — what the tables of an importer hold of the frames it has seen, and
  `Written.push`, one frame more;
* `Written.stackOf` — stacks over such tables resolve to the frames again.
-/
import MoonPprof.MachineInt
import MoonPprof.Json
import MoonPprof.Proto

open MachineInt Proto

namespace StackFormats

structure ExportStats where
  stackCount : Nat
  total : Int
deriving DecidableEq

structure ImportStats where
  samples : Nat
  locations : Nat
  total : Int
deriving DecidableEq

/-- An imported profile, before compression and encoding. -/
structure ImportedPprof where
  profile : Profile
  stats : ImportStats

/-! ### Axes -/

structure Axis where
  idx : Nat
  unit : String

def isSpeedscopeUnit (unit : String) : Bool :=
  unit == "none" || unit == "nanoseconds" || unit == "microseconds" || unit == "milliseconds" ||
    unit == "seconds" || unit == "bytes"

def selectPprofAxis (profile : Profile) (explicit : Option Nat) : Except Error Axis :=
  match explicit with
  | some idx =>
    match profile.sampleType[idx]? with
    | none => .error ["value index " ++ toString idx ++ " out of range; profile has " ++
        toString profile.sampleType.length ++ " sample type(s)"]
    | some st => .ok ⟨idx, stringAt profile st.unit⟩
  | none =>
    let axis := profile.sampleType.zipIdx.findSome? fun (st, i) =>
      let ty := stringAt profile st.type
      let unit := stringAt profile st.unit
      if (ty == "cpu" || ty == "wall") && isSpeedscopeUnit unit then some ⟨i, unit⟩ else none
    match axis with
    | some axis => .ok axis
    | none =>
      .error ["no CPU/wall Speedscope-compatible sample_type found; pass --value-index"]

/-- The value of a sample on an axis. -/
def valueOn (axis : Axis) (sample : Sample) : Int := sample.value[axis.idx]?.getD 0

/-! ### Frames -/

structure Frame where
  name : String
  file : Option String
  line : Option Int
  col : Option Int
deriving DecidableEq

def Frame.named (name : String) : Frame := ⟨name, none, none, none⟩

structure PprofResolver where
  profile : Profile
  locations : HashMap Nat Location
  functions : HashMap Nat Function

def PprofResolver.new (profile : Profile) : PprofResolver :=
  ⟨profile, locationMap profile, functionMap profile⟩

def PprofResolver.frameForLocation (r : PprofResolver) (locId : Nat) : Frame :=
  match r.locations.lookup locId with
  | none => .named ("location:" ++ toString locId)
  | some loc =>
    match loc.line.head? with
    | none => .named ("0x" ++ String.ofList (Nat.toDigits 16 loc.address))
    | some line =>
      match r.functions.lookup line.functionId with
      | none => .named ("function:" ++ toString line.functionId)
      | some func =>
        let name := stringAt r.profile func.name
        let file := stringAt r.profile func.filename
        { name := if name.isEmpty then "(unknown)" else name
          file := if file.isEmpty then none else some file
          line :=
            if line.line > 0 then some line.line
            else if func.startLine > 0 then some func.startLine
            else none
          col := if line.column > 0 then some line.column else none }

/-- The frames of a sample, root first. -/
def PprofResolver.stack (r : PprofResolver) (sample : Sample) : List Frame :=
  sample.locationId.reverse.map r.frameForLocation

/-- The samples that are exported: a positive value and a stack. -/
def exported (profile : Profile) (axis : Axis) : List Sample :=
  profile.sample.filter fun s => decide (0 < valueOn axis s) && !s.locationId.isEmpty

def stackOf (profile : Profile) (s : Sample) : List Frame := (PprofResolver.new profile).stack s

/-! ### Exported stacks -/

/-- What is exported of a profile: its stacks and their values. -/
def stacksOn (profile : Profile) (axis : Axis) : List (List Frame × Int) :=
  (exported profile axis).map fun s => (stackOf profile s, valueOn axis s)

theorem isEmpty_stackOf (profile : Profile) (s : Sample) :
    (stackOf profile s).isEmpty = s.locationId.isEmpty := by
  simp [stackOf, PprofResolver.stack]

/-- A loop that pushes each sample with a positive value and a stack pushes the
exported stacks. -/
theorem foldl_exported {σ : Type} {profile : Profile} {axis : Axis} {step : σ → Sample → σ}
    {push : σ → List Frame × Int → σ}
    (hstep : ∀ st s, step st s =
      if valueOn axis s ≤ 0 then st
      else if (stackOf profile s).isEmpty then st
      else push st (stackOf profile s, valueOn axis s)) (st : σ) :
    profile.sample.foldl step st = (stacksOn profile axis).foldl push st := by
  rw [stacksOn, exported]
  induction profile.sample generalizing st with
  | nil => rfl
  | cons s samples ih =>
    rw [List.foldl_cons, ih, hstep, isEmpty_stackOf]
    by_cases hvalue : valueOn axis s ≤ 0
    · rw [if_pos hvalue, List.filter_cons_of_neg (by simp [hvalue])]
    · rw [if_neg hvalue]
      rcases hempty : s.locationId.isEmpty with _ | _
      · rw [List.filter_cons_of_pos (by simp [hempty]; omega)]
        rfl
      · rw [List.filter_cons_of_neg (by simp [hempty])]
        rfl

/-- The exported stacks have frames, and their values are positive. -/
theorem mem_stacksOn {profile : Profile} {axis : Axis} {x : List Frame × Int}
    (hx : x ∈ stacksOn profile axis) :
    ∃ s ∈ profile.sample, x = (stackOf profile s, valueOn axis s) ∧ x.1 ≠ [] ∧ 0 < x.2 := by
  obtain ⟨s, hs, rfl⟩ := List.mem_map.mp hx
  obtain ⟨hmem, hexp⟩ := List.mem_filter.mp hs
  rw [Bool.and_eq_true, decide_eq_true_eq] at hexp
  refine ⟨s, hmem, rfl, ?_, hexp.1⟩
  simpa [stackOf, PprofResolver.stack] using hexp.2

/-- When every sample has a stack and a positive second value, all are exported. -/
theorem stacksOn_value {p : Profile} {xs : List (List Frame × Int)} {unit : String}
    (h : (p.sample.map fun s => (stackOf p s, s.value)) = xs.map fun x => (x.1, [1, x.2]))
    (hxs : ∀ x ∈ xs, x.1 ≠ [] ∧ 0 < x.2) : stacksOn p ⟨1, unit⟩ = xs := by
  have hsample : ∀ s ∈ p.sample, ∃ x ∈ xs, stackOf p s = x.1 ∧ s.value = [1, x.2] := by
    intro s hs
    obtain ⟨x, hx, heq⟩ := List.mem_map.mp (h ▸ List.mem_map_of_mem hs)
    exact ⟨x, hx, (congrArg Prod.fst heq).symm, (congrArg Prod.snd heq).symm⟩
  have hall : exported p ⟨1, unit⟩ = p.sample := by
    refine List.filter_eq_self.mpr fun s hs => ?_
    obtain ⟨x, hx, hstack, hvalue⟩ := hsample s hs
    have hne : s.locationId ≠ [] := by
      intro hnil
      refine (hxs x hx).1 (hstack.symm.trans ?_)
      rw [stackOf, PprofResolver.stack, hnil]
      rfl
    rw [valueOn, hvalue]
    simpa [hne] using (hxs x hx).2
  have hback := congrArg (List.map fun y : List Frame × List Int => (y.1, y.2[1]?.getD 0)) h
  rw [List.map_map, List.map_map] at hback
  rw [stacksOn, hall]
  exact hback.trans (List.map_id' xs)

section

variable {α : Type} {xs : List (α × Int)} (hpos : ∀ x ∈ xs, 0 < x.2)

include hpos

theorem sum_values_nonneg : 0 ≤ (xs.map Prod.snd).sum := by
  refine List.sum_nonneg fun v hv => ?_
  obtain ⟨x, hx, rfl⟩ := List.mem_map.mp hv
  exact (hpos x hx).le

theorem value_le_sum {x : α × Int} (hx : x ∈ xs) : x.2 ≤ (xs.map Prod.snd).sum := by
  refine List.single_le_sum (fun v hv => ?_) x.2 (List.mem_map_of_mem hx)
  obtain ⟨y, hy, rfl⟩ := List.mem_map.mp hv
  exact (hpos y hy).le

theorem sum_filter_le (p : α × Int → Bool) :
    ((xs.filter p).map Prod.snd).sum ≤ (xs.map Prod.snd).sum := by
  refine (List.filter_sublist.map Prod.snd).sum_le_sum fun v hv => ?_
  obtain ⟨x, hx, rfl⟩ := List.mem_map.mp hv
  exact (hpos x hx).le

theorem wrap_sum (hsum : (xs.map Prod.snd).sum ≤ 2 ^ 53) :
    wrap 64 (xs.map Prod.snd).sum = (xs.map Prod.snd).sum := by
  have := sum_values_nonneg hpos
  exact wrap_of_inRange (by omega) ⟨by omega, by omega⟩

/-- A running total of these values does not overflow. -/
theorem foldl_total (hsum : (xs.map Prod.snd).sum ≤ 2 ^ 53) :
    xs.foldl (fun total x => wrap 64 (total + x.2)) 0 = (xs.map Prod.snd).sum := by
  have h := foldl_wrap_add 64 Prod.snd xs 0
  rw [wrap_zero, zero_add, wrap_sum hpos hsum] at h
  exact h

end

/-! ### Frames that resolve -/

/-- What every resolved frame is like: it has a name, a file has one too, and
lines and columns are positive. -/
structure Frame.Resolved (f : Frame) : Prop where
  name : f.name ≠ ""
  file : f.file ≠ some ""
  line : ∀ n, f.line = some n → 0 < n
  col : ∀ n, f.col = some n → 0 < n

theorem Frame.resolved_named {name : String} (h : name ≠ "") : (Frame.named name).Resolved where
  name := h
  file := by simp [Frame.named]
  line := by intro n hn; cases hn
  col := by intro n hn; cases hn

theorem resolved_frameForLocation (r : PprofResolver) (locId : Nat) :
    (r.frameForLocation locId).Resolved := by
  rw [PprofResolver.frameForLocation]
  split
  · exact Frame.resolved_named (by simp)
  · split
    · exact Frame.resolved_named (by simp)
    · split
      · exact Frame.resolved_named (by simp)
      · rename_i line _ _ func _
        refine ⟨?_, ?_, ?_, ?_⟩
        · show (if (stringAt r.profile func.name).isEmpty then _ else _) ≠ _
          split
          · decide
          · rename_i hne
            simpa using hne
        · show (if (stringAt r.profile func.filename).isEmpty then _ else _) ≠ _
          split
          · simp
          · rename_i hne
            simpa using hne
        · intro n hn
          replace hn : (if line.line > 0 then some line.line
            else if func.startLine > 0 then some func.startLine else none) = some n := hn
          split at hn
          · cases hn
            assumption
          · split at hn
            · cases hn
              assumption
            · cases hn
        · intro n hn
          replace hn : (if line.column > 0 then some line.column else none) = some n := hn
          split at hn
          · cases hn
            assumption
          · cases hn

theorem resolved_stackOf {profile : Profile} {s : Sample} {f : Frame}
    (h : f ∈ stackOf profile s) : f.Resolved := by
  obtain ⟨locId, -, rfl⟩ := List.mem_map.mp h
  exact resolved_frameForLocation _ _

/-! ### Tables written from frames -/

/-- Row `i` of the tables is written from the frame `f`. -/
def RowOf (t : Tables) (i : Nat) (f : Frame) : Prop :=
  ∃ loc line func, t.locations[i]? = some loc ∧ loc.line = [line] ∧ line.functionId = i + 1 ∧
    line.line = f.line.getD 0 ∧ line.column = f.col.getD 0 ∧
    t.functions[i]? = some func ∧ getString t.strings func.name = some f.name ∧
    getString t.strings func.filename = some (f.file.getD "") ∧ func.startLine = f.line.getD 0

theorem RowOf.extend {t t' : Tables} (h : t.Extends t') {i : Nat} {f : Frame}
    (hrow : RowOf t i f) : RowOf t' i f := by
  obtain ⟨loc, line, func, hl, hline, hid, hln, hcol, hfn, hname, hfile, hstart⟩ := hrow
  exact ⟨loc, line, func, getElem?_of_isPrefix h.locations hl, hline, hid, hln, hcol,
    getElem?_of_isPrefix h.functions hfn, getString_of_isPrefix h.strings hname,
    getString_of_isPrefix h.strings hfile, hstart⟩

/-- The tables hold one function and one location for each frame. -/
structure Written (t : Tables) (frames : List Frame) : Prop where
  locationIds : CountsFrom1 Location.id t.locations
  functionIds : CountsFrom1 Function.id t.functions
  locations : t.locations.length = frames.length
  functions : t.functions.length = frames.length
  rows : ∀ i f, frames[i]? = some f → RowOf t i f

theorem written_nil (strings : List String) : Written ⟨strings, [], []⟩ [] where
  locationIds := by intro i r h; cases h
  functionIds := by intro i r h; cases h
  locations := rfl
  functions := rfl
  rows := by intro i f h; cases h

/-- One more frame, with its function and its location. -/
theorem Written.push {t t' : Tables} {frames : List Frame} (h : Written t frames) {f : Frame}
    {func : Function} {loc : Location} {line : Line} (hstrings : t.strings <+: t'.strings)
    (hfunctions : t'.functions = t.functions ++ [func])
    (hlocations : t'.locations = t.locations ++ [loc]) (hfid : func.id = frames.length + 1)
    (hlid : loc.id = frames.length + 1) (hline : loc.line = [line])
    (hid : line.functionId = frames.length + 1) (hln : line.line = f.line.getD 0)
    (hcol : line.column = f.col.getD 0) (hname : getString t'.strings func.name = some f.name)
    (hfile : getString t'.strings func.filename = some (f.file.getD ""))
    (hstart : func.startLine = f.line.getD 0) : Written t' (frames ++ [f]) where
  locationIds := by
    rw [hlocations]
    exact h.locationIds.append (by rw [hlid, h.locations])
  functionIds := by
    rw [hfunctions]
    exact h.functionIds.append (by rw [hfid, h.functions])
  locations := by rw [hlocations, List.length_append, List.length_append, h.locations]; rfl
  functions := by rw [hfunctions, List.length_append, List.length_append, h.functions]; rfl
  rows := by
    have hext : t.Extends t' :=
      ⟨hstrings, hfunctions ▸ List.prefix_append _ _, hlocations ▸ List.prefix_append _ _⟩
    refine forall_getElem?_concat (fun i g hg => (h.rows i g hg).extend hext) ?_
    refine ⟨loc, line, func, ?_, hline, hid, hln, hcol, ?_, hname, hfile, hstart⟩
    · rw [hlocations, ← h.locations]
      exact List.getElem?_concat_length
    · rw [hfunctions, ← h.functions]
      exact List.getElem?_concat_length

theorem stringAt_of_getString {p : Profile} {idx : Int} {s : String}
    (h : getString p.stringTable idx = some s) : stringAt p idx = s := by
  rw [getString] at h
  rw [stringAt]
  split at h
  · cases h
  · rw [if_neg (by assumption), h, Option.getD_some]

theorem frameForLocation_of_row {p : Profile} (hloc : CountsFrom1 Location.id p.location)
    (hfunc : CountsFrom1 Function.id p.function) {i : Nat} {f : Frame} (h : RowOf p.tables i f)
    (hf : f.Resolved) : (PprofResolver.new p).frameForLocation (i + 1) = f := by
  obtain ⟨loc, line, func, hl, hline, hid, hln, hcol, hfn, hname, hfile, hstart⟩ := h
  have hlookup : (locationMap p).lookup (i + 1) = some loc := lookup_indexBy_id hloc hl
  have hflookup : (functionMap p).lookup line.functionId = some func := by
    rw [hid]
    exact lookup_indexBy_id hfunc hfn
  rw [PprofResolver.frameForLocation]
  simp only [PprofResolver.new, hlookup, hline, List.head?_cons, hflookup,
    stringAt_of_getString hname, stringAt_of_getString hfile, hln, hcol, hstart]
  obtain ⟨name, file, ln, col⟩ := f
  rw [Frame.mk.injEq]
  refine ⟨if_neg (by simpa using hf.name), ?_, ?_, ?_⟩
  · rcases file with _ | file
    · rfl
    · have hne : file ≠ "" := fun h => hf.file (congrArg some h)
      exact if_neg (by simpa using hne)
  · rcases ln with _ | n
    · rfl
    · have hpos := hf.line n rfl
      simp [hpos]
  · rcases col with _ | n
    · rfl
    · have hpos := hf.col n rfl
      simp [hpos]

/-- A stack of such rows, leaf first, resolves to their frames. -/
theorem Written.stackOf {p : Profile} {frames : List Frame} (h : Written p.tables frames)
    (hresolved : ∀ f ∈ frames, f.Resolved) {stack : List Frame} {ids : List Nat}
    (hids : List.Forall₂ (fun i f => frames[i]? = some f) ids stack) {s : Sample}
    (hs : s.locationId = (ids.map (· + 1)).reverse) : stackOf p s = stack := by
  rw [StackFormats.stackOf, PprofResolver.stack, hs, List.reverse_reverse, List.map_map]
  clear hs
  induction hids with
  | nil => rfl
  | cons hf _ ih =>
    rw [List.map_cons, ih]
    exact congrArg (· :: _) (frameForLocation_of_row h.locationIds h.functionIds (h.rows _ _ hf)
      (hresolved _ (List.mem_of_getElem? hf)))

/-! ### String pools -/

/-- `StringPool::new()`. -/
def stringPool : InternTable String := (InternTable.empty.intern "").2

/-- `strings.intern(s)`. -/
def internString (strings : InternTable String) (s : String) : Int × InternTable String :=
  ((strings.intern s).1, (strings.intern s).2)

theorem internString_spec (strings : InternTable String) (s : String) :
    getString (internString strings s).2.items (internString strings s).1 = some s ∧
      strings.items <+: (internString strings s).2.items := by
  refine ⟨?_, strings.intern_isPrefix s⟩
  show getString (strings.intern s).2.items ((strings.intern s).1 : Int) = some s
  rw [getString_natCast, InternTable.intern_get]

end StackFormats
