/-
The pprof `Profile` message (`firefox-to-pprof/proto/profile.proto`).

`stringAt` is the lookup the exporters share.  `readStack` is what a reader of
the profile sees of a sample: its locations, looked up by id, their functions,
looked up by id, and the strings these name; it has no result when a reference
leads nowhere.
-/
import MoonPprof.InternTable

namespace Proto

structure ValueType where
  type : Int
  unit : Int
deriving DecidableEq

structure Label where
  key : Int
  str : Int
  num : Int
  numUnit : Int
deriving DecidableEq

structure Sample where
  locationId : List Nat
  value : List Int
  label : List Label
deriving DecidableEq

structure Mapping where
  id : Nat
  memoryStart : Nat
  memoryLimit : Nat
  fileOffset : Nat
  filename : Int
  buildId : Int
  hasFunctions : Bool
  hasFilenames : Bool
  hasLineNumbers : Bool
  hasInlineFrames : Bool
deriving DecidableEq

structure Line where
  functionId : Nat
  line : Int
  column : Int
deriving DecidableEq

structure Location where
  id : Nat
  mappingId : Nat
  address : Nat
  line : List Line
  isFolded : Bool
deriving DecidableEq

structure Function where
  id : Nat
  name : Int
  systemName : Int
  filename : Int
  startLine : Int
deriving DecidableEq

structure Profile where
  sampleType : List ValueType
  sample : List Sample
  mapping : List Mapping
  location : List Location
  function : List Function
  stringTable : List String
  dropFrames : Int
  keepFrames : Int
  timeNanos : Int
  durationNanos : Int
  periodType : Option ValueType
  period : Int
  comment : List Int
  defaultSampleType : Int
  docUrl : Int
deriving DecidableEq

/-- `string_at`: an index that leads nowhere reads as the empty string. -/
def stringAt (profile : Profile) (idx : Int) : String :=
  if idx < 0 then "" else profile.stringTable[idx.toNat]?.getD ""

/-- `location_map`; a repeated id keeps its last row. -/
def locationMap (profile : Profile) : HashMap Nat Location :=
  HashMap.indexBy Location.id profile.location

/-- `function_map`. -/
def functionMap (profile : Profile) : HashMap Nat Function :=
  HashMap.indexBy Function.id profile.function

/-! ### Reading a stack -/

/-- A frame as it reads through the tables. -/
structure ReadFrame where
  name : String
  systemName : String
  filename : String
  line : Int
deriving DecidableEq

/-- The string at an index of the table. -/
def getString (strings : List String) (idx : Int) : Option String :=
  if idx < 0 then none else strings[idx.toNat]?

def Profile.readLine (p : Profile) (l : Line) : Option ReadFrame := do
  let f ← p.function.find? (·.id == l.functionId)
  let name ← getString p.stringTable f.name
  let systemName ← getString p.stringTable f.systemName
  let filename ← getString p.stringTable f.filename
  some { name, systemName, filename, line := l.line }

/-- A location of one line. -/
def Profile.readLocation (p : Profile) (id : Nat) : Option ReadFrame := do
  let loc ← p.location.find? (·.id == id)
  match loc.line with
  | [l] => p.readLine l
  | _ => none

/-- The stack of a sample, leaf first. -/
def Profile.readStack (p : Profile) (s : Sample) : Option (List ReadFrame) :=
  s.locationId.mapM p.readLocation

/-- The lines of a location, leaf first. -/
def Profile.readLines (p : Profile) (id : Nat) : Option (List ReadFrame) := do
  let loc ← p.location.find? (·.id == id)
  loc.line.mapM p.readLine

/-- The stack of a sample, each location with its lines. -/
def Profile.readChains (p : Profile) (s : Sample) : Option (List (List ReadFrame)) :=
  s.locationId.mapM p.readLines

/-- The ids of a table count its rows from 1. -/
def CountsFrom1 {α : Type} (idOf : α → Nat) (rows : List α) : Prop :=
  ∀ i r, rows[i]? = some r → idOf r = i + 1

/-- In a table whose ids count from 1, the row with an id is found at its place. -/
theorem find?_id {α : Type} {idOf : α → Nat} {rows : List α}
    (hids : CountsFrom1 idOf rows) {i : Nat} {r : α}
    (h : rows[i]? = some r) : rows.find? (idOf · == i + 1) = some r := by
  rw [List.find?_eq_some_iff_getElem]
  obtain ⟨hlt, hget⟩ := List.getElem?_eq_some_iff.mp h
  refine ⟨by simpa using hids i r h, i, hlt, hget, fun j hj => ?_⟩
  have := hids j rows[j] (List.getElem?_eq_getElem (by omega))
  simp only [this, Bool.not_eq_true', beq_eq_false_iff_ne, ne_eq]
  omega

theorem CountsFrom1.nodup {α : Type} {idOf : α → Nat} {rows : List α}
    (h : CountsFrom1 idOf rows) : (rows.map idOf).Nodup := by
  rw [List.nodup_iff_getElem?_ne_getElem?]
  intro i j hij hj heq
  rw [List.length_map] at hj
  rw [List.getElem?_map, List.getElem?_map, List.getElem?_eq_getElem hj,
    List.getElem?_eq_getElem (show i < rows.length by omega), Option.map_some, Option.map_some,
    Option.some.injEq, h i _ (List.getElem?_eq_getElem (by omega)),
    h j _ (List.getElem?_eq_getElem hj)] at heq
  omega

/-- In such a table the row with an id is found through its index as well. -/
theorem lookup_indexBy_id {α : Type} {idOf : α → Nat} {rows : List α}
    (hids : CountsFrom1 idOf rows) {i : Nat} {r : α} (h : rows[i]? = some r) :
    (HashMap.indexBy idOf rows).lookup (i + 1) = some r := by
  rw [← hids i r h]
  exact HashMap.indexBy_of_mem hids.nodup (List.mem_of_getElem? h)

/-! ### Tables under construction

The importers append to the tables and never change a row, so what is read
through them stays. -/

/-- The tables through which a stack is read. -/
structure Tables where
  strings : List String
  functions : List Function
  locations : List Location

/-- `t'` continues `t`. -/
structure Tables.Extends (t t' : Tables) : Prop where
  strings : t.strings <+: t'.strings
  functions : t.functions <+: t'.functions
  locations : t.locations <+: t'.locations

/-- Row `id` of the functions has these strings. -/
def Tables.FunctionAt (t : Tables) (id : Nat) (name systemName filename : String) : Prop :=
  ∃ i f, id = i + 1 ∧ t.functions[i]? = some f ∧ getString t.strings f.name = some name ∧
    getString t.strings f.systemName = some systemName ∧
    getString t.strings f.filename = some filename

/-- Row `id` of the locations reads as this frame. -/
def Tables.LocationAt (t : Tables) (id : Nat) (frame : ReadFrame) : Prop :=
  ∃ i loc l, id = i + 1 ∧ t.locations[i]? = some loc ∧ loc.line = [l] ∧ l.line = frame.line ∧
    t.FunctionAt l.functionId frame.name frame.systemName frame.filename

theorem Tables.Extends.refl (t : Tables) : t.Extends t :=
  ⟨List.prefix_refl _, List.prefix_refl _, List.prefix_refl _⟩

theorem Tables.Extends.trans {t t' t'' : Tables} (h : t.Extends t') (h' : t'.Extends t'') :
    t.Extends t'' :=
  ⟨h.strings.trans h'.strings, h.functions.trans h'.functions, h.locations.trans h'.locations⟩

theorem getString_natCast (strings : List String) (i : Nat) :
    getString strings (i : Int) = strings[i]? := by
  rw [getString, if_neg (by omega), Int.toNat_natCast]

theorem getString_of_isPrefix {strings strings' : List String} (h : strings <+: strings')
    {idx : Int} {s : String} (hs : getString strings idx = some s) :
    getString strings' idx = some s := by
  rw [getString] at hs ⊢
  split at hs
  · cases hs
  · rw [if_neg (by assumption)]
    exact getElem?_of_isPrefix h hs

theorem Tables.FunctionAt.extend {t t' : Tables} (h : t.Extends t') {id : Nat}
    {name systemName filename : String} (hf : t.FunctionAt id name systemName filename) :
    t'.FunctionAt id name systemName filename := by
  obtain ⟨i, f, hid, hget, hn, hs, hfile⟩ := hf
  exact ⟨i, f, hid, getElem?_of_isPrefix h.functions hget, getString_of_isPrefix h.strings hn,
    getString_of_isPrefix h.strings hs, getString_of_isPrefix h.strings hfile⟩

theorem Tables.extends_concatFunction (strings : List String) (functions : List Function)
    (locations : List Location) (f : Function) :
    Extends ⟨strings, functions, locations⟩ ⟨strings, functions ++ [f], locations⟩ :=
  ⟨List.prefix_refl _, List.prefix_append _ _, List.prefix_refl _⟩

theorem Tables.extends_concatLocation (strings : List String) (functions : List Function)
    (locations : List Location) (loc : Location) :
    Extends ⟨strings, functions, locations⟩ ⟨strings, functions, locations ++ [loc]⟩ :=
  ⟨List.prefix_refl _, List.prefix_refl _, List.prefix_append _ _⟩

/-- The last function of a table has the strings it was written with. -/
theorem Tables.functionAt_concat {strings : List String} {functions : List Function}
    {locations : List Location} {f : Function} {name systemName filename : String}
    (hname : getString strings f.name = some name)
    (hsystem : getString strings f.systemName = some systemName)
    (hfile : getString strings f.filename = some filename) :
    FunctionAt ⟨strings, functions ++ [f], locations⟩ (functions.length + 1) name systemName
      filename :=
  ⟨functions.length, f, rfl, List.getElem?_concat_length, hname, hsystem, hfile⟩

theorem Tables.LocationAt.extend {t t' : Tables} (h : t.Extends t') {id : Nat}
    {frame : ReadFrame} (hl : t.LocationAt id frame) : t'.LocationAt id frame := by
  obtain ⟨i, loc, l, hid, hget, hline, hl, hf⟩ := hl
  exact ⟨i, loc, l, hid, getElem?_of_isPrefix h.locations hget, hline, hl, hf.extend h⟩

theorem CountsFrom1.append {α : Type} {idOf : α → Nat} {rows : List α}
    (h : CountsFrom1 idOf rows) {r : α} (hr : idOf r = rows.length + 1) :
    CountsFrom1 idOf (rows ++ [r]) :=
  forall_getElem?_concat h hr

def Profile.tables (p : Profile) : Tables := ⟨p.stringTable, p.function, p.location⟩

theorem readLine_of_functionAt {p : Profile} (hf : CountsFrom1 Function.id p.function) {l : Line}
    {name systemName filename : String}
    (h : p.tables.FunctionAt l.functionId name systemName filename) :
    p.readLine l = some ⟨name, systemName, filename, l.line⟩ := by
  obtain ⟨j, f, hfid, hfget, hname, hsys, hfile⟩ := h
  rw [Profile.readLine, hfid, find?_id hf hfget]
  simp only [Option.bind_eq_bind, Option.bind_some]
  rw [show p.stringTable = p.tables.strings from rfl, hname, hsys, hfile]
  rfl

/-- A location of the finished profile reads as its row does. -/
theorem readLocation_of_locationAt {p : Profile} (hf : CountsFrom1 Function.id p.function)
    (hl : CountsFrom1 Location.id p.location) {id : Nat} {frame : ReadFrame}
    (h : p.tables.LocationAt id frame) : p.readLocation id = some frame := by
  obtain ⟨i, loc, l, rfl, hget, hline, hln, hfunction⟩ := h
  rw [Profile.readLocation, find?_id hl hget, Option.bind_eq_bind, Option.bind_some, hline]
  simp only
  rw [readLine_of_functionAt hf hfunction, hln]

theorem readStack_of_locationAt {p : Profile} (hf : CountsFrom1 Function.id p.function)
    (hl : CountsFrom1 Location.id p.location) {s : Sample} {frames : List ReadFrame}
    (h : List.Forall₂ p.tables.LocationAt s.locationId frames) :
    p.readStack s = some frames :=
  mapM_eq_some_of_forall₂ (h.imp fun _ _ hid => readLocation_of_locationAt hf hl hid)

/-- A location whose lines read as these frames. -/
theorem readLines_of_row {p : Profile} (hl : CountsFrom1 Location.id p.location) {i : Nat}
    {loc : Location} (hget : p.location[i]? = some loc) {frames : List ReadFrame}
    (hlines : List.Forall₂ (fun l frame => p.readLine l = some frame) loc.line frames) :
    p.readLines (i + 1) = some frames := by
  rw [Profile.readLines, find?_id hl hget, Option.bind_eq_bind, Option.bind_some]
  exact mapM_eq_some_of_forall₂ hlines

end Proto
