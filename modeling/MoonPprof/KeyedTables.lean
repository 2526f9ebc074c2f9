/-
Profile tables whose rows are found by a key.

A frame gets one function and one location for its key, when the key is first
met; the names of that frame are the names of the function.

* `locationFor_spec` — the location of a frame bears the names of a frame of its
  key, and rows that are there stay;
* `samplesFor_spec` — the samples of a list of stacks;
* `encode_reads`, `valueOf_encode` — what a reader of the finished profile sees
  of them.
-/
import MoonPprof.Aggregate
import MoonPprof.ProfileClosed

namespace Proto

structure KeyedTables (K : Type) [DecidableEq K] where
  strings : InternTable String
  functions : List Function
  funcIndex : HashMap K Nat
  locations : List Location
  locIndex : HashMap K Nat

/-- What a frame is known by: its key, and the name and system name of its function. -/
structure Naming (F K : Type) where
  key : F → K
  name : F → String
  systemName : F → String

namespace KeyedTables

variable {F K : Type} [DecidableEq K]

def new : KeyedTables K := ⟨(InternTable.empty.intern "").2, [], ∅, [], ∅⟩

def intern (t : KeyedTables K) (s : String) : Int × KeyedTables K :=
  let (id, strings) := t.strings.intern s
  (id, { t with strings })

/-- The function of a frame; a new one interns its name and then its system name. -/
def functionFor (n : Naming F K) (t : KeyedTables K) (frame : F) : Nat × KeyedTables K :=
  match t.funcIndex.lookup (n.key frame) with
  | some id => (id, t)
  | none =>
    let id := t.functions.length + 1
    let (name, t) := t.intern (n.name frame)
    let (systemName, t) := t.intern (n.systemName frame)
    (id, { t with
      functions := t.functions ++ [⟨id, name, systemName, 0, 0⟩]
      funcIndex := t.funcIndex.insert (n.key frame) id })

/-- The location of a frame, in mapping 1. -/
def locationFor (n : Naming F K) (t : KeyedTables K) (frame : F) : Nat × KeyedTables K :=
  match t.locIndex.lookup (n.key frame) with
  | some id => (id, t)
  | none =>
    let (funcId, t) := t.functionFor n frame
    let id := t.locations.length + 1
    (id, { t with
      locations := t.locations ++ [⟨id, 1, 0, [⟨funcId, 0, 0⟩], false⟩]
      locIndex := t.locIndex.insert (n.key frame) id })

def stackFor (n : Naming F K) (t : KeyedTables K) : List F → List Nat × KeyedTables K
  | [] => ([], t)
  | frame :: frames =>
    let (id, t) := t.locationFor n frame
    let (ids, t) := t.stackFor n frames
    (id :: ids, t)

/-- The samples of stacks with their values; a stack without frames gives none. -/
def samplesFor (n : Naming F K) (t : KeyedTables K) :
    List (List F × List Int) → List Sample × KeyedTables K
  | [] => ([], t)
  | (frames, value) :: rest =>
    let (ids, t) := t.stackFor n frames
    let (samples, t) := t.samplesFor n rest
    (if ids.isEmpty then samples else ⟨ids, value, []⟩ :: samples, t)

def tables (t : KeyedTables K) : Tables := ⟨t.strings.items, t.functions, t.locations⟩

/-! ### The invariant -/

/-- The maps and the tables agree; `Named` says which names a key may have. -/
structure Inv (Named : K → String → String → Prop) (t : KeyedTables K) : Prop where
  empty : t.strings.items[0]? = some ""
  closed : t.tables.Closed
  mappingIds : ∀ loc ∈ t.locations, loc.mappingId = 1
  function : ∀ key id, t.funcIndex.lookup key = some id →
    ∃ name system, Named key name system ∧ t.tables.FunctionAt id name system ""
  location : ∀ key id, t.locIndex.lookup key = some id →
    ∃ name system, Named key name system ∧ t.tables.LocationAt id ⟨name, system, "", 0⟩
  inj : ∀ key key' id, t.locIndex.lookup key = some id → t.locIndex.lookup key' = some id →
    key = key'

/-- Later tables have more rows, and the keys keep their locations. -/
structure Grows (t t' : KeyedTables K) : Prop where
  rows : t.tables.Extends t'.tables
  locIndex : ∀ key id, t.locIndex.lookup key = some id → t'.locIndex.lookup key = some id

theorem Grows.refl (t : KeyedTables K) : Grows t t := ⟨.refl _, fun _ _ h => h⟩

theorem Grows.trans {t t' t'' : KeyedTables K} (h : Grows t t') (h' : Grows t' t'') :
    Grows t t'' :=
  ⟨h.rows.trans h'.rows, fun key id hid => h'.locIndex key id (h.locIndex key id hid)⟩

theorem Grows.getString {t t' : KeyedTables K} (h : Grows t t') {idx : Int} {s : String}
    (hs : getString t.strings.items idx = some s) : getString t'.strings.items idx = some s :=
  getString_of_isPrefix h.rows.strings hs

variable {Named : K → String → String → Prop} {n : Naming F K} {t : KeyedTables K}

theorem inv_new : (new : KeyedTables K).Inv Named where
  empty := rfl
  closed := ⟨nofun, nofun, nofun, nofun⟩
  mappingIds := nofun
  function := nofun
  location := nofun
  inj := nofun

theorem Inv.intern (h : t.Inv Named) (s : String) :
    (t.intern s).2.Inv Named ∧ Grows t (t.intern s).2 ∧
      getString (t.intern s).2.strings.items (t.intern s).1 = some s := by
  have hext : t.strings.items <+: (t.intern s).2.strings.items := t.strings.intern_isPrefix s
  have hrows : t.tables.Extends (t.intern s).2.tables :=
    ⟨hext, List.prefix_refl _, List.prefix_refl _⟩
  refine ⟨⟨getElem?_of_isPrefix hext h.empty, h.closed.pushStrings hext, h.mappingIds,
    fun key id hid => ?_, fun key id hid => ?_, h.inj⟩, ⟨hrows, fun _ _ hid => hid⟩, ?_⟩
  · obtain ⟨name, system, hnamed, hat⟩ := h.function key id hid
    exact ⟨name, system, hnamed, hat.extend hrows⟩
  · obtain ⟨name, system, hnamed, hat⟩ := h.location key id hid
    exact ⟨name, system, hnamed, hat.extend hrows⟩
  · show getString (t.strings.intern s).2.items ((t.strings.intern s).1 : Int) = some s
    rw [getString_natCast, InternTable.intern_get]

theorem Inv.emptyString (h : t.Inv Named) : getString t.strings.items 0 = some "" :=
  (getString_natCast _ 0).trans h.empty

/-- A function for a key that has none. -/
theorem Inv.pushFunction (h : t.Inv Named) {key : K} {name system : String} {nameId systemId : Int}
    (hnamed : Named key name system) (hname : getString t.strings.items nameId = some name)
    (hsystem : getString t.strings.items systemId = some system) :
    let id := t.functions.length + 1
    let t' : KeyedTables K := { t with
      functions := t.functions ++ [⟨id, nameId, systemId, 0, 0⟩]
      funcIndex := t.funcIndex.insert key id }
    t'.Inv Named ∧ Grows t t' ∧ t'.tables.FunctionAt id name system "" := by
  intro id t'
  set f : Function := ⟨id, nameId, systemId, 0, 0⟩
  have hrows : t.tables.Extends t'.tables := Tables.extends_concatFunction _ _ _ f
  have hat : t'.tables.FunctionAt id name system "" :=
    Tables.functionAt_concat hname hsystem h.emptyString
  have hf : f.Closed t.tables.strings := ⟨⟨name, hname⟩, ⟨system, hsystem⟩, ⟨"", h.emptyString⟩⟩
  refine ⟨⟨h.empty, h.closed.pushFunction rfl hf, h.mappingIds, fun key' id' hid => ?_,
    fun key' id' hid => ?_, h.inj⟩, ⟨hrows, fun _ _ hid => hid⟩, hat⟩
  · rcases HashMap.lookup_insert_cases hid with ⟨rfl, rfl⟩ | hid
    · exact ⟨name, system, hnamed, hat⟩
    · obtain ⟨name', system', hnamed', hat'⟩ := h.function key' id' hid
      exact ⟨name', system', hnamed', hat'.extend hrows⟩
  · obtain ⟨name', system', hnamed', hat'⟩ := h.location key' id' hid
    exact ⟨name', system', hnamed', hat'.extend hrows⟩

/-- A location for a key that has none. -/
theorem Inv.pushLocation (h : t.Inv Named) {key : K} {name system : String} {funcId : Nat}
    (hnone : t.locIndex.lookup key = none) (hnamed : Named key name system)
    (hfunction : t.tables.FunctionAt funcId name system "") :
    let id := t.locations.length + 1
    let t' : KeyedTables K := { t with
      locations := t.locations ++ [⟨id, 1, 0, [⟨funcId, 0, 0⟩], false⟩]
      locIndex := t.locIndex.insert key id }
    t'.Inv Named ∧ Grows t t' := by
  intro id t'
  set loc : Location := ⟨id, 1, 0, [⟨funcId, 0, 0⟩], false⟩
  have hrows : t.tables.Extends t'.tables := Tables.extends_concatLocation _ _ _ loc
  -- no key in the map has the new id
  have hfresh : ∀ key', t.locIndex.lookup key' ≠ some id := by
    intro key' hid
    obtain ⟨name', system', -, i, row, -, hlen, hget, -⟩ := h.location key' _ hid
    have hlt : i < t.locations.length := (List.getElem?_eq_some_iff.mp hget).1
    omega
  have hline : ∀ l ∈ loc.line, ValidId t.functions l.functionId := by
    intro l hl
    obtain ⟨i, row, hid, hget, -⟩ := hfunction
    rw [List.mem_singleton.mp hl]
    show ValidId t.functions funcId
    rw [hid]
    exact validId_of_getElem? hget
  refine ⟨⟨h.empty, h.closed.pushLocation rfl hline, fun x hx => ?_, fun key' id' hid => ?_,
    fun key' id' hid => ?_, fun key' key'' id' hid hid' => ?_⟩,
    ⟨hrows, fun key' id' hid => HashMap.lookup_insert_of_lookup hnone hid⟩⟩
  · rcases List.mem_append.mp hx with hx | hx
    · exact h.mappingIds x hx
    · rw [List.mem_singleton.mp hx]
  · obtain ⟨name', system', hnamed', hat'⟩ := h.function key' id' hid
    exact ⟨name', system', hnamed', hat'.extend hrows⟩
  · rcases HashMap.lookup_insert_cases hid with ⟨rfl, rfl⟩ | hid
    · refine ⟨name, system, hnamed, t.locations.length, loc, _, rfl, ?_, rfl, rfl,
        hfunction.extend hrows⟩
      show (t.locations ++ [loc])[t.locations.length]? = some loc
      exact List.getElem?_concat_length
    · obtain ⟨name', system', hnamed', hat'⟩ := h.location key' id' hid
      exact ⟨name', system', hnamed', hat'.extend hrows⟩
  · exact HashMap.lookup_insert_inj h.inj hfresh hid hid'

/-! ### Frames and stacks -/

theorem functionFor_spec (h : t.Inv Named) {frame : F}
    (hnamed : Named (n.key frame) (n.name frame) (n.systemName frame)) :
    let r := t.functionFor n frame
    r.2.Inv Named ∧ Grows t r.2 ∧ r.2.locIndex = t.locIndex ∧
      ∃ name system, Named (n.key frame) name system ∧ r.2.tables.FunctionAt r.1 name system "" := by
  intro r
  rcases hlookup : t.funcIndex.lookup (n.key frame) with _ | id
  · obtain ⟨h₁, hgrows₁, hname⟩ := h.intern (n.name frame)
    obtain ⟨h₂, hgrows₂, hsystem⟩ := h₁.intern (n.systemName frame)
    obtain ⟨h₃, hgrows₃, hat⟩ := h₂.pushFunction hnamed
      (getString_of_isPrefix hgrows₂.rows.strings hname) hsystem
    have hr : r = t.functionFor n frame := rfl
    rw [functionFor] at hr
    simp only [hlookup] at hr
    rw [hr]
    exact ⟨h₃, (hgrows₁.trans hgrows₂).trans hgrows₃, rfl, _, _, hnamed, hat⟩
  · have hr : r = (id, t) := by
      show t.functionFor n frame = _
      rw [functionFor]
      simp only [hlookup]
    rw [hr]
    exact ⟨h, .refl _, rfl, h.function _ id hlookup⟩

/-- A frame is found under its key. -/
theorem locationFor_spec (h : t.Inv Named) {frame : F}
    (hnamed : Named (n.key frame) (n.name frame) (n.systemName frame)) :
    let r := t.locationFor n frame
    r.2.Inv Named ∧ Grows t r.2 ∧ r.2.locIndex.lookup (n.key frame) = some r.1 := by
  intro r
  rcases hlookup : t.locIndex.lookup (n.key frame) with _ | id
  · obtain ⟨h₁, hgrows₁, hsame, name, system, hnamed', hat⟩ := functionFor_spec h hnamed
    obtain ⟨h₂, hgrows₂⟩ := h₁.pushLocation (hsame ▸ hlookup) hnamed' hat
    have hr : r = t.locationFor n frame := rfl
    rw [locationFor] at hr
    simp only [hlookup] at hr
    rw [hr]
    exact ⟨h₂, hgrows₁.trans hgrows₂, AList.lookup_insert _⟩
  · have hr : r = (id, t) := by
      show t.locationFor n frame = _
      rw [locationFor]
      simp only [hlookup]
    rw [hr]
    exact ⟨h, .refl _, hlookup⟩

/-- The locations of a stack are those of its keys. -/
def Located (n : Naming F K) (t : KeyedTables K) (ids : List Nat) (frames : List F) : Prop :=
  List.Forall₂ (fun id frame => t.locIndex.lookup (n.key frame) = some id) ids frames

theorem Located.grows {t' : KeyedTables K} (hgrows : Grows t t') {ids : List Nat} {frames : List F}
    (h : Located n t ids frames) : Located n t' ids frames :=
  h.imp fun _ _ hid => hgrows.locIndex _ _ hid

theorem stackFor_spec (h : t.Inv Named) {frames : List F}
    (hnamed : ∀ f ∈ frames, Named (n.key f) (n.name f) (n.systemName f)) :
    let r := t.stackFor n frames
    r.2.Inv Named ∧ Grows t r.2 ∧ Located n r.2 r.1 frames := by
  induction frames generalizing t with
  | nil => exact ⟨h, .refl _, .nil⟩
  | cons frame frames ih =>
    obtain ⟨h₁, hgrows₁, hid⟩ := locationFor_spec h (hnamed frame List.mem_cons_self)
    obtain ⟨h₂, hgrows₂, hids⟩ := ih h₁ fun f hf => hnamed f (List.mem_cons_of_mem _ hf)
    exact ⟨h₂, hgrows₁.trans hgrows₂, .cons (hgrows₂.locIndex _ _ hid) hids⟩

/-- The sample of a stack with its values. -/
structure SampleOf (n : Naming F K) (t : KeyedTables K) (s : Sample) (e : List F × List Int) :
    Prop where
  value : s.value = e.2
  label : s.label = []
  located : Located n t s.locationId e.1

/-- The stacks that have a frame. -/
def nonempty {α β : Type} (entries : List (List α × β)) : List (List α × β) :=
  entries.filter fun e => !e.1.isEmpty

theorem samplesFor_spec (h : t.Inv Named) (entries : List (List F × List Int))
    (hnamed : ∀ e ∈ entries, ∀ f ∈ e.1, Named (n.key f) (n.name f) (n.systemName f)) :
    let r := t.samplesFor n entries
    r.2.Inv Named ∧ Grows t r.2 ∧ List.Forall₂ (SampleOf n r.2) r.1 (nonempty entries) := by
  induction entries generalizing t with
  | nil => exact ⟨h, .refl _, .nil⟩
  | cons e entries ih =>
    obtain ⟨h₁, hgrows₁, hids⟩ := stackFor_spec h (hnamed e List.mem_cons_self)
    obtain ⟨h₂, hgrows₂, hrest⟩ := ih h₁ fun e' he' => hnamed e' (List.mem_cons_of_mem _ he')
    refine ⟨h₂, hgrows₁.trans hgrows₂, ?_⟩
    have hempty : (t.stackFor n e.1).1.isEmpty = e.1.isEmpty := by
      rw [Bool.eq_iff_iff, List.isEmpty_iff_length_eq_zero, List.isEmpty_iff_length_eq_zero,
        hids.length_eq]
    show List.Forall₂ _ (if (t.stackFor n e.1).1.isEmpty then _ else _) _
    rw [nonempty, List.filter_cons, hempty]
    cases hnil : e.1.isEmpty
    · exact .cons ⟨rfl, rfl, hids.grows hgrows₂⟩ hrest
    · exact hrest

/-! ### The finished profile -/

/-- A frame as it reads through the tables, with the names of a frame of its key. -/
def ReadsAs (Named : K → String → String → Prop) (n : Naming F K) (frame : F) (r : ReadFrame) :
    Prop :=
  Named (n.key frame) r.name r.systemName ∧ r.filename = "" ∧ r.line = 0

theorem readStack_of_located (h : t.Inv Named) {p : Profile} (hp : p.tables = t.tables)
    {s : Sample} {frames : List F} (hs : Located n t s.locationId frames) :
    ∃ stack, p.readStack s = some stack ∧ List.Forall₂ (ReadsAs Named n) frames stack := by
  have hclosed : p.tables.Closed := hp ▸ h.closed
  have hat : ∀ ids frames, Located n t ids frames → ∃ stack,
      List.Forall₂ t.tables.LocationAt ids stack ∧ List.Forall₂ (ReadsAs Named n) frames stack := by
    intro ids frames hids
    induction hids with
    | nil => exact ⟨[], .nil, .nil⟩
    | cons hid _ ih =>
      obtain ⟨stack, hstack, hreads⟩ := ih
      obtain ⟨name, system, hnamed, hloc⟩ := h.location _ _ hid
      exact ⟨_, .cons hloc hstack, .cons ⟨hnamed, rfl, rfl⟩ hreads⟩
  obtain ⟨stack, hstack, hreads⟩ := hat s.locationId frames hs
  exact ⟨stack, readStack_of_locationAt hclosed.functionIds hclosed.locationIds (hp ▸ hstack),
    hreads⟩

/-- The locations of a sample are there. -/
theorem validId_of_located (h : t.Inv Named) {ids : List Nat} {frames : List F}
    (hids : Located n t ids frames) : ∀ id ∈ ids, ValidId t.locations id := by
  induction hids with
  | nil => exact nofun
  | cons hid _ ih =>
    intro id hmem
    rcases List.mem_cons.mp hmem with rfl | hmem
    · obtain ⟨name, system, -, i, row, l, rfl, hget, -⟩ := h.location _ _ hid
      exact validId_of_getElem? hget
    · exact ih id hmem

/-- A profile of objects and bytes in these tables, with one mapping; the first six are indices of
strings. -/
def spaceProfile (objects count space bytes dropFrames mappingFilename : Int)
    (samples : List Sample) (t : KeyedTables K) : Profile where
  sampleType := [⟨objects, count⟩, ⟨space, bytes⟩]
  sample := samples
  mapping := [⟨1, 0, 0, 0, mappingFilename, 0, true, false, false, false⟩]
  location := t.locations
  function := t.functions
  stringTable := t.strings.items
  dropFrames := dropFrames
  keepFrames := 0
  timeNanos := 0
  durationNanos := 0
  periodType := some ⟨space, bytes⟩
  period := 1
  comment := []
  defaultSampleType := space
  docUrl := 0

theorem Inv.spaceProfile_closed (h : t.Inv Named)
    {objects count space bytes dropFrames mappingFilename : Int}
    (hstrings : ∀ idx ∈ [objects, count, space, bytes, dropFrames, mappingFilename],
      ValidString t.strings.items idx)
    {samples : List Sample} {entries : List (List F × List Int)}
    (hsamples : List.Forall₂ (SampleOf n t) samples entries) :
    (spaceProfile objects count space bytes dropFrames mappingFilename samples t).Closed := by
  have hzero : ValidString t.strings.items 0 := ⟨"", h.emptyString⟩
  have hsample : ∀ s ∈ samples, ∃ e, SampleOf n t s e := by
    intro s hs
    obtain ⟨i, hi, rfl⟩ := List.getElem_of_mem hs
    exact ⟨_, hsamples.get hi (hsamples.length_eq ▸ hi)⟩
  simp only [List.forall_mem_cons, List.not_mem_nil, false_implies, forall_const, and_true]
    at hstrings
  obtain ⟨hobjects, hcount, hspace, hbytes, hdrop, hfile⟩ := hstrings
  refine Profile.closed_of_tables h.closed (fun s hs => ?_) (fun x hx => ?_) (fun m hm => ?_)
    (fun idx hidx => ?_) (fun s hs => ?_) (fun loc hloc _ => ?_)
  · obtain ⟨e, he⟩ := hsample s hs
    exact he.label
  · simp only [spaceProfile, Option.toList_some, List.cons_append, List.nil_append, List.mem_cons,
      List.not_mem_nil, or_false] at hx
    rcases hx with rfl | rfl | rfl
    · exact ⟨hobjects, hcount⟩
    · exact ⟨hspace, hbytes⟩
    · exact ⟨hspace, hbytes⟩
  · rw [List.mem_singleton.mp hm]
    exact ⟨hfile, hzero⟩
  · simp only [spaceProfile, List.append_nil, List.mem_cons, List.not_mem_nil, or_false] at hidx
    rcases hidx with rfl | rfl | rfl | rfl
    · exact hdrop
    · exact hzero
    · exact hspace
    · exact hzero
  · obtain ⟨e, he⟩ := hsample s hs
    exact validId_of_located h he.located
  · rw [h.mappingIds loc hloc]
    rfl

end KeyedTables

/-- The names of a sample's stack, leaf first. -/
def Profile.readNames (p : Profile) (s : Sample) : Option (List String) :=
  (p.readStack s).map (List.map ReadFrame.name)

/-- The samples with their stacks read. -/
def Profile.samplesRead (p : Profile) : List (Option (List String) × List Int) :=
  p.sample.map fun s => (p.readNames s, s.value)

/-- The sample types by their strings. -/
def Profile.sampleTypes (p : Profile) : List (Option String × Option String) :=
  p.sampleType.map fun t => (getString p.stringTable t.type, getString p.stringTable t.unit)

/-- The sum of the `i`th values of the samples that read as `stack`. -/
def Profile.valueOf (p : Profile) (stack : List String) (i : Nat) : Int :=
  ((p.samplesRead.filter (·.1 = some stack)).map (·.2.getD i 0)).sum

namespace KeyedTables

variable {F K : Type} [DecidableEq K] {Named : K → String → String → Prop} {n : Naming F K}
  {t : KeyedTables K}

omit [DecidableEq K] in
/-- Where a key has one name, the frames read as it. -/
theorem map_name_of_readsAs {frames : List F} {stack : List ReadFrame}
    (h : List.Forall₂ (ReadsAs Named n) frames stack)
    (hname : ∀ f ∈ frames, ∀ name system, Named (n.key f) name system → name = n.name f) :
    stack.map ReadFrame.name = frames.map n.name := by
  induction h with
  | nil => rfl
  | cons hread _ ih =>
    rw [List.map_cons, List.map_cons, ih fun f hf => hname f (List.mem_cons_of_mem _ hf),
      hname _ List.mem_cons_self _ _ hread.1]

/-- The stacks of the profile read as the names of their frames. -/
theorem readNames_of_sampleOf (h : t.Inv Named) {p : Profile} (hp : p.tables = t.tables)
    {s : Sample} {e : List F × List Int} (hs : SampleOf n t s e)
    (hname : ∀ f ∈ e.1, ∀ name system, Named (n.key f) name system → name = n.name f) :
    p.readNames s = some (e.1.map n.name) := by
  obtain ⟨stack, hstack, hreads⟩ := readStack_of_located h hp hs.located
  rw [Profile.readNames, hstack, Option.map_some, map_name_of_readsAs hreads hname]

/-- The profile of stacks with their values, the strings first, each interned behind the ones before
it. -/
def encode (n : Naming F K) (objectsName spaceName dropFrames : String)
    (rows : List (List F × List Int)) : Profile :=
  let objects := (new : KeyedTables K).intern objectsName
  let countStr := objects.2.intern "count"
  let space := countStr.2.intern spaceName
  let bytesStr := space.2.intern "bytes"
  let dropPat := bytesStr.2.intern dropFrames
  let mappingFilename := dropPat.2.intern ""
  let r := mappingFilename.2.samplesFor n rows
  spaceProfile objects.1 countStr.1 space.1 bytesStr.1 dropPat.1 mappingFilename.1 r.1 r.2

section

variable (objectsName spaceName dropFrames : String) {rows : List (List F × List Int)}

theorem encode_spec
    (hnamed : ∀ e ∈ rows, ∀ f ∈ e.1, Named (n.key f) (n.name f) (n.systemName f)) :
    ∃ t : KeyedTables K, t.Inv Named ∧
      (encode n objectsName spaceName dropFrames rows).tables = t.tables ∧
      List.Forall₂ (SampleOf n t) (encode n objectsName spaceName dropFrames rows).sample
        (nonempty rows) ∧
      (encode n objectsName spaceName dropFrames rows).sampleTypes =
        [(some objectsName, some "count"), (some spaceName, some "bytes")] ∧
      (getString t.strings.items 0 = some "" ∧ getString t.strings.items
        (encode n objectsName spaceName dropFrames rows).dropFrames = some dropFrames) ∧
      (encode n objectsName spaceName dropFrames rows).Closed := by
  have h₀ : (new : KeyedTables K).Inv Named := inv_new
  obtain ⟨h₁, -, hobjects⟩ := h₀.intern objectsName
  rw [encode]
  generalize (new : KeyedTables K).intern objectsName = objects at h₁ hobjects ⊢
  obtain ⟨h₂, g₂, hcount⟩ := h₁.intern "count"
  generalize objects.2.intern "count" = countStr at h₂ g₂ hcount ⊢
  obtain ⟨h₃, g₃, hspace⟩ := h₂.intern spaceName
  generalize countStr.2.intern spaceName = space at h₃ g₃ hspace ⊢
  obtain ⟨h₄, g₄, hbytes⟩ := h₃.intern "bytes"
  generalize space.2.intern "bytes" = bytesStr at h₄ g₄ hbytes ⊢
  obtain ⟨h₅, g₅, hdrop⟩ := h₄.intern dropFrames
  generalize bytesStr.2.intern dropFrames = dropPat at h₅ g₅ hdrop ⊢
  obtain ⟨h₆, g₆, hfile⟩ := h₅.intern ""
  generalize dropPat.2.intern "" = mappingFilename at h₆ g₆ hfile ⊢
  obtain ⟨h₇, g₇, hsamples⟩ := samplesFor_spec (n := n) h₆ rows hnamed
  -- what was interned first is still there
  have g₆₇ := g₆.trans g₇
  have g₅₇ := g₅.trans g₆₇
  have g₄₇ := g₄.trans g₅₇
  have g₃₇ := g₃.trans g₄₇
  replace hobjects := (g₂.trans g₃₇).getString hobjects
  replace hcount := g₃₇.getString hcount
  replace hspace := g₄₇.getString hspace
  replace hbytes := g₅₇.getString hbytes
  replace hdrop := g₆₇.getString hdrop
  replace hfile := g₇.getString hfile
  refine ⟨_, h₇, rfl, hsamples, ?_, ⟨h₇.emptyString, hdrop⟩, h₇.spaceProfile_closed ?_ hsamples⟩
  · simp only [Profile.sampleTypes, spaceProfile, List.map_cons, List.map_nil, hobjects, hcount,
      hspace, hbytes]
  · simp only [List.forall_mem_cons, List.not_mem_nil, false_implies, forall_const, and_true]
    exact ⟨⟨_, hobjects⟩, ⟨_, hcount⟩, ⟨_, hspace⟩, ⟨_, hbytes⟩, ⟨_, hdrop⟩, ⟨_, hfile⟩⟩

/-- The stacks of the rows have the names of their frames, if frames of one key have one name. -/
def OneName (n : Naming F K) (rows : List (List F × List Int)) : Prop :=
  ∀ e ∈ rows, ∀ f ∈ e.1, ∀ e' ∈ rows, ∀ f' ∈ e'.1, n.key f = n.key f' → n.name f = n.name f'

/-- The profile is closed, and its samples are the rows that have a frame, in their order. -/
theorem encode_reads (hname : OneName n rows) :
    (encode n objectsName spaceName dropFrames rows).Closed ∧
      (encode n objectsName spaceName dropFrames rows).sampleTypes =
        [(some objectsName, some "count"), (some spaceName, some "bytes")] ∧
      (encode n objectsName spaceName dropFrames rows).samplesRead =
        (nonempty rows).map fun e => (some (e.1.map n.name), e.2) := by
  -- a key has the names of its frames
  set Named : K → String → String → Prop :=
    fun key name _ => ∃ e ∈ rows, ∃ f ∈ e.1, n.key f = key ∧ n.name f = name
  have hnamed : ∀ e ∈ rows, ∀ f ∈ e.1, Named (n.key f) (n.name f) (n.systemName f) :=
    fun e he f hf => ⟨e, he, f, hf, rfl, rfl⟩
  obtain ⟨t, h, hp, hsamples, htypes, -, hclosed⟩ :=
    encode_spec objectsName spaceName dropFrames hnamed
  refine ⟨hclosed, htypes, ?_⟩
  have hrows := (List.forall₂_and_left _ _).mpr
    ⟨fun e (he : e ∈ nonempty rows) => (List.mem_filter.mp he).1, hsamples.flip⟩
  refine (map_eq_map_of_forall₂ hrows fun e s ⟨he, hs⟩ => ?_).symm
  rw [readNames_of_sampleOf h hp hs, hs.value]
  rintro f hf name system ⟨e', he', f', hf', hkey, rfl⟩
  exact hname e' he' f' hf' e he f hf hkey

/-- The pattern of the dropped names reads as it was given. -/
theorem encode_dropFrames (rows : List (List F × List Int)) :
    let p := encode n objectsName spaceName dropFrames rows
    getString p.stringTable 0 = some "" ∧ getString p.stringTable p.dropFrames = some dropFrames := by
  intro p
  obtain ⟨t, -, hp, -, -, hdrop, -⟩ := @encode_spec F K _ (fun _ _ _ => True) n objectsName
    spaceName dropFrames rows fun _ _ _ _ => trivial
  rw [show p.stringTable = t.strings.items from congrArg Tables.strings hp]
  exact hdrop

/-- The values of a stack that is read are those of all rows that are named so. -/
theorem valueOf_encode (hname : OneName n rows) {stack : List String} (hstack : stack ≠ [])
    (i : Nat) : (encode n objectsName spaceName dropFrames rows).valueOf stack i =
      ((rows.filter fun e => e.1.map n.name = stack).map fun e => e.2.getD i 0).sum := by
  obtain ⟨-, -, hreads⟩ := encode_reads objectsName spaceName dropFrames hname
  -- a stack without frames is not named as this one
  have hpred : ∀ e : List F × List Int,
      (decide (some (e.1.map n.name) = some stack) && !e.1.isEmpty) =
        decide (e.1.map n.name = stack) := by
    intro e
    rw [Bool.eq_iff_iff, Bool.and_eq_true, decide_eq_true_eq, decide_eq_true_eq,
      Option.some.injEq, and_iff_left_iff_imp]
    rintro rfl
    cases hnil : e.1 with
    | nil => exact absurd (congrArg (List.map n.name) hnil) hstack
    | cons f fs => rfl
  rw [Profile.valueOf, hreads, List.filter_map, List.map_map, nonempty, List.filter_filter]
  refine congrArg (fun l => (List.map _ l).sum) (List.filter_congr fun e _ => ?_)
  exact hpred e

end

/-! ### Stacks out of a hash map -/

section

variable {A : Type} (n : Naming F K) (objectsName spaceName dropFrames : String)
  (values : A → List Int) (it : IterOrder (Sigma fun _ : List F => A))

def rows (entries : List (Sigma fun _ : List F => A)) : List (List F × List Int) :=
  entries.map fun e => (e.1, values e.2)

variable (m : HashMap (List F) A)

/-- The profile of the stacks of a map, in the order they come out of it. -/
def encodeMap : Profile :=
  encode n objectsName spaceName dropFrames (rows values (it.order m.entries))

/-- The frames of the map that have one key have one name. -/
def MapOneName : Prop :=
  ∀ e ∈ m.entries, ∀ f ∈ e.1, ∀ e' ∈ m.entries, ∀ f' ∈ e'.1, n.key f = n.key f' → n.name f = n.name f'

variable {n m}

omit [DecidableEq K] in
theorem MapOneName.rows (h : MapOneName n m) : OneName n (rows values (it.order m.entries)) := by
  intro x hx f hf x' hx' f' hf'
  obtain ⟨e, he, rfl⟩ := List.mem_map.mp hx
  obtain ⟨e', he', rfl⟩ := List.mem_map.mp hx'
  exact h e ((it.perm _).mem_iff.mp he) f hf e' ((it.perm _).mem_iff.mp he') f' hf'

theorem encodeMap_reads (h : MapOneName n m) :
    (encodeMap n objectsName spaceName dropFrames values it m).Closed ∧
      (encodeMap n objectsName spaceName dropFrames values it m).sampleTypes =
        [(some objectsName, some "count"), (some spaceName, some "bytes")] ∧
      (encodeMap n objectsName spaceName dropFrames values it m).samplesRead =
        ((it.order m.entries).filter fun e => !e.1.isEmpty).map fun e =>
          (some (e.1.map n.name), values e.2) := by
  obtain ⟨hclosed, htypes, hreads⟩ := encode_reads objectsName spaceName dropFrames (h.rows values it)
  refine ⟨hclosed, htypes, hreads.trans ?_⟩
  rw [nonempty, KeyedTables.rows, List.filter_map, List.map_map]
  rfl

/-- The values of a stack that is read are those of all stacks that are named so, whatever the
order. -/
theorem valueOf_encodeMap (h : MapOneName n m) {stack : List String} (hstack : stack ≠ [])
    (i : Nat) : (encodeMap n objectsName spaceName dropFrames values it m).valueOf stack i =
      ((m.entries.filter fun e => e.1.map n.name = stack).map fun e => (values e.2).getD i 0).sum := by
  have hperm := ((it.perm m.entries).filter fun e => decide (e.1.map n.name = stack)).map
    fun e => (values e.2).getD i 0
  have hencode := valueOf_encode objectsName spaceName dropFrames (h.rows values it) hstack i
  rw [encodeMap, hencode, KeyedTables.rows, List.filter_map, List.map_map]
  exact hperm.sum_eq

end

end KeyedTables

end Proto
