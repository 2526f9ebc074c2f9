/-
The tables of a perf conversion.

`State.Inv` ties the five maps to the tables; the location of a frame depends on
its displayed symbol and its binary only.

* `mappingFor_spec`, `functionFor_spec`, `locationFor_spec` — what one frame adds;
* `locStacks_spec` — the stacks of ids stand for the stacks of pairs.
-/
import MoonPprof.Perf

open MachineInt Proto

namespace Perf

/-! ### What a row shows -/

def State.tables (st : State) : Tables := ⟨st.strings.items, st.functions, st.locations⟩

/-- Row `id` of the mappings is the one of a binary. -/
def MappingAt (strings : List String) (mappings : List Mapping) (id : Nat) (dso : String) : Prop :=
  ∃ i m, id = i + 1 ∧ mappings[i]? = some m ∧ getString strings m.filename = some dso

/-- Row `id` of the locations is the one of a symbol in a binary. -/
def PairAt (t : Tables) (mappings : List Mapping) (id : Nat) (key : String × String) : Prop :=
  ∃ i loc fid raw, id = i + 1 ∧ t.locations[i]? = some loc ∧ loc.line = [⟨fid, 0, 0⟩] ∧
    t.FunctionAt fid key.1 raw key.2 ∧ MappingAt t.strings mappings loc.mappingId key.2

theorem MappingAt.extend {strings strings' : List String} {mappings mappings' : List Mapping}
    (hs : strings <+: strings') (hm : mappings <+: mappings') {id : Nat} {dso : String}
    (h : MappingAt strings mappings id dso) : MappingAt strings' mappings' id dso := by
  obtain ⟨i, m, hid, hget, hfile⟩ := h
  exact ⟨i, m, hid, getElem?_of_isPrefix hm hget, getString_of_isPrefix hs hfile⟩

theorem MappingAt.validId {strings : List String} {mappings : List Mapping} {id : Nat}
    {dso : String}
    (h : MappingAt strings mappings id dso) : ValidId mappings id := by
  obtain ⟨i, m, rfl, hget, -⟩ := h
  exact validId_of_getElem? hget

theorem PairAt.extend {t t' : Tables} {mappings mappings' : List Mapping} (ht : t.Extends t')
    (hm : mappings <+: mappings') {id : Nat} {key : String × String}
    (h : PairAt t mappings id key) : PairAt t' mappings' id key := by
  obtain ⟨i, loc, fid, raw, hid, hget, hline, hfunc, hmapping⟩ := h
  exact ⟨i, loc, fid, raw, hid, getElem?_of_isPrefix ht.locations hget, hline, hfunc.extend ht,
    hmapping.extend ht.strings hm⟩

/-! ### The invariant -/

/-- The maps and the tables agree. -/
structure State.Inv (display : String → String) (st : State) : Prop where
  empty : st.strings.items[0]? = some ""
  tables : st.tables.Closed
  mappingIds : CountsFrom1 Mapping.id st.mappings
  mappingStrings : ∀ m ∈ st.mappings,
    ValidString st.strings.items m.filename ∧ ValidString st.strings.items m.buildId
  demangled : ∀ raw v, st.demangled.lookup raw = some v → v = display raw
  mappingId : ∀ dso id, st.mappingId.lookup dso = some id →
    MappingAt st.strings.items st.mappings id dso
  funcId : ∀ key id, st.funcId.lookup key = some id →
    ∃ raw, st.tables.FunctionAt id key.1 raw key.2
  locationId : ∀ key id, st.locationId.lookup key = some id →
    PairAt st.tables st.mappings id key
  inj : ∀ key key' id, st.locationId.lookup key = some id → st.locationId.lookup key' = some id →
    key = key'
  locationMappings : ∀ loc ∈ st.locations, ValidId st.mappings loc.mappingId

/-- Later states have more rows, and the pairs keep their locations. -/
structure Grows (st st' : State) : Prop where
  rows : st.tables.Extends st'.tables
  mappings : st.mappings <+: st'.mappings
  locationId : ∀ key id, st.locationId.lookup key = some id → st'.locationId.lookup key = some id

/-- A step that adds no location. -/
structure KeepsLocations (st st' : State) : Prop where
  rows : st.tables.Extends st'.tables
  mappings : st.mappings <+: st'.mappings
  locations : st'.locations = st.locations
  locationId : st'.locationId = st.locationId

theorem Grows.refl (st : State) : Grows st st :=
  ⟨.refl _, List.prefix_refl _, fun _ _ h => h⟩

theorem Grows.trans {st st' st'' : State} (h : Grows st st') (h' : Grows st' st'') :
    Grows st st'' :=
  ⟨h.rows.trans h'.rows, h.mappings.trans h'.mappings,
    fun key id hid => h'.locationId key id (h.locationId key id hid)⟩

theorem KeepsLocations.refl (st : State) : KeepsLocations st st :=
  ⟨.refl _, List.prefix_refl _, rfl, rfl⟩

theorem KeepsLocations.trans {st st' st'' : State} (h : KeepsLocations st st')
    (h' : KeepsLocations st' st'') : KeepsLocations st st'' :=
  ⟨h.rows.trans h'.rows, h.mappings.trans h'.mappings, h'.locations.trans h.locations,
    h'.locationId.trans h.locationId⟩

variable {display : String → String}

theorem State.Inv.intern {st : State} (h : st.Inv display) (s : String) :
    (st.intern s).2.Inv display ∧ KeepsLocations st (st.intern s).2 ∧
      getString (st.intern s).2.strings.items (st.intern s).1 = some s := by
  have hext : st.strings.items <+: (st.intern s).2.strings.items := st.strings.intern_isPrefix s
  have hrows : st.tables.Extends (st.intern s).2.tables :=
    ⟨hext, List.prefix_refl _, List.prefix_refl _⟩
  refine ⟨⟨getElem?_of_isPrefix hext h.empty, h.tables.pushStrings hext, h.mappingIds,
    fun m hm => ?_, h.demangled, fun dso id hid => ?_, fun key id hid => ?_, fun key id hid => ?_,
    h.inj, h.locationMappings⟩, ⟨hrows, List.prefix_refl _, rfl, rfl⟩, ?_⟩
  · obtain ⟨hfile, hbuild⟩ := h.mappingStrings m hm
    exact ⟨hfile.of_isPrefix hext, hbuild.of_isPrefix hext⟩
  · exact (h.mappingId dso id hid).extend hext (List.prefix_refl _)
  · obtain ⟨raw, hat⟩ := h.funcId key id hid
    exact ⟨raw, hat.extend hrows⟩
  · exact (h.locationId key id hid).extend hrows (List.prefix_refl _)
  · show getString (st.strings.intern s).2.items ((st.strings.intern s).1 : Int) = some s
    rw [getString_natCast, InternTable.intern_get]

/-! ### What a frame adds -/

theorem demangle_spec {decode : String → String} {opts : ConvertOptions}
    (hdisplay : ∀ raw, display raw = if opts.noDemangle then raw else decode raw) {st : State}
    (h : st.Inv display) (raw : String) :
    let r := st.demangle decode opts raw
    r.1 = display raw ∧ r.2.Inv display ∧ KeepsLocations st r.2 := by
  intro r
  show (st.demangle decode opts raw).1 = display raw ∧ (st.demangle decode opts raw).2.Inv display ∧
    KeepsLocations st (st.demangle decode opts raw).2
  rw [State.demangle]
  by_cases hopt : opts.noDemangle
  · rw [if_pos hopt]
    exact ⟨by rw [hdisplay, if_pos hopt], h, .refl _⟩
  · rw [if_neg hopt]
    rcases hlookup : st.demangled.lookup raw with _ | v
    · have hout : (if decode raw = raw then raw else decode raw) = display raw := by
        rw [hdisplay, if_neg hopt]
        split
        · rename_i heq
          exact heq.symm
        · rfl
      simp only [hout]
      refine ⟨trivial, ⟨h.empty, h.tables, h.mappingIds, h.mappingStrings, fun raw' v hv => ?_,
        h.mappingId, h.funcId, h.locationId, h.inj, h.locationMappings⟩,
        ⟨.refl _, List.prefix_refl _, rfl, rfl⟩⟩
      rcases HashMap.lookup_insert_cases hv with ⟨rfl, rfl⟩ | hold
      · rfl
      · exact h.demangled raw' v hold
    · exact ⟨h.demangled raw v hlookup, h, .refl _⟩

theorem mappingFor_spec {st : State} (h : st.Inv display) (dso : String) :
    let r := st.mappingFor dso
    r.2.Inv display ∧ KeepsLocations st r.2 ∧
      MappingAt r.2.strings.items r.2.mappings r.1 dso := by
  intro r
  rcases hlookup : st.mappingId.lookup dso with _ | id
  · obtain ⟨h₁, hkeep₁, hfile⟩ := h.intern dso
    set st₁ := (st.intern dso).2
    set m : Mapping := ⟨st.mappings.length + 1, 0, 0, 0, (st.intern dso).1, 0, !dso.isEmpty, false,
      false, false⟩
    have hr : r = (st.mappings.length + 1, { st₁ with
        mappings := st.mappings ++ [m]
        mappingId := st.mappingId.insert dso (st.mappings.length + 1) }) := by
      show st.mappingFor dso = _
      rw [State.mappingFor]
      simp only [hlookup]
      rfl
    have hpush : st.mappings <+: st.mappings ++ [m] := List.prefix_append _ _
    -- a binary is met for the first time here: its row is the last one
    have hat : MappingAt st₁.strings.items (st.mappings ++ [m]) (st.mappings.length + 1) dso := by
      refine ⟨st.mappings.length, m, rfl, ?_, hfile⟩
      exact List.getElem?_concat_length
    rw [hr]
    refine ⟨⟨h₁.empty, h₁.tables, h.mappingIds.append rfl, fun x hx => ?_, h₁.demangled,
      fun dso' id hid => ?_, h₁.funcId, fun key id hid => ?_, h₁.inj, fun loc hloc => ?_⟩,
      ⟨hkeep₁.rows, hpush, hkeep₁.locations, hkeep₁.locationId⟩, hat⟩
    · rcases List.mem_append.mp hx with hx | hx
      · exact h₁.mappingStrings x hx
      · rw [List.mem_singleton.mp hx]
        exact ⟨⟨dso, hfile⟩, ⟨"", (getString_natCast _ 0).trans h₁.empty⟩⟩
    · rcases HashMap.lookup_insert_cases hid with ⟨rfl, rfl⟩ | hold
      · exact hat
      · exact (h₁.mappingId dso' id hold).extend (List.prefix_refl _) hpush
    · exact (h₁.locationId key id hid).extend (.refl _) hpush
    · exact (h₁.locationMappings loc hloc).of_isPrefix hpush
  · have hr : r = (id, st) := by
      show st.mappingFor dso = _
      rw [State.mappingFor]
      simp only [hlookup]
    rw [hr]
    exact ⟨h, .refl _, h.mappingId dso id hlookup⟩

theorem functionFor_spec {st : State} (h : st.Inv display) (key : String × String)
    (symbol : String) :
    let r := st.functionFor key symbol
    r.2.Inv display ∧ KeepsLocations st r.2 ∧
      ∃ raw, r.2.tables.FunctionAt r.1 key.1 raw key.2 := by
  intro r
  rcases hlookup : st.funcId.lookup key with _ | id
  · obtain ⟨h₁, hkeep₁, hname⟩ := h.intern key.1
    set st₁ := (st.intern key.1).2
    obtain ⟨h₂, hkeep₂, hsystem⟩ := h₁.intern symbol
    set st₂ := (st₁.intern symbol).2
    obtain ⟨h₃, hkeep₃, hfile⟩ := h₂.intern key.2
    set st₃ := (st₂.intern key.2).2
    set row : Function := ⟨st.functions.length + 1, (st.intern key.1).1, (st₁.intern symbol).1,
      (st₂.intern key.2).1, 0⟩
    have hr : r = (st.functions.length + 1, { st₃ with
        functions := st.functions ++ [row]
        funcId := st.funcId.insert key (st.functions.length + 1) }) := by
      show st.functionFor key symbol = _
      rw [State.functionFor]
      simp only [hlookup]
      rfl
    -- strings interned first stay where they are while the others are added
    have hname₃ := getString_of_isPrefix (hkeep₂.trans hkeep₃).rows.strings hname
    have hsystem₃ := getString_of_isPrefix hkeep₃.rows.strings hsystem
    have hrow : row.Closed st₃.strings.items := ⟨⟨_, hname₃⟩, ⟨_, hsystem₃⟩, ⟨_, hfile⟩⟩
    have hkeep₁₃ := hkeep₁.trans (hkeep₂.trans hkeep₃)
    have hpush : st₃.tables.Extends r.2.tables := by
      rw [hr]
      exact Tables.extends_concatFunction _ _ _ row
    have hat : r.2.tables.FunctionAt r.1 key.1 symbol key.2 := by
      rw [hr]
      exact Tables.functionAt_concat hname₃ hsystem₃ hfile
    rw [hr] at hpush hat ⊢
    refine ⟨⟨h₃.empty, h₃.tables.pushFunction rfl hrow, h₃.mappingIds, h₃.mappingStrings,
      h₃.demangled, h₃.mappingId, fun key' id hid => ?_, fun key' id hid => ?_, h₃.inj,
      h₃.locationMappings⟩, ⟨hkeep₁₃.rows.trans hpush, hkeep₁₃.mappings, hkeep₁₃.locations,
      hkeep₁₃.locationId⟩, symbol, hat⟩
    · rcases HashMap.lookup_insert_cases hid with ⟨rfl, rfl⟩ | hold
      · exact ⟨symbol, hat⟩
      · obtain ⟨raw, hat'⟩ := h₃.funcId key' id hold
        exact ⟨raw, hat'.extend hpush⟩
    · exact (h₃.locationId key' id hid).extend hpush (List.prefix_refl _)
  · have hr : r = (id, st) := by
      show st.functionFor key symbol = _
      rw [State.functionFor]
      simp only [hlookup]
    rw [hr]
    exact ⟨h, .refl _, h.funcId key id hlookup⟩

/-- A pair that has no location yet. -/
theorem pushLocation_spec {st : State} (h : st.Inv display) {key : String × String}
    (hnone : st.locationId.lookup key = none) {mid fid : Nat} {raw : String}
    (hmapping : MappingAt st.strings.items st.mappings mid key.2)
    (hfunction : st.tables.FunctionAt fid key.1 raw key.2) :
    let st' : State := { st with
      locations := st.locations ++ [⟨st.locations.length + 1, mid, 0, [⟨fid, 0, 0⟩], false⟩]
      locationId := st.locationId.insert key (st.locations.length + 1) }
    st'.Inv display ∧ Grows st st' := by
  intro st'
  set loc : Location := ⟨st.locations.length + 1, mid, 0, [⟨fid, 0, 0⟩], false⟩
  have hpush : st.tables.Extends st'.tables := Tables.extends_concatLocation _ _ _ loc
  have hother : ∀ key' id, st.locationId.lookup key' = some id →
      st'.locationId.lookup key' = some id := by
    intro key' id hid
    exact HashMap.lookup_insert_of_lookup hnone hid
  -- no pair in the map has the new id
  have hfresh : ∀ key', st.locationId.lookup key' ≠ some (st.locations.length + 1) := by
    intro key' hid
    obtain ⟨i, row, -, -, hlen, hget, -⟩ := h.locationId key' _ hid
    have hlt : i < st.locations.length := (List.getElem?_eq_some_iff.mp hget).1
    omega
  have hline : ∀ l ∈ loc.line, ValidId st.functions l.functionId := by
    intro l hl
    obtain ⟨i, row, hid, hget, -⟩ := hfunction
    rw [List.mem_singleton.mp hl]
    show ValidId st.functions fid
    rw [hid]
    exact validId_of_getElem? hget
  refine ⟨⟨h.empty, h.tables.pushLocation rfl hline, h.mappingIds, h.mappingStrings, h.demangled,
    h.mappingId, fun key' id hid => ?_, fun key' id hid => ?_, fun key' key'' id hid hid' => ?_,
    fun x hx => ?_⟩, ⟨hpush, List.prefix_refl _, hother⟩⟩
  · obtain ⟨raw', hat⟩ := h.funcId key' id hid
    exact ⟨raw', hat.extend hpush⟩
  · rcases HashMap.lookup_insert_cases hid with ⟨rfl, rfl⟩ | hid
    · refine ⟨st.locations.length, loc, fid, raw, rfl, ?_, rfl, hfunction.extend hpush, hmapping⟩
      show (st.locations ++ [loc])[st.locations.length]? = some loc
      exact List.getElem?_concat_length
    · exact (h.locationId key' id hid).extend hpush (List.prefix_refl _)
  · exact HashMap.lookup_insert_inj h.inj hfresh hid hid'
  · rcases List.mem_append.mp hx with hx | hx
    · exact h.locationMappings x hx
    · rw [List.mem_singleton.mp hx]
      exact hmapping.validId

theorem KeepsLocations.grows {st st' : State} (h : KeepsLocations st st') : Grows st st' :=
  ⟨h.rows, h.mappings, fun _ _ hid => h.locationId ▸ hid⟩

theorem locationOf_spec {st : State} (h : st.Inv display) (name : String) (frame : Frame) :
    let r := st.locationOf (name, frame.dso) frame
    r.2.Inv display ∧ Grows st r.2 ∧ r.2.locationId.lookup (name, frame.dso) = some r.1 := by
  intro r
  rcases hlookup : st.locationId.lookup (name, frame.dso) with _ | id
  · obtain ⟨h₁, hkeep₁, hmapping⟩ := mappingFor_spec h frame.dso
    set mid := (st.mappingFor frame.dso).1
    set st₁ := (st.mappingFor frame.dso).2
    obtain ⟨h₂, hkeep₂, raw, hfunction⟩ := functionFor_spec h₁ (name, frame.dso) frame.symbol
    set fid := (st₁.functionFor (name, frame.dso) frame.symbol).1
    set st₂ := (st₁.functionFor (name, frame.dso) frame.symbol).2
    have hnone : st₂.locationId.lookup (name, frame.dso) = none := by
      rw [(hkeep₁.trans hkeep₂).locationId]
      exact hlookup
    obtain ⟨h₃, hgrows₃⟩ := pushLocation_spec h₂ hnone
      (hmapping.extend hkeep₂.rows.strings hkeep₂.mappings) hfunction
    have hr : r = (st₂.locations.length + 1, { st₂ with
        locations := st₂.locations ++ [⟨st₂.locations.length + 1, mid, 0, [⟨fid, 0, 0⟩], false⟩]
        locationId := st₂.locationId.insert (name, frame.dso) (st₂.locations.length + 1) }) := by
      show st.locationOf (name, frame.dso) frame = _
      rw [State.locationOf]
      simp only [hlookup]
      rfl
    rw [hr]
    exact ⟨h₃, (hkeep₁.trans hkeep₂).grows.trans hgrows₃, AList.lookup_insert _⟩
  · have hr : r = (id, st) := by
      show st.locationOf (name, frame.dso) frame = _
      rw [State.locationOf]
      simp only [hlookup]
    rw [hr]
    exact ⟨h, .refl _, hlookup⟩

section

variable {decode : String → String} {opts : ConvertOptions}
  (hdisplay : ∀ raw, display raw = if opts.noDemangle then raw else decode raw)

include hdisplay

/-- The location of a frame is the one of its displayed symbol and its binary. -/
theorem locationFor_spec {st : State} (h : st.Inv display) (frame : Frame) :
    let r := st.locationFor decode opts frame
    r.2.Inv display ∧ Grows st r.2 ∧
      r.2.locationId.lookup (display frame.symbol, frame.dso) = some r.1 := by
  intro r
  obtain ⟨hname, h₁, hkeep₁⟩ := demangle_spec hdisplay h frame.symbol
  obtain ⟨h₂, hgrows₂, hlookup⟩ := locationOf_spec h₁ (display frame.symbol) frame
  have hr : r = (st.demangle decode opts frame.symbol).2.locationOf
      (display frame.symbol, frame.dso) frame := by
    rw [← hname]
    rfl
  rw [hr]
  exact ⟨h₂, hkeep₁.grows.trans hgrows₂, hlookup⟩

/-- The displayed symbols and binaries of a stack. -/
def displayed (display : String → String) (stack : List Frame) : List (String × String) :=
  stack.map fun f => (display f.symbol, f.dso)

theorem locStack_spec {st : State} (h : st.Inv display) (stack : List Frame) :
    let r := st.locStack decode opts stack
    r.2.Inv display ∧ Grows st r.2 ∧
      List.Forall₂ (fun id key => r.2.locationId.lookup key = some id) r.1
        (displayed display stack) := by
  induction stack generalizing st with
  | nil => exact ⟨h, .refl _, .nil⟩
  | cons frame stack ih =>
    obtain ⟨h₁, hgrows₁, hid⟩ := locationFor_spec hdisplay h frame
    obtain ⟨h₂, hgrows₂, hids⟩ := ih h₁
    exact ⟨h₂, hgrows₁.trans hgrows₂, .cons (hgrows₂.locationId _ _ hid) hids⟩

/-- The samples that have a stack. -/
def stacked (samples : List Sample) : List Sample := samples.filter fun s => !s.stack.isEmpty

/-- Each sample that has a stack is charged to the ids of its pairs. -/
theorem locStacks_spec {st : State} (h : st.Inv display) (samples : List Sample) :
    let r := st.locStacks decode opts samples
    r.2.Inv display ∧ Grows st r.2 ∧
      List.Forall₂ (fun c s => c.2 = wrap 64 (s.period : Int) ∧ List.Forall₂
        (fun id key => r.2.locationId.lookup key = some id) c.1 (displayed display s.stack)) r.1
        (stacked samples) := by
  induction samples generalizing st with
  | nil => exact ⟨h, .refl _, .nil⟩
  | cons s samples ih =>
    intro r
    by_cases hnil : s.stack.isEmpty
    · have hr : r = st.locStacks decode opts samples := by
        show st.locStacks decode opts (s :: samples) = _
        rw [State.locStacks, if_pos hnil]
      rw [hr, stacked, List.filter_cons_of_neg (by simpa using hnil)]
      exact ih h
    · obtain ⟨h₁, hgrows₁, hids⟩ := locStack_spec hdisplay h s.stack
      obtain ⟨h₂, hgrows₂, hrest⟩ := ih h₁
      have hr : r = (((st.locStack decode opts s.stack).1, wrap 64 s.period) ::
          ((st.locStack decode opts s.stack).2.locStacks decode opts samples).1,
          ((st.locStack decode opts s.stack).2.locStacks decode opts samples).2) := by
        show st.locStacks decode opts (s :: samples) = _
        rw [State.locStacks, if_neg hnil]
      rw [hr, stacked, List.filter_cons_of_pos (by simpa using hnil)]
      refine ⟨h₂, hgrows₁.trans hgrows₂, List.Forall₂.cons ⟨?_, ?_⟩ hrest⟩
      · dsimp only
      · exact hids.imp fun _ _ hid => hgrows₂.locationId _ _ hid

end

theorem inv_new : State.new.Inv display where
  empty := rfl
  tables := ⟨nofun, nofun, nofun, nofun⟩
  mappingIds := nofun
  mappingStrings := nofun
  demangled := nofun
  mappingId := nofun
  funcId := nofun
  locationId := nofun
  inj := nofun
  locationMappings := nofun

end Perf
