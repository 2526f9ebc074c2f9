/-
Profiles in which no reference leads nowhere.

`Profile.Closed` is the contract of `profile.proto`: string indices lie in the
table, and an id names exactly one row.  A builder keeps `Tables.Closed` while it
appends to its tables:

* `Tables.Closed.pushFunction`, `Tables.Closed.pushLocation` — rows that refer to
  what is there;
* `oneRow_of_validId` — in a table whose ids count from 1;
* `Profile.closed_of_tables` — the finished profile.
-/
import MoonPprof.Proto

universe u

namespace Proto

/-! ### The contract -/

/-- Exactly one row has this id. -/
def OneRow {α : Type u} (idOf : α → Nat) (rows : List α) (id : Nat) : Prop :=
  rows.countP (idOf · == id) = 1

/-- The indices of a profile into its string table. -/
def Profile.stringIndices (p : Profile) : List Int :=
  (p.sampleType ++ p.periodType.toList).flatMap (fun t => [t.type, t.unit]) ++
    p.sample.flatMap (fun s => s.label.flatMap fun l => [l.key, l.str, l.numUnit]) ++
    p.mapping.flatMap (fun m => [m.filename, m.buildId]) ++
    p.function.flatMap (fun f => [f.name, f.systemName, f.filename]) ++
    [p.dropFrames, p.keepFrames, p.defaultSampleType, p.docUrl] ++ p.comment

/-- Every reference of the profile leads to exactly one row. -/
structure Profile.Closed (p : Profile) : Prop where
  strings : ∀ idx ∈ p.stringIndices, ∃ s, getString p.stringTable idx = some s
  locations : ∀ s ∈ p.sample, ∀ id ∈ s.locationId, OneRow Location.id p.location id
  functions : ∀ loc ∈ p.location, ∀ l ∈ loc.line, OneRow Function.id p.function l.functionId
  mappings : ∀ loc ∈ p.location, loc.mappingId ≠ 0 → OneRow Mapping.id p.mapping loc.mappingId

/-- What reading the stacks rests on. -/
structure Profile.Linked (p : Profile) : Prop where
  locations : ∀ s ∈ p.sample, ∀ id ∈ s.locationId, OneRow Location.id p.location id
  functions : ∀ loc ∈ p.location, ∀ l ∈ loc.line, OneRow Function.id p.function l.functionId

theorem Profile.Closed.linked {p : Profile} (h : p.Closed) : p.Linked := ⟨h.locations, h.functions⟩

/-! ### Ids that count from 1 -/

/-- The id of a row, where ids count from 1. -/
def ValidId {α : Type u} (rows : List α) (id : Nat) : Prop := 1 ≤ id ∧ id ≤ rows.length

theorem ValidId.of_isPrefix {α : Type u} {rows rows' : List α} (h : rows <+: rows') {id : Nat}
    (hid : ValidId rows id) : ValidId rows' id :=
  ⟨hid.1, Nat.le_trans hid.2 h.length_le⟩

theorem validId_of_getElem? {α : Type u} {rows : List α} {i : Nat} {r : α} (h : rows[i]? = some r) :
    ValidId rows (i + 1) :=
  ⟨Nat.le_add_left 1 i, (List.getElem?_eq_some_iff.mp h).1⟩

theorem validId_concat {α : Type u} (rows : List α) (r : α) :
    ValidId (rows ++ [r]) (rows.length + 1) :=
  validId_of_getElem? List.getElem?_concat_length

theorem oneRow_of_validId {α : Type} {idOf : α → Nat} {rows : List α}
    (h : CountsFrom1 idOf rows) {id : Nat} (hid : ValidId rows id) : OneRow idOf rows id := by
  obtain ⟨i, rfl⟩ : ∃ i, id = i + 1 := ⟨id - 1, by have := hid.1; omega⟩
  have hmem : i + 1 ∈ rows.map idOf := by
    have hlt : i < rows.length := hid.2
    rw [← h i _ (List.getElem?_eq_getElem hlt)]
    exact List.mem_map_of_mem (List.getElem_mem hlt)
  have hone := List.count_eq_one_of_mem h.nodup hmem
  rwa [List.count_eq_countP, List.countP_map] at hone

/-! ### Tables under construction -/

/-- The index leads to a string. -/
def ValidString (strings : List String) (idx : Int) : Prop := ∃ s, getString strings idx = some s

theorem ValidString.of_isPrefix {strings strings' : List String} (h : strings <+: strings')
    {idx : Int} (hidx : ValidString strings idx) : ValidString strings' idx := by
  obtain ⟨s, hs⟩ := hidx
  exact ⟨s, getString_of_isPrefix h hs⟩

/-- Looking a string up in a table that starts with the empty one. -/
theorem validString_lookup (t : InternTable String) (hempty : t.items[0]? = some "") (s : String) :
    ValidString t.items ((t.index.lookup s).getD 0 : Nat) := by
  rcases hs : t.index.lookup s with _ | i
  · exact ⟨"", (getString_natCast _ 0).trans hempty⟩
  · exact ⟨s, (getString_natCast _ i).trans ((t.lookup_iff s i).mp hs)⟩

/-- The strings of a function are in the table. -/
structure Function.Closed (strings : List String) (f : Function) : Prop where
  name : ValidString strings f.name
  systemName : ValidString strings f.systemName
  filename : ValidString strings f.filename

theorem Function.Closed.of_isPrefix {strings strings' : List String} (h : strings <+: strings')
    {f : Function} (hf : f.Closed strings) : f.Closed strings' :=
  ⟨hf.name.of_isPrefix h, hf.systemName.of_isPrefix h, hf.filename.of_isPrefix h⟩

/-- What the rows of the tables refer to is there. -/
structure Tables.Closed (t : Tables) : Prop where
  functionIds : CountsFrom1 Function.id t.functions
  locationIds : CountsFrom1 Location.id t.locations
  strings : ∀ f ∈ t.functions, f.Closed t.strings
  functions : ∀ loc ∈ t.locations, ∀ l ∈ loc.line, ValidId t.functions l.functionId

namespace Tables.Closed

variable {t : Tables}

theorem pushStrings (h : t.Closed) {strings : List String} (hext : t.strings <+: strings) :
    Tables.Closed { t with strings } :=
  ⟨h.functionIds, h.locationIds, fun f hf => (h.strings f hf).of_isPrefix hext, h.functions⟩

theorem pushFunction (h : t.Closed) {f : Function} (hid : f.id = t.functions.length + 1)
    (hf : f.Closed t.strings) : Tables.Closed { t with functions := t.functions ++ [f] } := by
  refine ⟨h.functionIds.append hid, h.locationIds, fun g hg => ?_, fun loc hloc l hl => ?_⟩
  · rcases List.mem_append.mp hg with hg | hg
    · exact h.strings g hg
    · rwa [List.mem_singleton.mp hg]
  · exact (h.functions loc hloc l hl).of_isPrefix (List.prefix_append _ _)

theorem pushLocation (h : t.Closed) {loc : Location} (hid : loc.id = t.locations.length + 1)
    (hlines : ∀ l ∈ loc.line, ValidId t.functions l.functionId) :
    Tables.Closed { t with locations := t.locations ++ [loc] } := by
  refine ⟨h.functionIds, h.locationIds.append hid, h.strings, fun x hx => ?_⟩
  rcases List.mem_append.mp hx with hx | hx
  · exact h.functions x hx
  · rwa [List.mem_singleton.mp hx]

end Tables.Closed

/-- A profile whose tables are closed. -/
theorem Profile.closed_of_tables {p : Profile} (h : p.tables.Closed)
    (hlabels : ∀ s ∈ p.sample, s.label = [])
    (htypes : ∀ t ∈ p.sampleType ++ p.periodType.toList,
      ValidString p.stringTable t.type ∧ ValidString p.stringTable t.unit)
    (hmapping : ∀ m ∈ p.mapping,
      ValidString p.stringTable m.filename ∧ ValidString p.stringTable m.buildId)
    (hrest : ∀ idx ∈ [p.dropFrames, p.keepFrames, p.defaultSampleType, p.docUrl] ++ p.comment,
      ValidString p.stringTable idx)
    (hlocations : ∀ s ∈ p.sample, ∀ id ∈ s.locationId, ValidId p.location id)
    (hmappings : ∀ loc ∈ p.location, loc.mappingId ≠ 0 →
      OneRow Mapping.id p.mapping loc.mappingId) : p.Closed := by
  refine ⟨fun idx hidx => ?_, fun s hs id hid => ?_, fun loc hloc l hl => ?_, hmappings⟩
  · rw [Profile.stringIndices, List.append_assoc _ _ p.comment] at hidx
    simp only [List.mem_append] at hidx
    -- each kind of row has its strings in the table
    rcases hidx with (((htype | hlabel) | hmap) | hfunc) | hother
    · obtain ⟨t, ht, hmem⟩ := List.mem_flatMap.mp htype
      obtain ⟨hname, hunit⟩ := htypes t ht
      simp only [List.mem_cons, List.not_mem_nil, or_false] at hmem
      rcases hmem with rfl | rfl
      · exact hname
      · exact hunit
    · obtain ⟨s, hs, hmem⟩ := List.mem_flatMap.mp hlabel
      rw [hlabels s hs] at hmem
      cases hmem
    · obtain ⟨m, hm, hmem⟩ := List.mem_flatMap.mp hmap
      obtain ⟨hfile, hbuild⟩ := hmapping m hm
      simp only [List.mem_cons, List.not_mem_nil, or_false] at hmem
      rcases hmem with rfl | rfl
      · exact hfile
      · exact hbuild
    · obtain ⟨f, hf, hmem⟩ := List.mem_flatMap.mp hfunc
      have hclosed := h.strings f hf
      simp only [List.mem_cons, List.not_mem_nil, or_false] at hmem
      rcases hmem with rfl | rfl | rfl
      · exact hclosed.name
      · exact hclosed.systemName
      · exact hclosed.filename
    · exact hrest idx (List.mem_append.mpr hother)
  · exact oneRow_of_validId h.locationIds (hlocations s hs id hid)
  · exact oneRow_of_validId h.functionIds (h.functions loc hloc l hl)

/-! ### Profiles of CPU time -/

/-- What the CPU converters write: samples and nanoseconds of cpu time, in one mapping. -/
def cpuProfile (stringId : String → Int) (t : Tables) (samples : List Sample)
    (mappingFilename periodNs timeNanos durationNanos : Int) : Profile :=
  let cpu : ValueType := ⟨stringId "cpu", stringId "nanoseconds"⟩
  { sampleType := [⟨stringId "samples", stringId "count"⟩, cpu]
    sample := samples
    mapping := [⟨1, 0, 0, 0, mappingFilename, 0, true, false, false, false⟩]
    location := t.locations
    function := t.functions
    stringTable := t.strings
    dropFrames := 0
    keepFrames := 0
    timeNanos := timeNanos
    durationNanos := durationNanos
    periodType := some cpu
    period := periodNs
    comment := []
    defaultSampleType := 0
    docUrl := 0 }

/-- With closed tables only the mappings can lead nowhere. -/
theorem closed_cpuProfile_iff {stringId : String → Int} {t : Tables} {samples : List Sample}
    {filename : Int} (ht : t.Closed) (hempty : t.strings[0]? = some "")
    (hstring : ∀ s, ValidString t.strings (stringId s)) (hfile : ValidString t.strings filename)
    (hlabels : ∀ s ∈ samples, s.label = [])
    (hsamples : ∀ s ∈ samples, ∀ id ∈ s.locationId, ValidId t.locations id)
    (periodNs timeNanos durationNanos : Int) :
    (cpuProfile stringId t samples filename periodNs timeNanos durationNanos).Closed ↔
      ∀ loc ∈ t.locations, loc.mappingId ≤ 1 := by
  have hzero : ValidString t.strings 0 := ⟨"", (getString_natCast _ 0).trans hempty⟩
  -- there is one mapping, and its id is 1
  have hone : ∀ id, id ≠ 0 → (OneRow Mapping.id
      [⟨1, 0, 0, 0, filename, 0, true, false, false, false⟩] id ↔ id ≤ 1) := by
    intro id hid
    by_cases h : id = 1
    · rw [h]
      exact iff_of_true rfl (Nat.le_refl 1)
    · have hne : ((1 : Nat) == id) = false := beq_false_of_ne (Ne.symm h)
      refine iff_of_false (fun hrow => ?_) (by omega)
      rw [OneRow, List.countP_singleton, hne] at hrow
      cases hrow
  constructor
  · intro h loc hloc
    rcases Nat.eq_zero_or_pos loc.mappingId with hz | hpos
    · omega
    · have hne : loc.mappingId ≠ 0 := by omega
      exact (hone _ hne).mp (h.mappings loc hloc hne)
  · intro h
    refine Profile.closed_of_tables ht hlabels (fun x hx => ?_) (fun m hm => ?_)
      (fun idx hidx => ?_)
      hsamples fun loc hloc hne => (hone _ hne).mpr (h loc hloc)
    · simp only [cpuProfile, Option.toList_some, List.cons_append, List.nil_append, List.mem_cons,
        List.not_mem_nil, or_false] at hx
      rcases hx with rfl | rfl | rfl
      all_goals exact ⟨hstring _, hstring _⟩
    · obtain rfl := List.mem_singleton.mp hm
      exact ⟨hfile, hzero⟩
    · simp only [cpuProfile, List.append_nil, List.mem_cons, List.not_mem_nil, or_false,
        or_self] at hidx
      exact hidx ▸ hzero

end Proto
