/-
The tables of a converted V8 profile are closed, whatever the input.

* `internFunction_closed`, `internLocation_closed` — a row refers to what is there;
* `stackFrom_closed`, `pushSamples_closed` — so do the stacks and the samples;
* `build_closed` — every reference of the result leads to exactly one row.
-/
import MoonPprof.CpuProfile
import MoonPprof.ProfileClosed

open MachineInt Proto

namespace V8

variable {display : Value → String} {demangle : String → String}

/-- What the rows, the indices and the samples refer to is there. -/
structure State.Closed (st : State) : Prop where
  empty : st.strings.items[0]? = some ""
  tables : st.tables.Closed
  mappings : ∀ loc ∈ st.locations, loc.mappingId = 1
  funcIndex : ∀ key id, st.funcIndex.lookup key = some id → ValidId st.functions id
  locByNode : ∀ nid id, st.locByNode.lookup nid = some id → ValidId st.locations id
  labels : ∀ s ∈ st.samples, s.label = []
  samples : ∀ s ∈ st.samples, ∀ id ∈ s.locationId, ValidId st.locations id

theorem State.Closed.intern {st : State} (h : st.Closed) (s : String) :
    (st.intern s).2.Closed ∧ ValidString (st.intern s).2.strings.items (st.intern s).1 ∧
      st.strings.items <+: (st.intern s).2.strings.items := by
  obtain ⟨hget, hext⟩ := st.intern_spec s
  exact ⟨⟨getElem?_of_isPrefix hext h.empty, h.tables.pushStrings hext, h.mappings, h.funcIndex,
    h.locByNode, h.labels, h.samples⟩, ⟨s, hget⟩, hext⟩

theorem internFunction_closed {st : State} (h : st.Closed) (call : CallFrame) :
    let r := st.internFunction display demangle call
    r.2.Closed ∧ ValidId r.2.functions r.1 ∧ st.tables.Extends r.2.tables ∧
      r.2.samples = st.samples := by
  intro r
  rcases hlookup : st.funcIndex.lookup (funcKey display call) with _ | id
  · obtain ⟨h₁, hname, hext₁⟩ := h.intern (demangle (rawName call))
    set st₁ := (st.intern (demangle (rawName call))).2
    obtain ⟨h₂, hsystem, hext₂⟩ := h₁.intern (rawName call)
    set st₂ := (st₁.intern (rawName call)).2
    obtain ⟨h₃, hfile, hext₃⟩ := h₂.intern call.url
    set st₃ := (st₂.intern call.url).2
    set f : Function := ⟨st.functions.length + 1, (st.intern (demangle (rawName call))).1,
      (st₁.intern (rawName call)).1, (st₂.intern call.url).1, lineFrom1 call⟩
    have hr : r = (st.functions.length + 1, { st₃ with
        functions := st.functions ++ [f]
        funcIndex := st.funcIndex.insert (funcKey display call) (st.functions.length + 1) }) :=
      internFunction_new hlookup
    have hf : f.Closed st₃.strings.items :=
      ⟨hname.of_isPrefix (hext₂.trans hext₃), hsystem.of_isPrefix hext₃, hfile⟩
    have hnew : ValidId (st.functions ++ [f]) (st.functions.length + 1) := validId_concat _ _
    rw [hr]
    refine ⟨⟨h₃.empty, h₃.tables.pushFunction rfl hf, h₃.mappings,
      fun key id hid => ?_, h₃.locByNode,
      h₃.labels, h₃.samples⟩, hnew, ⟨hext₁.trans (hext₂.trans hext₃), List.prefix_append _ _,
      List.prefix_refl _⟩, rfl⟩
    rcases HashMap.lookup_insert_cases hid with ⟨-, rfl⟩ | hold
    · exact hnew
    · exact (h.funcIndex key id hold).of_isPrefix (List.prefix_append _ _)
  · have hr : r = (id, st) := internFunction_known hlookup
    rw [hr]
    exact ⟨h, h.funcIndex _ _ hlookup, .refl _, rfl⟩

theorem internLocation_closed {st : State} (h : st.Closed) (node : CpuNode) :
    let r := st.internLocation display demangle node
    r.2.Closed ∧ ValidId r.2.locations r.1 ∧ st.tables.Extends r.2.tables ∧
      r.2.samples = st.samples := by
  intro r
  rcases hlookup : st.locByNode.lookup node.id with _ | id
  · obtain ⟨h₁, hf, hext₁, hsamples⟩ :
        (st.internFunction display demangle node.callFrame).2.Closed ∧ _ :=
      internFunction_closed h node.callFrame
    set r₁ := st.internFunction display demangle node.callFrame
    set loc : Location :=
      ⟨r₁.2.locations.length + 1, 1, 0, [⟨r₁.1, lineFrom1 node.callFrame, 0⟩], false⟩
    have hr : r = (r₁.2.locations.length + 1, { r₁.2 with
        locations := r₁.2.locations ++ [loc]
        locByNode := r₁.2.locByNode.insert node.id (r₁.2.locations.length + 1) }) :=
      internLocation_new hlookup
    have hext : r₁.2.locations <+: r₁.2.locations ++ [loc] := List.prefix_append _ _
    have hnew : ValidId (r₁.2.locations ++ [loc]) (r₁.2.locations.length + 1) :=
      validId_concat _ _
    have hlines : ∀ l ∈ loc.line, ValidId r₁.2.functions l.functionId := by
      intro l hl
      rw [List.mem_singleton.mp hl]
      exact hf
    rw [hr]
    refine ⟨⟨h₁.empty, h₁.tables.pushLocation rfl hlines, fun x hx => ?_, h₁.funcIndex,
      fun nid id hid => ?_, h₁.labels,
        fun s hs id hid => (h₁.samples s hs id hid).of_isPrefix hext⟩,
      hnew, hext₁.trans ⟨List.prefix_refl _, List.prefix_refl _, hext⟩, hsamples⟩
    · rcases List.mem_append.mp hx with hx | hx
      · exact h₁.mappings x hx
      · rw [List.mem_singleton.mp hx]
    · rcases HashMap.lookup_insert_cases hid with ⟨-, rfl⟩ | hold
      · exact hnew
      · exact (h₁.locByNode nid id hold).of_isPrefix hext
  · have hr : r = (id, st) := internLocation_known hlookup
    rw [hr]
    exact ⟨h, h.locByNode _ _ hlookup, .refl _, rfl⟩

/-- The walk up the parents, from locations that are there. -/
theorem stackFrom_closed {byId : HashMap Int CpuNode} {parent : HashMap Int Int} {fuel : Nat}
    {cur : Option Int} {st st' : State} {stack stack' : List Nat} (h : st.Closed)
    (hstack : ∀ id ∈ stack, ValidId st.locations id)
    (hrun : stackFrom display demangle byId parent fuel cur st stack = some (stack', st')) :
    st'.Closed ∧ st.tables.Extends st'.tables ∧ st'.samples = st.samples ∧
      ∀ id ∈ stack', ValidId st'.locations id := by
  induction fuel generalizing cur st stack with
  | zero =>
    cases cur with
    | none =>
      cases hrun
      exact ⟨h, .refl _, rfl, hstack⟩
    | some nid => cases hrun
  | succ fuel ih =>
    cases cur with
    | none =>
      cases hrun
      exact ⟨h, .refl _, rfl, hstack⟩
    | some nid =>
      rw [stackFrom] at hrun
      rcases hnode : byId.lookup nid with _ | node
      · rw [hnode] at hrun
        cases hrun
        exact ⟨h, .refl _, rfl, hstack⟩
      · rw [hnode] at hrun
        obtain ⟨h₁, hloc, hext, hsamples⟩ :
            (st.internLocation display demangle node).2.Closed ∧ _ := internLocation_closed h node
        have hstack₁ : ∀ id ∈ stack ++ [(st.internLocation display demangle node).1],
            ValidId (st.internLocation display demangle node).2.locations id := by
          intro id hid
          rcases List.mem_append.mp hid with hid | hid
          · exact (hstack id hid).of_isPrefix hext.locations
          · rwa [List.mem_singleton.mp hid]
        obtain ⟨h', hext', hsamples', hstack'⟩ := ih h₁ hstack₁ hrun
        exact ⟨h', hext.trans hext', hsamples'.trans hsamples, hstack'⟩

/-- The stacks in the cache lead to locations that are there. -/
def CacheClosed (st : State) (cache : HashMap Int (List Nat)) : Prop :=
  ∀ k ids, cache.lookup k = some ids → ∀ id ∈ ids, ValidId st.locations id

theorem State.Closed.pushSample {st : State} (h : st.Closed) {ids : List Nat}
    (hids : ∀ id ∈ ids, ValidId st.locations id) (value : List Int) :
    State.Closed { st with samples := st.samples ++ [⟨ids, value, []⟩] } := by
  refine ⟨h.empty, h.tables, h.mappings, h.funcIndex, h.locByNode, fun s hs => ?_, fun s hs => ?_⟩
  · rcases List.mem_append.mp hs with hs | hs
    · exact h.labels s hs
    · rw [List.mem_singleton.mp hs]
  · rcases List.mem_append.mp hs with hs | hs
    · exact h.samples s hs
    · rwa [List.mem_singleton.mp hs]

theorem pushSample_closed {byId : HashMap Int CpuNode} {parent us : HashMap Int Int} {fuel : Nat}
    {acc acc' : State × HashMap Int (List Nat)} {e : Sigma fun _ : Int => Int}
    (h : acc.1.Closed) (hcache : CacheClosed acc.1 acc.2)
    (hrun : pushSample display demangle byId parent us fuel acc e = some acc') :
    acc'.1.Closed ∧ CacheClosed acc'.1 acc'.2 ∧ acc.1.tables.Extends acc'.1.tables := by
  obtain ⟨st, cache⟩ := acc
  rw [pushSample, stackForNode] at hrun
  rcases hlookup : cache.lookup e.1 with _ | ids
  · rcases hstack : stackFrom display demangle byId parent fuel (some e.1) st [] with _ | ⟨ids, st₁⟩
    · simp [hlookup, hstack] at hrun
    · obtain ⟨h₁, hext, -, hids⟩ :=
        stackFrom_closed h (fun id hid => absurd hid List.not_mem_nil) hstack
      simp only [hlookup, hstack, Option.bind_eq_bind, Option.bind_some,
        Option.some.injEq] at hrun
      subst hrun
      refine ⟨h₁.pushSample hids _, fun k ids' hk => ?_, hext⟩
      rcases HashMap.lookup_insert_cases hk with ⟨-, rfl⟩ | hold
      · exact hids
      · exact fun id hid => (hcache k ids' hold id hid).of_isPrefix hext.locations
  · simp only [hlookup, Option.bind_eq_bind, Option.bind_some, Option.some.injEq] at hrun
    subst hrun
    exact ⟨h.pushSample (hcache e.1 ids hlookup) _, hcache, .refl _⟩

theorem pushSamples_closed {byId : HashMap Int CpuNode} {parent us : HashMap Int Int} {fuel : Nat}
    {entries : List (Sigma fun _ : Int => Int)} {acc acc' : State × HashMap Int (List Nat)}
    (h : acc.1.Closed) (hcache : CacheClosed acc.1 acc.2)
    (hrun : entries.foldlM (pushSample display demangle byId parent us fuel) acc = some acc') :
    acc'.1.Closed ∧ acc.1.tables.Extends acc'.1.tables := by
  induction entries generalizing acc with
  | nil =>
    cases hrun
    exact ⟨h, .refl _⟩
  | cons e entries ih =>
    rw [List.foldlM_cons] at hrun
    obtain ⟨acc₁, hrun₁, hrun'⟩ := Option.bind_eq_some_iff.mp hrun
    obtain ⟨h₁, hcache₁, hext₁⟩ := pushSample_closed h hcache hrun₁
    obtain ⟨h', hext'⟩ := ih h₁ hcache₁ hrun'
    exact ⟨h', hext₁.trans hext'⟩

theorem closed_new : State.new.Closed where
  empty := rfl
  tables := ⟨nofun, nofun, nofun, nofun⟩
  mappings := nofun
  funcIndex := nofun
  locByNode := nofun
  labels := nofun
  samples := nofun

theorem State.Closed.stringId {st : State} (h : st.Closed) (s : String) :
    ValidString st.strings.items (st.stringId s) :=
  validString_lookup st.strings h.empty s

theorem State.Closed.finish {st : State} (h : st.Closed) {filename : Int}
    (hfilename : ValidString st.strings.items filename) (period time duration : Int) :
    (st.finish filename period time duration).Closed := by
  have hmappings : ∀ loc ∈ st.tables.locations, loc.mappingId ≤ 1 :=
    fun loc hloc => Nat.le_of_eq (h.mappings loc hloc)
  exact (closed_cpuProfile_iff h.tables h.empty h.stringId hfilename h.labels h.samples period time
    duration).mpr hmappings

/-- The converted profile has no reference that leads nowhere, and no string twice. -/
theorem build_closed {mappingFilename : Option String}
    {it : IterOrder (Sigma fun _ : Int => Int)} {fuel : Nat} {p : CpuProfile} {profile : Profile}
    {stats : Stats}
    (hrun : build display demangle mappingFilename it fuel p = some (profile, stats)) :
    profile.Closed ∧ profile.stringTable.Nodup := by
  rw [build] at hrun
  obtain ⟨h, hfilename, -⟩ := closed_new.intern (mappingFilename.getD "")
  obtain ⟨⟨st, cache⟩, hsamples, hrun⟩ := Option.bind_eq_some_iff.mp hrun
  obtain ⟨h', hext⟩ := pushSamples_closed h
    (show CacheClosed _ ∅ by intro k ids hk; cases hk) hsamples
  cases hrun
  exact ⟨h'.finish (hfilename.of_isPrefix hext.strings) _ _ _, st.strings.nodup⟩

end V8
