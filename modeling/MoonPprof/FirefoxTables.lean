/-
The tables of a Firefox conversion.

Three maps stand before the tables: `funcIndex` and `locCanonical`, which go by
the text of a key, and `frameToLoc`.  `State.Inv` ties them together for the
resolved chains `U` of a run, whatever their names contain: a row holds some
chain with the key that leads to it.

* `internFunction_spec`, `internLines_spec`, `newLocation_spec` — rows are appended;
* `internLocation_spec`, `internLocations_spec` — the location of a frame is the
  one of the canonical key of its chain.
-/
import MoonPprof.Firefox

open MachineInt Proto

namespace Firefox

/-! ### What a row holds -/

def State.tables (st : State) : Tables := ⟨st.strings.items, st.functions, st.locations⟩

/-- The line of a location has the function of the key of this frame. -/
structure LineAt (funcIndex : HashMap String Nat) (l : Line) (f : ResolvedFrame) : Prop where
  line : l.line = f.line
  function : funcIndex.lookup (funcKey f.name f.file) = some l.functionId

/-- Row `id` of the locations holds this chain. -/
def ChainAt (funcIndex : HashMap String Nat) (locations : List Location) (id : Nat)
    (chain : List ResolvedFrame) : Prop :=
  ∃ i loc, id = i + 1 ∧ locations[i]? = some loc ∧ loc.mappingId = headMapping chain ∧
    loc.address = headAddress chain ∧ List.Forall₂ (LineAt funcIndex) loc.line chain

/-! ### The invariant -/

/-- What the resolver says of frame `fi` of thread `ti`. -/
def resolveAt (frames : FrameResolver) (profile : FirefoxProfile) (ti : Nat) (fi : Int) :
    Option (List ResolvedFrame) := do
  let thread ← profile.threads[ti]?
  frames profile thread fi

/-- The maps and the tables agree; `resolve` is the resolver and `U` holds of the
chains it has given. -/
structure State.Inv (demangle : String → String) (U : List ResolvedFrame → Prop)
    (resolve : Nat → Int → Option (List ResolvedFrame)) (st : State) : Prop where
  empty : st.strings.items[0]? = some ""
  tables : st.tables.Closed
  funcIndex : ∀ key id, st.funcIndex.lookup key = some id → ∃ chain f, U chain ∧ f ∈ chain ∧
    key = funcKey f.name f.file ∧ st.tables.FunctionAt id (demangle f.name) f.name f.file
  locCanonical : ∀ key id, st.locCanonical.lookup key = some id → ∃ chain, U chain ∧
    key = canonicalKey chain ∧ ChainAt st.funcIndex st.locations id chain
  onto : ∀ id, ValidId st.locations id → ∃ key, st.locCanonical.lookup key = some id
  inj : ∀ key key' id, st.locCanonical.lookup key = some id →
    st.locCanonical.lookup key' = some id → key = key'
  frameToLoc : ∀ ti fi id, st.frameToLoc.lookup (ti, fi) = some id → ∃ chain,
    resolve ti fi = some chain ∧ st.locCanonical.lookup (canonicalKey chain) = some id
  labels : ∀ s ∈ st.samples, s.label = []
  samples : ∀ s ∈ st.samples, ∀ id ∈ s.locationId, ValidId st.locations id

/-- A step that adds strings and functions only. -/
structure KeepsLocations (st st' : State) : Prop where
  rows : st.tables.Extends st'.tables
  funcIndex : ∀ key id, st.funcIndex.lookup key = some id → st'.funcIndex.lookup key = some id
  locations : st'.locations = st.locations
  locCanonical : st'.locCanonical = st.locCanonical
  frameToLoc : st'.frameToLoc = st.frameToLoc
  samples : st'.samples = st.samples
  totalNs : st'.totalNs = st.totalNs

/-- Later states have more rows, and the keys lead to the same ones. -/
structure Grows (st st' : State) : Prop where
  rows : st.tables.Extends st'.tables
  funcIndex : ∀ key id, st.funcIndex.lookup key = some id → st'.funcIndex.lookup key = some id
  locCanonical : ∀ key id, st.locCanonical.lookup key = some id →
    st'.locCanonical.lookup key = some id

/-- A step that leaves the samples as they are. -/
structure KeepsSamples (st st' : State) : Prop where
  samples : st'.samples = st.samples
  totalNs : st'.totalNs = st.totalNs

theorem KeepsLocations.refl (st : State) : KeepsLocations st st :=
  ⟨.refl _, fun _ _ h => h, rfl, rfl, rfl, rfl, rfl⟩

theorem KeepsLocations.trans {st st' st'' : State} (h : KeepsLocations st st')
    (h' : KeepsLocations st' st'') : KeepsLocations st st'' :=
  ⟨h.rows.trans h'.rows, fun key id hid => h'.funcIndex key id (h.funcIndex key id hid),
    h'.locations.trans h.locations, h'.locCanonical.trans h.locCanonical,
    h'.frameToLoc.trans h.frameToLoc, h'.samples.trans h.samples, h'.totalNs.trans h.totalNs⟩

theorem Grows.refl (st : State) : Grows st st := ⟨.refl _, fun _ _ h => h, fun _ _ h => h⟩

theorem Grows.trans {st st' st'' : State} (h : Grows st st') (h' : Grows st' st'') :
    Grows st st'' :=
  ⟨h.rows.trans h'.rows, fun key id hid => h'.funcIndex key id (h.funcIndex key id hid),
    fun key id hid => h'.locCanonical key id (h.locCanonical key id hid)⟩

theorem ChainAt.extend {funcIndex funcIndex' : HashMap String Nat}
    {locations locations' : List Location}
    (hfunc : ∀ key id, funcIndex.lookup key = some id → funcIndex'.lookup key = some id)
    (hlocs : locations <+: locations') {id : Nat} {chain : List ResolvedFrame}
    (h : ChainAt funcIndex locations id chain) : ChainAt funcIndex' locations' id chain := by
  obtain ⟨i, loc, hid, hget, hmap, haddr, hlines⟩ := h
  exact ⟨i, loc, hid, getElem?_of_isPrefix hlocs hget, hmap, haddr,
    hlines.imp fun _ _ hl => ⟨hl.line, hfunc _ _ hl.function⟩⟩

variable {demangle : String → String} {U : List ResolvedFrame → Prop}
variable {resolve : Nat → Int → Option (List ResolvedFrame)}

/-! ### Strings and functions -/

theorem State.Inv.intern {st : State} (h : st.Inv demangle U resolve) (s : String) :
    (st.intern s).2.Inv demangle U resolve ∧ KeepsLocations st (st.intern s).2 ∧
      getString (st.intern s).2.strings.items (st.intern s).1 = some s := by
  have hext : st.strings.items <+: (st.intern s).2.strings.items := st.strings.intern_isPrefix s
  have hrows : st.tables.Extends (st.intern s).2.tables :=
    ⟨hext, List.prefix_refl _, List.prefix_refl _⟩
  refine ⟨⟨getElem?_of_isPrefix hext h.empty, h.tables.pushStrings hext, fun key id hid => ?_,
    h.locCanonical, h.onto, h.inj, h.frameToLoc, h.labels, h.samples⟩,
    ⟨hrows, fun _ _ hid => hid, rfl, rfl, rfl, rfl, rfl⟩, ?_⟩
  · obtain ⟨chain, f, hU, hf, hkey, hat⟩ := h.funcIndex key id hid
    exact ⟨chain, f, hU, hf, hkey, hat.extend hrows⟩
  · show getString (st.strings.intern s).2.items ((st.strings.intern s).1 : Int) = some s
    rw [getString_natCast, InternTable.intern_get]

theorem internFunction_spec {st : State} (h : st.Inv demangle U resolve)
    {chain : List ResolvedFrame} (hU : U chain) {f : ResolvedFrame} (hf : f ∈ chain) :
    let r := st.internFunction demangle f.name f.file
    r.2.Inv demangle U resolve ∧ KeepsLocations st r.2 ∧
      r.2.funcIndex.lookup (funcKey f.name f.file) = some r.1 := by
  intro r
  rcases hlookup : st.funcIndex.lookup (funcKey f.name f.file) with _ | id
  · -- a new function: three strings and a row
    obtain ⟨h₁, hkeep₁, hname⟩ := h.intern (demangle f.name)
    set st₁ := (st.intern (demangle f.name)).2
    obtain ⟨h₂, hkeep₂, hsystem⟩ := h₁.intern f.name
    set st₂ := (st₁.intern f.name).2
    obtain ⟨h₃, hkeep₃, hfile⟩ := h₂.intern f.file
    set st₃ := (st₂.intern f.file).2
    set row : Function := ⟨st.functions.length + 1, (st.intern (demangle f.name)).1,
      (st₁.intern f.name).1, (st₂.intern f.file).1, 0⟩
    have hr : r = (st.functions.length + 1, { st₃ with
        functions := st.functions ++ [row]
        funcIndex := st.funcIndex.insert (funcKey f.name f.file) (st.functions.length + 1) }) := by
      show st.internFunction demangle f.name f.file = _
      rw [State.internFunction]
      simp only [hlookup]
      rfl
    have hname₃ := getString_of_isPrefix (hkeep₂.trans hkeep₃).rows.strings hname
    have hsystem₃ := getString_of_isPrefix hkeep₃.rows.strings hsystem
    have hrow : row.Closed st₃.strings.items := ⟨⟨_, hname₃⟩, ⟨_, hsystem₃⟩, ⟨_, hfile⟩⟩
    have hkeep₁₃ := hkeep₁.trans (hkeep₂.trans hkeep₃)
    have hpush : st₃.tables.Extends r.2.tables := by
      rw [hr]
      exact Tables.extends_concatFunction _ _ _ row
    have hat : r.2.tables.FunctionAt r.1 (demangle f.name) f.name f.file := by
      rw [hr]
      exact Tables.functionAt_concat hname₃ hsystem₃ hfile
    have hself : r.2.funcIndex.lookup (funcKey f.name f.file) = some r.1 := by
      rw [hr]
      exact AList.lookup_insert _
    have hother : ∀ key id, st.funcIndex.lookup key = some id →
        r.2.funcIndex.lookup key = some id := by
      intro key id hid
      rw [hr]
      exact HashMap.lookup_insert_of_lookup hlookup hid
    rw [hr] at hpush hat hself hother ⊢
    refine ⟨⟨h₃.empty, h₃.tables.pushFunction rfl hrow, fun key id hid => ?_, fun key id hid => ?_,
      h₃.onto, h₃.inj, h₃.frameToLoc, h₃.labels, h₃.samples⟩,
      ⟨hkeep₁₃.rows.trans hpush, hother, hkeep₁₃.locations, hkeep₁₃.locCanonical,
        hkeep₁₃.frameToLoc, hkeep₁₃.samples, hkeep₁₃.totalNs⟩, hself⟩
    · rcases HashMap.lookup_insert_cases hid with ⟨hkey, rfl⟩ | hold
      · exact ⟨chain, f, hU, hf, hkey, hat⟩
      · obtain ⟨chain', f', hU', hf', hkey', hat'⟩ := h₃.funcIndex key id hold
        exact ⟨chain', f', hU', hf', hkey', hat'.extend hpush⟩
    · obtain ⟨chain', hU', hkey', hat'⟩ := h₃.locCanonical key id hid
      exact ⟨chain', hU', hkey', hat'.extend hother (List.prefix_refl _)⟩
  · have hr : r = (id, st) := by
      show st.internFunction demangle f.name f.file = _
      rw [State.internFunction]
      simp only [hlookup]
    rw [hr]
    exact ⟨h, .refl _, hlookup⟩

/-- The lines of a chain, in its order. -/
theorem internLines_spec {st : State} (h : st.Inv demangle U resolve) {chain : List ResolvedFrame}
    (hU : U chain) {frames : List ResolvedFrame} (hsub : ∀ f ∈ frames, f ∈ chain) :
    let r := st.internLines demangle frames
    r.2.Inv demangle U resolve ∧ KeepsLocations st r.2 ∧
      List.Forall₂ (LineAt r.2.funcIndex) r.1 frames := by
  induction frames generalizing st with
  | nil => exact ⟨h, .refl _, .nil⟩
  | cons f frames ih =>
    obtain ⟨h₁, hkeep₁, hf⟩ := internFunction_spec h hU (hsub f List.mem_cons_self)
    obtain ⟨h₂, hkeep₂, hlines⟩ := ih h₁ fun g hg => hsub g (List.mem_cons_of_mem _ hg)
    exact ⟨h₂, hkeep₁.trans hkeep₂, .cons ⟨rfl, hkeep₂.funcIndex _ _ hf⟩ hlines⟩

/-! ### Locations -/

theorem LineAt.validId {st : State} (h : st.Inv demangle U resolve) {l : Line} {f : ResolvedFrame}
    (hl : LineAt st.funcIndex l f) : ValidId st.functions l.functionId := by
  obtain ⟨-, -, -, -, -, i, row, hid, hget, -⟩ := h.funcIndex _ _ hl.function
  rw [hid]
  exact validId_of_getElem? hget

/-- A chain whose key is new. -/
theorem newLocation_spec {st : State} (h : st.Inv demangle U resolve) {ti : Nat} {fi : Int}
    {chain : List ResolvedFrame} (hU : U chain) (hresolve : resolve ti fi = some chain)
    (hnone : st.locCanonical.lookup (canonicalKey chain) = none) :
    let r := st.newLocation demangle (ti, fi) chain
    r.2.Inv demangle U resolve ∧ Grows st r.2 ∧ KeepsSamples st r.2 ∧
      r.2.locCanonical.lookup (canonicalKey chain) = some r.1 := by
  intro r
  obtain ⟨h₁, hkeep, hlines⟩ := internLines_spec h hU (fun f hf => hf)
  set st₁ := (st.internLines demangle chain).2
  set loc : Location := ⟨st₁.locations.length + 1, headMapping chain, headAddress chain,
    (st.internLines demangle chain).1, false⟩
  have hr : r = (st₁.locations.length + 1, { st₁ with
      locations := st₁.locations ++ [loc]
      locCanonical := st₁.locCanonical.insert (canonicalKey chain) (st₁.locations.length + 1)
      frameToLoc := st₁.frameToLoc.insert (ti, fi) (st₁.locations.length + 1) }) := rfl
  have hpush : st₁.tables.Extends r.2.tables := Tables.extends_concatLocation _ _ _ loc
  have hlookup : r.2.locCanonical.lookup (canonicalKey chain) = some r.1 := AList.lookup_insert _
  rw [← hkeep.locCanonical] at hnone
  have hother : ∀ key id, st₁.locCanonical.lookup key = some id →
      r.2.locCanonical.lookup key = some id := by
    intro key id hid
    exact HashMap.lookup_insert_of_lookup hnone hid
  -- no chain in the map has the new id
  have hfresh : ∀ key, st₁.locCanonical.lookup key ≠ some (st₁.locations.length + 1) := by
    intro key hid
    obtain ⟨-, -, -, i, row, hlen, hget, -⟩ := h₁.locCanonical key _ hid
    have hlt := (List.getElem?_eq_some_iff.mp hget).1
    omega
  have hvalid := ((List.forall₂_and_left _ _).mp
    (hlines.imp fun l f hl => ⟨hl.validId h₁, hl⟩)).1
  have hclosed : r.2.tables.Closed := h₁.tables.pushLocation rfl hvalid
  refine ⟨⟨h₁.empty, hclosed, fun key id hid => ?_, fun key id hid => ?_, fun id hid => ?_,
    fun key key' id hid hid' => ?_, fun ti' fi' id hid => ?_, h₁.labels, fun s hs id hid => ?_⟩,
    ⟨hkeep.rows.trans hpush, hkeep.funcIndex, fun key id hid => ?_⟩,
    ⟨hkeep.samples, hkeep.totalNs⟩, hlookup⟩
  · obtain ⟨chain', f', hU', hf', hkey', hat'⟩ := h₁.funcIndex key id hid
    exact ⟨chain', f', hU', hf', hkey', hat'.extend hpush⟩
  · rcases HashMap.lookup_insert_cases hid with ⟨hkey, rfl⟩ | hid
    · refine ⟨chain, hU, hkey, st₁.locations.length, loc, rfl, ?_, rfl, rfl, hlines⟩
      show (st₁.locations ++ [loc])[st₁.locations.length]? = some loc
      exact List.getElem?_concat_length
    · obtain ⟨chain', hU', hkey', hat'⟩ := h₁.locCanonical key id hid
      exact ⟨chain', hU', hkey', hat'.extend (fun _ _ hid => hid) (List.prefix_append _ _)⟩
  · rcases Nat.lt_or_ge st₁.locations.length id with hnew | hle
    · have hlast : id = st₁.locations.length + 1 := by
        have hlen : id ≤ (st₁.locations ++ [loc]).length := hid.2
        rw [List.length_append, List.length_singleton] at hlen
        omega
      exact ⟨canonicalKey chain, hlast ▸ hlookup⟩
    · obtain ⟨key, hkey⟩ := h₁.onto id ⟨hid.1, hle⟩
      exact ⟨key, hother key id hkey⟩
  · exact HashMap.lookup_insert_inj h₁.inj hfresh hid hid'
  · rcases HashMap.lookup_insert_cases hid with ⟨hframe, rfl⟩ | hold
    · obtain ⟨rfl, rfl⟩ := Prod.mk.inj hframe
      exact ⟨chain, hresolve, hlookup⟩
    · obtain ⟨chain', hresolve', hlookup'⟩ := h₁.frameToLoc ti' fi' id hold
      exact ⟨chain', hresolve', hother _ _ hlookup'⟩
  · exact (h₁.samples s hs id hid).of_isPrefix (List.prefix_append _ _)
  · exact hother key id (hkeep.locCanonical ▸ hid)

/-- The location of a frame is the one of the key of its chain. -/
theorem internLocation_spec {frames : FrameResolver} {profile : FirefoxProfile} {st : State}
    (h : st.Inv demangle U (resolveAt frames profile)) {thread : Thread} {ti : Nat}
    (hthread : profile.threads[ti]? = some thread) {fi : Int} {chain : List ResolvedFrame}
    (hchain : frames profile thread fi = some chain) (hU : U chain) :
    ∃ id st', st.internLocation demangle profile thread ti fi frames = some (id, st') ∧
      st'.Inv demangle U (resolveAt frames profile) ∧ Grows st st' ∧ KeepsSamples st st' ∧
      st'.locCanonical.lookup (canonicalKey chain) = some id := by
  have hresolve : resolveAt frames profile ti fi = some chain := by
    rw [resolveAt, hthread]
    exact hchain
  rw [State.internLocation]
  rcases hframe : st.frameToLoc.lookup (ti, fi) with _ | id
  · simp only [hchain, Option.bind_eq_bind, Option.bind_some]
    rcases hcanonical : st.locCanonical.lookup (canonicalKey chain) with _ | id
    · obtain ⟨h', hgrows, hkeep, hlookup⟩ := newLocation_spec h hU hresolve hcanonical
      exact ⟨_, _, rfl, h', hgrows, hkeep, hlookup⟩
    · refine ⟨id, _, rfl, ⟨h.empty, h.tables, h.funcIndex, h.locCanonical, h.onto, h.inj,
        fun ti' fi' id' hid' => ?_, h.labels, h.samples⟩,
          ⟨.refl _, fun _ _ hid => hid, fun _ _ hid => hid⟩,
        ⟨rfl, rfl⟩,
        hcanonical⟩
      rcases HashMap.lookup_insert_cases hid' with ⟨hsame, rfl⟩ | hold
      · obtain ⟨rfl, rfl⟩ := Prod.mk.inj hsame
        exact ⟨chain, hresolve, hcanonical⟩
      · exact h.frameToLoc ti' fi' id' hold
  · obtain ⟨chain', hresolve', hlookup⟩ := h.frameToLoc ti fi id hframe
    obtain rfl : chain' = chain := Option.some.inj (hresolve'.symm.trans hresolve)
    exact ⟨id, st, rfl, h, .refl _, ⟨rfl, rfl⟩, hlookup⟩

/-- The chain of a frame, and the location of its key. -/
def Located (frames : FrameResolver) (profile : FirefoxProfile) (st : State) (ti : Nat) (id : Nat)
    (fi : Int) : Prop :=
  ∃ chain, resolveAt frames profile ti fi = some chain ∧
    st.locCanonical.lookup (canonicalKey chain) = some id

theorem Located.grow {frames : FrameResolver} {profile : FirefoxProfile} {st st' : State}
    (h : Grows st st') {ti id : Nat} {fi : Int} (hl : Located frames profile st ti id fi) :
    Located frames profile st' ti id fi := by
  obtain ⟨chain, hresolve, hlookup⟩ := hl
  exact ⟨chain, hresolve, h.locCanonical _ _ hlookup⟩

theorem internLocations_spec {frames : FrameResolver} {profile : FirefoxProfile}
    {thread : Thread} {ti : Nat} (hthread : profile.threads[ti]? = some thread)
    {frameIds : List Int}
    (hframes : ∀ fi ∈ frameIds, ∃ chain, frames profile thread fi = some chain ∧ U chain)
    {st : State} (h : st.Inv demangle U (resolveAt frames profile)) :
    ∃ ids st', State.internLocations demangle profile thread ti frames frameIds st =
        some (ids, st') ∧
      st'.Inv demangle U (resolveAt frames profile) ∧ Grows st st' ∧ KeepsSamples st st' ∧
      List.Forall₂ (Located frames profile st' ti) ids frameIds := by
  induction frameIds generalizing st with
  | nil => exact ⟨[], st, rfl, h, .refl _, ⟨rfl, rfl⟩, .nil⟩
  | cons fi frameIds ih =>
    obtain ⟨chain, hchain, hU⟩ := hframes fi List.mem_cons_self
    obtain ⟨id, st₁, hrun₁, h₁, hgrows₁, hkeep₁, hlookup⟩ := internLocation_spec h hthread hchain hU
    obtain ⟨ids, st₂, hrun₂, h₂, hgrows₂, hkeep₂, hids⟩ :=
      ih (fun fi hfi => hframes fi (List.mem_cons_of_mem _ hfi)) h₁
    have hlocated : Located frames profile st₁ ti id fi :=
      ⟨chain, by rw [resolveAt, hthread]; exact hchain, hlookup⟩
    refine ⟨id :: ids, st₂, ?_, h₂, hgrows₁.trans hgrows₂, ⟨hkeep₂.samples.trans hkeep₁.samples,
      hkeep₂.totalNs.trans hkeep₁.totalNs⟩, .cons (hlocated.grow hgrows₂) hids⟩
    rw [State.internLocations, hrun₁]
    simp only [Option.bind_eq_bind, Option.bind_some, hrun₂]

theorem inv_new : State.new.Inv demangle U resolve where
  empty := rfl
  tables := ⟨nofun, nofun, nofun, nofun⟩
  funcIndex := nofun
  locCanonical := nofun
  onto := fun _ hid => absurd (Nat.le_trans hid.1 hid.2) (Nat.not_succ_le_zero 0)
  inj := nofun
  frameToLoc := nofun
  labels := nofun
  samples := nofun

end Firefox
