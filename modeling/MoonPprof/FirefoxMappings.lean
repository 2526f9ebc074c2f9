/-
References of a converted Firefox profile.

The converter writes one mapping, with the id 1, but gives each location the
mapping of the library of its frame.

* `closed_finish_iff` — what the references of a state depend on;
* `processed_closed_iff` — a converted profile has no reference that leads
  nowhere exactly when every frame in use has its leaf in the first library.
-/
import MoonPprof.FirefoxConversion

open MachineInt Proto

namespace Firefox

variable {demangle : String → String} {U : List ResolvedFrame → Prop} {frames : FrameResolver}
  {samples : SampleResolver} {profile : FirefoxProfile}

/-- The head of the chain, which lists inlined frames leaf first, is in the first library; its
mapping is the one that the location gets. -/
def InFirstLib (chain : List ResolvedFrame) : Prop := ∀ f ∈ chain.head?, f.mappingIndex = 0

theorem headMapping_le_one_iff {chain : List ResolvedFrame}
    (h : ∀ f ∈ chain, f.mappingIndex + 1 < 2 ^ 64) :
    headMapping chain ≤ 1 ↔ InFirstLib chain := by
  rcases chain with _ | ⟨f, chain⟩
  · exact iff_of_true (Nat.le_refl 1) nofun
  · have hlt := Nat.mod_eq_of_lt (h f List.mem_cons_self)
    constructor
    · intro hle g hg
      obtain rfl := Option.some.inj hg
      have hhead : (f.mappingIndex + 1) % 2 ^ 64 ≤ 1 := hle
      omega
    · intro hfirst
      show (f.mappingIndex + 1) % 2 ^ 64 ≤ 1
      rw [hfirst f rfl]
      decide

/-- The references of the finished profile all lead somewhere if the mappings do. -/
theorem closed_finish_iff {st : State} (h : st.Inv demangle U (resolveAt frames profile))
    {filename : Int} (hfilename : ValidString st.strings.items filename) :
    (st.finish profile filename).Closed ↔ ∀ loc ∈ st.locations, loc.mappingId ≤ 1 :=
  closed_cpuProfile_iff h.tables h.empty (validString_lookup st.strings h.empty) hfilename h.labels
    h.samples _ _ _

/-- The location of a frame has the mapping of its chain. -/
theorem Located.mappingId {st : State} (h : st.Inv demangle U (resolveAt frames profile))
    {ti id : Nat} {fi : Int} (hl : Located frames profile st ti id fi)
    {chain : List ResolvedFrame} (hchain : resolveAt frames profile ti fi = some chain) :
    ∃ loc ∈ st.locations, loc.mappingId = headMapping chain := by
  obtain ⟨c, hc, hlookup⟩ := hl
  obtain rfl : c = chain := Option.some.inj (hc.symm.trans hchain)
  obtain ⟨chain', -, hkey, i, loc, -, hget, hmap, -⟩ := h.locCanonical _ _ hlookup
  exact ⟨loc, List.mem_of_getElem? hget, hmap.trans (headMapping_of_canonicalKey hkey).symm⟩

/-- Every location was made for some chain. -/
theorem State.Inv.chain_of_location {st : State}
    (h : st.Inv demangle U (resolveAt frames profile))
    {loc : Location} (hloc : loc ∈ st.locations) :
    ∃ chain, U chain ∧ loc.mappingId = headMapping chain := by
  obtain ⟨i, hi, rfl⟩ := List.getElem_of_mem hloc
  obtain ⟨key, hkey⟩ := h.onto (i + 1) ⟨by omega, hi⟩
  obtain ⟨chain, hU, -, j, loc, hj, hget, hmap, -⟩ := h.locCanonical key _ hkey
  obtain rfl : i = j := Nat.succ.inj hj
  obtain rfl : st.locations[i] = loc :=
    Option.some.inj ((List.getElem?_eq_getElem hi).symm.trans hget)
  exact ⟨chain, hU, hmap⟩

/-- A chain of a frame that some sample of the profile uses. -/
def UsedChain (frames : FrameResolver) (samples : SampleResolver) (profile : FirefoxProfile)
    (chain : List ResolvedFrame) : Prop :=
  ∃ thread ∈ profile.threads, ∃ stk ∈ stackIds (charges samples profile thread), ∃ path,
    StackPath thread.stackTable stk path ∧ ∃ fi ∈ path, frames profile thread fi = some chain

/-- A processed profile whose mapping indices lie in its libraries: the references of the
converted profile lead to exactly one entry each if and only if every frame that a sample
uses has the leaf of its chain in the first library. -/
theorem processed_closed_iff (demangle : String → String) (mappingFilename : Option String)
    {frames : FrameResolver} {samples : SampleResolver}
    (it : Nat → IterOrder (Sigma fun _ : Int => Int × Int)) {profile : FirefoxProfile}
    (hprocessed : ∀ thread ∈ profile.threads, Processed samples profile thread)
    (hresolve : ∀ thread ∈ profile.threads, ∀ fi : Int, 0 ≤ fi → fi < thread.frameTable.length →
      ∃ chain, frames profile thread fi = some chain ∧
        ∀ f ∈ chain, f.mappingIndex < profile.libs.length)
    (hlibs : profile.libs.length < 2 ^ 64) {fuel : Nat}
    (hfuel : ∀ thread ∈ profile.threads, thread.stackTable.frame.length ≤ fuel) :
    ∃ p, build demangle mappingFilename frames samples it fuel profile = some p ∧
      (p.Closed ↔ ∀ chain, UsedChain frames samples profile chain → InFirstLib chain) := by
  -- the walk only meets frames in use, so these are the chains of the state
  have hwalk : ∀ thread ∈ profile.threads, ∀ stk ∈ stackIds (charges samples profile thread),
      Walkable frames profile (fun chain => UsedChain frames samples profile chain ∧
        ∀ f ∈ chain, f.mappingIndex < profile.libs.length) fuel thread stk := by
    intro thread hthread stk hstk
    obtain ⟨path, hpath, hlen, hframes⟩ := (hprocessed thread hthread).walkable
      (hresolve thread hthread) (hfuel thread hthread) hstk
    refine ⟨path, hpath, hlen, fun fi hfi => ?_⟩
    obtain ⟨chain, hchain, hlt⟩ := hframes fi hfi
    exact ⟨chain, hchain, ⟨thread, hthread, stk, hstk, path, hpath, fi, hfi, hchain⟩, hlt⟩
  obtain ⟨filename, st, hrun, hfilename, hinv, hshows, -⟩ :=
    build_shows demangle mappingFilename it hwalk
  have hbound : ∀ chain : List ResolvedFrame, (∀ f ∈ chain, f.mappingIndex < profile.libs.length) →
      ∀ f ∈ chain, f.mappingIndex + 1 < 2 ^ 64 := by
    intro chain hlt f hf
    have := hlt f hf
    omega
  refine ⟨_, hrun, (closed_finish_iff hinv hfilename).trans ⟨?_, ?_⟩⟩
  -- a frame in use has a location, and a location was made for a frame in use
  · rintro hle chain ⟨thread, hthread, stk, hstk, path, hpath, fi, hfi, hchain⟩
    obtain ⟨ti, hti⟩ := List.getElem?_of_mem hthread
    -- the sample of this stack has a location for the frame
    obtain ⟨s, -, hs⟩ := exists_of_forall₂ (List.Forall₂.flip hshows) (List.mem_flatMap.mpr
      ⟨(thread, ti), List.mem_zipIdx_iff_getElem?.mpr hti,
        (entriesOf_perm samples profile it (thread, ti)).mem_iff.mpr (List.mem_map_of_mem hstk)⟩)
    obtain ⟨thread', path', hthread', hpath', hids⟩ := hs.stack
    obtain rfl : thread' = thread := Option.some.inj (hthread'.symm.trans hti)
    obtain ⟨id, -, hid⟩ := exists_of_forall₂ (List.Forall₂.flip hids) (hpath.unique hpath' ▸ hfi)
    have hlocated : Located frames profile st ti id fi := hid
    have hresolved : resolveAt frames profile ti fi = some chain := by
      rw [resolveAt, hti]
      exact hchain
    obtain ⟨loc, hloc, hmap⟩ := hlocated.mappingId hinv hresolved
    have hlt : ∀ f ∈ chain, f.mappingIndex < profile.libs.length := by
      obtain ⟨hpos, hlen⟩ := (hprocessed thread' hthread).frames fi (hpath.mem hfi)
      obtain ⟨c, hc, hlt⟩ := hresolve thread' hthread fi hpos hlen
      rwa [Option.some.inj (hc.symm.trans hchain)] at hlt
    exact (headMapping_le_one_iff (hbound chain hlt)).mp (hmap ▸ hle loc hloc)
  · intro hfirst loc hloc
    obtain ⟨chain, ⟨hused, hlt⟩, hmap⟩ := hinv.chain_of_location hloc
    rw [hmap]
    exact (headMapping_le_one_iff (hbound chain hlt)).mpr (hfirst chain hused)

/-- A frame of a second library, which the sidecar does not know. -/
def secondLibThread : Thread where
  frameTable := ⟨1, [0], [4096], [none]⟩
  funcTable := ⟨1, [0], [none], [0]⟩
  stackTable := ⟨1, [none], [0]⟩
  samples := ⟨1, [some 0], [], []⟩
  stringArray := ["f"]
  resourceTable := some ⟨1, [1]⟩

def twoLibs : FirefoxProfile :=
  ⟨[⟨"main", "main"⟩, ⟨"libc.so", "libc.so"⟩], [secondLibThread], ⟨.fin 1, .fin 0⟩⟩

/-- The resolver of an empty sidecar. -/
def noSyms : FrameResolver := (SamplySyms.intoResolver ⟨[], []⟩).resolve

/-- The same with a frame of the first one. -/
def firstLibThread : Thread := { secondLibThread with resourceTable := some ⟨1, [0]⟩ }

def onlyFirstLib : FirefoxProfile := { twoLibs with threads := [firstLibThread] }

theorem processed_firstLibThread :
    Processed (SampleWeighting.fixedInterval 1000).resolve onlyFirstLib firstLibThread where
  prefixes := by
    intro i q h
    match i with
    | 0 => cases h
    | i + 1 => cases h
  frames := by decide
  samples := by decide

theorem noSyms_firstLibThread {fi : Int} (hpos : 0 ≤ fi) (hlt : fi < 1) :
    noSyms onlyFirstLib firstLibThread fi = some [⟨"main+0x1000", "", 0, 0, 4096⟩] := by
  obtain rfl : fi = 0 := by omega
  rfl

theorem processed_closed_iff_sample : ∃ p, build id none noSyms
    (SampleWeighting.fixedInterval 1000).resolve (fun _ => ⟨id, fun _ => .refl _⟩) 1 onlyFirstLib =
      some p ∧ p.Closed := by
  have hprocessed : ∀ thread ∈ onlyFirstLib.threads,
      Processed (SampleWeighting.fixedInterval 1000).resolve onlyFirstLib thread :=
    List.forall_mem_singleton.mpr processed_firstLibThread
  obtain ⟨p, hrun, hiff⟩ := processed_closed_iff id none (fun _ => ⟨id, fun _ => .refl _⟩) hprocessed
    (List.forall_mem_singleton.mpr fun fi hpos hlt => ⟨_, noSyms_firstLibThread hpos hlt, by decide⟩)
    (by decide) (List.forall_mem_singleton.mpr (Nat.le_refl 1))
  refine ⟨p, hrun, hiff.mpr ?_⟩
  rintro chain ⟨thread, hthread, stk, -, path, hpath, fi, hfi, hchain⟩
  obtain rfl := List.mem_singleton.mp hthread
  obtain ⟨hpos, hlt⟩ := processed_firstLibThread.frames fi (hpath.mem hfi)
  obtain rfl := Option.some.inj ((noSyms_firstLibThread hpos hlt).symm.trans hchain)
  intro f hf
  obtain rfl := Option.some.inj hf
  rfl

/-- The frame of the second library refers to a mapping that is not there. -/
theorem build_twoLibs_not_closed : ∃ p, build id none noSyms
    (SampleWeighting.fixedInterval 1000).resolve (fun _ => ⟨id, fun _ => .refl _⟩) 1 twoLibs =
      some p ∧ (∃ loc ∈ p.location, loc.mappingId = 2) ∧ p.mapping.map Mapping.id = [1] ∧
      ¬ p.Closed := by
  refine ⟨_, rfl, ⟨⟨1, 2, 4096, [⟨1, 0, 0⟩], false⟩, by decide, rfl⟩, rfl, fun h => ?_⟩
  have hrow := h.mappings ⟨1, 2, 4096, [⟨1, 0, 0⟩], false⟩ (by decide) (by decide)
  exact absurd (show (0 : Nat) = 1 from hrow) (by decide)

end Firefox
