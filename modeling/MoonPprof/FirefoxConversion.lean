/-
What a converted Firefox profile says.

* `readLines_of_chainAt` — a location reads as the chain it was made of;
* `readChains_of_shows` — a sample reads as the chains of its frames;
* `processed_converts` — a processed profile keeps its stacks, its counts and its
  times.
-/
import MoonPprof.FirefoxKeys
import MoonPprof.FirefoxResolvers
import MoonPprof.FirefoxSamples

open MachineInt Proto

namespace Firefox

/-! ### Reading the locations -/

/-- Names and files without the separators of the keys. -/
def SepFreeChain (chain : List ResolvedFrame) : Prop :=
  ∀ f ∈ chain, SepFree f.name ∧ SepFree f.file

/-- What a line shows: the display name, the raw name and the line. -/
def shown (r : ReadFrame) : String × String × Int := (r.name, r.systemName, r.line)

/-- What the line of a frame is to show. -/
def shownFrame (demangle : String → String) (f : ResolvedFrame) : String × String × Int :=
  (demangle f.name, f.name, f.line)

section

variable {demangle : String → String} {frames : FrameResolver} {profile : FirefoxProfile}

theorem shownFrame_of_keyed {chain chain' : List ResolvedFrame}
    (h : chain.map keyed = chain'.map keyed) :
    chain.map (shownFrame demangle) = chain'.map (shownFrame demangle) := by
  have hcomp : ∀ c : List ResolvedFrame, c.map (shownFrame demangle) =
      (c.map keyed).map fun x => (demangle x.2.2.1, x.2.2.1, x.2.2.2) := by
    intro c
    rw [List.map_map]
    rfl
  rw [hcomp, hcomp, h]

/-- The lines of a chain read as its frames, up to the files. -/
theorem exists_readLines {st : State} (h : st.Inv demangle SepFreeChain (resolveAt frames profile))
    {p : Profile} (hp : p.tables = st.tables) {lines : List Line} {chain : List ResolvedFrame}
    (hsep : SepFreeChain chain) (hlines : List.Forall₂ (LineAt st.funcIndex) lines chain) :
    ∃ rs, List.Forall₂ (fun l r => p.readLine l = some r) lines rs ∧
      rs.map shown = chain.map (shownFrame demangle) := by
  induction hlines with
  | nil => exact ⟨[], .nil, rfl⟩
  | @cons l f lines chain hl _ ih =>
    obtain ⟨rs, hrs, hshown⟩ := ih fun g hg => hsep g (List.mem_cons_of_mem _ hg)
    -- the function has the key of the frame, so its name
    obtain ⟨c, g, hU, hg, hkey, hat⟩ := h.funcIndex _ _ hl.function
    obtain ⟨hname, -⟩ := funcKey_inj (hsep f List.mem_cons_self).1 (hU g hg).1 hkey
    rw [← hp] at hat
    have hids : CountsFrom1 Function.id p.function :=
      (hp ▸ h.tables.functionIds : CountsFrom1 Function.id p.tables.functions)
    refine ⟨_, .cons (readLine_of_functionAt hids hat) hrs, ?_⟩
    rw [List.map_cons, List.map_cons, hshown, shown, shownFrame, hname, hl.line]

/-- A location reads as any chain with its key, up to the files. -/
theorem readLines_of_chainAt {st : State}
    (h : st.Inv demangle SepFreeChain (resolveAt frames profile)) {p : Profile}
    (hp : p.tables = st.tables) {id : Nat} {chain chain' : List ResolvedFrame}
    (hat : ChainAt st.funcIndex st.locations id chain') (hsep' : SepFreeChain chain')
    (hsep : SepFreeChain chain) (hkey : canonicalKey chain = canonicalKey chain') :
    (p.readLines id).map (List.map shown) = some (chain.map (shownFrame demangle)) := by
  obtain ⟨i, loc, rfl, hget, -, -, hlines⟩ := hat
  obtain ⟨rs, hrs, hshown⟩ := exists_readLines h hp hsep' hlines
  have hids : CountsFrom1 Location.id p.location :=
    (hp ▸ h.tables.locationIds : CountsFrom1 Location.id p.tables.locations)
  have hrow : p.location[i]? = some loc := (hp ▸ hget : p.tables.locations[i]? = some loc)
  rw [readLines_of_row hids hrow hrs, Option.map_some, hshown,
    shownFrame_of_keyed (canonicalKey_inj (fun f hf => (hsep f hf).1) (fun f hf => (hsep' f hf).1)
      hkey)]

/-- The locations of a chain of frames read as what the frames resolve to. -/
theorem readChains_of_located {st : State}
    (h : st.Inv demangle SepFreeChain (resolveAt frames profile)) {p : Profile}
    (hp : p.tables = st.tables) {ti : Nat} {chain : Int → List ResolvedFrame} {ids : List Nat}
    {path : List Int} (hchain : ∀ fi ∈ path, resolveAt frames profile ti fi = some (chain fi))
    (hsep : ∀ fi ∈ path, SepFreeChain (chain fi))
    (hids : List.Forall₂ (Located frames profile st ti) ids path) :
    (ids.mapM p.readLines).map (List.map (List.map shown)) =
      some (path.map fun fi => (chain fi).map (shownFrame demangle)) := by
  induction hids with
  | nil => rfl
  | @cons id fi ids path hid _ ih =>
    obtain ⟨c, hc, hlookup⟩ := hid
    obtain rfl : c = chain fi := Option.some.inj (hc.symm.trans (hchain fi List.mem_cons_self))
    -- the location may have been made for another chain with the same key
    obtain ⟨chain', hU', hkey, hat⟩ := h.locCanonical _ _ hlookup
    have hhead := readLines_of_chainAt h hp hat hU' (hsep fi List.mem_cons_self) hkey
    have htail := ih (fun x hx => hchain x (List.mem_cons_of_mem _ hx))
      fun x hx => hsep x (List.mem_cons_of_mem _ hx)
    obtain ⟨r, hr, hshown⟩ := Option.map_eq_some_iff.mp hhead
    obtain ⟨rs, hrs, hshowns⟩ := Option.map_eq_some_iff.mp htail
    rw [List.mapM_cons, hr, hrs, List.map_cons, ← hshown, ← hshowns]
    rfl

/-! ### Processed profiles -/

/-- The invariants of a processed thread: indices lie in their tables, and a stack
continues an earlier one. -/
structure Processed (samples : SampleResolver) (profile : FirefoxProfile) (thread : Thread) :
    Prop where
  prefixes : ∀ (i : Nat) q, thread.stackTable.stackPrefix[i]? = some (some q) → 0 ≤ q ∧ q < i
  frames : ∀ fi ∈ thread.stackTable.frame, 0 ≤ fi ∧ fi < thread.frameTable.length
  samples : ∀ stk ∈ stackIds (charges samples profile thread),
    0 ≤ stk ∧ stk < thread.stackTable.frame.length

theorem Processed.walkable {samples : SampleResolver} {thread : Thread}
    (h : Processed samples profile thread) {U : List ResolvedFrame → Prop}
    (hresolve : ∀ fi : Int, 0 ≤ fi → fi < thread.frameTable.length →
      ∃ chain, frames profile thread fi = some chain ∧ U chain)
    {fuel : Nat} (hfuel : thread.stackTable.frame.length ≤ fuel) {stk : Int}
    (hstk : stk ∈ stackIds (charges samples profile thread)) :
    Walkable frames profile U fuel thread stk := by
  obtain ⟨hpos, hlt⟩ := h.samples stk hstk
  obtain ⟨path, hpath, hlen⟩ := exists_stackPath h.prefixes hpos hlt
  refine ⟨path, hpath, by omega, fun fi hfi => ?_⟩
  obtain ⟨hfi0, hfilt⟩ := h.frames fi (hpath.mem hfi)
  exact hresolve fi hfi0 hfilt

/-- The paths of the stacks and the chains of their frames. -/
theorem exists_paths {samples : SampleResolver} {U : List ResolvedFrame → Prop} {fuel : Nat}
    (hwalk : ∀ thread ∈ profile.threads, ∀ stk ∈ stackIds (charges samples profile thread),
      Walkable frames profile U fuel thread stk) :
    ∃ (path : Nat → Int → List Int) (chain : Nat → Int → List ResolvedFrame),
      ∀ (ti : Nat) (thread : Thread), profile.threads[ti]? = some thread →
        ∀ stk ∈ stackIds (charges samples profile thread),
          StackPath thread.stackTable stk (path ti stk) ∧
          ∀ fi ∈ path ti stk, frames profile thread fi = some (chain ti fi) ∧ U (chain ti fi) := by
  have hexists : ∀ (ti : Nat) (stk : Int), ∃ path, ∀ thread : Thread,
      profile.threads[ti]? = some thread → stk ∈ stackIds (charges samples profile thread) →
      StackPath thread.stackTable stk path := by
    intro ti stk
    rcases hthread : profile.threads[ti]? with _ | thread
    · exact ⟨[], nofun⟩
    · by_cases hstk : stk ∈ stackIds (charges samples profile thread)
      · obtain ⟨path, hpath, -⟩ := hwalk thread (List.mem_of_getElem? hthread) stk hstk
        exact ⟨path, fun _ heq _ => Option.some.inj heq ▸ hpath⟩
      · exact ⟨[], fun _ heq hmem => absurd (Option.some.inj heq ▸ hmem) hstk⟩
  choose path hpath using hexists
  refine ⟨path, fun ti fi => (resolveAt frames profile ti fi).getD [],
    fun ti thread hthread stk hstk => ⟨hpath ti stk thread hthread hstk, fun fi hfi => ?_⟩⟩
  obtain ⟨path', hpath', -, hframes⟩ := hwalk thread (List.mem_of_getElem? hthread) stk hstk
  obtain ⟨c, hc, hU⟩ := hframes fi ((hpath ti stk thread hthread hstk).unique hpath' ▸ hfi)
  have hresolve : resolveAt frames profile ti fi = some c := by
    rw [resolveAt, hthread]
    exact hc
  simp only [hresolve, Option.getD_some]
  exact ⟨hc, hU⟩

/-- The sums over the stacks of the threads are sums over their samples. -/
theorem sum_threads (samples : SampleResolver) (profile : FirefoxProfile)
    (value : Int × Int × Int → Int) (threads : List (Thread × Nat)) :
    (threads.flatMap fun x => (stackIds (charges samples profile x.1)).map
        (sumAt ((charges samples profile x.1).map fun c => (c.1, value c)))).sum =
      (((threads.map Prod.fst).flatMap (charges samples profile)).map value).sum := by
  induction threads with
  | nil => rfl
  | cons x threads ih =>
    rw [List.flatMap_cons, List.sum_append, ih, List.map_cons, List.flatMap_cons, List.map_append,
      List.sum_append, stackIds, sum_sumAt_dedup]

/-- Pushed samples read back in the finished profile. -/
theorem map_readChains {st : State}
    (h : st.Inv demangle SepFreeChain (resolveAt frames profile)) {p : Profile}
    (hp : p.tables = st.tables) {path : Nat → Int → List Int}
    {chain : Nat → Int → List ResolvedFrame}
    {new : List Sample} {entries : List (Nat × Sigma fun _ : Int => Int × Int)}
    (hpath : ∀ x ∈ entries, ∀ thread, profile.threads[x.1]? = some thread →
      StackPath thread.stackTable x.2.1 (path x.1 x.2.1) ∧ ∀ fi ∈ path x.1 x.2.1,
        frames profile thread fi = some (chain x.1 fi) ∧ SepFreeChain (chain x.1 fi))
    (hnew : List.Forall₂ (SampleShows frames profile st) new entries) :
    new.map (fun s => ((p.readChains s).map (List.map (List.map shown)), s.value)) =
      entries.map fun x =>
        (some ((path x.1 x.2.1).map fun fi => (chain x.1 fi).map (shownFrame demangle)),
          [x.2.2.1, x.2.2.2]) := by
  induction hnew with
  | nil => rfl
  | @cons s x new entries hs _ ih =>
    obtain ⟨thread, path', hthread, hpath', hids⟩ := hs.stack
    obtain ⟨hstack, hframes⟩ := hpath x List.mem_cons_self thread hthread
    rw [hpath'.unique hstack] at hids
    have hresolve : ∀ fi ∈ path x.1 x.2.1,
      resolveAt frames profile x.1 fi = some (chain x.1 fi) := by
      intro fi hfi
      rw [resolveAt, hthread]
      exact (hframes fi hfi).1
    rw [List.map_cons, List.map_cons, ih fun y hy => hpath y (List.mem_cons_of_mem _ hy), hs.value,
      Profile.readChains,
      readChains_of_located h hp hresolve (fun fi hfi => (hframes fi hfi).2) hids]

/-- The entries of the walks, whatever is shown of their stacks, are a row for each stack with
its sums. -/
theorem entries_perm {β : Type} (samples : SampleResolver)
    (it : Nat → IterOrder (Sigma fun _ : Int => Int × Int))
    (hsums : ∀ thread ∈ profile.threads, ∀ stk ∈ stackIds (charges samples profile thread),
      InRange 64 (countOf (charges samples profile thread) stk) ∧
        InRange 64 (nsOf (charges samples profile thread) stk)) (row : Nat → Int → β) :
    ((profile.threads.zipIdx.flatMap (entriesOf samples profile it)).map fun x =>
        (row x.1 x.2.1, [x.2.2.1, x.2.2.2])).Perm
      (profile.threads.zipIdx.flatMap fun x =>
        (stackIds (charges samples profile x.1)).map fun stk =>
          (row x.2 stk,
            [countOf (charges samples profile x.1) stk, nsOf (charges samples profile x.1) stk])) := by
  rw [List.map_flatMap]
  refine List.Perm.flatMap_left _ fun x hx => ?_
  refine ((entriesOf_perm samples profile it x).map _).trans (List.Perm.of_eq ?_)
  rw [List.map_map]
  refine List.map_congr_left fun stk hstk => ?_
  have hthread := List.mem_of_getElem? (List.mem_zipIdx_iff_getElem?.mp hx)
  obtain ⟨hcount, hns⟩ := hsums x.1 hthread stk hstk
  simp only [Function.comp_apply, wrap_of_inRange (by omega : 0 < 64) hcount,
    wrap_of_inRange (by omega : 0 < 64) hns]

/-- A column of the entries adds up to what all samples have in it. -/
theorem sum_entries (samples : SampleResolver)
    (it : Nat → IterOrder (Sigma fun _ : Int => Int × Int))
    (hsums : ∀ thread ∈ profile.threads, ∀ stk ∈ stackIds (charges samples profile thread),
      InRange 64 (countOf (charges samples profile thread) stk) ∧
        InRange 64 (nsOf (charges samples profile thread) stk))
    (i : Nat) {value : Int × Int × Int → Int}
    (hvalue : ∀ cs stk, [countOf cs stk, nsOf cs stk][i]?.getD 0 =
      sumAt (cs.map fun c => (c.1, value c)) stk) :
    ((profile.threads.zipIdx.flatMap (entriesOf samples profile it)).map fun x =>
        [x.2.2.1, x.2.2.2][i]?.getD 0).sum =
      ((profile.threads.flatMap (charges samples profile)).map value).sum := by
  have hsum := ((entries_perm samples it hsums fun _ _ => ()).map fun y => y.2[i]?.getD 0).sum_eq
  rw [List.map_map, List.map_flatMap] at hsum
  simp only [List.map_map, Function.comp_def, List.map_flatMap, hvalue] at hsum
  rw [List.map_flatMap, hsum, sum_threads, List.zipIdx_map_fst]

/-- A processed profile, whatever orders its hash maps are walked in: one sample for
each stack of each thread, which reads as the chains of the frames up to its root,
with the counts and the times of its samples. Nothing is lost from the sums, and the
duration is the whole time. -/
theorem processed_converts (demangle : String → String) (mappingFilename : Option String)
    {frames : FrameResolver} {samples : SampleResolver}
    (it : Nat → IterOrder (Sigma fun _ : Int => Int × Int)) {profile : FirefoxProfile}
    (hprocessed : ∀ thread ∈ profile.threads, Processed samples profile thread)
    (hresolve : ∀ thread ∈ profile.threads, ∀ fi : Int, 0 ≤ fi → fi < thread.frameTable.length →
      ∃ chain, frames profile thread fi = some chain ∧ SepFreeChain chain)
    (hsums : ∀ thread ∈ profile.threads, ∀ stk ∈ stackIds (charges samples profile thread),
      InRange 64 (countOf (charges samples profile thread) stk) ∧
        InRange 64 (nsOf (charges samples profile thread) stk))
    (htotal : InRange 64
      ((profile.threads.flatMap (charges samples profile)).map fun c => c.2.2).sum)
    {fuel : Nat} (hfuel : ∀ thread ∈ profile.threads, thread.stackTable.frame.length ≤ fuel) :
    ∃ (p : Profile) (path : Nat → Int → List Int) (chain : Nat → Int → List ResolvedFrame),
      build demangle mappingFilename frames samples it fuel profile = some p ∧
      (∀ ti thread, profile.threads[ti]? = some thread →
        ∀ stk ∈ stackIds (charges samples profile thread),
          StackPath thread.stackTable stk (path ti stk) ∧
          ∀ fi ∈ path ti stk, frames profile thread fi = some (chain ti fi)) ∧
      (p.sample.map fun s => ((p.readChains s).map (List.map (List.map shown)), s.value)).Perm
        (profile.threads.zipIdx.flatMap fun x =>
          (stackIds (charges samples profile x.1)).map fun stk =>
            (some ((path x.2 stk).map fun fi => (chain x.2 fi).map (shownFrame demangle)),
              [countOf (charges samples profile x.1) stk, nsOf (charges samples profile x.1) stk])) ∧
      (p.sample.map fun s => s.value[0]?.getD 0).sum =
        ((profile.threads.flatMap (charges samples profile)).map fun c => c.2.1).sum ∧
      (p.sample.map fun s => s.value[1]?.getD 0).sum =
        ((profile.threads.flatMap (charges samples profile)).map fun c => c.2.2).sum ∧
      p.durationNanos =
        ((profile.threads.flatMap (charges samples profile)).map fun c => c.2.2).sum := by
  have hwalk : ∀ thread ∈ profile.threads, ∀ stk ∈ stackIds (charges samples profile thread),
      Walkable frames profile SepFreeChain fuel thread stk := fun thread hthread stk hstk =>
    (hprocessed thread hthread).walkable (hresolve thread hthread) (hfuel thread hthread) hstk
  obtain ⟨path, chain, hpath⟩ := exists_paths hwalk
  obtain ⟨filename, st, hrun, -, hinv, hshows, hns⟩ :=
    build_shows demangle mappingFilename it hwalk
  set entries := profile.threads.zipIdx.flatMap (entriesOf samples profile it)
  have hread : (st.finish profile filename).sample.map (fun s =>
      (((st.finish profile filename).readChains s).map (List.map (List.map shown)), s.value)) =
      entries.map fun x =>
        (some ((path x.1 x.2.1).map fun fi => (chain x.1 fi).map (shownFrame demangle)),
          [x.2.2.1, x.2.2.2]) := by
    refine map_readChains hinv rfl (fun y hy thread hthread => ?_) hshows
    obtain ⟨x, hx, hmem⟩ := List.mem_flatMap.mp hy
    obtain ⟨stk, hstk, rfl⟩ := List.mem_map.mp
      ((entriesOf_perm samples profile it x).mem_iff.mp hmem)
    obtain rfl : x.1 = thread :=
      Option.some.inj ((List.mem_zipIdx_iff_getElem?.mp hx).symm.trans hthread)
    exact hpath x.2 x.1 hthread stk hstk
  have hsample : ∀ i : Nat, ((st.finish profile filename).sample.map fun s => s.value[i]?.getD 0) =
      entries.map fun x => [x.2.2.1, x.2.2.2][i]?.getD 0 := by
    intro i
    have hmap := congrArg (List.map fun y => y.2[i]?.getD 0) hread
    rwa [List.map_map, List.map_map] at hmap
  -- the times are both the second column and the duration
  have hcolumn := @sum_entries profile samples it hsums 1 (fun c => c.2.2) fun _ _ => rfl
  refine ⟨_, path, chain, hrun, fun ti thread hthread stk hstk => ?_, ?_, ?_, ?_, ?_⟩
  · obtain ⟨hstack, hframes⟩ := hpath ti thread hthread stk hstk
    exact ⟨hstack, fun fi hfi => (hframes fi hfi).1⟩
  · rw [hread]
    exact entries_perm samples it hsums fun ti stk =>
      some ((path ti stk).map fun fi => (chain ti fi).map (shownFrame demangle))
  · rw [hsample, sum_entries samples it hsums 0 fun _ _ => rfl]
  · rw [hsample, hcolumn]
  · show st.totalNs = _
    rw [hns, show (entries.map fun x => x.2.2.2) = entries.map fun x =>
      [x.2.2.1, x.2.2.2][1]?.getD 0
      from rfl, hcolumn, wrap_of_inRange (by omega) htotal]

end

/-- One thread, in which `main` calls `f`; the second sample has no stack. -/
def sampleThread : Thread where
  frameTable := ⟨2, [0, 1], [16, 32], [some 3, none]⟩
  funcTable := ⟨2, [0, 1], [some 2, none], [0, 0]⟩
  stackTable := ⟨2, [none, some 0], [0, 1]⟩
  samples := ⟨4, [some 1, none, some 0, some 1], [], []⟩
  stringArray := ["main", "f", "main.mbt"]
  resourceTable := none

def sampleProfile : FirefoxProfile := ⟨[⟨"main.wasm", ""⟩], [sampleThread], ⟨.fin 1, .fin 0⟩⟩

theorem processed_sampleThread : Processed (SampleWeighting.fixedInterval 1000).resolve
    sampleProfile sampleThread where
  prefixes := by
    intro i q h
    match i with
    | 0 => cases h
    | 1 =>
      cases h
      decide
    | i + 2 => cases h
  frames := by decide
  samples := by decide

theorem processed_converts_sample : ∃ p, build id none funcTableResolver
    (SampleWeighting.fixedInterval 1000).resolve (fun _ => ⟨id, fun _ => .refl _⟩) 2
    sampleProfile = some p ∧
      (p.sample.map fun s => s.value[0]?.getD 0).sum = 3 ∧ p.durationNanos = 3000 := by
  have hprocessed : ∀ thread ∈ sampleProfile.threads,
      Processed (SampleWeighting.fixedInterval 1000).resolve sampleProfile thread :=
    List.forall_mem_singleton.mpr processed_sampleThread
  have hresolve : ∀ thread ∈ sampleProfile.threads, ∀ fi : Int, 0 ≤ fi →
      fi < thread.frameTable.length → ∃ chain, funcTableResolver sampleProfile thread fi =
        some chain ∧ SepFreeChain chain := by
    refine List.forall_mem_singleton.mpr fun fi hpos hlt => ?_
    have hlt' : fi < 2 := hlt
    obtain rfl | rfl : fi = 0 ∨ fi = 1 := by omega
    · exact ⟨[⟨"main", "main.mbt", 3, 0, 16⟩], rfl, by unfold SepFreeChain; decide⟩
    · exact ⟨[⟨"f", "", 0, 0, 32⟩], rfl, by unfold SepFreeChain; decide⟩
  obtain ⟨p, -, -, hrun, -, -, hcount, -, hduration⟩ :=
    processed_converts id none (fun _ => ⟨id, fun _ => .refl _⟩) hprocessed hresolve
      (List.forall_mem_singleton.mpr (by decide)) (by decide)
      (List.forall_mem_singleton.mpr (Nat.le_refl 2))
  exact ⟨p, hrun, hcount, hduration⟩

end Firefox
