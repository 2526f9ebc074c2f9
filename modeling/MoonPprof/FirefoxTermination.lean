/-
When the conversion of a Firefox profile has a result.

`build` reads four tables at indices of the profile: the stack of a sample, the
frame of a stack, the function of a frame and the name of a function.  The first
is followed along the prefixes of the stacks with no bound, and the others are
not checked against the tables.

* `stackPath_iff` — the walk from a stack ends exactly where its prefixes lead
  into no cycle and each stack has a frame;
* `build_total_iff` — with the function table as resolver, the conversion has a
  result exactly when all sampled stacks are of this kind and the functions and
  names of their frames are in the tables.
-/
import MoonPprof.FirefoxResolvers
import MoonPprof.FirefoxSamples
import MoonPprof.LinkChain
import Mathlib.Data.List.ReduceOption

open MachineInt Proto

namespace Firefox

/-! ### Prefixes -/

/-- The stack `q` is the prefix of the stack `stk`. -/
def PrefixLink (t : StackTable) (stk q : Int) : Prop :=
  t.stackPrefix[toUsize stk]? = some (some q)

def prefixOf (t : StackTable) (stk : Int) : Option Int := t.stackPrefix[toUsize stk]?.join

theorem linked_prefixOf (t : StackTable) : Linked (prefixOf t) = PrefixLink t := by
  funext stk q
  exact propext Option.join_eq_some_iff

theorem mem_of_prefixOf {t : StackTable} {stk q : Int} (h : prefixOf t stk = some q) :
    q ∈ t.stackPrefix.reduceOption := by
  rw [List.reduceOption_mem_iff]
  exact List.mem_of_getElem? (Option.join_eq_some_iff.mp h)

/-- The frames of a chain of stacks. -/
theorem stackPath_of_chain {t : StackTable} {stk : Int} {stks : List Int}
    (h : LinkChain (prefixOf t) stk stks)
    (hframes : ∀ s ∈ stks, ∃ frame, t.frame[toUsize s]? = some frame) :
    ∃ path, StackPath t stk path ∧
      ∀ frame ∈ path, ∃ s ∈ stks, t.frame[toUsize s]? = some frame := by
  induction h with
  | @last stk hnone =>
    obtain ⟨frame, hframe⟩ := hframes stk List.mem_cons_self
    exact ⟨[frame], .root hframe hnone, by simpa using hframe⟩
  | @link stk q stks hsome _ ih =>
    obtain ⟨frame, hframe⟩ := hframes stk List.mem_cons_self
    obtain ⟨path, hpath, hmem⟩ := ih fun s hs => hframes s (List.mem_cons_of_mem _ hs)
    refine ⟨frame :: path, .child hframe hsome hpath, fun x hx => ?_⟩
    rcases List.mem_cons.mp hx with rfl | hx
    · exact ⟨stk, List.mem_cons_self, hframe⟩
    · obtain ⟨s, hs, hget⟩ := hmem x hx
      exact ⟨s, List.mem_cons_of_mem _ hs, hget⟩

theorem chain_of_stackPath {t : StackTable} {stk : Int} {path : List Int}
    (h : StackPath t stk path) :
    ∃ stks, LinkChain (prefixOf t) stk stks ∧ stks.length = path.length ∧
      ∀ s ∈ stks, ∃ frame ∈ path, t.frame[toUsize s]? = some frame := by
  induction h with
  | @root stk frame hframe hnone => exact ⟨[stk], .last hnone, rfl, by simpa using hframe⟩
  | @child stk q frame path hframe hsome _ ih =>
    obtain ⟨stks, hstks, hlen, hmem⟩ := ih
    refine ⟨stk :: stks, .link hsome hstks, by simp [hlen], fun s hs => ?_⟩
    rcases List.mem_cons.mp hs with rfl | hs
    · exact ⟨frame, List.mem_cons_self, hframe⟩
    · obtain ⟨x, hx, hget⟩ := hmem s hs
      exact ⟨x, List.mem_cons_of_mem _ hx, hget⟩

theorem StackPath.length_le {t : StackTable} {stk : Int} {path : List Int}
    (h : StackPath t stk path) : path.length ≤ t.stackPrefix.length + 1 := by
  obtain ⟨stks, hstks, hlen, -⟩ := chain_of_stackPath h
  have hle := hstks.length_le fun _ _ => mem_of_prefixOf
  have hreduce := List.reduceOption_length_le t.stackPrefix
  omega

/-- The walk from a stack ends where its prefixes lead into no cycle and each of
its stacks has a frame; all these frames satisfy `P` when those do. -/
theorem stackPath_iff {t : StackTable} {stk : Int} (P : Int → Prop) :
    (∃ path, StackPath t stk path ∧ ∀ fi ∈ path, P fi) ↔
      ¬ IntoCycle (PrefixLink t) stk ∧
        ∀ s, Relation.ReflTransGen (PrefixLink t) stk s →
          ∃ fi, t.frame[toUsize s]? = some fi ∧ P fi := by
  rw [← linked_prefixOf]
  constructor
  · rintro ⟨path, hpath, hP⟩
    obtain ⟨stks, hstks, -, hframes⟩ := chain_of_stackPath hpath
    refine ⟨hstks.not_intoCycle, fun s hs => ?_⟩
    obtain ⟨fi, hfi, hget⟩ := hframes s (hstks.mem_iff.mpr hs)
    exact ⟨fi, hget, hP fi hfi⟩
  · rintro ⟨hcycle, hreads⟩
    obtain ⟨stks, hstks⟩ := exists_linkChain t.stackPrefix.reduceOption
      (fun _ _ => mem_of_prefixOf) hcycle
    have hframes : ∀ s ∈ stks, ∃ fi, t.frame[toUsize s]? = some fi ∧ P fi :=
      fun s hs => hreads s (hstks.mem_iff.mp hs)
    obtain ⟨path, hpath, hmem⟩ := stackPath_of_chain hstks fun s hs => by
      obtain ⟨fi, hget, -⟩ := hframes s hs
      exact ⟨fi, hget⟩
    refine ⟨path, hpath, fun fi hfi => ?_⟩
    obtain ⟨s, hs, hget⟩ := hmem fi hfi
    obtain ⟨fi', hget', hP⟩ := hframes s hs
    rwa [Option.some.inj (hget.symm.trans hget')]

/-! ### What a result says about the input -/

section

variable {demangle : String → String} {U : List ResolvedFrame → Prop} {frames : FrameResolver}
  {profile : FirefoxProfile}

theorem resolves_of_internLocation {st : State}
    (h : st.Inv demangle U (resolveAt frames profile)) {thread : Thread} {ti : Nat}
    (hthread : profile.threads[ti]? = some thread) {fi : Int} {r : Nat × State}
    (hrun : st.internLocation demangle profile thread ti fi frames = some r) :
    ∃ chain, frames profile thread fi = some chain := by
  rw [State.internLocation] at hrun
  rcases hframe : st.frameToLoc.lookup (ti, fi) with _ | id
  · simp only [hframe] at hrun
    obtain ⟨chain, hchain, -⟩ := Option.bind_eq_some_iff.mp hrun
    exact ⟨chain, hchain⟩
  · -- the frame was resolved when it was remembered
    obtain ⟨chain, hresolve, -⟩ := h.frameToLoc ti fi id hframe
    rw [resolveAt, hthread] at hresolve
    exact ⟨chain, hresolve⟩

theorem resolves_of_internLocations {st : State}
    (h : st.Inv demangle (fun _ => True) (resolveAt frames profile)) {thread : Thread} {ti : Nat}
    (hthread : profile.threads[ti]? = some thread) {frameIds : List Int} {r : List Nat × State}
    (hrun : State.internLocations demangle profile thread ti frames frameIds st = some r) :
    ∀ fi ∈ frameIds, ∃ chain, frames profile thread fi = some chain ∧ True := by
  induction frameIds generalizing st r with
  | nil => simp
  | cons fi frameIds ih =>
    rw [State.internLocations] at hrun
    obtain ⟨⟨id, st₁⟩, hfirst, hrun⟩ := Option.bind_eq_some_iff.mp hrun
    obtain ⟨r', hrest, -⟩ := Option.bind_eq_some_iff.mp hrun
    obtain ⟨chain, hchain⟩ := resolves_of_internLocation h hthread hfirst
    obtain ⟨id', st', hfirst', h', -⟩ := internLocation_spec h hthread hchain trivial
    obtain ⟨-, rfl⟩ := Prod.mk.inj (Option.some.inj (hfirst'.symm.trans hfirst))
    intro x hx
    rcases List.mem_cons.mp hx with rfl | hx
    · exact ⟨chain, hchain, trivial⟩
    · exact ih h' hrest x hx

theorem stackPath_of_stackFrom {t : StackTable} {fuel : Nat} {stk : Int} {acc out : List Int}
    (h : stackFrom t fuel (some stk) acc = some out) :
    ∃ path, out = acc ++ path ∧ StackPath t stk path := by
  induction fuel generalizing stk acc with
  | zero => cases h
  | succ fuel ih =>
    rw [stackFrom] at h
    obtain ⟨frame, hframe, h⟩ := Option.bind_eq_some_iff.mp h
    rcases hparent : t.stackPrefix[toUsize stk]?.join with _ | q
    · rw [hparent, stackFrom, Option.some.injEq] at h
      exact ⟨[frame], h.symm, .root hframe hparent⟩
    · rw [hparent] at h
      obtain ⟨path, rfl, hpath⟩ := ih h
      exact ⟨frame :: path, by simp, .child hframe hparent hpath⟩

theorem stackPath_of_stackFrames {thread : Thread} {fuel : Nat} {stk : Int}
    {cache cache' : HashMap Int (List Int)} (hcache : CacheReads thread.stackTable cache)
    {path : List Int} (h : stackFrames thread fuel stk cache = some (path, cache')) :
    StackPath thread.stackTable stk path ∧ CacheReads thread.stackTable cache' := by
  rw [stackFrames] at h
  rcases hlookup : cache.lookup stk with _ | c
  · simp only [hlookup] at h
    obtain ⟨out, hout, h⟩ := Option.bind_eq_some_iff.mp h
    obtain ⟨path', rfl, hpath⟩ := stackPath_of_stackFrom hout
    cases h
    refine ⟨hpath, fun k c hc => ?_⟩
    rcases HashMap.lookup_insert_cases hc with ⟨rfl, rfl⟩ | hold
    · exact hpath
    · exact hcache k c hold
  · simp only [hlookup, Option.some.injEq, Prod.mk.injEq] at h
    obtain ⟨rfl, rfl⟩ := h
    exact ⟨hcache stk c hlookup, hcache⟩

/-- The walk from a stack ends and its frames resolve. -/
def Resolved (frames : FrameResolver) (profile : FirefoxProfile) (thread : Thread) (stk : Int) :
    Prop :=
  ∃ path, StackPath thread.stackTable stk path ∧
    ∀ fi ∈ path, ∃ chain, frames profile thread fi = some chain ∧ True

theorem resolved_of_pushSample {thread : Thread} {ti : Nat}
    (hthread : profile.threads[ti]? = some thread) {fuel : Nat}
    {acc acc' : State × HashMap Int (List Int)}
    (h : acc.1.Inv demangle (fun _ => True) (resolveAt frames profile))
    (hcache : CacheReads thread.stackTable acc.2) {e : Sigma fun _ : Int => Int × Int}
    (hrun : pushSample demangle frames profile thread ti fuel acc e = some acc') :
    Resolved frames profile thread e.1 ∧
      acc'.1.Inv demangle (fun _ => True) (resolveAt frames profile) ∧
      CacheReads thread.stackTable acc'.2 := by
  rw [pushSample] at hrun
  obtain ⟨⟨path, cache'⟩, hstack, hrun⟩ := Option.bind_eq_some_iff.mp hrun
  obtain ⟨⟨ids, st₁⟩, hlocs, hrun⟩ := Option.bind_eq_some_iff.mp hrun
  cases hrun
  obtain ⟨hpath, hcache'⟩ := stackPath_of_stackFrames hcache hstack
  have hframes := resolves_of_internLocations h hthread hlocs
  obtain ⟨ids', st', hlocs', h', -, -, hids⟩ := internLocations_spec hthread hframes h
  obtain ⟨rfl, rfl⟩ := Prod.mk.inj (Option.some.inj (hlocs'.symm.trans hlocs))
  exact ⟨⟨path, hpath, hframes⟩, h'.pushSample (valid_of_located h' hids) _ _, hcache'⟩

theorem resolved_of_pushSamples {thread : Thread} {ti : Nat}
    (hthread : profile.threads[ti]? = some thread) {fuel : Nat}
    {entries : List (Sigma fun _ : Int => Int × Int)} {acc acc' : State × HashMap Int (List Int)}
    (h : acc.1.Inv demangle (fun _ => True) (resolveAt frames profile))
    (hcache : CacheReads thread.stackTable acc.2)
    (hrun : entries.foldlM (pushSample demangle frames profile thread ti fuel) acc = some acc') :
    (∀ e ∈ entries, Resolved frames profile thread e.1) ∧
      acc'.1.Inv demangle (fun _ => True) (resolveAt frames profile) := by
  induction entries generalizing acc with
  | nil =>
    cases hrun
    exact ⟨by simp, h⟩
  | cons e entries ih =>
    rw [List.foldlM_cons] at hrun
    obtain ⟨acc₁, hfirst, hrest⟩ := Option.bind_eq_some_iff.mp hrun
    obtain ⟨he, h₁, hcache₁⟩ := resolved_of_pushSample hthread h hcache hfirst
    obtain ⟨hall, h'⟩ := ih h₁ hcache₁ hrest
    exact ⟨List.forall_mem_cons.mpr ⟨he, hall⟩, h'⟩

theorem resolved_of_pushThreads {samples : SampleResolver}
    {it : Nat → IterOrder (Sigma fun _ : Int => Int × Int)} {fuel : Nat}
    {threads : List (Thread × Nat)} (hthreads : ∀ x ∈ threads, profile.threads[x.2]? = some x.1)
    {st st' : State} (h : st.Inv demangle (fun _ => True) (resolveAt frames profile))
    (hrun : threads.foldlM (pushThread demangle frames profile samples it fuel) st = some st') :
    ∀ x ∈ threads, ∀ e ∈ entriesOf samples profile it x, Resolved frames profile x.1 e.2.1 := by
  induction threads generalizing st with
  | nil => simp
  | cons x threads ih =>
    rw [List.foldlM_cons] at hrun
    obtain ⟨st₁, hfirst, hrest⟩ := Option.bind_eq_some_iff.mp hrun
    rw [pushThread] at hfirst
    obtain ⟨⟨st₁', cache⟩, hsamples, hst₁⟩ := Option.bind_eq_some_iff.mp hfirst
    obtain rfl : st₁' = st₁ := Option.some.inj hst₁
    obtain ⟨hfirst', h₁⟩ := resolved_of_pushSamples (hthreads x List.mem_cons_self)
      (show (st, (∅ : HashMap Int (List Int))).1.Inv demangle _ _ from h)
      (show CacheReads x.1.stackTable ∅ by intro k path hk; cases hk) hsamples
    refine List.forall_mem_cons.mpr ⟨fun e he => ?_,
      ih (fun y hy => hthreads y (List.mem_cons_of_mem _ hy)) h₁ hrest⟩
    obtain ⟨e', he', rfl⟩ := List.mem_map.mp he
    exact hfirst' e' he'

/-! ### The conversion -/

/-- A sample of the thread names the stack. -/
def Sampled (samples : SampleResolver) (profile : FirefoxProfile) (thread : Thread) (stk : Int) :
    Prop :=
  ∃ i, i < thread.samples.length ∧ (samples profile thread i).stack = some stk

theorem mem_stackIds_iff {samples : SampleResolver} {thread : Thread} {stk : Int} :
    stk ∈ stackIds (charges samples profile thread) ↔ Sampled samples profile thread stk := by
  rw [stackIds, List.mem_dedup, charges, List.map_filterMap, List.mem_filterMap, Sampled]
  simp only [List.mem_range, Option.map_map]
  refine exists_congr fun i => and_congr_right fun _ => ?_
  rw [Option.map_eq_some_iff]
  constructor
  · rintro ⟨s, hs, rfl⟩
    exact hs
  · intro hs
    exact ⟨stk, hs, rfl⟩

theorem resolved_of_build {mappingFilename : Option String} {samples : SampleResolver}
    {it : Nat → IterOrder (Sigma fun _ : Int => Int × Int)} {fuel : Nat} {out : Profile}
    (hrun : build demangle mappingFilename frames samples it fuel profile = some out)
    {thread : Thread} (hthread : thread ∈ profile.threads) {stk : Int}
    (hstk : Sampled samples profile thread stk) : Resolved frames profile thread stk := by
  rw [build] at hrun
  obtain ⟨st', hthreads, -⟩ := Option.bind_eq_some_iff.mp hrun
  obtain ⟨ti, hti⟩ := List.getElem?_of_mem hthread
  have hnew : State.new.Inv demangle (fun _ => True) (resolveAt frames profile) := inv_new
  have hall := resolved_of_pushThreads (fun x hx => List.mem_zipIdx_iff_getElem?.mp hx)
    (hnew.intern _).1 hthreads (thread, ti) (List.mem_zipIdx_iff_getElem?.mpr hti)
  -- the aggregate has an entry for the stack
  obtain ⟨e, he, rfl⟩ : ∃ e ∈ entriesOf samples profile it (thread, ti), e.2.1 = stk :=
    ⟨_, (entriesOf_perm samples profile it (thread, ti)).mem_iff.mpr
      (List.mem_map_of_mem (mem_stackIds_iff.mpr hstk)), rfl⟩
  exact hall e he

end

/-- The function of a frame, and the name of that function, are in their tables. -/
def FrameReads (thread : Thread) (fi : Int) : Prop :=
  ∃ func, thread.frameTable.func[toUsize fi]? = some func ∧
    toUsize func < thread.funcTable.name.length

theorem frameReads_iff (profile : FirefoxProfile) (thread : Thread) (fi : Int) :
    (∃ chain, funcTableResolver profile thread fi = some chain ∧ True) ↔ FrameReads thread fi := by
  rw [funcTableResolver, FrameReads]
  constructor
  · rintro ⟨chain, hchain, -⟩
    obtain ⟨func, hfunc, hchain⟩ := Option.bind_eq_some_iff.mp hchain
    obtain ⟨name, hname, -⟩ := Option.bind_eq_some_iff.mp hchain
    exact ⟨func, hfunc, (List.getElem?_eq_some_iff.mp hname).1⟩
  · rintro ⟨func, hfunc, hlt⟩
    have hname := List.getElem?_eq_getElem hlt
    simp only [hfunc, Option.bind_eq_bind, Option.bind_some, hname]
    exact ⟨_, rfl, trivial⟩

/-- With the function table as resolver, the conversion has a result exactly when
no sampled stack leads into a cycle of prefixes, and each stack on the way has a
frame whose function and name are in the tables. -/
theorem build_total_iff (demangle : String → String) (mappingFilename : Option String)
    (samples : SampleResolver) (it : Nat → IterOrder (Sigma fun _ : Int => Int × Int))
    (p : FirefoxProfile) :
    (∃ fuel profile, build demangle mappingFilename funcTableResolver samples it fuel p =
        some profile) ↔
      ∀ thread ∈ p.threads, ∀ stk, Sampled samples p thread stk →
        ¬ IntoCycle (PrefixLink thread.stackTable) stk ∧
          ∀ s, Relation.ReflTransGen (PrefixLink thread.stackTable) stk s →
            ∃ fi, thread.stackTable.frame[toUsize s]? = some fi ∧ FrameReads thread fi := by
  constructor
  · rintro ⟨fuel, profile, hrun⟩ thread hthread stk hstk
    obtain ⟨path, hpath, hframes⟩ := resolved_of_build hrun hthread hstk
    exact (stackPath_iff (FrameReads thread)).mp
      ⟨path, hpath, fun fi hfi => (frameReads_iff p thread fi).mp (hframes fi hfi)⟩
  · intro h
    set fuel := (p.threads.map fun t => t.stackTable.stackPrefix.length + 1).sum
    have hwalk : ∀ thread ∈ p.threads, ∀ stk ∈ stackIds (charges samples p thread),
        Walkable funcTableResolver p (fun _ => True) fuel thread stk := by
      intro thread hthread stk hstk
      obtain ⟨path, hpath, hframes⟩ :=
        (stackPath_iff (FrameReads thread)).mpr (h thread hthread stk (mem_stackIds_iff.mp hstk))
      refine ⟨path, hpath, hpath.length_le.trans ?_,
        fun fi hfi => (frameReads_iff p thread fi).mpr (hframes fi hfi)⟩
      exact List.single_le_sum (fun n _ => Nat.zero_le n) _ (List.mem_map_of_mem hthread)
    obtain ⟨filename, st, hrun, -⟩ := build_shows demangle mappingFilename it hwalk
    exact ⟨fuel, _, hrun⟩

/-- A thread with one sampled stack, of the frame `frame` on top of the stack `below`. -/
def oneStackThread (below : Option Int) (frame : Int) : Thread where
  frameTable := ⟨1, [0], [], []⟩
  funcTable := ⟨1, [0], [none], []⟩
  stackTable := ⟨1, [below], [frame]⟩
  samples := ⟨1, [some 0], [], []⟩
  stringArray := ["main"]
  resourceTable := none

def oneStackProfile (below : Option Int) (frame : Int) : FirefoxProfile :=
  ⟨[], [oneStackThread below frame], ⟨.fin 1, .fin 0⟩⟩

theorem sampled_oneStack (below : Option Int) (frame : Int) :
    Sampled (SampleWeighting.fixedInterval 1000).resolve (oneStackProfile below frame)
      (oneStackThread below frame) 0 :=
  ⟨0, Nat.zero_lt_one, rfl⟩

/-- There is no result for a stack on top of itself, nor for a frame with index -1. -/
theorem build_oneStack_none :
    (∀ fuel, build id none funcTableResolver (SampleWeighting.fixedInterval 1000).resolve
      (fun _ => ⟨id, fun _ => .refl _⟩) fuel (oneStackProfile (some 0) 0) = none) ∧
    ∀ fuel, build id none funcTableResolver (SampleWeighting.fixedInterval 1000).resolve
      (fun _ => ⟨id, fun _ => .refl _⟩) fuel (oneStackProfile none (-1)) = none := by
  constructor <;> intro fuel <;> rw [Option.eq_none_iff_forall_ne_some] <;> intro out hrun
  · obtain ⟨path, hpath, hframes⟩ :=
      resolved_of_build hrun List.mem_cons_self (sampled_oneStack _ _)
    obtain ⟨stks, hstks, -⟩ := chain_of_stackPath hpath
    exact hstks.not_intoCycle ⟨0, .refl, .single rfl⟩
  · obtain ⟨path, hpath, hframes⟩ :=
      resolved_of_build hrun List.mem_cons_self (sampled_oneStack _ _)
    cases hpath with
    | root hframe _ =>
      cases hframe
      obtain ⟨func, hfunc, -⟩ := (frameReads_iff _ _ _).mp (hframes _ List.mem_cons_self)
      cases hfunc
    | child _ hparent _ => cases hparent

end Firefox
