/-
The samples of a Firefox conversion.

`StackPath` is the chain of frames from a stack to its root.

* `exists_stackPath` — where every stack continues an earlier one, each has such
  a chain, and `stackFrom_spec` finds it;
* `pushSamples_spec`, `pushThreads_spec` — one sample for each entry of the
  aggregates, at the locations of the frames of its chain;
* `build_shows` — the whole conversion.
-/
import MoonPprof.FirefoxTables

open MachineInt Proto

namespace Firefox

/-! ### The walk up the stacks -/

/-- The frames from a stack up to its root, leaf first. -/
inductive StackPath (t : StackTable) : Int → List Int → Prop
  | root {stk frame : Int} (_ : t.frame[toUsize stk]? = some frame)
      (_ : t.stackPrefix[toUsize stk]?.join = none) : StackPath t stk [frame]
  | child {stk q frame : Int} {path : List Int} (_ : t.frame[toUsize stk]? = some frame)
      (_ : t.stackPrefix[toUsize stk]?.join = some q) (_ : StackPath t q path) :
      StackPath t stk (frame :: path)

theorem toUsize_le {i : Int} (h : 0 ≤ i) : (toUsize i : Int) ≤ i := by
  rw [toUsize]
  omega

namespace StackPath

variable {t : StackTable} {stk : Int} {path : List Int}

theorem unique (h : StackPath t stk path) {path' : List Int} (h' : StackPath t stk path') :
    path = path' := by
  induction h generalizing path' with
  | root hframe hparent =>
    cases h' with
    | root hframe' _ => rw [Option.some.inj (hframe.symm.trans hframe')]
    | child _ hparent' _ =>
      rw [hparent] at hparent'
      cases hparent'
  | child hframe hparent _ ih =>
    cases h' with
    | root _ hparent' =>
      rw [hparent] at hparent'
      cases hparent'
    | child hframe' hparent' hrest =>
      rw [hparent, Option.some.injEq] at hparent'
      subst hparent'
      rw [Option.some.inj (hframe.symm.trans hframe'), ih hrest]

theorem mem (h : StackPath t stk path) {fi : Int} (hfi : fi ∈ path) : fi ∈ t.frame := by
  induction h with
  | root hframe _ =>
    rw [List.mem_singleton.mp hfi]
    exact List.mem_of_getElem? hframe
  | child hframe _ _ ih =>
    rcases List.mem_cons.mp hfi with rfl | hfi
    · exact List.mem_of_getElem? hframe
    · exact ih hfi

end StackPath

/-- Where every stack continues an earlier one, the walk from any stack ends. -/
theorem exists_stackPath {t : StackTable}
    (hparent : ∀ (i : Nat) q, t.stackPrefix[i]? = some (some q) → 0 ≤ q ∧ q < i) {stk : Int}
    (h : 0 ≤ stk) (hlt : stk < t.frame.length) :
    ∃ path, StackPath t stk path ∧ path.length ≤ stk + 1 := by
  obtain ⟨n, rfl⟩ := Int.eq_ofNat_of_zero_le h
  induction n using Nat.strong_induction_on with
  | _ n ih =>
    have hle : (toUsize (n : Int) : Int) ≤ n := toUsize_le h
    have hlt' : toUsize (n : Int) < t.frame.length := by omega
    rcases hq : t.stackPrefix[toUsize n]?.join with _ | q
    · refine ⟨_, .root (List.getElem?_eq_getElem hlt') hq, ?_⟩
      rw [List.length_singleton]
      omega
    · obtain ⟨hq0, hqlt⟩ := hparent _ q (Option.join_eq_some_iff.mp hq)
      obtain ⟨m, rfl⟩ := Int.eq_ofNat_of_zero_le hq0
      obtain ⟨path, hpath, hlen⟩ := ih m (by omega) hq0 (by omega)
      refine ⟨_, .child (List.getElem?_eq_getElem hlt') hq hpath, ?_⟩
      rw [List.length_cons]
      omega

theorem stackFrom_spec {t : StackTable} {stk : Int} {path : List Int} (h : StackPath t stk path)
    {fuel : Nat} (hfuel : path.length ≤ fuel) (acc : List Int) :
    stackFrom t fuel (some stk) acc = some (acc ++ path) := by
  induction h generalizing fuel acc with
  | root hframe hparent =>
    obtain ⟨fuel, rfl⟩ : ∃ k, fuel = k + 1 := ⟨fuel - 1, by simp at hfuel; omega⟩
    rw [stackFrom, hframe]
    simp only [Option.bind_eq_bind, Option.bind_some]
    rw [hparent, stackFrom]
  | child hframe hparent _ ih =>
    obtain ⟨fuel, rfl⟩ : ∃ k, fuel = k + 1 := ⟨fuel - 1, by simp at hfuel; omega⟩
    rw [stackFrom, hframe]
    simp only [Option.bind_eq_bind, Option.bind_some]
    rw [hparent, ih (by simpa using hfuel), List.append_assoc, List.singleton_append]

/-- The stacks in the cache are the chains of their ids. -/
def CacheReads (t : StackTable) (cache : HashMap Int (List Int)) : Prop :=
  ∀ k path, cache.lookup k = some path → StackPath t k path

theorem stackFrames_spec {thread : Thread} {stk : Int} {path : List Int}
    (h : StackPath thread.stackTable stk path) {fuel : Nat} (hfuel : path.length ≤ fuel)
    {cache : HashMap Int (List Int)} (hcache : CacheReads thread.stackTable cache) :
    ∃ cache', stackFrames thread fuel stk cache = some (path, cache') ∧
      CacheReads thread.stackTable cache' := by
  rw [stackFrames]
  rcases hlookup : cache.lookup stk with _ | c
  · refine ⟨cache.insert stk path, by simp [stackFrom_spec h hfuel], fun k c hc => ?_⟩
    rcases HashMap.lookup_insert_cases hc with ⟨rfl, rfl⟩ | hold
    · exact h
    · exact hcache k c hold
  · rw [(hcache stk c hlookup).unique h]
    exact ⟨cache, rfl, hcache⟩

/-! ### The samples -/

section

variable {demangle : String → String} {U : List ResolvedFrame → Prop} {frames : FrameResolver}
  {profile : FirefoxProfile}

/-- The walk from a stack ends in time, and its frames resolve. -/
def Walkable (frames : FrameResolver) (profile : FirefoxProfile) (U : List ResolvedFrame → Prop)
    (fuel : Nat) (thread : Thread) (stk : Int) : Prop :=
  ∃ path, StackPath thread.stackTable stk path ∧ path.length ≤ fuel ∧
    ∀ fi ∈ path, ∃ chain, frames profile thread fi = some chain ∧ U chain

/-- A sample stands for an entry of the aggregate of a thread. -/
structure SampleShows (frames : FrameResolver) (profile : FirefoxProfile) (st : State) (s : Sample)
    (x : Nat × Sigma fun _ : Int => Int × Int) : Prop where
  value : s.value = [x.2.2.1, x.2.2.2]
  stack : ∃ thread path, profile.threads[x.1]? = some thread ∧
    StackPath thread.stackTable x.2.1 path ∧
    List.Forall₂ (Located frames profile st x.1) s.locationId path

theorem SampleShows.grow {st st' : State} (h : Grows st st') {s : Sample}
    {x : Nat × Sigma fun _ : Int => Int × Int} (hs : SampleShows frames profile st s x) :
    SampleShows frames profile st' s x := by
  obtain ⟨thread, path, hthread, hpath, hids⟩ := hs.stack
  exact ⟨hs.value, thread, path, hthread, hpath, hids.imp fun _ _ hl => hl.grow h⟩

/-- The location of a frame is in the table. -/
theorem Located.validId {st : State} (h : st.Inv demangle U (resolveAt frames profile))
    {ti id : Nat} {fi : Int} (hl : Located frames profile st ti id fi) :
    ValidId st.locations id := by
  obtain ⟨chain, -, hlookup⟩ := hl
  obtain ⟨-, -, -, i, loc, rfl, hget, -⟩ := h.locCanonical _ _ hlookup
  exact validId_of_getElem? hget

/-- One more sample, at locations of the table. -/
theorem State.Inv.pushSample {st : State} (h : st.Inv demangle U (resolveAt frames profile))
    {ids : List Nat} (hids : ∀ id ∈ ids, ValidId st.locations id) (value : List Int)
    (totalNs : Int) :
    State.Inv demangle U (resolveAt frames profile) { st with
      samples := st.samples ++ [⟨ids, value, []⟩]
      totalNs := totalNs } := by
  refine ⟨h.empty, h.tables, h.funcIndex, h.locCanonical, h.onto, h.inj, h.frameToLoc,
    fun s hs => ?_, fun s hs => ?_⟩
  · rcases List.mem_append.mp hs with hs | hs
    · exact h.labels s hs
    · rw [List.mem_singleton.mp hs]
  · rcases List.mem_append.mp hs with hs | hs
    · exact h.samples s hs
    · rwa [List.mem_singleton.mp hs]

theorem valid_of_located {st : State} (h : st.Inv demangle U (resolveAt frames profile)) {ti : Nat}
    {ids : List Nat} {path : List Int} (hids : List.Forall₂ (Located frames profile st ti) ids path) :
    ∀ id ∈ ids, ValidId st.locations id :=
  ((List.forall₂_and_left _ _).mp (hids.imp fun _ _ hl => ⟨hl.validId h, hl⟩)).1

theorem pushSample_spec {thread : Thread} {ti : Nat}
    (hthread : profile.threads[ti]? = some thread) {fuel : Nat}
    {acc : State × HashMap Int (List Int)}
    (h : acc.1.Inv demangle U (resolveAt frames profile))
    (hcache : CacheReads thread.stackTable acc.2) {e : Sigma fun _ : Int => Int × Int}
    (hwalk : Walkable frames profile U fuel thread e.1) {total : Int}
    (htotal : acc.1.totalNs = wrap 64 total) :
    ∃ acc' s, pushSample demangle frames profile thread ti fuel acc e = some acc' ∧
      acc'.1.Inv demangle U (resolveAt frames profile) ∧ CacheReads thread.stackTable acc'.2 ∧
      Grows acc.1 acc'.1 ∧ acc'.1.samples = acc.1.samples ++ [s] ∧
      SampleShows frames profile acc'.1 s (ti, e) ∧
      acc'.1.totalNs = wrap 64 (total + e.2.2) := by
  obtain ⟨st, cache⟩ := acc
  obtain ⟨path, hpath, hfuel, hframes⟩ := hwalk
  obtain ⟨cache', hstack, hcache'⟩ := stackFrames_spec hpath hfuel hcache
  obtain ⟨ids, st₁, hrun, h₁, hgrows, hkeep, hids⟩ := internLocations_spec hthread hframes h
  set s : Sample := ⟨ids, [e.2.1, e.2.2], []⟩
  set st' : State := { st₁ with
    samples := st₁.samples ++ [s]
    totalNs := wrap 64 (st₁.totalNs + e.2.2) }
  have hinv : st'.Inv demangle U (resolveAt frames profile) :=
    h₁.pushSample (valid_of_located h₁ hids) _ _
  refine ⟨(st', cache'), s, ?_, hinv, hcache',
    ⟨hgrows.rows, hgrows.funcIndex, hgrows.locCanonical⟩, ?_,
    ⟨rfl, thread, path, hthread, hpath, hids⟩, ?_⟩
  · simp only [pushSample, hstack, hrun, Option.bind_eq_bind, Option.bind_some]
    rfl
  · show st₁.samples ++ [s] = st.samples ++ [s]
    rw [hkeep.samples]
  · show wrap 64 (st₁.totalNs + e.2.2) = wrap 64 (total + e.2.2)
    rw [hkeep.totalNs, htotal, wrap_add_left]

/-- The loop over an aggregate pushes one sample per entry. -/
theorem pushSamples_spec {thread : Thread} {ti : Nat}
    (hthread : profile.threads[ti]? = some thread) {fuel : Nat}
    {entries : List (Sigma fun _ : Int => Int × Int)}
    (hwalk : ∀ e ∈ entries, Walkable frames profile U fuel thread e.1)
    {acc : State × HashMap Int (List Int)}
    (h : acc.1.Inv demangle U (resolveAt frames profile))
    (hcache : CacheReads thread.stackTable acc.2) {total : Int}
    (htotal : acc.1.totalNs = wrap 64 total) :
    ∃ acc' new, entries.foldlM (pushSample demangle frames profile thread ti fuel) acc =
        some acc' ∧
      acc'.1.Inv demangle U (resolveAt frames profile) ∧ Grows acc.1 acc'.1 ∧
      acc'.1.samples = acc.1.samples ++ new ∧
      List.Forall₂ (SampleShows frames profile acc'.1) new (entries.map fun e => (ti, e)) ∧
      acc'.1.totalNs = wrap 64 (total + (entries.map fun e => e.2.2).sum) := by
  induction entries generalizing acc total with
  | nil => exact ⟨acc, [], rfl, h, .refl _, (List.append_nil _).symm, .nil, by simpa using htotal⟩
  | cons e entries ih =>
    obtain ⟨acc₁, s, hrun₁, h₁, hcache₁, hgrows₁, hsamples₁, hs, htotal₁⟩ :=
      pushSample_spec hthread h hcache (hwalk e List.mem_cons_self) htotal
    obtain ⟨acc₂, new, hrun₂, h₂, hgrows₂, hsamples₂, hnew, htotal₂⟩ :=
      ih (fun x hx => hwalk x (List.mem_cons_of_mem _ hx)) h₁ hcache₁ htotal₁
    refine ⟨acc₂, s :: new, ?_, h₂, hgrows₁.trans hgrows₂, ?_, .cons (hs.grow hgrows₂) hnew, ?_⟩
    · rw [List.foldlM_cons, hrun₁]
      exact hrun₂
    · rw [hsamples₂, hsamples₁, List.append_assoc, List.singleton_append]
    · rw [htotal₂, List.map_cons, List.sum_cons, add_assoc]

/-! ### The threads -/

/-- The entries of the aggregate of a thread, in the order of its turn. -/
def entriesOf (samples : SampleResolver) (profile : FirefoxProfile)
    (it : Nat → IterOrder (Sigma fun _ : Int => Int × Int)) (x : Thread × Nat) :
    List (Nat × Sigma fun _ : Int => Int × Int) :=
  ((it x.2).order (aggregate (charges samples profile x.1)).entries).map fun e => (x.2, e)

theorem pushThreads_spec {samples : SampleResolver}
    (it : Nat → IterOrder (Sigma fun _ : Int => Int × Int)) {fuel : Nat}
    {threads : List (Thread × Nat)} (hthreads : ∀ x ∈ threads, profile.threads[x.2]? = some x.1)
    (hwalk : ∀ x ∈ threads, ∀ e ∈ entriesOf samples profile it x,
      Walkable frames profile U fuel x.1 e.2.1)
    {st : State} (h : st.Inv demangle U (resolveAt frames profile)) {total : Int}
    (htotal : st.totalNs = wrap 64 total) :
    ∃ st' new, threads.foldlM (pushThread demangle frames profile samples it fuel) st = some st' ∧
      st'.Inv demangle U (resolveAt frames profile) ∧ Grows st st' ∧
      st'.samples = st.samples ++ new ∧
      List.Forall₂ (SampleShows frames profile st') new
        (threads.flatMap (entriesOf samples profile it)) ∧
      st'.totalNs = wrap 64 (total +
        ((threads.flatMap (entriesOf samples profile it)).map fun x => x.2.2.2).sum) := by
  induction threads generalizing st total with
  | nil => exact ⟨st, [], rfl, h, .refl _, (List.append_nil _).symm, .nil, by simpa using htotal⟩
  | cons x threads ih =>
    -- each thread starts with an empty cache of stacks
    obtain ⟨acc₁, new₁, hrun₁, h₁, hgrows₁, hsamples₁, hnew₁, htotal₁⟩ :=
      pushSamples_spec (hthreads x List.mem_cons_self)
        (fun e he => hwalk x List.mem_cons_self (x.2, e) (List.mem_map_of_mem he))
        (show (st, (∅ : HashMap Int (List Int))).1.Inv demangle U _ from h)
        (show CacheReads x.1.stackTable ∅ by intro k path hk; cases hk) htotal
    obtain ⟨st₂, new₂, hrun₂, h₂, hgrows₂, hsamples₂, hnew₂, htotal₂⟩ :=
      ih (fun y hy => hthreads y (List.mem_cons_of_mem _ hy))
        (fun y hy => hwalk y (List.mem_cons_of_mem _ hy)) h₁ htotal₁
    refine ⟨st₂, new₁ ++ new₂, ?_, h₂, hgrows₁.trans hgrows₂, ?_, ?_, ?_⟩
    · rw [List.foldlM_cons, pushThread]
      simp only [hrun₁, Option.bind_eq_bind, Option.bind_some]
      exact hrun₂
    · rw [hsamples₂, hsamples₁, List.append_assoc]
    · rw [List.flatMap_cons]
      exact List.rel_append (hnew₁.imp fun _ _ hs => hs.grow hgrows₂) hnew₂
    · rw [htotal₂, List.flatMap_cons, List.map_append, List.sum_append, ← add_assoc, entriesOf,
        List.map_map]
      rfl

/-! ### The conversion -/

/-- The counts of the samples of a stack. -/
def countOf (charges : List (Int × Int × Int)) (stk : Int) : Int :=
  sumAt (charges.map fun x => (x.1, x.2.1)) stk

/-- The time of the samples of a stack. -/
def nsOf (charges : List (Int × Int × Int)) (stk : Int) : Int :=
  sumAt (charges.map fun x => (x.1, x.2.2)) stk

/-- The stacks that the samples of a thread name. -/
def stackIds (charges : List (Int × Int × Int)) : List Int := (charges.map Prod.fst).dedup

theorem entries_aggregate (cs : List (Int × Int × Int)) :
    (aggregate cs).entries.Perm ((stackIds cs).map fun stk =>
      ⟨stk, wrap 64 (countOf cs stk), wrap 64 (nsOf cs stk)⟩) := by
  have hsums := entries_groupSums Prod.fst (fun c : Int × Int × Int => c.2.1) (fun c => c.2.2) cs
  exact hsums

/-- The entries are the stacks with their sums. -/
theorem entriesOf_perm (samples : SampleResolver) (profile : FirefoxProfile)
    (it : Nat → IterOrder (Sigma fun _ : Int => Int × Int)) (x : Thread × Nat) :
    (entriesOf samples profile it x).Perm
      ((stackIds (charges samples profile x.1)).map fun stk =>
        (x.2, ⟨stk, wrap 64 (countOf (charges samples profile x.1) stk),
          wrap 64 (nsOf (charges samples profile x.1) stk)⟩)) := by
  have hmap := (((it x.2).perm _).trans
    (entries_aggregate (charges samples profile x.1))).map fun e => (x.2, e)
  rwa [List.map_map] at hmap

/-- Where every sampled stack can be walked, `build` returns, with one sample for
each sampled stack of each thread. -/
theorem build_shows (demangle : String → String) (mappingFilename : Option String)
    {samples : SampleResolver} (it : Nat → IterOrder (Sigma fun _ : Int => Int × Int)) {fuel : Nat}
    (hwalk : ∀ thread ∈ profile.threads, ∀ stk ∈ stackIds (charges samples profile thread),
      Walkable frames profile U fuel thread stk) :
    ∃ filename st, build demangle mappingFilename frames samples it fuel profile =
        some (st.finish profile filename) ∧
      ValidString st.strings.items filename ∧
      st.Inv demangle U (resolveAt frames profile) ∧
      List.Forall₂ (SampleShows frames profile st) st.samples
        (profile.threads.zipIdx.flatMap (entriesOf samples profile it)) ∧
      st.totalNs = wrap 64
        ((profile.threads.zipIdx.flatMap (entriesOf samples profile it)).map fun x => x.2.2.2).sum := by
  set name := (mappingFilename.or (profile.libs.head?.map Lib.name)).getD "unknown" with hname
  have hnew : State.new.Inv demangle U (resolveAt frames profile) := inv_new
  obtain ⟨h, hkeep, hstring⟩ := hnew.intern name
  have hzero : (State.new.intern name).2.totalNs = wrap 64 0 := by
    rw [hkeep.totalNs, wrap_zero]
    rfl
  have hthreads : ∀ x ∈ profile.threads.zipIdx, profile.threads[x.2]? = some x.1 :=
    fun x hx => List.mem_zipIdx_iff_getElem?.mp hx
  have hentries : ∀ x ∈ profile.threads.zipIdx, ∀ e ∈ entriesOf samples profile it x,
      Walkable frames profile U fuel x.1 e.2.1 := by
    intro x hx e he
    obtain ⟨stk, hstk, rfl⟩ := List.mem_map.mp ((entriesOf_perm samples profile it x).mem_iff.mp he)
    exact hwalk x.1 (List.mem_of_getElem? (hthreads x hx)) stk hstk
  obtain ⟨st, new, hrun, hinv, hgrows, hsamples, hnew, htotal⟩ :=
    pushThreads_spec it hthreads hentries h hzero
  refine ⟨_, st, ?_, ⟨name, getString_of_isPrefix hgrows.rows.strings hstring⟩, hinv, ?_, ?_⟩
  · rw [build, ← hname]
    simp only [hrun, Option.bind_eq_bind, Option.bind_some]
  · rwa [show st.samples = new from hsamples]
  · rwa [zero_add] at htotal

end

end Firefox
