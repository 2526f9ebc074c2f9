/-
Which frames of a Firefox profile share a location.

The key of a location leaves the source files out, so chains that differ in
their files only are given one location, which shows the files of the first.

* `internCalls_spec` — calls in any order, over any threads;
* `internCalls_faithful_iff` — they merge equal chains and no others, and show
  each its own names and files, exactly when the keys tell the chains apart.
-/
import MoonPprof.FirefoxConversion

open MachineInt Proto

namespace Firefox

/-- Calls of `intern_location`, one after the other: a thread and a frame of it. -/
def internCalls (demangle : String → String) (frames : FrameResolver) (profile : FirefoxProfile) :
    List (Nat × Int) → State → Option (List Nat × State)
  | [], st => some ([], st)
  | call :: calls, st => do
    let thread ← profile.threads[call.1]?
    let (id, st) ← st.internLocation demangle profile thread call.1 call.2 frames
    let (ids, st) ← internCalls demangle frames profile calls st
    some (id :: ids, st)

variable {demangle : String → String} {U : List ResolvedFrame → Prop} {frames : FrameResolver}
  {profile : FirefoxProfile}

theorem internCalls_spec {calls : List (Nat × Int)} {chains : List (List ResolvedFrame)}
    (hcalls : List.Forall₂ (fun call chain => resolveAt frames profile call.1 call.2 = some chain)
      calls chains)
    (hU : ∀ chain ∈ chains, U chain) {st : State}
    (h : st.Inv demangle U (resolveAt frames profile)) :
    ∃ ids st', internCalls demangle frames profile calls st = some (ids, st') ∧
      st'.Inv demangle U (resolveAt frames profile) ∧ Grows st st' ∧
      List.Forall₂ (fun id chain => st'.locCanonical.lookup (canonicalKey chain) = some id)
        ids chains := by
  induction hcalls generalizing st with
  | nil => exact ⟨[], st, rfl, h, .refl _, .nil⟩
  | @cons call chain calls chains hcall _ ih =>
    obtain ⟨thread, hthread, hchain⟩ := Option.bind_eq_some_iff.mp hcall
    obtain ⟨id, st₁, hrun₁, h₁, hgrows₁, -, hlookup⟩ :=
      internLocation_spec h hthread hchain (hU chain List.mem_cons_self)
    obtain ⟨ids, st₂, hrun₂, h₂, hgrows₂, hids⟩ :=
      ih (fun c hc => hU c (List.mem_cons_of_mem _ hc)) h₁
    refine ⟨id :: ids, st₂, ?_, h₂, hgrows₁.trans hgrows₂,
      .cons (hgrows₂.locCanonical _ _ hlookup) hids⟩
    rw [internCalls, hthread]
    simp only [Option.bind_eq_bind, Option.bind_some, hrun₁, hrun₂]

/-! ### What the calls are to do -/

/-- Location `id` shows the names, the files and the lines of the chain. -/
def ShowsOwn (demangle : String → String) (t : Tables) (id : Nat) (chain : List ResolvedFrame) :
    Prop :=
  ∃ i loc, id = i + 1 ∧ t.locations[i]? = some loc ∧ List.Forall₂ (fun l f => l.line = f.line ∧
    t.FunctionAt l.functionId (demangle f.name) f.name f.file) loc.line chain

/-- Two calls return one id exactly when their chains are equal, and each location shows
the content of its chain. -/
structure Faithful (demangle : String → String) (t : Tables) (ids : List Nat)
    (chains : List (List ResolvedFrame)) : Prop where
  merges : ∀ x ∈ ids.zip chains, ∀ y ∈ ids.zip chains, x.1 = y.1 ↔ x.2 = y.2
  shows : ∀ x ∈ ids.zip chains, ShowsOwn demangle t x.1 x.2

/-- The keys tell the chains, and the functions of their frames, apart. -/
structure KeysTell (chains : List (List ResolvedFrame)) : Prop where
  locations : ∀ c ∈ chains, ∀ c' ∈ chains, canonicalKey c = canonicalKey c' → c = c'
  functions : ∀ c ∈ chains, ∀ c' ∈ chains, ∀ f ∈ c, ∀ g ∈ c',
    funcKey f.name f.file = funcKey g.name g.file → f.name = g.name ∧ f.file = g.file

theorem functionAt_unique {t : Tables} {id : Nat}
    {name systemName file name' systemName' file' : String}
    (h : t.FunctionAt id name systemName file) (h' : t.FunctionAt id name' systemName' file') :
    systemName = systemName' ∧ file = file' := by
  obtain ⟨i, row, rfl, hget, -, hsystem, hfile⟩ := h
  obtain ⟨j, row', hid, hget', -, hsystem', hfile'⟩ := h'
  obtain rfl : i = j := Nat.succ.inj hid
  obtain rfl : row = row' := Option.some.inj (hget.symm.trans hget')
  exact ⟨Option.some.inj (hsystem.symm.trans hsystem'), Option.some.inj (hfile.symm.trans hfile')⟩

theorem exists_mem_zip {α β : Type} {R : α → β → Prop} {xs : List α} {ys : List β}
    (h : List.Forall₂ R xs ys) {y : β} (hy : y ∈ ys) : ∃ x, (x, y) ∈ xs.zip ys ∧ R x y := by
  induction h with
  | nil => cases hy
  | cons hx _ ih =>
    rcases List.mem_cons.mp hy with rfl | hy
    · exact ⟨_, List.mem_cons_self, hx⟩
    · obtain ⟨x, hmem, hr⟩ := ih hy
      exact ⟨x, List.mem_cons_of_mem _ hmem, hr⟩

section

variable {chains : List (List ResolvedFrame)} {ids : List Nat} {st : State}
  (h : st.Inv demangle (· ∈ chains) (resolveAt frames profile))
  (hids : List.Forall₂ (fun id chain => st.locCanonical.lookup (canonicalKey chain) = some id)
    ids chains)

include h hids

theorem faithful_of_keysTell (hkeys : KeysTell chains) :
    Faithful demangle st.tables ids chains where
  merges := by
    intro x hx y hy
    have hlookup := List.forall₂_zip hids hx
    have hlookup' := List.forall₂_zip hids hy
    constructor
    · intro heq
      rw [← heq] at hlookup'
      exact hkeys.locations _ (List.of_mem_zip hx).2 _ (List.of_mem_zip hy).2
        (h.inj _ _ _ hlookup hlookup')
    · intro heq
      rw [heq] at hlookup
      exact Option.some.inj (hlookup.symm.trans hlookup')
  shows := by
    intro x hx
    have hmem := (List.of_mem_zip hx).2
    obtain ⟨c, hc, hkey, i, loc, hid, hget, -, -, hlines⟩ :=
      h.locCanonical _ _ (List.forall₂_zip hids hx)
    obtain rfl : x.2 = c := hkeys.locations _ hmem _ hc hkey
    refine ⟨i, loc, hid, hget, ?_⟩
    -- the function of a line was made for a frame with its key, so with its content
    have hshow : ∀ f ∈ x.2, ∀ l, LineAt st.funcIndex l f → l.line = f.line ∧
        st.tables.FunctionAt l.functionId (demangle f.name) f.name f.file := by
      intro f hf l hl
      obtain ⟨c', g, hc', hg, hfunc, hat⟩ := h.funcIndex _ _ hl.function
      obtain ⟨hname, hfile⟩ := hkeys.functions _ hmem _ hc' f hf g hg hfunc
      rw [← hname, ← hfile] at hat
      exact ⟨hl.line, hat⟩
    have hboth := (List.forall₂_and_left _ _).mpr ⟨fun f hf => hshow f hf, hlines.flip⟩
    exact List.Forall₂.flip (hboth.imp fun f l hfl => hfl.1 l hfl.2)

theorem keysTell_of_faithful (hfaithful : Faithful demangle st.tables ids chains) :
    KeysTell chains := by
  have hchains : ∀ c ∈ chains, ∀ c' ∈ chains, canonicalKey c = canonicalKey c' → c = c' := by
    intro c hc c' hc' hkey
    obtain ⟨id, hid, hlookup⟩ := exists_mem_zip hids hc
    obtain ⟨id', hid', hlookup'⟩ := exists_mem_zip hids hc'
    rw [hkey] at hlookup
    exact (hfaithful.merges _ hid _ hid').mp (Option.some.inj (hlookup.symm.trans hlookup'))
  -- the function of the key of a frame shows this frame
  have hfunction : ∀ c ∈ chains, ∀ f ∈ c, ∃ fid,
      st.funcIndex.lookup (funcKey f.name f.file) = some fid ∧
        st.tables.FunctionAt fid (demangle f.name) f.name f.file := by
    intro c hc f hf
    obtain ⟨id, hid, hlookup⟩ := exists_mem_zip hids hc
    obtain ⟨c', hc', hkey, i, loc, hi, hget, -, -, hlines⟩ := h.locCanonical _ _ hlookup
    obtain rfl : c = c' := hchains c hc c' hc' hkey
    obtain ⟨j, loc', hj, hget', hshown⟩ := hfaithful.shows _ hid
    obtain rfl : i = j := Nat.succ.inj (hi.symm.trans hj)
    obtain rfl : loc = loc' := Option.some.inj (hget.symm.trans hget')
    have hboth : List.Forall₂ (fun l f => st.funcIndex.lookup (funcKey f.name f.file) =
        some l.functionId ∧ st.tables.FunctionAt l.functionId (demangle f.name) f.name f.file)
        loc.line c :=
      List.Forall₂.mp (fun _ _ hl hs => ⟨hl.function, hs.2⟩) hlines hshown
    obtain ⟨l, -, hl⟩ := exists_of_forall₂ (List.Forall₂.flip hboth) hf
    exact ⟨l.functionId, hl⟩
  refine ⟨hchains, fun c hc c' hc' f hf g hg hkey => ?_⟩
  obtain ⟨fid, hlookup, hat⟩ := hfunction c hc f hf
  obtain ⟨fid', hlookup', hat'⟩ := hfunction c' hc' g hg
  rw [hkey] at hlookup
  obtain rfl : fid = fid' := Option.some.inj (hlookup.symm.trans hlookup')
  exact functionAt_unique hat hat'

end

/-! ### Contents without separators -/

theorem eq_of_keyed {c c' : List ResolvedFrame} (hkeyed : c.map keyed = c'.map keyed)
    (hfile : c.map ResolvedFrame.file = c'.map ResolvedFrame.file) : c = c' := by
  induction c generalizing c' with
  | nil => exact (List.map_eq_nil_iff.mp hkeyed.symm).symm
  | cons f c ih =>
    rcases c' with _ | ⟨g, c'⟩
    · cases hkeyed
    · obtain ⟨hhead, htail⟩ := List.cons.inj hkeyed
      obtain ⟨hfhead, hftail⟩ := List.cons.inj hfile
      rw [keyed, keyed, Prod.mk.injEq, Prod.mk.injEq, Prod.mk.injEq] at hhead
      obtain ⟨hmapping, haddress, hname, hline⟩ := hhead
      have hframe : f = g := by
        rw [ResolvedFrame.mk.injEq]
        exact ⟨hname, hfhead, hline, hmapping, haddress⟩
      rw [ih htail hftail, hframe]

/-- Without separators, the keys tell chains apart that differ in more than their files. -/
theorem keysTell_iff {chains : List (List ResolvedFrame)} (hsep : ∀ c ∈ chains, SepFreeChain c) :
    KeysTell chains ↔ ∀ c ∈ chains, ∀ c' ∈ chains, c.map keyed = c'.map keyed →
      c.map ResolvedFrame.file = c'.map ResolvedFrame.file := by
  constructor
  · intro h c hc c' hc' hkeyed
    rw [h.locations c hc c' hc' (canonicalKey_congr hkeyed)]
  -- without separators the keys of functions are one-to-one anyway
  · intro h
    refine ⟨fun c hc c' hc' hkey => ?_, fun c hc c' hc' f hf g hg hkey =>
      funcKey_inj (hsep c hc f hf).1 (hsep c' hc' g hg).1 hkey⟩
    have hkeyed := canonicalKey_inj (fun f hf => (hsep c hc f hf).1)
      (fun f hf => (hsep c' hc' f hf).1) hkey
    exact eq_of_keyed hkeyed (h c hc c' hc' hkeyed)

/-- Calls of `intern_location` from the start, in any order and over any threads: they merge
the equal chains and no others, and every location shows the names and files of its frame, if
and only if the keys tell the resolved chains apart. Where names and files contain neither
separator, that is: if and only if no two of them differ in their source files alone. -/
theorem internCalls_faithful_iff (demangle : String → String) {frames : FrameResolver}
    {profile : FirefoxProfile} {calls : List (Nat × Int)} {chains : List (List ResolvedFrame)}
    (hcalls : List.Forall₂ (fun call chain => resolveAt frames profile call.1 call.2 = some chain)
      calls chains) :
    ∃ ids st, internCalls demangle frames profile calls State.new = some (ids, st) ∧
      (Faithful demangle st.tables ids chains ↔ KeysTell chains) ∧
      ((∀ c ∈ chains, SepFreeChain c) → (Faithful demangle st.tables ids chains ↔
        ∀ c ∈ chains, ∀ c' ∈ chains, c.map keyed = c'.map keyed →
          c.map ResolvedFrame.file = c'.map ResolvedFrame.file)) := by
  obtain ⟨ids, st, hrun, hinv, -, hids⟩ := internCalls_spec hcalls (fun c hc => hc)
    (inv_new : State.new.Inv demangle (· ∈ chains) (resolveAt frames profile))
  have hiff : Faithful demangle st.tables ids chains ↔ KeysTell chains :=
    ⟨keysTell_of_faithful hinv hids, faithful_of_keysTell hinv hids⟩
  exact ⟨ids, st, hrun, hiff, fun hsep => hiff.trans (keysTell_iff hsep)⟩

/-- Two functions of one name, in two files. -/
def sameNameThread : Thread where
  frameTable := ⟨2, [0, 1], [], []⟩
  funcTable := ⟨2, [0, 0], [some 1, some 2], []⟩
  stackTable := ⟨2, [none, none], [0, 1]⟩
  samples := ⟨2, [some 0, some 1], [], []⟩
  stringArray := ["init", "a.mbt", "b.mbt"]
  resourceTable := none

def sameName : FirefoxProfile := ⟨[⟨"main.wasm", ""⟩], [sameNameThread], ⟨.fin 1, .fin 0⟩⟩

/-- The chains of its two frames. -/
def sameNameChains : List (List ResolvedFrame) :=
  [[⟨"init", "a.mbt", 0, 0, 0⟩], [⟨"init", "b.mbt", 0, 0, 0⟩]]

theorem resolveAt_sameName : List.Forall₂ (fun (call : Nat × Int) chain =>
    resolveAt funcTableResolver sameName call.1 call.2 = some chain) [(0, 0), (0, 1)]
    sameNameChains :=
  .cons rfl (.cons rfl .nil)

/-- Two functions of two names, one of them called again. -/
def otherNames : FirefoxProfile :=
  { sameName with threads := [{ sameNameThread with
      funcTable := ⟨2, [0, 3], [some 1, some 2], []⟩
      stringArray := ["init", "a.mbt", "b.mbt", "main"] }] }

/-- They are told apart, and the second call gets the location of the first. -/
theorem internCalls_faithful_iff_sample : ∃ st,
    internCalls id funcTableResolver otherNames [(0, 0), (0, 1), (0, 0)] State.new =
        some ([1, 2, 1], st) ∧
      Faithful id st.tables [1, 2, 1] [[⟨"init", "a.mbt", 0, 0, 0⟩], [⟨"main", "b.mbt", 0, 0, 0⟩],
        [⟨"init", "a.mbt", 0, 0, 0⟩]] := by
  have hcalls : List.Forall₂ (fun (call : Nat × Int) chain =>
      resolveAt funcTableResolver otherNames call.1 call.2 = some chain) [(0, 0), (0, 1), (0, 0)]
      [[⟨"init", "a.mbt", 0, 0, 0⟩], [⟨"main", "b.mbt", 0, 0, 0⟩],
        [⟨"init", "a.mbt", 0, 0, 0⟩]] :=
    .cons rfl (.cons rfl (.cons rfl .nil))
  obtain ⟨ids, st, hrun, -, hiff⟩ := internCalls_faithful_iff id hcalls
  have hids : (internCalls id funcTableResolver otherNames [(0, 0), (0, 1), (0, 0)] State.new).map
      Prod.fst = some [1, 2, 1] := by
    decide
  rw [hrun] at hids
  obtain rfl : ids = [1, 2, 1] := Option.some.inj hids
  exact ⟨st, hrun, (hiff (by unfold SepFreeChain; decide)).mpr (by decide)⟩

/-- The two frames are given one location, though their files differ. -/
theorem internCalls_sameName_merges :
    (internCalls id funcTableResolver sameName [(0, 0), (0, 1)] State.new).map Prod.fst =
        some [1, 1] ∧
      resolveAt funcTableResolver sameName 0 0 ≠ resolveAt funcTableResolver sameName 0 1 ∧
      ∀ t, ¬ Faithful id t [1, 1] sameNameChains := by
  refine ⟨by decide, by decide, fun t h => ?_⟩
  have heq := (h.merges (1, [⟨"init", "a.mbt", 0, 0, 0⟩]) (by decide)
    (1, [⟨"init", "b.mbt", 0, 0, 0⟩]) (by decide)).mp rfl
  exact absurd heq (by decide)

end Firefox
