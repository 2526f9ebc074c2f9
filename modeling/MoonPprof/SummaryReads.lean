/-
What `moon-pprof summary` sees of a profile is what a reader sees of it.

A `Reading` is a profile without its tables: its axis, the names that are
dropped, and the names and the values of its samples.

* `lookup_resolveTopLines` — the names of the locations are those that are read;
* `pickLeaf_eq` — the leaf is the first name that is not dropped;
* `computeSummary_reads` — the accumulators are sums over the reading;
* `summary_congr` — the ids, the tables and the order of the samples do not matter.
-/
import MoonPprof.Aggregate
import MoonPprof.KeyedTables
import MoonPprof.StackFormats
import MoonPprof.SummaryBalance
import MoonPprof.SummaryDiff

open MachineInt Proto

/-! ### Maps from ids -/

namespace HashMap

variable {α V : Type} {idOf : α → Nat} {id : Nat}

theorem lookup_foldl_insert_of_notMem (g : α → V) {rows : List α}
    (h : ∀ r ∈ rows, idOf r ≠ id) (m : HashMap Nat V) :
    (rows.foldl (fun m r => m.insert (idOf r) (g r)) m).lookup id = m.lookup id := by
  induction rows generalizing m with
  | nil => rfl
  | cons r rows ih =>
    obtain ⟨hr, hrows⟩ := List.forall_mem_cons.mp h
    rw [List.foldl_cons, ih hrows, AList.lookup_insert_ne (Ne.symm hr)]

/-- An id that only one row has leads to what was written for it. -/
theorem lookup_foldl_insert_oneRow (g : α → V) {rows : List α} (h : OneRow idOf rows id)
    (m : HashMap Nat V) :
    (rows.foldl (fun m r => m.insert (idOf r) (g r)) m).lookup id =
      (rows.find? (idOf · == id)).map g := by
  induction rows generalizing m with
  | nil => cases h
  | cons r rows ih =>
    rw [OneRow, List.countP_cons] at h
    rw [List.foldl_cons]
    by_cases hr : idOf r = id
    · have hrest : rows.countP (idOf · == id) = 0 := by simpa [hr] using h
      have hnone : ∀ x ∈ rows, idOf x ≠ id := by
        simpa using List.countP_eq_zero.mp hrest
      rw [List.find?_cons_of_pos (by simpa using hr), lookup_foldl_insert_of_notMem g hnone, hr,
        AList.lookup_insert, Option.map_some]
    · have hrest : OneRow idOf rows id := by simpa [OneRow, hr] using h
      rw [List.find?_cons_of_neg (by simpa using hr), ih hrest]

end HashMap

namespace CmdSummary

/-! ### The names that are read -/

section

variable {p : Profile}

theorem lookup_functionName {id : Nat} (h : OneRow Function.id p.function id) :
    (functionName p).lookup id =
      (p.function.find? (·.id == id)).map fun f => stringAt p f.name :=
  HashMap.lookup_foldl_insert_oneRow _ h ∅

theorem topName_of_readLine (hlinked : p.Linked) {loc : Location} (hloc : loc ∈ p.location)
    {line : Line} (hline : loc.line = [line]) {frame : ReadFrame}
    (h : p.readLine line = some frame) : topName p loc = frame.name := by
  rw [Profile.readLine] at h
  simp only [Option.bind_eq_bind, Option.bind_eq_some_iff, Option.some.injEq] at h
  obtain ⟨f, hf, name, hname, system, -, file, -, rfl⟩ := h
  have hrow := hlinked.functions loc hloc line (by rw [hline]; exact List.mem_singleton_self line)
  simp only [topName, hline, lookup_functionName hrow, hf, Option.map_some, Option.getD_some]
  exact StackFormats.stringAt_of_getString hname

theorem lookup_resolveTopLines (hlinked : p.Linked) {id : Nat}
    (hid : OneRow Location.id p.location id) {frame : ReadFrame}
    (h : p.readLocation id = some frame) :
    (resolveTopLines p).lookup id = some frame.name := by
  rw [Profile.readLocation] at h
  simp only [Option.bind_eq_bind, Option.bind_eq_some_iff] at h
  obtain ⟨loc, hfind, hline⟩ := h
  have hlookup : (resolveTopLines p).lookup id = some (topName p loc) :=
    (HashMap.lookup_foldl_insert_oneRow (topName p) hid ∅).trans (by rw [hfind, Option.map_some])
  rw [hlookup]
  split at hline
  · rename_i line hsingle
    rw [topName_of_readLine hlinked (List.mem_of_find?_eq_some hfind) hsingle hline]
  · cases hline

/-- The names of a sample's locations are the names of its stack. -/
theorem stackNames_of_readNames (hlinked : p.Linked) {s : Sample} (hs : s ∈ p.sample)
    {names : List String} (h : p.readNames s = some names) : stackNames p s = names := by
  rw [Profile.readNames, Profile.readStack, Option.map_eq_some_iff] at h
  obtain ⟨frames, hframes, rfl⟩ := h
  have hread : List.Forall₂ (fun id frame => (resolveTopLines p).lookup id = some frame.name)
      s.locationId frames := by
    have hrows := (List.forall₂_and_left _ _).mpr
      ⟨hlinked.locations s hs, forall₂_of_mapM hframes⟩
    exact hrows.imp fun id frame h => lookup_resolveTopLines hlinked h.1 h.2
  rw [stackNames]
  clear hframes
  generalize s.locationId = ids at hread
  induction hread with
  | nil => rfl
  | cons hid _ ih => rw [namesOf_cons_some hid, ih, List.map_cons]

end

/-! ### The leaf -/

/-- The first name that is not dropped. -/
def leafName (drop : Option (String → Bool)) (stack : List String) : String :=
  (stack.find? fun name => !(drop.map (· name)).getD false).getD "(unknown)"

theorem pickLeaf_eq (locToName : HashMap Nat String) (drop : Option (String → Bool))
    (ids : List Nat) : pickLeaf locToName drop ids = leafName drop (namesOf locToName ids) := by
  induction ids with
  | nil => rfl
  | cons id ids ih =>
    rw [pickLeaf]
    cases hname : locToName.lookup id with
    | none => rw [namesOf_cons_none hname, ih]
    | some name =>
      rw [namesOf_cons_some hname, leafName]
      dsimp only
      by_cases hdrop : (drop.map (· name)).getD false = true
      · rw [if_pos hdrop, List.find?_cons_of_neg (by simp [hdrop]), ih, leafName]
      · rw [if_neg hdrop, List.find?_cons_of_pos (by simpa using hdrop), Option.getD_some]

/-! ### Readings -/

/-- A profile as the summary reads it. -/
structure Reading where
  axis : ValueAxis
  drop : Option (String → Bool)
  rows : List (List String × List Int)

/-- The profile reads so, its samples in any order. -/
structure Reads (compile : String → Option (String → Bool)) (p : Profile) (r : Reading) : Prop where
  linked : p.Linked
  axis : valueAxis p = r.axis
  drop : dropRe compile p = r.drop
  rows : p.samplesRead.Perm (r.rows.map fun row => (some row.1, row.2))

/-- The sum over the rows whose stacks satisfy `P`. -/
def sumRows (P : List String → Bool) (value : List String × List Int → Int)
    (rows : List (List String × List Int)) : Int :=
  ((rows.filter fun row => P row.1).map value).sum

namespace Reading

variable (r : Reading) (memMgmt : String → Bool)

def value (row : List String × List Int) : Int := row.2[r.axis.idx]?.getD 0

def value2 (row : List String × List Int) : Int :=
  (r.axis.secondaryIdx.bind fun i => row.2[i]?).getD 0

def leaf (stack : List String) : String := leafName r.drop stack

/-- The leaf is a memory primitive, in a profile where these are singled out. -/
def atMem (stack : List String) : Bool := !r.axis.isHeap && memMgmt (r.leaf stack)

def selfSum (f : String) : Int := sumRows (r.leaf · = f) r.value r.rows

def selfSum2 (f : String) : Int := sumRows (r.leaf · = f) r.value2 r.rows

def cumSum (f : String) : Int := sumRows (f ∈ ·) r.value r.rows

def memCumSum (f : String) : Int :=
  sumRows (fun stack => r.atMem memMgmt stack && !memMgmt f)
    (fun row => row.1.count f * r.value row) r.rows

end Reading

/-- The summary of a reading. -/
structure Reports (memMgmt : String → Bool) (r : Reading) (sum : Summary) : Prop where
  axis : sum.axis = r.axis
  total : sum.total = wrap 64 (sumRows (fun _ => true) r.value r.rows)
  total2 : sum.total2 = wrap 64 (sumRows (fun _ => true) r.value2 r.rows)
  memMgmtTotal : sum.memMgmtTotal = wrap 64 (sumRows (r.atMem memMgmt) r.value r.rows)
  numSamples : sum.numSamples = r.rows.length
  mem_stats : ∀ f, f ∈ sum.stats ↔ ∃ row ∈ r.rows, f = r.leaf row.1 ∨ f ∈ row.1
  at_stats : ∀ f, sum.stats.at f = ⟨wrap 64 (r.selfSum f), wrap 64 (r.cumSum f),
    wrap 64 (r.memCumSum memMgmt f), wrap 64 (r.selfSum2 f)⟩

section

variable {compile : String → Option (String → Bool)} {memMgmt : String → Bool} {p : Profile}
  {r : Reading}

/-- The samples with the names of their locations are the rows. -/
theorem Reads.samples (h : Reads compile p r) :
    (p.sample.map fun s => (stackNames p s, s.value)).Perm r.rows := by
  have hinj : Function.Injective fun row : List String × List Int => (some row.1, row.2) := by
    rintro ⟨names, value⟩ ⟨names', value'⟩ heq
    cases heq
    rfl
  rw [← List.map_perm_map_iff hinj, List.map_map]
  refine List.Perm.trans (List.Perm.of_eq ?_) h.rows
  refine List.map_congr_left fun s hs => ?_
  obtain ⟨row, -, hrow⟩ := List.mem_map.mp (h.rows.subset (List.mem_map_of_mem hs))
  have hnames : p.readNames s = some row.1 := (congrArg Prod.fst hrow).symm
  rw [Function.comp_apply, hnames, stackNames_of_readNames h.linked hs hnames]

theorem Reads.sumWhere_eq (h : Reads compile p r) {P : Sample → Bool} {value : Sample → Int}
    (P' : List String → Bool) (value' : List String × List Int → Int)
    (hP : ∀ s, P s = P' (stackNames p s))
    (hvalue : ∀ s, value s = value' (stackNames p s, s.value)) :
    sumWhere P value p.sample = sumRows P' value' r.rows := by
  rw [sumRows, ← ((h.samples.filter fun row => P' row.1).map value').sum_eq, List.filter_map,
    List.map_map, sumWhere]
  have hfilter : p.sample.filter P = p.sample.filter
      ((fun row : List String × List Int => P' row.1) ∘ fun s => (stackNames p s, s.value)) :=
    List.filter_congr fun s _ => hP s
  rw [hfilter]
  exact congrArg List.sum (List.map_congr_left fun s _ => hvalue s)

theorem Reads.leafOf_eq (h : Reads compile p r) (s : Sample) :
    leafOf compile p s = r.leaf (stackNames p s) := by
  rw [leafOf, pickLeaf_eq, h.drop]
  rfl

theorem Reads.valueOf_eq (h : Reads compile p r) (s : Sample) :
    valueOf (valueAxis p) s = r.value (stackNames p s, s.value) := by
  rw [h.axis]
  rfl

theorem Reads.value2Of_eq (h : Reads compile p r) (s : Sample) :
    value2Of (valueAxis p) s = r.value2 (stackNames p s, s.value) := by
  rw [h.axis]
  rfl

theorem Reads.leafIsMem_eq (h : Reads compile p r) (s : Sample) :
    leafIsMem compile memMgmt p s = r.atMem memMgmt (stackNames p s) := by
  rw [leafIsMem, h.axis, h.leafOf_eq, Reading.atMem]

theorem numSamples_computeSummary (compile : String → Option (String → Bool))
    (memMgmt : String → Bool) (p : Profile) :
    (computeSummary compile memMgmt p).numSamples = p.sample.length := by
  have hkeep : ∀ (samples : List Sample) (acc : Summary),
      (samples.foldl (addSample compile memMgmt p) acc).numSamples = acc.numSamples := by
    intro samples
    induction samples with
    | nil => exact fun _ => rfl
    | cons s samples ih => exact fun acc => ih _
  exact hkeep _ _

/-- The accumulators of the loop are sums over what is read. -/
theorem computeSummary_reads (memMgmt : String → Bool) (h : Reads compile p r) :
    Reports memMgmt r (computeSummary compile memMgmt p) := by
  have hbooks := computeSummary_books compile memMgmt p
  have hself : ∀ f s, decide (leafOf compile p s = f) = decide (r.leaf (stackNames p s) = f) :=
    fun f s => by rw [h.leafOf_eq]
  refine ⟨hbooks.axis.trans h.axis, ?_, ?_, ?_, ?_, fun f => ?_, fun f => ?_⟩
  · rw [hbooks.total, totalOf, h.sumWhere_eq (fun _ => true) _ (fun _ => rfl) h.valueOf_eq]
  · rw [hbooks.total2, total2Of, h.sumWhere_eq (fun _ => true) _ (fun _ => rfl) h.value2Of_eq]
  · rw [hbooks.memMgmtTotal, memOf, h.sumWhere_eq _ _ h.leafIsMem_eq h.valueOf_eq]
  · rw [numSamples_computeSummary, ← h.samples.length_eq, List.length_map]
  · rw [hbooks.mem_stats]
    have hrows : (∃ row ∈ r.rows, f = r.leaf row.1 ∨ f ∈ row.1) ↔
        ∃ row ∈ p.sample.map (fun s => (stackNames p s, s.value)), f = r.leaf row.1 ∨ f ∈ row.1 :=
      exists_congr fun row => and_congr_left fun _ => h.samples.mem_iff.symm
    simp only [hrows, List.mem_map, exists_exists_and_eq_and, h.leafOf_eq]
  · rw [hbooks.at_stats, selfOf, cumOf, memCumOf, self2Of,
      h.sumWhere_eq (r.leaf · = f) _ (hself f) h.valueOf_eq,
      h.sumWhere_eq (f ∈ ·) _ (fun _ => rfl) h.valueOf_eq,
      h.sumWhere_eq (r.leaf · = f) _ (hself f) h.value2Of_eq,
      h.sumWhere_eq (fun stack => r.atMem memMgmt stack && !memMgmt f)
        (fun row => row.1.count f * r.value row) (fun s => by rw [h.leafIsMem_eq])
        fun s => by rw [h.valueOf_eq]]
    rfl

end

/-! ### Grouped rows -/

/-- Rows that hold the sums of what is read alike add up to the whole. -/
theorem sumRows_groups {α K : Type} [DecidableEq K] {key : α → K} {keys : List K}
    (hkeys : keys.Nodup) {names : K → List String} {values : K → List Int} {xs : List α}
    (P : List String → Bool) (hmem : ∀ x ∈ xs, P (names (key x)) → key x ∈ keys)
    {value : List String × List Int → Int} {weight : α → Int}
    (hvalue : ∀ k, value (names k, values k) = sumAt (xs.map fun x => (key x, weight x)) k) :
    sumRows P value (keys.map fun k => (names k, values k)) =
      ((xs.filter fun x => P (names (key x))).map weight).sum := by
  rw [sumRows, List.filter_map, List.map_map]
  refine (congrArg List.sum (List.map_congr_left fun k _ => hvalue k)).trans ?_
  refine (sum_sumAt_filter hkeys (fun k => P (names k)) fun x hx hPx => ?_).trans ?_
  · obtain ⟨y, hy, rfl⟩ := List.mem_map.mp hx
    exact hmem y hy hPx
  · rw [List.filter_map, List.map_map]
    rfl

/-! ### Profiles that read alike -/

/-- The sample types as the summary reads them. -/
def typeTexts (p : Profile) : List (String × String) :=
  p.sampleType.map fun t => (stringAt p t.type, stringAt p t.unit)

/-- The text that the dropped names match, empty for none. -/
def dropText (p : Profile) : String := if 0 < p.dropFrames then stringAt p p.dropFrames else ""

theorem timeAxis_congr {p q : Profile} {l l' : List (ValueType × Nat)}
    (h : List.Forall₂ (fun t t' => (stringAt p t.1.type, stringAt p t.1.unit) =
      (stringAt q t'.1.type, stringAt q t'.1.unit) ∧ t.2 = t'.2) l l') :
    timeAxis p l = timeAxis q l' := by
  induction h with
  | nil => rfl
  | @cons t t' l l' hrow _ ih =>
    obtain ⟨st, i⟩ := t
    obtain ⟨st', i'⟩ := t'
    obtain ⟨htexts, hidx⟩ := hrow
    obtain ⟨htype, hunit⟩ := Prod.mk.inj htexts
    dsimp only at htype hunit hidx
    rw [timeAxis, timeAxis, htype, hunit, hidx, ih]

theorem findIdx?_typeTexts (p : Profile) (names : List String) :
    p.sampleType.findIdx? (stringAt p ·.type ∈ names) = (typeTexts p).findIdx? (·.1 ∈ names) := by
  rw [typeTexts, List.findIdx?_map]
  rfl

theorem valueAxis_congr {p q : Profile} (h : typeTexts p = typeTexts q) :
    valueAxis p = valueAxis q := by
  have hfind : ∀ names : List String, p.sampleType.findIdx? (stringAt p ·.type ∈ names) =
      q.sampleType.findIdx? (stringAt q ·.type ∈ names) := by
    intro names
    rw [findIdx?_typeTexts, findIdx?_typeTexts, h]
  have hzip : ∀ r : Profile, (r.sampleType.zipIdx.map fun t =>
      ((stringAt r t.1.type, stringAt r t.1.unit), t.2)) = (typeTexts r).zipIdx := by
    intro r
    rw [typeTexts, List.zipIdx_map]
    rfl
  have htime : timeAxis p p.sampleType.zipIdx = timeAxis q q.sampleType.zipIdx := by
    refine timeAxis_congr ((forall₂_of_map_eq ((hzip p).trans (h ▸ (hzip q).symm))).imp ?_)
    rintro t t' ⟨heq, -⟩
    exact Prod.mk.inj heq
  rw [valueAxis_eq, valueAxis_eq, hfind, hfind, htime]

theorem dropRe_eq (compile : String → Option (String → Bool)) (p : Profile) :
    dropRe compile p = if (dropText p).isEmpty then none else compile (dropText p) := by
  rw [dropRe, dropText]
  split
  · rfl
  · rfl

theorem typeTexts_of_sampleTypes {p : Profile} {types : List (String × String)}
    (h : p.sampleTypes = types.map fun t => (some t.1, some t.2)) : typeTexts p = types := by
  refine map_eq_map_of_forall₂ (forall₂_of_map_eq h) (g := id) ?_ |>.trans (List.map_id types)
  rintro st t ⟨heq, -, -⟩
  obtain ⟨htype, hunit⟩ := Prod.mk.inj heq
  exact congrArg₂ Prod.mk (StackFormats.stringAt_of_getString htype)
    (StackFormats.stringAt_of_getString hunit)

theorem dropText_of_getString {p : Profile} {text : String}
    (hzero : getString p.stringTable 0 = some "")
    (h : getString p.stringTable p.dropFrames = some text) : dropText p = text := by
  rw [dropText]
  split
  · exact StackFormats.stringAt_of_getString h
  · have hnonneg : ¬p.dropFrames < 0 := by
      intro hneg
      rw [getString, if_pos hneg] at h
      cases h
    have hidx : p.dropFrames = 0 := by omega
    rw [hidx, hzero] at h
    exact Option.some.inj h

/-- A profile whose stacks can be read: the locations on them are there, each with exactly one line,
of a function that is there. -/
structure Readable (p : Profile) : Prop where
  linked : p.Linked
  samples : ∀ s ∈ p.sample, (p.readNames s).isSome

/-- The same texts, and the same samples in some order. -/
structure ReadAlike (p q : Profile) : Prop where
  types : typeTexts p = typeTexts q
  drop : dropText p = dropText q
  samples : p.samplesRead.Perm q.samplesRead

/-- The reading of a profile. -/
def readingOf (compile : String → Option (String → Bool)) (p : Profile) : Reading where
  axis := valueAxis p
  drop := dropRe compile p
  rows := p.samplesRead.map fun row => (row.1.getD [], row.2)

theorem reads_of_readAlike (compile : String → Option (String → Bool)) {p q : Profile}
    (h : ReadAlike p q) (hp : Readable p) (hq : q.Linked) : Reads compile q (readingOf compile p) := by
  refine ⟨hq, (valueAxis_congr h.types).symm, ?_, ?_⟩
  · rw [dropRe_eq, ← h.drop, ← dropRe_eq]
    rfl
  · refine h.samples.symm.trans (List.Perm.of_eq ?_)
    rw [readingOf, List.map_map]
    refine (List.map_id _).symm.trans (List.map_congr_left fun row hrow => ?_)
    obtain ⟨s, hs, rfl⟩ := List.mem_map.mp hrow
    obtain ⟨names, hnames⟩ := Option.isSome_iff_exists.mp (hp.samples s hs)
    simp [hnames]

section

variable (compile : String → Option (String → Bool)) (memMgmt : String → Bool)

theorem Reports.lookup_eq {r : Reading} {a b : Summary} (ha : Reports memMgmt r a)
    (hb : Reports memMgmt r b) (f : String) : a.stats.lookup f = b.stats.lookup f := by
  have hmem : f ∈ a.stats ↔ f ∈ b.stats := (ha.mem_stats f).trans (hb.mem_stats f).symm
  have hat : a.stats.at f = b.stats.at f := (ha.at_stats f).trans (hb.at_stats f).symm
  rw [← AList.lookup_isSome, ← AList.lookup_isSome] at hmem
  rw [Stats.at, Stats.at] at hat
  rcases hfa : a.stats.lookup f with _ | e
  · rw [hfa] at hmem
    rcases hfb : b.stats.lookup f with _ | e'
    · rfl
    · rw [hfb] at hmem
      exact absurd (hmem.mpr rfl) Bool.false_ne_true
  · rw [hfa] at hmem hat
    obtain ⟨e', hfb⟩ := Option.isSome_iff_exists.mp (hmem.mp rfl)
    rw [hfb] at hat ⊢
    exact congrArg some hat

/-- Nothing to report. -/
structure DiffReport.Unchanged (report : DiffReport) : Prop where
  totals : report.base = report.patched
  totalDelta : report.totalDelta = 0
  allocations : ∀ base patched delta, report.allocations = some (base, patched, delta) →
    base = patched ∧ delta = 0
  rows : ∀ row ∈ report.rows, row.base = row.patched ∧ row.delta = 0
  improvements : report.improvements = []
  regressions : report.regressions = []
  gone : report.gone = []
  novel : report.novel = []

theorem runDiff_unchanged (it : IterOrder String) {p q : Profile} {r : Reading}
    (ha : Reports memMgmt r (computeSummary compile memMgmt p))
    (hb : Reports memMgmt r (computeSummary compile memMgmt q)) :
    ∃ report, runDiff compile memMgmt it p q = .ok report ∧ report.Unchanged := by
  set bs := computeSummary compile memMgmt p with hbs
  set ps := computeSummary compile memMgmt q with hps
  have hsame : ∀ f, diffRow bs.stats ps.stats f =
      ⟨f, selfValue bs.stats f, selfValue bs.stats f, 0⟩ := by
    intro f
    have hself : selfValue ps.stats f = selfValue bs.stats f := by
      rw [selfValue, selfValue, ha.lookup_eq memMgmt hb f]
    rw [diffRow, hself]
    simp [wrap]
  have hrows : ∀ row ∈ (it.order (bs.stats.keys ++ ps.stats.keys).dedup).map
      (diffRow bs.stats ps.stats), row.base = row.patched ∧ row.delta = 0 := by
    intro row hrow
    obtain ⟨f, -, rfl⟩ := List.mem_map.mp hrow
    rw [hsame f]
    exact ⟨rfl, rfl⟩
  have htotal : bs.total = ps.total := ha.total.trans hb.total.symm
  have hheap : ¬bs.axis.isHeap ≠ ps.axis.isHeap := by
    rw [ha.axis, hb.axis]
    exact fun h => h rfl
  -- no row gained, lost, came or went
  have hnone : ∀ (key : DiffRow → Int) (n : Nat) (P : DiffRow → Bool),
      (∀ row, row.base = row.patched → row.delta = 0 → P row = false) →
      (sortByKey key (((it.order (bs.stats.keys ++ ps.stats.keys).dedup).map
        (diffRow bs.stats ps.stats)).filter P)).take n = [] := by
    intro key n P hP
    have hnil : ((it.order (bs.stats.keys ++ ps.stats.keys).dedup).map
        (diffRow bs.stats ps.stats)).filter P = [] := by
      rw [List.filter_eq_nil_iff]
      intro row hrow
      obtain ⟨hbase, hdelta⟩ := hrows row hrow
      rw [hP row hbase hdelta]
      exact Bool.false_ne_true
    rw [hnil]
    simp [sortByKey]
  rw [runDiff, ← hbs, ← hps, if_neg hheap]
  refine ⟨_, rfl, htotal, ?_, ?_, hrows, ?_, ?_, ?_, ?_⟩
  · simp [htotal, wrap]
  · intro base patched delta hallocations
    obtain ⟨-, -, heq⟩ := Option.map_eq_some_iff.mp hallocations
    cases heq
    have htotal2 : bs.total2 = ps.total2 := ha.total2.trans hb.total2.symm
    exact ⟨htotal2, by simp [htotal2, wrap]⟩
  · exact hnone _ _ _ fun row _ hdelta => by simp [hdelta]
  · exact hnone _ _ _ fun row _ hdelta => by simp [hdelta]
  · refine hnone _ _ _ fun row hbase _ => decide_eq_false ?_
    rw [hbase]
    omega
  · refine hnone _ _ _ fun row hbase _ => decide_eq_false ?_
    rw [hbase]
    omega

/-- The summary is a function of what a reader sees: two profiles with the same texts for their
sample types and their dropped names whose samples read alike in any order have the same axis, the
same totals and the same number of samples, list the same functions with the same values, and a
diff of them reports no change.  How ids, strings and rows are numbered and ordered never shows. -/
theorem summary_congr (it : IterOrder String) {p q : Profile} (hp : Readable p) (hq : q.Linked)
    (h : ReadAlike p q) :
    let a := computeSummary compile memMgmt p
    let b := computeSummary compile memMgmt q
    a.axis = b.axis ∧ a.total = b.total ∧ a.total2 = b.total2 ∧
      a.memMgmtTotal = b.memMgmtTotal ∧ a.numSamples = b.numSamples ∧
      (∀ f, a.stats.lookup f = b.stats.lookup f) ∧
      ∃ report, runDiff compile memMgmt it p q = .ok report ∧ report.Unchanged := by
  intro a b
  have ha : Reports memMgmt (readingOf compile p) a :=
    computeSummary_reads memMgmt (reads_of_readAlike compile ⟨rfl, rfl, .refl _⟩ hp hp.linked)
  have hb : Reports memMgmt (readingOf compile p) b :=
    computeSummary_reads memMgmt (reads_of_readAlike compile h hp hq)
  exact ⟨ha.axis.trans hb.axis.symm, ha.total.trans hb.total.symm, ha.total2.trans hb.total2.symm,
    ha.memMgmtTotal.trans hb.memMgmtTotal.symm, ha.numSamples.trans hb.numSamples.symm,
    ha.lookup_eq memMgmt hb, runDiff_unchanged compile memMgmt it ha hb⟩

end

/-- Two stacks, one below the other. -/
def twoRows : List (List String × List Int) := [(["f", "main"], [1, 8]), (["main"], [2, 32])]

/-- A profile of rows in their order, so that the order decides the ids. -/
def profileOf (rows : List (List String × List Int)) : Profile :=
  KeyedTables.encode ⟨id, id, id⟩ "alloc_objects" "alloc_space" "^malloc$" rows

theorem summary_congr_reversed :
    (computeSummary (fun _ => none) (· = "malloc") (profileOf twoRows)).total =
      (computeSummary (fun _ => none) (· = "malloc") (profileOf twoRows.reverse)).total := by
  have hread : ∀ rows : List (List String × List Int), (profileOf rows).Closed ∧
      (profileOf rows).sampleTypes =
        [(some "alloc_objects", some "count"), (some "alloc_space", some "bytes")] ∧
      (profileOf rows).samplesRead =
        (KeyedTables.nonempty rows).map fun e => (some (e.1.map id), e.2) := fun rows =>
    KeyedTables.encode_reads _ _ _ fun _ _ _ _ _ _ _ _ hkey => hkey
  have htexts : ∀ rows, typeTexts (profileOf rows) =
      [("alloc_objects", "count"), ("alloc_space", "bytes")] := fun rows =>
    typeTexts_of_sampleTypes (hread rows).2.1
  have hdrop : ∀ rows, dropText (profileOf rows) = "^malloc$" := fun rows =>
    dropText_of_getString (KeyedTables.encode_dropFrames _ _ _ rows).1
      (KeyedTables.encode_dropFrames _ _ _ rows).2
  have hsamples : (profileOf twoRows).samplesRead.Perm (profileOf twoRows.reverse).samplesRead := by
    rw [(hread _).2.2, (hread _).2.2]
    exact (((List.reverse_perm twoRows).symm).filter _).map _
  have hp : Readable (profileOf twoRows) := by
    refine ⟨(hread _).1.linked, fun s hs => ?_⟩
    have hmem : ((profileOf twoRows).readNames s, s.value) ∈ (profileOf twoRows).samplesRead :=
      List.mem_map_of_mem hs
    rw [(hread _).2.2] at hmem
    obtain ⟨e, -, heq⟩ := List.mem_map.mp hmem
    have hnames : some (e.1.map id) = (profileOf twoRows).readNames s := congrArg Prod.fst heq
    rw [← hnames]
    rfl
  exact (summary_congr (fun _ => none) (· = "malloc") ⟨id, fun _ => .refl _⟩ hp (hread _).1.linked
    ⟨(htexts _).trans (htexts _).symm, (hdrop _).trans (hdrop _).symm, hsamples⟩).2.1

end CmdSummary
