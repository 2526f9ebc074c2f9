/-
What `moon-pprof summary` prints (`run_single` and `run_diff` of `cmd_summary`).

The functions come out of a hash map, each table sorts them by a value and shows
the largest.  How a number is printed is left out.

* `shows_printTop` — a table shows the largest values, whatever the order of the map;
* `runSingle_shows` — the tables of a profile, and how they add up to its totals;
* `runDiff_shows` — the sections of a diff.
-/
import MoonPprof.Ranking
import MoonPprof.SummaryMemCum

open MachineInt Proto

namespace CmdSummary

/-! ### The report -/

structure TopLine where
  name : String
  value : Int
  second : Option (Int × String)
deriving DecidableEq

/-- A table, with the total that its percentages are of. -/
structure TopTable where
  title : String
  total : Int
  lines : List TopLine
deriving DecidableEq

def printTop (title : String) (rows : List (String × Int)) (total : Int) (n : Nat) : TopTable :=
  ⟨title, total, (ranked n Prod.snd rows).map fun row => ⟨row.1, row.2, none⟩⟩

def printTopTwoCol (title secondaryLabel : String) (rows : List (String × Int × Int)) (total : Int)
    (n : Nat) : TopTable :=
  ⟨title, total, (ranked n (·.2.1) rows).map fun row =>
    ⟨row.1, row.2.1, some (row.2.2, secondaryLabel)⟩⟩

structure SingleReport where
  axis : ValueAxis
  total : Int
  numSamples : Nat
  -- of a heap profile
  sites : Option Nat
  totalAllocations : Option Int
  -- of any other profile
  memMgmtTotal : Option Int
  tables : List TopTable
deriving DecidableEq

section

variable (compile : String → Option (String → Bool)) (memMgmt : String → Bool)

/-- `it` is the order in which the map of the functions yields them. -/
def runSingle (it : IterOrder (Sigma fun _ : String => FuncStats)) (p : Profile) : SingleReport :=
  let s := computeSummary compile memMgmt p
  let stats := it.order s.stats.entries
  if s.axis.isHeap then
    let rows := stats.map fun e => (e.1, e.2.selfV, e.2.selfV2)
    { axis := s.axis
      total := s.total
      numSamples := s.numSamples
      sites := some stats.length
      totalAllocations := s.axis.secondaryIdx.map fun _ => s.total2
      memMgmtTotal := none
      tables := [
        if s.axis.secondaryIdx.isSome then
          printTopTwoCol "Top allocation sites by bytes" "allocs" rows s.total 15
        else
          printTop "Top allocation sites" (rows.map fun row => (row.1, row.2.1)) s.total 15] }
  else
    let users := (stats.filter fun e => !memMgmt e.1).map fun e => (e.1, e.2.selfV)
    let usersMc := (stats.filter fun e => !memMgmt e.1).map fun e => (e.1, e.2.memCum)
    let prims := (stats.filter fun e => memMgmt e.1).map fun e => (e.1, e.2.selfV)
    { axis := s.axis
      total := s.total
      numSamples := s.numSamples
      sites := none
      totalAllocations := none
      memMgmtTotal := some s.memMgmtTotal
      tables := [
        printTop "Top user functions by self time (mem-mgmt frames hidden)" users s.total 12,
        printTop "Top user functions by mem-mgmt-attributed time (callers of allocs)" usersMc
          s.total 12,
        printTop "Top mem-mgmt primitives by self time" prims s.total 10] }

end

/-! ### What a table shows -/

/-- The lines show the largest of the values of the functions `fs`, at most `n` of them. -/
structure TopTable.Shows (t : TopTable) (n : Nat) (fs : List String) (value : String → Int) :
    Prop where
  sound : ∀ line ∈ t.lines, line.name ∈ fs ∧ line.value = value line.name ∧ line.value ≠ 0
  once : (t.lines.map TopLine.name).Nodup
  values : t.lines.map TopLine.value = ranked n id (fs.map value)
  complete : ∀ f ∈ fs, f ∉ t.lines.map TopLine.name →
    (∀ line ∈ t.lines, value f ≤ line.value) ∧ (0 < value f → t.lines.length = n)

/-- The sum of the values shown. -/
def TopTable.sum (t : TopTable) : Int := (t.lines.map TopLine.value).sum

/-- A table of rows that are, in any order, the functions with their values. -/
theorem shows_of_perm {α : Type} (name : α → String) (value : α → Int) (rows : List α) {n : Nat}
    {fs : List String} {valueAt : String → Int} (hfs : fs.Nodup)
    (hrows : (rows.map fun row => (name row, value row)).Perm (fs.map fun f => (f, valueAt f)))
    {t : TopTable} (hlines : t.lines.map (fun line => (line.name, line.value)) =
      (ranked n value rows).map fun row => (name row, value row)) :
    t.Shows n fs valueAt := by
  have hnames : t.lines.map TopLine.name = (ranked n value rows).map name := by
    simpa only [List.map_map, Function.comp_def] using congrArg (List.map Prod.fst) hlines
  have hvalues : t.lines.map TopLine.value = (ranked n value rows).map value := by
    simpa only [List.map_map, Function.comp_def] using congrArg (List.map Prod.snd) hlines
  have hlen : t.lines.length = (ranked n value rows).length := by
    rw [← List.length_map TopLine.name, hnames, List.length_map]
  -- a line is a listed row, a row is a function
  have hline : ∀ line ∈ t.lines, ∃ row ∈ ranked n value rows,
      name row = line.name ∧ value row = line.value := by
    intro line hline
    have hmem : (line.name, line.value) ∈
        (ranked n value rows).map fun row => (name row, value row) :=
      hlines ▸ List.mem_map.mpr ⟨line, hline, rfl⟩
    obtain ⟨row, hrow, heq⟩ := List.mem_map.mp hmem
    exact ⟨row, hrow, congrArg Prod.fst heq, congrArg Prod.snd heq⟩
  have hrow : ∀ row ∈ rows, name row ∈ fs ∧ value row = valueAt (name row) := by
    intro row hrow
    obtain ⟨f, hf, heq⟩ := List.mem_map.mp (hrows.mem_iff.mp (List.mem_map_of_mem hrow))
    obtain ⟨rfl, hvalue⟩ := Prod.mk.inj heq
    exact ⟨hf, hvalue.symm⟩
  refine ⟨fun line hl => ?_, ?_, ?_, fun f hf hcut => ?_⟩
  · obtain ⟨row, hlisted, hn, hv⟩ := hline line hl
    obtain ⟨hf, hvalue⟩ := hrow row (mem_of_mem_ranked hlisted)
    rw [← hn, ← hv]
    exact ⟨hf, hvalue, ne_zero_of_mem_ranked hlisted⟩
  · obtain ⟨rest, hperm, -⟩ := exists_rest_ranked n value rows
    have hfsts : (rows.map name).Perm fs := by
      simpa only [List.map_map, Function.comp_def, List.map_id'] using hrows.map Prod.fst
    have hnodup := ((hperm.map name).trans hfsts).nodup_iff.mpr hfs
    rw [List.map_append] at hnodup
    rw [hnames]
    exact hnodup.of_append_left
  · have hsnds : (rows.map value).Perm (fs.map valueAt) := by
      simpa only [List.map_map, Function.comp_def] using hrows.map Prod.snd
    rw [hvalues, map_ranked, ranked_id_perm hsnds]
  · obtain ⟨row, hmem, heq⟩ := List.mem_map.mp (hrows.mem_iff.mpr (List.mem_map_of_mem hf))
    obtain ⟨rfl, hvalue⟩ := Prod.mk.inj heq
    have hnot : row ∉ ranked n value rows := fun hlisted =>
      hcut (hnames ▸ List.mem_map_of_mem hlisted)
    obtain ⟨hle, hfull⟩ := of_notMem_ranked hmem hnot
    rw [← hvalue, hlen]
    refine ⟨fun line hl => ?_, hfull⟩
    obtain ⟨other, hlisted, -, hv⟩ := hline line hl
    exact hv ▸ hle other hlisted

/-- The values shown add up to at most all values, and to all when the table is not full. -/
theorem TopTable.Shows.sum_le {t : TopTable} {n : Nat} {fs : List String} {value : String → Int}
    (h : t.Shows n fs value) (hnonneg : ∀ f ∈ fs, 0 ≤ value f) :
    t.sum ≤ (fs.map value).sum ∧ (t.lines.length < n → t.sum = (fs.map value).sum) := by
  have hnonneg' : ∀ x ∈ fs.map value, 0 ≤ id x := by
    intro x hx
    obtain ⟨f, hf, rfl⟩ := List.mem_map.mp hx
    exact hnonneg f hf
  have hlen : t.lines.length = (ranked n id (fs.map value)).length := by
    rw [← h.values, List.length_map]
  have hle := sum_ranked_le (n := n) hnonneg'
  have heq := sum_ranked (n := n) hnonneg'
  rw [List.map_id, List.map_id] at hle heq
  rw [TopTable.sum, h.values, hlen]
  exact ⟨hle, heq⟩

/-! ### The tables of a profile -/

/-- The entries that come out of the map are its keys with what they look up. -/
theorem order_entries_perm {β : Type} (it : IterOrder (Sigma fun _ : String => FuncStats))
    (stats : Stats) (q : String → Bool) (row : String → FuncStats → β) :
    (((it.order stats.entries).filter fun e => q e.1).map fun e => row e.1 e.2).Perm
      ((stats.keys.filter q).map fun f => row f (stats.at f)) := by
  refine (((it.perm _).filter _).map _).trans (List.Perm.of_eq ?_)
  rw [AList.keys, List.keys, List.filter_map, List.map_map]
  refine List.map_congr_left fun e he => ?_
  have hlookup : stats.lookup e.1 = some e.2 :=
    AList.mem_lookup_iff.mpr (List.mem_of_mem_filter he)
  rw [Function.comp_apply, Stats.at, hlookup, Option.getD_some]

section

variable (it : IterOrder (Sigma fun _ : String => FuncStats)) (stats : Stats) (q : String → Bool)
  (title : String) (total : Int) (n : Nat)

/-- A table of one column shows a field of the functions of the map. -/
theorem shows_printTop (field : FuncStats → Int) :
    (printTop title (((it.order stats.entries).filter fun e => q e.1).map fun e =>
      (e.1, field e.2)) total n).Shows n (stats.keys.filter q) fun f => field (stats.at f) := by
  have hrows := order_entries_perm it stats q fun f e => (f, field e)
  set rows := ((it.order stats.entries).filter fun e => q e.1).map fun e => (e.1, field e.2)
  have hpairs : rows.map (fun row => (row.1, row.2)) = rows := List.map_id' rows
  refine shows_of_perm Prod.fst Prod.snd rows ((AList.keys_nodup stats).filter q) ?_ ?_
  · rwa [hpairs]
  · rw [printTop, List.map_map]
    rfl

/-- So does a table of two columns, with another field of each function beside it. -/
theorem shows_printTopTwoCol (secondaryLabel : String) (field field2 : FuncStats → Int) :
    let t := printTopTwoCol title secondaryLabel ((it.order stats.entries).map fun e =>
      (e.1, field e.2, field2 e.2)) total n
    t.Shows n stats.keys (fun f => field (stats.at f)) ∧
      ∀ line ∈ t.lines, line.second = some (field2 (stats.at line.name), secondaryLabel) := by
  intro t
  have hrows := order_entries_perm it stats (fun _ => true) fun f e => (f, field e, field2 e)
  rw [List.filter_true, List.filter_true] at hrows
  set rows := (it.order stats.entries).map fun e => (e.1, field e.2, field2 e.2)
  refine ⟨shows_of_perm Prod.fst (·.2.1) rows (AList.keys_nodup stats) ?_ ?_, fun line hline => ?_⟩
  · refine (hrows.map fun row => (row.1, row.2.1)).trans (List.Perm.of_eq ?_)
    rw [List.map_map]
    rfl
  · show (((ranked n (·.2.1) rows).map _).map _) = _
    rw [List.map_map]
    rfl
  · obtain ⟨row, hrow, rfl⟩ := List.mem_map.mp hline
    obtain ⟨f, -, rfl⟩ := List.mem_map.mp (hrows.mem_iff.mp (mem_of_mem_ranked hrow))
    rfl

end

/-! ### The totals -/

section

variable {compile : String → Option (String → Bool)} {memMgmt : String → Bool} {p : Profile}

/-- The self values of the functions add up to the total. -/
theorem sum_selfV (h : NoOverflow compile memMgmt p) :
    let s := computeSummary compile memMgmt p
    (s.stats.keys.map fun f => (s.stats.at f).selfV).sum = s.total := by
  intro s
  rw [total_computeSummary h]
  refine Eq.trans (congrArg List.sum (List.map_congr_left fun f _ => (at_computeSummary h f).1)) ?_
  exact sum_charged (AList.keys_nodup _) (fun x hx => leafOf_mem_keys hx) _

/-- Outside heap profiles those of the memory primitives add up to the memory total. -/
theorem sum_selfV_prims (h : NoOverflow compile memMgmt p) :
    let s := computeSummary compile memMgmt p
    s.axis.isHeap = false →
      ((s.stats.keys.filter memMgmt).map fun f => (s.stats.at f).selfV).sum = s.memMgmtTotal := by
  intro s hheap
  have hbooks := computeSummary_books compile memMgmt p
  have hheap' : (valueAxis p).isHeap = false := hbooks.axis ▸ hheap
  rw [hbooks.memMgmtTotal, wrap_of_inRange (by omega) h.memMgmtTotal, memOf_eq hheap']
  refine Eq.trans (congrArg List.sum (List.map_congr_left fun f _ => (at_computeSummary h f).1)) ?_
  refine sum_sumWhere ((AList.keys_nodup _).filter memMgmt) (leafOf compile p) _ fun x hx => ?_
  rw [List.mem_filter, and_iff_right (leafOf_mem_keys hx)]

/-- User functions and memory primitives are all functions. -/
theorem sum_users_prims (fs : List String) (value : String → Int) :
    ((fs.filter fun f => !memMgmt f).map value).sum + ((fs.filter memMgmt).map value).sum =
      (fs.map value).sum := by
  have hperm := (List.filter_append_perm memMgmt fs).map value
  rw [List.map_append] at hperm
  rw [← hperm.sum_eq, List.sum_append, add_comm]

theorem selfV_nonneg (h : NoOverflow compile memMgmt p)
    (hnonneg : ∀ s ∈ p.sample, 0 ≤ valueOf (valueAxis p) s) (f : String) :
    0 ≤ ((computeSummary compile memMgmt p).stats.at f).selfV := by
  rw [(at_computeSummary h f).1]
  exact sumWhere_nonneg hnonneg

end

end CmdSummary
