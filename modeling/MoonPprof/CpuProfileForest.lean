/-
Converting a V8 profile whose children lists form a forest.

In a forest the inverted children lists give each node one parent, and the walk
up from a node ends:

* `IsForest.exists_path` — every node has a path to its root;
* `ancestry_of_path` — the walk of the program follows it;
* `forest_converts` — each sampled node becomes one sample, which reads as its
  path, with the number of its samples and their time.
-/
import MoonPprof.CpuProfileTables
import MoonPprof.RootPath
import Mathlib.Algebra.BigOperators.Ring.Finset

open MachineInt Proto

namespace V8

/-! ### Forests -/

/-- `q` lists `c` among its children. -/
def Lists (nodes : List CpuNode) (c q : Int) : Prop := ∃ n ∈ nodes, n.id = q ∧ c ∈ n.children

/-- Distinct ids, at most one parent for each, and no node above itself. -/
structure IsForest (nodes : List CpuNode) : Prop where
  ids : (nodes.map CpuNode.id).Nodup
  parent_unique : ∀ c q q', Lists nodes c q → Lists nodes c q' → q = q'
  acyclic : ∀ id, ¬ Relation.TransGen (Lists nodes) id id

/-- The parent of a node, by a search of the children lists. -/
def parentIn (nodes : List CpuNode) (n : CpuNode) : Option Int :=
  (nodes.find? fun m => n.id ∈ m.children).map CpuNode.id

/-- The nodes from `id` up to a root. -/
abbrev PathUp (nodes : List CpuNode) (id : Int) (path : List CpuNode) : Prop :=
  RootPath CpuNode.id (parentIn nodes) nodes id path

variable {nodes : List CpuNode}

theorem lists_of_parentIn {n : CpuNode} {q : Int} (h : parentIn nodes n = some q) :
    Lists nodes n.id q := by
  obtain ⟨m, hfind, hid⟩ := Option.map_eq_some_iff.mp h
  have hchild := List.find?_some hfind
  exact ⟨m, List.mem_of_find?_eq_some hfind, hid, of_decide_eq_true hchild⟩

/-- The inverted children lists hold the parents that the search finds. -/
theorem IsForest.parentMap_lookup (h : IsForest nodes) (n : CpuNode) :
    (parentMap nodes).lookup n.id = parentIn nodes n := by
  have hmap := V8.parentMap_lookup nodes n.id
  rcases hp : parentIn nodes n with _ | q
  · have hnone := List.find?_eq_none.mp (Option.map_eq_none_iff.mp hp)
    rcases hlookup : (parentMap nodes).lookup n.id with _ | q
    · rfl
    · rw [hlookup] at hmap
      obtain ⟨m, hm, -, hchild⟩ := hmap
      exact absurd (decide_eq_true hchild) (hnone m hm)
  · obtain ⟨m, hm, hid, hchild⟩ := lists_of_parentIn hp
    rcases hlookup : (parentMap nodes).lookup n.id with _ | q'
    · rw [hlookup] at hmap
      exact absurd hchild (hmap m hm)
    · rw [hlookup] at hmap
      rw [h.parent_unique n.id q' q hmap ⟨m, hm, hid, hchild⟩]

theorem IsForest.exists_path (h : IsForest nodes) {n : CpuNode} (hn : n ∈ nodes) :
    ∃ path, PathUp nodes n.id path := by
  refine RootPath.exists_of_acyclic (fun m _ q hp => ?_) (fun id hid => ?_) hn
  · obtain ⟨m', hm', hq, -⟩ := lists_of_parentIn hp
    exact ⟨m', hm', hq⟩
  · have hle : RootPath.Up CpuNode.id (parentIn nodes) nodes ≤ Lists nodes := by
      rintro c q ⟨m, -, rfl, hp⟩
      exact lists_of_parentIn hp
    exact h.acyclic id (Relation.TransGen.mono hle _ _ hid)

/-- The loop over the parent map follows the path. -/
theorem ancestry_of_path (h : IsForest nodes) {id : Int} {path : List CpuNode}
    (hpath : PathUp nodes id path) : Ancestry (nodeById nodes) (parentMap nodes) id path := by
  induction hpath with
  | root hn hid hp =>
    subst hid
    exact .root (nodeById_of_mem h.ids hn) ((h.parentMap_lookup _).trans hp)
  | child hn hid hp _ ih =>
    subst hid
    exact .child (nodeById_of_mem h.ids hn) ((h.parentMap_lookup _).trans hp) ih

/-- Parents with smaller ids are never below their children. -/
theorem isForest_of_lt (hids : (nodes.map CpuNode.id).Nodup)
    (hunique : ∀ c q q', Lists nodes c q → Lists nodes c q' → q = q')
    (hlt : ∀ c q, Lists nodes c q → q < c) : IsForest nodes := by
  refine ⟨hids, hunique, fun id hid => ?_⟩
  have hless : ∀ {c q}, Relation.TransGen (Lists nodes) c q → q < c := by
    intro c q h
    induction h with
    | single h => exact hlt _ _ h
    | tail _ h ih => exact lt_trans (hlt _ _ h) ih
  exact absurd (hless hid) (lt_irrefl id)

/-! ### The conversion -/

variable {display : Value → String} {demangle : String → String}

/-- A forest of nodes whose samples name nodes of it: whatever order the hash map
yields the counts in, each distinct sampled node gives exactly one sample. Read
through the tables it is the path of the node up to its root, and its values are
the number of samples of the node and 1000 times the sum of their deltas. The
counts add up to all samples, and every reference leads to exactly one entry. -/
theorem forest_converts (display : Value → String) (demangle : String → String)
    (mappingFilename : Option String) (it : IterOrder (Sigma fun _ : Int => Int)) {p : CpuProfile}
    (hforest : IsForest p.nodes) (hsep : ∀ n ∈ p.nodes, Separable n.callFrame)
    (hsamples : ∀ id ∈ p.samples, ∃ n ∈ p.nodes, n.id = id)
    (hcount : InRange 64 p.samples.length)
    (htime : ∀ id ∈ p.samples, InRange 64 (1000 * p.timeOf id)) {fuel : Nat}
    (hfuel : p.nodes.length ≤ fuel) :
    ∃ (profile : Profile) (stats : Stats) (path : Int → List CpuNode),
      build display demangle mappingFilename it fuel p = some (profile, stats) ∧
      (∀ id ∈ p.samples, PathUp p.nodes id (path id)) ∧
      (profile.sample.map fun s => (profile.readStack s, s.value)).Perm
        (p.samples.dedup.map fun id =>
          (some ((path id).map fun n => readFrame demangle n.callFrame),
            [(p.samples.count id : Int), 1000 * p.timeOf id])) ∧
      (profile.sample.map fun s => s.value.headD 0).sum = p.samples.length ∧
      profile.Closed ∧ profile.stringTable.Nodup := by
  have hexists : ∀ id, ∃ path, id ∈ p.samples → PathUp p.nodes id path := by
    intro id
    by_cases hid : id ∈ p.samples
    · obtain ⟨n, hn, rfl⟩ := hsamples id hid
      obtain ⟨path, hpath⟩ := hforest.exists_path hn
      exact ⟨path, fun _ => hpath⟩
    · exact ⟨[], fun hmem => absurd hmem hid⟩
  choose path hpath using hexists
  obtain ⟨profile, stats, hrun, hperm⟩ :
      ∃ profile stats, build display demangle mappingFilename it fuel p = some (profile, stats) ∧ _ :=
    build_spec mappingFilename it hsep (fun id hid => ancestry_of_path hforest (hpath id hid))
      (fun id hid => Nat.le_trans ((hpath id hid).length_le hforest.ids) hfuel)
  -- there are no more samples of a node than samples
  have hcounts : ∀ id, wrap 64 (p.samples.count id) = p.samples.count id := by
    intro id
    refine wrap_of_inRange (by omega) ⟨?_, ?_⟩
    · exact Int.le_trans (by decide) (Int.natCast_nonneg _)
    · have hle := List.count_le_length (a := id) (l := p.samples)
      exact Int.lt_of_le_of_lt (Int.ofNat_le.mpr hle) hcount.2
  have hperm' : (profile.sample.map fun s => (profile.readStack s, s.value)).Perm
      (p.samples.dedup.map fun id =>
        (some ((path id).map fun n => readFrame demangle n.callFrame),
          [(p.samples.count id : Int), 1000 * p.timeOf id])) := by
    refine hperm.trans (List.Perm.of_eq (List.map_congr_left fun id hid => ?_))
    rw [hcounts, wrap_of_inRange (by omega) (htime id (List.mem_dedup.mp hid))]
  refine ⟨profile, stats, path, hrun, hpath, hperm', ?_, build_closed hrun⟩
  -- the counts of the distinct nodes add up to all samples
  have hsum := (hperm'.map fun x => x.2.headD 0).sum_eq
  rw [List.map_map, List.map_map] at hsum
  refine hsum.trans ?_
  have hdedup := List.sum_map_count_dedup_eq_length p.samples
  rw [← hdedup, Nat.cast_list_sum, List.map_map]
  rfl

/-- A main function that calls one function, three samples and two deltas. -/
def sampleCpuProfile : CpuProfile where
  nodes := [⟨1, ⟨"main", "m.wasm", .null, 0, 0⟩, [2]⟩, ⟨2, ⟨"f", "m.wasm", .null, 7, 0⟩, []⟩]
  samples := [2, 1, 2]
  timeDeltas := [5, 6]
  startTime := 0
  endTime := 20

theorem isForest_sampleCpuProfile : IsForest sampleCpuProfile.nodes := by
  have honly : ∀ c q, Lists sampleCpuProfile.nodes c q → c = 2 ∧ q = 1 := by
    rintro c q ⟨n, hn, rfl, hc⟩
    simp only [sampleCpuProfile, List.mem_cons, List.not_mem_nil, or_false] at hn
    rcases hn with rfl | rfl
    · exact ⟨List.mem_singleton.mp hc, rfl⟩
    · cases hc
  refine isForest_of_lt (by decide) (fun c q q' h h' => ?_) (fun c q h => ?_)
  · exact (honly c q h).2.trans (honly c q' h').2.symm
  · obtain ⟨rfl, rfl⟩ := honly c q h
    decide

theorem forest_converts_sample :
    ∃ (profile : Profile) (stats : Stats) (path : Int → List CpuNode),
      build (fun _ => "0") moonbitDemangle none ⟨id, fun _ => .refl _⟩ 2 sampleCpuProfile =
        some (profile, stats) ∧
      (∀ id ∈ [2, 1, 2], PathUp sampleCpuProfile.nodes id (path id)) ∧
      (profile.sample.map fun s => (profile.readStack s, s.value)).Perm
        (([2, 1, 2] : List Int).dedup.map fun id =>
          (some ((path id).map fun n => readFrame moonbitDemangle n.callFrame),
            [(([2, 1, 2] : List Int).count id : Int), 1000 * sampleCpuProfile.timeOf id])) ∧
      (profile.sample.map fun s => s.value.headD 0).sum = (3 : Nat) ∧
      profile.Closed ∧ profile.stringTable.Nodup :=
  forest_converts (fun _ => "0") moonbitDemangle none ⟨id, fun _ => .refl _⟩
    isForest_sampleCpuProfile (by unfold Separable; decide) (by decide) (by decide) (by decide)
    (Nat.le_refl 2)

end V8
