/-
What a V8 profile records, and the pprof profile it must become.

A `Recording` is a call tree with sampled nodes: distinct ids, every node with a
path up to a root, every sample a node of the tree, one time delta per sample.
`CpuProfile.Realizes` is what the JSON form has to get right of it.

* `Realizes.ancestry` — the parents the converter works out are those of the tree;
* `Realizes.build_spec` — so each sampled node becomes one pprof sample: its
  path to the root, the number of its samples, the sum of their time.
-/
import MoonPprof.CpuProfile
import MoonPprof.RootPath

open MachineInt Proto

namespace V8

structure TreeNode where
  id : Int
  callFrame : CallFrame
  parent : Option Int

/-- From a node up to its root. -/
abbrev NodePath (nodes : List TreeNode) : Int → List TreeNode → Prop :=
  RootPath TreeNode.id TreeNode.parent nodes

/-- A call tree. -/
structure CallTree where
  nodes : List TreeNode
  nonempty : nodes ≠ []
  ids : (nodes.map TreeNode.id).Nodup
  rooted : ∀ n ∈ nodes, ∃ path, NodePath nodes n.id path

/-- A call tree with its samples. -/
structure Recording where
  tree : CallTree
  samples : List Int
  timeDeltas : List Int
  sampled : ∀ id ∈ samples, id ∈ tree.nodes.map TreeNode.id
  deltas : timeDeltas.length = samples.length

/-- The time spent at a node. -/
def Recording.timeOf (r : Recording) (id : Int) : Int :=
  (((r.samples.zip r.timeDeltas).filter (·.1 = id)).map Prod.snd).sum

/-- The pprof samples a recording stands for, given the path of each node. -/
def Recording.readings (r : Recording) (path : Int → List TreeNode) :
    List (Option (List ReadFrame) × List Int) :=
  r.samples.dedup.map fun id => (some ((path id).map fun n => readFrame (fun s => s) n.callFrame),
    [(r.samples.count id : Int), 1000 * r.timeOf id])

/-- A reading with its values kept in 64 bits. -/
def wrapReading (x : Option (List ReadFrame) × List Int) : Option (List ReadFrame) × List Int :=
  (x.1, x.2.map (wrap 64))

theorem map_wrapReading {xs : List (Option (List ReadFrame) × List Int)}
    (h : ∀ x ∈ xs, ∀ v ∈ x.2, InRange 64 v) : xs.map wrapReading = xs := by
  refine (List.map_congr_left fun x hx => ?_).trans (List.map_id xs)
  have hvalues : x.2.map (wrap 64) = x.2 :=
    (List.map_congr_left fun v hv => wrap_of_inRange (by omega) (h x hx v hv)).trans
      (List.map_id x.2)
  rw [wrapReading, hvalues]
  rfl

/-- Some node of the tree is a child of `q` and has the id `x`. -/
def CallTree.Edge (t : CallTree) (q x : Int) : Prop :=
  ∃ m ∈ t.nodes, m.id = x ∧ m.parent = some q

/-- Every sampled node has its way down from a root. -/
theorem Recording.exists_path (r : Recording) :
    ∃ path : Int → List TreeNode, ∀ id ∈ r.samples, NodePath r.tree.nodes id (path id) := by
  have hpaths : ∀ id, ∃ path, id ∈ r.samples → NodePath r.tree.nodes id path := by
    intro id
    by_cases hid : id ∈ r.samples
    · obtain ⟨m, hm, rfl⟩ := List.mem_map.mp (r.sampled id hid)
      obtain ⟨path, hpath⟩ := r.tree.rooted m hm
      exact ⟨path, fun _ => hpath⟩
    · exact ⟨[], fun hmem => absurd hmem hid⟩
  exact Classical.skolem.mp hpaths

namespace CpuProfile

/-- The JSON form holds the recording: its nodes, each with the children it has
in the tree, and its samples. -/
structure Realizes (p : CpuProfile) (r : Recording) : Prop where
  ids : (p.nodes.map CpuNode.id).Nodup
  nodes : ∀ m ∈ r.tree.nodes, ∃ n ∈ p.nodes, n.id = m.id
  frames : ∀ n ∈ p.nodes, ∃ m ∈ r.tree.nodes, m.id = n.id ∧ m.callFrame = n.callFrame
  children : ∀ n ∈ p.nodes, ∀ x, x ∈ n.children ↔ r.tree.Edge n.id x
  samples : p.samples = r.samples
  timeDeltas : p.timeDeltas = r.timeDeltas

variable {p : CpuProfile} {r : Recording}

theorem charges_eq_zip (h : p.timeDeltas.length = p.samples.length) :
    p.charges = p.samples.zip p.timeDeltas := by
  refine List.ext_getElem (by simp [charges, h]) fun i hi hi' => ?_
  have hlt : i < p.timeDeltas.length := by
    simp only [List.length_zip] at hi'
    omega
  simp [charges, hlt]

theorem Realizes.charges (h : p.Realizes r) : p.charges = r.samples.zip r.timeDeltas := by
  rw [charges_eq_zip (by rw [h.samples, h.timeDeltas]; exact r.deltas), h.samples, h.timeDeltas]

/-- The node of the JSON form that stands for a node of the tree. -/
theorem Realizes.lookup (h : p.Realizes r) {m : TreeNode} (hm : m ∈ r.tree.nodes) :
    ∃ n, (nodeById p.nodes).lookup m.id = some n ∧ n.id = m.id ∧ n.callFrame = m.callFrame := by
  obtain ⟨n, hn, hid⟩ := h.nodes m hm
  obtain ⟨m', hm', hid', hframe⟩ := h.frames n hn
  obtain rfl : m' = m := List.inj_on_of_nodup_map r.tree.ids hm' hm (hid'.trans hid)
  exact ⟨n, hid ▸ nodeById_of_mem h.ids hn, hid, hframe.symm⟩

theorem Realizes.parent (h : p.Realizes r) {m : TreeNode} (hm : m ∈ r.tree.nodes)
    (hparent : ∀ q, m.parent = some q → q ∈ r.tree.nodes.map TreeNode.id) :
    (parentMap p.nodes).lookup m.id = m.parent := by
  have hspec := parentMap_lookup p.nodes m.id
  rcases hlookup : (parentMap p.nodes).lookup m.id with _ | q
  · rw [hlookup] at hspec
    -- no node lists `m`, so `m` has no parent
    rcases hp : m.parent with _ | q
    · rfl
    · obtain ⟨mq, hmq, rfl⟩ := List.mem_map.mp (hparent q hp)
      obtain ⟨n, hn, hid⟩ := h.nodes mq hmq
      exact absurd ((h.children n hn m.id).mpr ⟨m, hm, rfl, hid ▸ hp⟩) (hspec n hn)
  · rw [hlookup] at hspec
    obtain ⟨n, hn, rfl, hchild⟩ := hspec
    obtain ⟨m', hm', hid, hp⟩ := (h.children n hn m.id).mp hchild
    rw [← List.inj_on_of_nodup_map r.tree.ids hm' hm hid, hp]

/-- The converter's parent map leads up the tree. -/
theorem Realizes.ancestry (h : p.Realizes r) {id : Int} {path : List TreeNode}
    (hpath : NodePath r.tree.nodes id path) :
    ∃ ns, Ancestry (nodeById p.nodes) (parentMap p.nodes) id ns ∧ ns.length = path.length ∧
      ns.map CpuNode.callFrame = path.map TreeNode.callFrame := by
  induction hpath with
  | @root id m hm hid hp =>
    obtain ⟨n, hn, -, hframe⟩ := h.lookup hm
    have hparent := h.parent hm (by simp [hp])
    rw [hid] at hn hparent
    exact ⟨[n], .root hn (hparent.trans hp), rfl, by simp [hframe]⟩
  | @child id q m path hm hid hp hrest ih =>
    obtain ⟨n, hn, -, hframe⟩ := h.lookup hm
    obtain ⟨ns, hns, hlen, hframes⟩ := ih
    have hq : q ∈ r.tree.nodes.map TreeNode.id := by
      cases hrest with
      | root hmem hid' _ => exact List.mem_map.mpr ⟨_, hmem, hid'⟩
      | child hmem hid' _ _ => exact List.mem_map.mpr ⟨_, hmem, hid'⟩
    have hparent := h.parent hm fun q' hq' => Option.some.inj (hp.symm.trans hq') ▸ hq
    rw [hid] at hn hparent
    exact ⟨n :: ns, .child hn (hparent.trans hp) hns, by simp [hlen], by simp [hframe, hframes]⟩

/-- A recording in JSON form, built: one pprof sample for each sampled node. -/
theorem Realizes.build_spec (h : p.Realizes r)
    (hsep : ∀ m ∈ r.tree.nodes, Separable m.callFrame) (display : Value → String)
    (mappingFilename : Option String) (it : IterOrder (Sigma fun _ : Int => Int)) {fuel : Nat}
    (hfuel : r.tree.nodes.length ≤ fuel) :
    ∃ path profile stats, (∀ id ∈ r.samples, NodePath r.tree.nodes id (path id)) ∧
      build display (fun s => s) mappingFilename it fuel p = some (profile, stats) ∧
      (profile.sample.map fun s => (profile.readStack s, s.value)).Perm
        ((r.readings path).map wrapReading) := by
  -- the builder walks up the way of each sampled node
  obtain ⟨path, hpath⟩ := r.exists_path
  have hlines : ∀ id, ∃ ns, id ∈ r.samples →
      Ancestry (nodeById p.nodes) (parentMap p.nodes) id ns ∧ ns.length = (path id).length ∧
        ns.map CpuNode.callFrame = (path id).map TreeNode.callFrame := by
    intro id
    by_cases hid : id ∈ r.samples
    · obtain ⟨ns, hns⟩ := h.ancestry (hpath id hid)
      exact ⟨ns, fun _ => hns⟩
    · exact ⟨[], fun hmem => absurd hmem hid⟩
  choose anc hanc using hlines
  have hsep' : ∀ n ∈ p.nodes, Separable n.callFrame := by
    intro n hn
    obtain ⟨m, hm, -, hframe⟩ := h.frames n hn
    exact hframe ▸ hsep m hm
  have hshort : ∀ id ∈ p.samples, (anc id).length ≤ fuel := by
    intro id hid
    rw [(hanc id (h.samples ▸ hid)).2.1]
    exact ((hpath id (h.samples ▸ hid)).length_le r.tree.ids).trans hfuel
  obtain ⟨profile, stats, hbuild, hperm⟩ :
      ∃ profile stats, build display (fun s => s) mappingFilename it fuel p = some (profile, stats) ∧ _ :=
    V8.build_spec mappingFilename it hsep' (fun id hid => (hanc id (h.samples ▸ hid)).1) hshort
  refine ⟨path, profile, stats, hpath, hbuild, hperm.trans (List.Perm.of_eq ?_)⟩
  rw [h.samples, Recording.readings, List.map_map]
  refine List.map_congr_left fun id hid => ?_
  have hframes := (hanc id (List.mem_dedup.mp hid)).2.2
  have hmap := congrArg (List.map (readFrame fun s => s)) hframes
  rw [List.map_map, List.map_map] at hmap
  have htime : p.timeOf id = r.timeOf id := by rw [CpuProfile.timeOf, h.charges, Recording.timeOf]
  rw [htime]
  exact congrArg (fun frames => (some frames, _)) hmap

end CpuProfile

end V8
