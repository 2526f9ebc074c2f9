/-
Putting the chunks of one V8 profile together.

A `Cut` of a recording is any way to stream it: nodes in any order and any
chunk, possibly more than once, each edge given at its child, at its parent or
at both.

* `mergeNodes_ids`, `mergeNodes_sound`, `mergeNodes_complete` — what merging
  leaves of any list of nodes;
* `Cut.intoProfile` — the chunks of a cut, in any order, make the recording;
* `Cut.without` — without some chunks that have no nodes, they make a recording
  of fewer samples.
-/
import MoonPprof.CallTree
import MoonPprof.ChromeTrace

open MachineInt V8

namespace ChromeTrace

theorem mem_pushUnique {values : List Int} {value x : Int} :
    x ∈ pushUnique values value ↔ x ∈ values ∨ x = value := by
  rw [pushUnique]
  split
  · rename_i h
    constructor
    · exact Or.inl
    · rintro (hx | rfl)
      · exact hx
      · exact List.contains_iff_mem.mp h
  · simp

theorem mem_foldl_pushUnique {values new : List Int} {x : Int} :
    x ∈ new.foldl pushUnique values ↔ x ∈ values ∨ x ∈ new := by
  induction new generalizing values with
  | nil => simp
  | cons y new ih => rw [List.foldl_cons, ih, mem_pushUnique, List.mem_cons, or_assoc]

/-! ### First occurrences -/

/-- What the merge knows after the nodes `done`. -/
structure Merge.Inv (done : List RawNode) (m : Merge) : Prop where
  nodup : m.nodeOrder.Nodup
  order : ∀ id, id ∈ m.nodeOrder ↔ m.nodesById.lookup id ≠ none
  seen : ∀ n ∈ done, m.nodesById.lookup n.id ≠ none
  id : ∀ id r, m.nodesById.lookup id = some r → r.id = id
  frame : ∀ id r, m.nodesById.lookup id = some r →
    ∃ n ∈ done, n.id = id ∧ n.callFrame = r.callFrame
  children : ∀ id r, m.nodesById.lookup id = some r →
    ∀ x, x ∈ r.children ↔ ∃ n ∈ done, n.id = id ∧ x ∈ n.children
  links : ∀ q x, (q, x) ∈ m.parentLinks ↔ ∃ n ∈ done, n.id = x ∧ n.parent = some q

theorem Merge.inv_empty : Merge.empty.Inv [] where
  nodup := List.nodup_nil
  order := by intro id; simp [Merge.empty]
  seen := by intro n hn; cases hn
  id := by intro id r hr; cases hr
  frame := by intro id r hr; cases hr
  children := by intro id r hr; cases hr
  links := by intro q x; simp [Merge.empty]

/-- The links after one more node. -/
theorem Merge.add_parentLinks (m : Merge) (n : RawNode) :
    (m.add n).parentLinks = m.parentLinks ++ (n.parent.toList.map fun q => (q, n.id)) := by
  rw [Merge.add]
  rcases n.parent with _ | q
  · cases m.nodesById.lookup n.id <;> simp
  · cases m.nodesById.lookup n.id <;> simp

theorem Merge.add_nodesById (m : Merge) (n : RawNode) :
    (m.add n).nodesById = m.nodesById.insert n.id
      (match m.nodesById.lookup n.id with
      | none => n
      | some existing => { existing with
          children := n.children.foldl pushUnique existing.children
          parent := existing.parent.or n.parent }) := by
  rw [Merge.add]
  rcases n.parent with _ | q
  · cases m.nodesById.lookup n.id <;> rfl
  · cases m.nodesById.lookup n.id <;> rfl

theorem Merge.add_nodeOrder (m : Merge) (n : RawNode) :
    (m.add n).nodeOrder = match m.nodesById.lookup n.id with
      | none => m.nodeOrder ++ [n.id]
      | some _ => m.nodeOrder := by
  rw [Merge.add]
  rcases n.parent with _ | q
  · cases m.nodesById.lookup n.id <;> rfl
  · cases m.nodesById.lookup n.id <;> rfl

theorem Merge.inv_add {done : List RawNode} {m : Merge} (h : m.Inv done) (n : RawNode) :
    (m.add n).Inv (done ++ [n]) where
  nodup := by
    rw [Merge.add_nodeOrder]
    rcases hlookup : m.nodesById.lookup n.id with _ | r
    · have hnew : n.id ∉ m.nodeOrder := by
        rw [h.order]
        exact fun hne => hne hlookup
      exact List.nodup_append.mpr ⟨h.nodup, List.nodup_singleton _, fun a ha b hb =>
        by rw [List.mem_singleton.mp hb]; exact fun heq => hnew (heq ▸ ha)⟩
    · exact h.nodup
  order := by
    intro id
    rw [Merge.add_nodeOrder, Merge.add_nodesById]
    by_cases hid : id = n.id
    · rw [hid, AList.lookup_insert]
      rcases hlookup : m.nodesById.lookup n.id with _ | r
      · simp
      · simp [h.order, hlookup]
    · rw [AList.lookup_insert_ne hid, ← h.order]
      cases m.nodesById.lookup n.id <;> simp [hid]
  seen := by
    intro k hk
    rw [Merge.add_nodesById]
    by_cases hid : k.id = n.id
    · rw [hid, AList.lookup_insert]
      exact Option.some_ne_none _
    · rw [AList.lookup_insert_ne hid]
      rcases List.mem_append.mp hk with hk | hk
      · exact h.seen k hk
      · exact absurd (congrArg RawNode.id (List.mem_singleton.mp hk)) hid
  id := by
    intro id r hr
    rw [Merge.add_nodesById] at hr
    rcases HashMap.lookup_insert_cases hr with ⟨rfl, rfl⟩ | hold
    · rcases hlookup : m.nodesById.lookup n.id with _ | e
      · rfl
      · show e.id = n.id
        exact h.id n.id e hlookup
    · exact h.id id r hold
  frame := by
    intro id r hr
    rw [Merge.add_nodesById] at hr
    rcases HashMap.lookup_insert_cases hr with ⟨rfl, rfl⟩ | hold
    · rcases hlookup : m.nodesById.lookup n.id with _ | e
      · exact ⟨n, by simp, rfl, rfl⟩
      · obtain ⟨k, hk, hkid, hframe⟩ := h.frame _ _ hlookup
        exact ⟨k, by simp [hk], hkid, hframe⟩
    · obtain ⟨k, hk, hkid, hframe⟩ := h.frame id r hold
      exact ⟨k, by simp [hk], hkid, hframe⟩
  children := by
    intro id r hr x
    rw [Merge.add_nodesById] at hr
    by_cases hid : id = n.id
    · rw [hid, AList.lookup_insert, Option.some.injEq] at hr
      rw [← hr, hid]
      rcases hlookup : m.nodesById.lookup n.id with _ | e
      · -- nothing seen before has this id
        have hnone : ¬ ∃ k ∈ done, k.id = n.id ∧ x ∈ k.children := by
          rintro ⟨k, hk, hkid, -⟩
          exact h.seen k hk (hkid ▸ hlookup)
        constructor
        · intro hx
          exact ⟨n, by simp, rfl, hx⟩
        · rintro ⟨k, hk, hkid, hx⟩
          rcases List.mem_append.mp hk with hk | hk
          · exact absurd ⟨k, hk, hkid, hx⟩ hnone
          · rwa [List.mem_singleton.mp hk] at hx
      · show x ∈ n.children.foldl pushUnique e.children ↔ _
        rw [mem_foldl_pushUnique, h.children _ _ hlookup]
        simp only [List.mem_append, List.mem_singleton, or_and_right, exists_or, exists_eq_left,
          true_and]
    · rw [AList.lookup_insert_ne hid] at hr
      rw [h.children id r hr]
      simp only [List.mem_append, List.mem_singleton, or_and_right, exists_or, exists_eq_left,
        Ne.symm hid, false_and, or_false]
  links := by
    intro q x
    rw [Merge.add_parentLinks, List.mem_append, h.links]
    simp only [List.mem_append, List.mem_singleton, or_and_right, exists_or, exists_eq_left,
      List.mem_map, Option.mem_toList, Prod.mk.injEq]
    refine or_congr Iff.rfl ⟨?_, ?_⟩
    · rintro ⟨a, ha, rfl, rfl⟩
      exact ⟨rfl, ha⟩
    · rintro ⟨rfl, hq⟩
      exact ⟨q, hq, rfl, rfl⟩

theorem Merge.inv_foldl (nodes : List RawNode) :
    (nodes.foldl Merge.add Merge.empty).Inv nodes := by
  induction nodes using List.reverseRecOn with
  | nil => exact Merge.inv_empty
  | append_singleton done n ih =>
    rw [List.foldl_append, List.foldl_cons, List.foldl_nil]
    exact Merge.inv_add ih n

/-! ### Parent links -/

/-- Each node gains the children that some link gives it. -/
theorem lookup_foldl_linkParent (links : List (Int × Int)) (nodesById : HashMap Int RawNode)
    (id : Int) :
    (links.foldl linkParent nodesById).lookup id = (nodesById.lookup id).map fun r =>
      { r with children := ((links.filter (·.1 = id)).map Prod.snd).foldl pushUnique r.children } := by
  induction links generalizing nodesById with
  | nil => cases hlookup : nodesById.lookup id <;> simp [hlookup]
  | cons link links ih =>
    rw [List.foldl_cons, ih]
    rcases hlink : nodesById.lookup link.1 with _ | node
    · rw [linkParent, hlink]
      by_cases hid : link.1 = id
      · rw [hid] at hlink
        simp [hlink]
      · rw [List.filter_cons_of_neg (by simpa using hid)]
    · rw [linkParent, hlink]
      simp only
      by_cases hid : link.1 = id
      · rw [List.filter_cons_of_pos (by simpa using hid)]
        rw [hid] at hlink
        rw [hid, AList.lookup_insert, hlink]
        rfl
      · rw [AList.lookup_insert_ne (Ne.symm hid), List.filter_cons_of_neg (by simpa using hid)]

theorem takeNodes_eq {order : List Int} (h : order.Nodup) (nodesById : HashMap Int RawNode) :
    takeNodes order nodesById = order.filterMap fun id =>
      (nodesById.lookup id).map fun r => ⟨r.id, r.callFrame, r.children⟩ := by
  induction order generalizing nodesById with
  | nil => rfl
  | cons id order ih =>
    obtain ⟨hnotin, hnodup⟩ := List.nodup_cons.mp h
    rw [takeNodes, List.filterMap_cons]
    rcases nodesById.lookup id with _ | r
    · exact ih hnodup nodesById
    · refine congrArg _ ((ih hnodup _).trans (List.filterMap_congr fun x hx => ?_))
      have hne : x ≠ id := fun heq => hnotin (heq ▸ hx)
      rw [AList.lookup_erase_ne hne]

/-! ### What merging leaves -/

/-- A merged node, as the map held it. -/
theorem mem_mergeNodes {nodes : List RawNode} {k : CpuNode} :
    k ∈ mergeNodes nodes ↔ ∃ r,
      (nodes.foldl Merge.add Merge.empty).nodesById.lookup k.id = some r ∧
      k = ⟨r.id, r.callFrame, (((nodes.foldl Merge.add Merge.empty).parentLinks.filter
        (·.1 = k.id)).map Prod.snd).foldl pushUnique r.children⟩ := by
  have hinv := Merge.inv_foldl nodes
  rw [mergeNodes, takeNodes_eq hinv.nodup, List.mem_filterMap]
  simp only [lookup_foldl_linkParent, Option.map_map, Option.map_eq_some_iff, Function.comp_apply]
  constructor
  · rintro ⟨id, -, r, hr, rfl⟩
    obtain rfl := hinv.id id r hr
    exact ⟨r, hr, rfl⟩
  · rintro ⟨r, hr, hk⟩
    exact ⟨k.id, (hinv.order _).mpr (by rw [hr]; exact Option.some_ne_none _), r, hr, hk.symm⟩

theorem mergeNodes_ids (nodes : List RawNode) : ((mergeNodes nodes).map CpuNode.id).Nodup := by
  have hinv := Merge.inv_foldl nodes
  rw [mergeNodes, takeNodes_eq hinv.nodup, List.map_filterMap]
  refine List.Nodup.filterMap (fun id id' x hx hx' => ?_) hinv.nodup
  -- the node taken at `id` has that id
  have hid : ∀ i, x ∈ Option.map CpuNode.id (((List.foldl linkParent
      (nodes.foldl Merge.add Merge.empty).nodesById
      (nodes.foldl Merge.add Merge.empty).parentLinks).lookup i).map fun r =>
        ⟨r.id, r.callFrame, r.children⟩) → x = i := by
    intro i hi
    rw [lookup_foldl_linkParent] at hi
    simp only [Option.map_map, Option.mem_def, Option.map_eq_some_iff, Function.comp_apply] at hi
    obtain ⟨r, hr, rfl⟩ := hi
    exact hinv.id i r hr
  exact (hid id hx).symm.trans (hid id' hx')

theorem mergeNodes_complete {nodes : List RawNode} {n : RawNode} (h : n ∈ nodes) :
    ∃ k ∈ mergeNodes nodes, k.id = n.id := by
  have hinv := Merge.inv_foldl nodes
  obtain ⟨r, hr⟩ := Option.ne_none_iff_exists'.mp (hinv.seen n h)
  have hid := hinv.id _ _ hr
  rw [← hid] at hr
  have hmem : (⟨r.id, r.callFrame, (((nodes.foldl Merge.add Merge.empty).parentLinks.filter
      (·.1 = r.id)).map Prod.snd).foldl pushUnique r.children⟩ : CpuNode) ∈ mergeNodes nodes :=
    mem_mergeNodes.mpr ⟨r, hr, rfl⟩
  exact ⟨_, hmem, hid⟩

theorem mergeNodes_frame {nodes : List RawNode} {k : CpuNode} (h : k ∈ mergeNodes nodes) :
    ∃ n ∈ nodes, n.id = k.id ∧ n.callFrame = k.callFrame := by
  obtain ⟨r, hr, hk⟩ := mem_mergeNodes.mp h
  obtain ⟨n, hn, hid, hframe⟩ := (Merge.inv_foldl nodes).frame _ _ hr
  exact ⟨n, hn, hid, hframe.trans (congrArg CpuNode.callFrame hk).symm⟩

/-- The children of a merged node: those it lists itself, in any chunk, and
those that name it as their parent. -/
theorem mergeNodes_children {nodes : List RawNode} {k : CpuNode} (h : k ∈ mergeNodes nodes)
    (x : Int) :
    x ∈ k.children ↔ (∃ n ∈ nodes, n.id = k.id ∧ x ∈ n.children) ∨
      ∃ n ∈ nodes, n.id = x ∧ n.parent = some k.id := by
  have hinv := Merge.inv_foldl nodes
  obtain ⟨r, hr, hk⟩ := mem_mergeNodes.mp h
  rw [congrArg CpuNode.children hk, mem_foldl_pushUnique, hinv.children _ _ hr, ← hinv.links]
  refine or_congr Iff.rfl ?_
  simp only [List.mem_map, List.mem_filter, decide_eq_true_eq]
  constructor
  · rintro ⟨⟨q, y⟩, ⟨hmem, rfl⟩, rfl⟩
    exact hmem
  · intro hmem
    exact ⟨(k.id, x), ⟨hmem, rfl⟩, rfl⟩

/-! ### Cutting a recording -/

/-- `chunks`, in their order, stream the recording `r`. -/
structure Cut (r : Recording) (chunks : List ProfileChunk) : Prop where
  ts : chunks.Pairwise fun c c' => c.ts < c'.ts
  samples : chunks.flatMap ProfileChunk.samples = r.samples
  timeDeltas : chunks.flatMap ProfileChunk.timeDeltas = r.timeDeltas
  nodes : ∀ m ∈ r.tree.nodes, ∃ n ∈ chunks.flatMap ProfileChunk.nodes, n.id = m.id
  frames : ∀ n ∈ chunks.flatMap ProfileChunk.nodes,
    ∃ m ∈ r.tree.nodes, m.id = n.id ∧ m.callFrame = n.callFrame
  children : ∀ n ∈ chunks.flatMap ProfileChunk.nodes, ∀ x ∈ n.children, r.tree.Edge n.id x
  parents : ∀ n ∈ chunks.flatMap ProfileChunk.nodes, ∀ q, n.parent = some q → r.tree.Edge q n.id
  edges : ∀ q x, r.tree.Edge q x →
    (∃ n ∈ chunks.flatMap ProfileChunk.nodes, n.id = q ∧ x ∈ n.children) ∨
      ∃ n ∈ chunks.flatMap ProfileChunk.nodes, n.id = x ∧ n.parent = some q

variable {r : Recording} {chunks : List ProfileChunk}

theorem Cut.ne_nil (h : Cut r chunks) : chunks ≠ [] := by
  rintro rfl
  obtain ⟨m, hm⟩ := List.exists_mem_of_ne_nil _ r.tree.nonempty
  obtain ⟨n, hn, -⟩ := h.nodes m hm
  cases hn

/-- As many deltas as samples need no fixing. -/
theorem fixTimeDeltas_eq {n : Nat} {timeDeltas : List Int} (dflt : Int)
    (h : timeDeltas.length = n) : fixTimeDeltas dflt n timeDeltas = timeDeltas := by
  rw [fixTimeDeltas, if_neg (by omega), List.take_of_length_le (by omega)]

/-- The chunks of a cut, received in any order, make the recording. -/
theorem Cut.intoProfile (h : Cut r chunks) {stream : PartialProfile}
    (hchunks : stream.chunks.Perm chunks) (defaultSampleDeltaUs : Int) :
    ∃ extracted, stream.intoProfile defaultSampleDeltaUs = some extracted ∧
      extracted.profile.Realizes r := by
  have hsort : sortByKey ProfileChunk.ts stream.chunks = chunks := sortByKey_eq hchunks h.ts
  have hempty : chunks.isEmpty = false := by
    rw [List.isEmpty_eq_false_iff]
    exact h.ne_nil
  rw [PartialProfile.intoProfile, hsort]
  simp only [hempty, Bool.false_eq_true, if_false]
  refine ⟨_, rfl, ?_⟩
  constructor
  · exact mergeNodes_ids _
  · intro m hm
    obtain ⟨n, hn, hid⟩ := h.nodes m hm
    obtain ⟨k, hk, hkid⟩ := mergeNodes_complete hn
    exact ⟨k, hk, hkid.trans hid⟩
  · intro k hk
    obtain ⟨n, hn, hid, hframe⟩ := mergeNodes_frame hk
    obtain ⟨m, hm, hmid, hmframe⟩ := h.frames n hn
    exact ⟨m, hm, hmid.trans hid, hmframe.trans hframe⟩
  · intro k hk x
    rw [mergeNodes_children hk]
    constructor
    · rintro (⟨n, hn, hid, hx⟩ | ⟨n, hn, hid, hp⟩)
      · exact hid ▸ h.children n hn x hx
      · exact hid ▸ h.parents n hn _ hp
    · exact h.edges k.id x
  · exact h.samples
  · refine (fixTimeDeltas_eq _ ?_).trans h.timeDeltas
    rw [h.timeDeltas, h.samples]
    exact r.deltas

/-! ### Losing chunks -/

theorem flatMap_filter_eq {α β : Type*} {f : α → List β} {P : α → Bool} {l : List α}
    (h : ∀ x ∈ l, P x = false → f x = []) : (l.filter P).flatMap f = l.flatMap f := by
  induction l with
  | nil => rfl
  | cons x l ih =>
    obtain ⟨hx, hl⟩ := List.forall_mem_cons.mp h
    cases hP : P x with
    | true => rw [List.filter_cons_of_pos hP, List.flatMap_cons, List.flatMap_cons, ih hl]
    | false =>
      rw [List.filter_cons_of_neg (by simp [hP]), List.flatMap_cons, ih hl, hx hP, List.nil_append]

theorem length_flatMap_congr {α β γ : Type*} {f : α → List β} {g : α → List γ} {l : List α}
    (h : ∀ x ∈ l, (f x).length = (g x).length) : (l.flatMap f).length = (l.flatMap g).length := by
  rw [List.length_flatMap, List.length_flatMap]
  exact congrArg List.sum (List.map_congr_left h)

theorem recording_eq {r r' : Recording} (htree : r.tree = r'.tree) (hsamples : r.samples = r'.samples)
    (hdeltas : r.timeDeltas = r'.timeDeltas) : r = r' := by
  cases r
  cases r'
  cases htree
  cases hsamples
  cases hdeltas
  rfl

/-- Chunks without samples and time deltas may be left out. -/
theorem flatMap_of_perm {β : Type*} {kept dropped : List ProfileChunk}
    (hperm : chunks.Perm (kept ++ dropped)) (hts : chunks.Pairwise fun c c' => c.ts < c'.ts)
    (hkept : kept.Pairwise fun c c' => c.ts < c'.ts) {f : ProfileChunk → List β}
    (hf : ∀ c ∈ dropped, f c = []) : kept.flatMap f = chunks.flatMap f := by
  let P : ProfileChunk → Bool := fun c => !(f c).isEmpty
  have hnil : ∀ l : List ProfileChunk, (l.filter P).flatMap f = l.flatMap f := fun l =>
    flatMap_filter_eq fun c _ hP => by simpa [P] using hP
  have hnone : dropped.filter P = [] := by
    rw [List.filter_eq_nil_iff]
    intro c hc
    simp [P, hf c hc]
  have hfilter : (chunks.filter P).Perm (kept.filter P) := by
    have h := hperm.filter P
    rwa [List.filter_append, hnone, List.append_nil] at h
  -- both are sorted by their timestamps, so they are the same list
  have heq : kept.filter P = chunks.filter P :=
    (sortByKey_eq (.refl _) (hkept.filter P)).symm.trans
      (sortByKey_eq hfilter.symm (hts.filter P))
  rw [← hnil, heq, hnil]

/-- Without some chunks that have no nodes, and as many time deltas as samples, the others stream
the same tree with the samples they have; if those chunks have none, this is the recording. -/
theorem Cut.without (h : Cut r chunks) {kept dropped : List ProfileChunk}
    (hperm : chunks.Perm (kept ++ dropped)) (hkept : kept.Pairwise fun c c' => c.ts < c'.ts)
    (hdropped : ∀ c ∈ dropped, c.nodes = [] ∧ c.samples.length = c.timeDeltas.length) :
    ∃ r' : Recording, Cut r' kept ∧ r'.tree = r.tree ∧
      r.samples.Perm (r'.samples ++ dropped.flatMap ProfileChunk.samples) ∧
      ((∀ c ∈ dropped, c.samples = []) → r' = r) := by
  have hnodes : ∀ n, n ∈ kept.flatMap ProfileChunk.nodes ↔
      n ∈ chunks.flatMap ProfileChunk.nodes := by
    intro n
    rw [(hperm.flatMap_right _).mem_iff, List.flatMap_append, List.mem_append, iff_self_or]
    intro hn
    obtain ⟨c, hc, hn⟩ := List.mem_flatMap.mp hn
    rw [(hdropped c hc).1] at hn
    cases hn
  have hsamples : r.samples.Perm
      (kept.flatMap ProfileChunk.samples ++ dropped.flatMap ProfileChunk.samples) := by
    rw [← h.samples, ← List.flatMap_append]
    exact hperm.flatMap_right _
  have hdeltas : r.timeDeltas.Perm
      (kept.flatMap ProfileChunk.timeDeltas ++ dropped.flatMap ProfileChunk.timeDeltas) := by
    rw [← h.timeDeltas, ← List.flatMap_append]
    exact hperm.flatMap_right _
  have hlength : (kept.flatMap ProfileChunk.timeDeltas).length =
      (kept.flatMap ProfileChunk.samples).length := by
    have hone := length_flatMap_congr fun c hc => (hdropped c hc).2
    have hs := hsamples.length_eq
    have hd := hdeltas.length_eq
    rw [List.length_append] at hs hd
    have := r.deltas
    omega
  refine ⟨⟨r.tree, kept.flatMap ProfileChunk.samples, kept.flatMap ProfileChunk.timeDeltas,
    fun id hid => r.sampled id (hsamples.mem_iff.mpr (List.mem_append_left _ hid)), hlength⟩,
    ⟨hkept, rfl, rfl, ?_, ?_, ?_, ?_, ?_⟩, rfl, hsamples, fun hnone => ?_⟩
  · simpa only [hnodes] using h.nodes
  · simpa only [hnodes] using h.frames
  · simpa only [hnodes] using h.children
  · simpa only [hnodes] using h.parents
  · simpa only [hnodes] using h.edges
  · have hnone' : ∀ c ∈ dropped, c.timeDeltas = [] := by
      intro c hc
      rw [← List.length_eq_zero_iff, ← (hdropped c hc).2, hnone c hc, List.length_nil]
    refine recording_eq rfl ?_ ?_
    · exact (flatMap_of_perm hperm h.ts hkept hnone).trans h.samples
    · exact (flatMap_of_perm hperm h.ts hkept hnone').trans h.timeDeltas

end ChromeTrace
