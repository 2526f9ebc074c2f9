/-
The tree of stacks that the Chrome trace exporter builds.

`Represents b t`: the nodes of `b` are the entries of the prefix table `t`, each
under its id, with the last frame of the entry and the ids of its children.

* `internStack_spec` — interning a stack adds its prefixes and returns its id;
* `Represents.cut` — streamed as one chunk, the nodes make the tree of `t`, in
  which a stack is the line from its node up to the root.
-/
import MoonPprof.ChromeTraceExport
import MoonPprof.ChromeTraceMerge
import MoonPprof.PrefixTable

open MachineInt V8

namespace ChromeTraceExport

/-- The frame of the node at the end of a path. -/
def frameAt (p : List CallFrame) : CallFrame := p.getLast?.getD rootFrame

structure Represents (b : TreeBuilder) (t : PrefixTable CallFrame) : Prop where
  length : b.nodes.length = t.items.length
  node : ∀ (i : Nat) (n : Node), b.nodes[i]? = some n → ∃ p, t.items[i]? = some p ∧ n.id = i + 1 ∧
    n.callFrame = frameAt p ∧
    ∀ x, x ∈ n.children ↔ ∃ a, p ++ [a] ∈ t.items ∧ x = t.idOf (p ++ [a])
  child : ∀ (k : Int × CallFrame) (id : Int), b.childByKey.lookup k = some id ↔
    ∃ p, p ++ [k.2] ∈ t.items ∧ k.1 = t.idOf p ∧ id = t.idOf (p ++ [k.2])

theorem represents_new : Represents .new .empty where
  length := rfl
  node := by
    intro i n h
    obtain ⟨rfl, rfl⟩ : i = 0 ∧ n = ⟨1, rootFrame, []⟩ := by
      rcases i with _ | i
      · exact ⟨rfl, (Option.some.inj h).symm⟩
      · cases h
    refine ⟨[], rfl, rfl, rfl, fun x => ?_⟩
    constructor
    · intro hx
      cases hx
    · rintro ⟨a, ha, -⟩
      have hnil : ([] : List CallFrame) ++ [a] = [] := List.mem_singleton.mp ha
      simp at hnil
  child := by
    intro k id
    constructor
    · intro h
      cases h
    · rintro ⟨p, hp, -⟩
      have hnil : p ++ [k.2] = [] := List.mem_singleton.mp hp
      simp at hnil

variable {b : TreeBuilder} {t : PrefixTable CallFrame}

/-- Each node is an entry. -/
theorem Represents.entry (h : Represents b t) {n : Node} (hn : n ∈ b.nodes) :
    ∃ p ∈ t.items, n.id = t.idOf p ∧ n.callFrame = frameAt p ∧
      ∀ x, x ∈ n.children ↔ ∃ a, p ++ [a] ∈ t.items ∧ x = t.idOf (p ++ [a]) := by
  obtain ⟨i, hi⟩ := List.mem_iff_getElem?.mp hn
  obtain ⟨p, hp, hid, hframe, hchildren⟩ := h.node i n hi
  exact ⟨p, List.mem_of_getElem? hp, hid.trans (PrefixTable.idOf_of_get hp).symm, hframe, hchildren⟩

/-- Each entry is a node. -/
theorem Represents.exists_node (h : Represents b t) {p : List CallFrame} (hp : p ∈ t.items) :
    ∃ n ∈ b.nodes, n.id = t.idOf p ∧ n.callFrame = frameAt p ∧
      ∀ x, x ∈ n.children ↔ ∃ a, p ++ [a] ∈ t.items ∧ x = t.idOf (p ++ [a]) := by
  obtain ⟨i, hi, hid⟩ := PrefixTable.exists_get hp
  have hlt : i < b.nodes.length := by
    rw [h.length]
    exact (List.getElem?_eq_some_iff.mp hi).1
  have hn := List.getElem?_eq_getElem hlt
  obtain ⟨q, hq, hid', hframe, hchildren⟩ := h.node i _ hn
  obtain rfl : p = q := Option.some.inj (hi.symm.trans hq)
  exact ⟨_, List.mem_of_getElem? hn, hid'.trans hid.symm, hframe, hchildren⟩

theorem Represents.internChild_of_mem (h : Represents b t) {p : List CallFrame} {a : CallFrame}
    (ha : p ++ [a] ∈ t.items) : b.internChild (t.idOf p) a = (t.idOf (p ++ [a]), b) := by
  have hlookup := (h.child (t.idOf p, a) (t.idOf (p ++ [a]))).mpr ⟨p, ha, rfl, rfl⟩
  rw [TreeBuilder.internChild, hlookup]

/-- A new child is a new row, which the row of its parent and the map name. -/
theorem Represents.internChild_eq (h : Represents b t) {p : List CallFrame} (hp : p ∈ t.items)
    {a : CallFrame} (ha : p ++ [a] ∉ t.items) {i : Nat} (hidp : t.idOf p = i + 1) :
    b.internChild (t.idOf p) a = ((t.items.length : Int) + 1,
      ⟨(b.nodes ++ [(⟨t.items.length + 1, a, []⟩ : Node)]).modify i fun n =>
        { n with children := n.children ++ [(t.items.length : Int) + 1] },
        b.childByKey.insert (t.idOf p, a) (t.items.length + 1)⟩) := by
  have hlookup : b.childByKey.lookup (t.idOf p, a) = none := by
    rcases hl : b.childByKey.lookup (t.idOf p, a) with _ | id
    · rfl
    · obtain ⟨q, hq, hidq, -⟩ := (h.child _ _).mp hl
      rw [← PrefixTable.idOf_inj hp (t.closed q a hq) hidq] at hq
      exact absurd hq ha
  rw [TreeBuilder.internChild, hlookup]
  simp only [h.length, hidp, Int.add_sub_cancel, Int.toNat_natCast]

/-- The rows after a new child: the row of the parent alone has one child more. -/
theorem Represents.node_internChild (h : Represents b t) {p : List CallFrame} (hp : p ∈ t.items)
    {a : CallFrame} (ha : p ++ [a] ∉ t.items) {i : Nat} (hi : t.items[i]? = some p) {j : Nat}
    {n : Node}
    (hn : ((b.nodes ++ [(⟨t.items.length + 1, a, []⟩ : Node)]).modify i fun n =>
      { n with children := n.children ++ [(t.items.length : Int) + 1] })[j]? = some n) :
    ∃ q, (t.child p hp a).items[j]? = some q ∧ n.id = j + 1 ∧ n.callFrame = frameAt q ∧
      ∀ x, x ∈ n.children ↔
        ∃ c, q ++ [c] ∈ (t.child p hp a).items ∧ x = (t.child p hp a).idOf (q ++ [c]) := by
  have hlt : i < t.items.length := (List.getElem?_eq_some_iff.mp hi).1
  have hitems := PrefixTable.child_of_not_mem hp ha
  simp only [List.getElem?_modify] at hn
  rcases Nat.lt_trichotomy j t.items.length with hj | rfl | hj
  · -- an old node: only the one at `i` has a new child
    rw [List.getElem?_append_left (by rw [h.length]; exact hj)] at hn
    obtain ⟨n₀, hn₀, hmod⟩ := Option.map_eq_some_iff.mp hn
    obtain ⟨q, hq, hid, hframe, hchildren⟩ := h.node j n₀ hn₀
    have hq' : (t.child p hp a).items[j]? = some q := by
      rw [hitems, List.getElem?_append_left hj]
      exact hq
    by_cases hij : i = j
    · subst hij
      obtain rfl : p = q := Option.some.inj (hi.symm.trans hq)
      rw [if_pos rfl] at hmod
      subst hmod
      refine ⟨p, hq', hid, hframe, fun x => ?_⟩
      rw [PrefixTable.exists_child_iff hp ha, ← hchildren]
      simp
    · rw [if_neg hij] at hmod
      subst hmod
      refine ⟨q, hq', hid, hframe, fun x => ?_⟩
      have hqp : q ≠ p := by
        rintro rfl
        exact hij (t.get_inj hi hq)
      rw [PrefixTable.exists_child_iff hp ha, ← hchildren]
      simp [hqp]
  · rw [List.getElem?_append_right (by rw [h.length]), h.length, Nat.sub_self,
      List.getElem?_cons_zero, Option.map_eq_map, Option.map_some, if_neg (by omega)] at hn
    obtain rfl := Option.some.inj hn
    refine ⟨p ++ [a], ?_, rfl, by simp [frameAt], fun x => ?_⟩
    · rw [hitems]
      exact List.getElem?_concat_length
    · rw [PrefixTable.exists_child_iff hp ha]
      constructor
      · intro hx
        cases hx
      · rintro (⟨c, hc, -⟩ | ⟨heq, -⟩)
        · exact absurd (t.closed _ c hc) ha
        · simp at heq
  · rw [List.getElem?_eq_none (by simp [h.length]; omega)] at hn
    cases hn

/-- The map after a new child. -/
theorem Represents.childByKey_insert_iff (h : Represents b t) {p : List CallFrame}
    (hp : p ∈ t.items)
    {a : CallFrame} (ha : p ++ [a] ∉ t.items) (k : Int × CallFrame) (id : Int) :
    (b.childByKey.insert (t.idOf p, a) ((t.items.length : Int) + 1)).lookup k = some id ↔
      ∃ q, q ++ [k.2] ∈ (t.child p hp a).items ∧ k.1 = (t.child p hp a).idOf q ∧
        id = (t.child p hp a).idOf (q ++ [k.2]) := by
  obtain ⟨q, c⟩ := k
  have hitems := PrefixTable.child_of_not_mem hp ha
  have hnew := PrefixTable.idOf_child hp ha
  have hold : ∀ {q}, q ∈ t.items → (t.child p hp a).idOf q = t.idOf q :=
    fun hq => PrefixTable.idOf_of_isPrefix (t.child_isPrefix hp a) hq
  -- the new key, or one that was there before
  by_cases hk : (q, c) = (t.idOf p, a)
  · obtain ⟨rfl, rfl⟩ := Prod.mk.inj hk
    rw [AList.lookup_insert, Option.some.injEq]
    constructor
    · rintro rfl
      exact ⟨p, t.child_mem hp c, (hold hp).symm, hnew.symm⟩
    · rintro ⟨r, hr, hidr, rfl⟩
      rw [← hold hp] at hidr
      rw [← PrefixTable.idOf_inj (t.child_isPrefix hp c |>.subset hp)
        ((t.child p hp c).closed r c hr) hidr, hnew]
  · rw [AList.lookup_insert_ne hk, h.child]
    constructor
    · rintro ⟨r, hr, hidr, hid⟩
      exact ⟨r, (t.child_isPrefix hp a).subset hr, hidr.trans (hold (t.closed r c hr)).symm,
        hid.trans (hold hr).symm⟩
    · rintro ⟨r, hr, hidr, hid⟩
      rw [hitems, List.mem_append] at hr
      rcases hr with hr | hr
      · exact ⟨r, hr, hidr.trans (hold (t.closed r c hr)), hid.trans (hold hr)⟩
      · obtain ⟨rfl, hca⟩ := List.append_inj' (List.mem_singleton.mp hr) rfl
        obtain rfl : c = a := List.singleton_inj.mp hca
        exact absurd (congrArg (·, c) (hidr.trans (hold hp))) hk

theorem Represents.internChild_of_not_mem (h : Represents b t) {p : List CallFrame}
    (hp : p ∈ t.items) {a : CallFrame} (ha : p ++ [a] ∉ t.items) :
    (b.internChild (t.idOf p) a).1 = (t.child p hp a).idOf (p ++ [a]) ∧
      Represents (b.internChild (t.idOf p) a).2 (t.child p hp a) := by
  obtain ⟨i, hi, hidp⟩ := PrefixTable.exists_get hp
  rw [h.internChild_eq hp ha hidp]
  refine ⟨(PrefixTable.idOf_child hp ha).symm, ⟨?_, ?_, h.childByKey_insert_iff hp ha⟩⟩
  · rw [PrefixTable.child_of_not_mem hp ha]
    simp [h.length]
  · intro j n hn
    exact h.node_internChild hp ha hi hn

theorem Represents.internChild (h : Represents b t) {p : List CallFrame} (hp : p ∈ t.items)
    (a : CallFrame) :
    (b.internChild (t.idOf p) a).1 = (t.child p hp a).idOf (p ++ [a]) ∧
      Represents (b.internChild (t.idOf p) a).2 (t.child p hp a) := by
  by_cases ha : p ++ [a] ∈ t.items
  · rw [h.internChild_of_mem ha, PrefixTable.child_of_mem hp ha]
    exact ⟨rfl, h⟩
  · exact h.internChild_of_not_mem hp ha

/-- From any node on, the frames of a stack lead down to its node. -/
theorem Represents.foldl_internChild (h : Represents b t) {p : List CallFrame} (hp : p ∈ t.items)
    (frames : List CallFrame) :
    let r := frames.foldl (fun (parent, b) frame => TreeBuilder.internChild b parent frame)
      (t.idOf p, b)
    ∃ t' : PrefixTable CallFrame, t.items <+: t'.items ∧ p ++ frames ∈ t'.items ∧
      r.1 = t'.idOf (p ++ frames) ∧ Represents r.2 t' ∧
      t'.items.length ≤ t.items.length + frames.length ∧
      ∀ q ∈ t'.items, q ∈ t.items ∨ q <+: p ++ frames := by
  induction frames generalizing b t p with
  | nil =>
    refine ⟨t, List.prefix_refl _, ?_, ?_, h, by simp, fun q hq => Or.inl hq⟩
    · rwa [List.append_nil]
    · rw [List.append_nil]
      rfl
  | cons a frames ih =>
    intro r
    obtain ⟨hid, hrep⟩ := h.internChild hp a
    obtain ⟨t', hpre, hmem, hid', hrep', hlen, honly⟩ := ih hrep (t.child_mem hp a)
    have hr : r = frames.foldl (fun (parent, b) frame => TreeBuilder.internChild b parent frame)
        ((t.child p hp a).idOf (p ++ [a]), (b.internChild (t.idOf p) a).2) := by
      rw [← hid]
      rfl
    have happ : p ++ a :: frames = p ++ [a] ++ frames := by simp
    rw [hr, happ]
    refine ⟨t', (t.child_isPrefix hp a).trans hpre, hmem, hid', hrep', ?_, fun q hq => ?_⟩
    · have hchild := PrefixTable.length_child_le hp a
      rw [List.length_cons]
      omega
    · rcases honly q hq with hq | hq
      · -- the child on the way is itself a prefix
        rcases PrefixTable.mem_child hp hq with hq | rfl
        · exact Or.inl hq
        · exact Or.inr (List.prefix_append _ _)
      · exact Or.inr hq

/-- Interning a stack: its node is returned, and only its prefixes are added. -/
theorem internStack_spec (h : Represents b t) (frames : List CallFrame) :
    ∃ t' : PrefixTable CallFrame, t.items <+: t'.items ∧ frames ∈ t'.items ∧
      (b.internStack frames).1 = t'.idOf frames ∧ Represents (b.internStack frames).2 t' ∧
      t'.items.length ≤ t.items.length + frames.length ∧
      ∀ q ∈ t'.items, q ∈ t.items ∨ q <+: frames := by
  have hfold := h.foldl_internChild t.nil_mem frames
  rw [t.idOf_nil] at hfold
  exact hfold

/-! ### As a call tree -/

def CallFrame.toV8 (f : CallFrame) : V8.CallFrame where
  functionName := f.functionName
  url := f.url
  scriptId := .string f.scriptId
  lineNumber := f.lineNumber
  columnNumber := f.columnNumber

def treeNode (t : PrefixTable CallFrame) (p : List CallFrame) : TreeNode :=
  ⟨t.idOf p, (frameAt p).toV8, t.parentOf p⟩

theorem nodePath (t : PrefixTable CallFrame) {p : List CallFrame} (hp : p ∈ t.items) :
    NodePath (t.items.map (treeNode t)) (t.idOf p) (p.inits.reverse.map (treeNode t)) :=
  (t.rootPath hp).map (fun _ => rfl) (fun _ => rfl)

/-- The frames on the way from a stack's node to the root. -/
theorem map_frameAt_inits (p : List CallFrame) :
    p.inits.reverse.map frameAt = p.reverse ++ [rootFrame] := by
  induction p using List.reverseRecOn with
  | nil => rfl
  | append_singleton p a ih =>
    have hinits : (p ++ [a]).inits.reverse = (p ++ [a]) :: p.inits.reverse := by
      simp [List.inits_append]
    rw [hinits, List.map_cons, ih]
    simp [frameAt]

def callTree (t : PrefixTable CallFrame) : CallTree where
  nodes := t.items.map (treeNode t)
  nonempty := by
    intro h
    have hnil := t.nil_mem
    rw [List.map_eq_nil_iff.mp h] at hnil
    cases hnil
  ids := by
    rw [List.map_map]
    exact t.nodup_ids
  rooted := by
    intro n hn
    obtain ⟨p, hp, rfl⟩ := List.mem_map.mp hn
    exact ⟨_, nodePath t hp⟩

theorem callTree_edge_iff {p : List CallFrame} (hp : p ∈ t.items) (x : Int) :
    (callTree t).Edge (t.idOf p) x ↔ ∃ a, p ++ [a] ∈ t.items ∧ x = t.idOf (p ++ [a]) := by
  constructor
  · rintro ⟨m, hm, rfl, hparent⟩
    obtain ⟨q, hq, rfl⟩ := List.mem_map.mp hm
    replace hparent : t.parentOf q = some (t.idOf p) := hparent
    rw [PrefixTable.parentOf] at hparent
    split at hparent
    · cases hparent
    · rename_i hne
      have hlast := List.dropLast_append_getLast hne
      have hmem : q.dropLast ∈ t.items := t.closed _ _ (by rw [hlast]; exact hq)
      have heq := PrefixTable.idOf_inj hmem hp (Option.some.inj hparent)
      rw [heq] at hlast
      exact ⟨_, by rw [hlast]; exact hq, by rw [hlast]; rfl⟩
  · rintro ⟨a, ha, rfl⟩
    refine ⟨treeNode t (p ++ [a]), List.mem_map_of_mem ha, rfl, ?_⟩
    show t.parentOf (p ++ [a]) = some (t.idOf p)
    rw [PrefixTable.parentOf, if_neg (by simp), List.dropLast_concat]

/-- A node as the importer reads it. -/
def Node.toRaw (n : Node) : ChromeTrace.RawNode := ⟨n.id, n.callFrame.toV8, n.children, none⟩

/-- One chunk with all nodes and samples streams the recording. -/
theorem Represents.cut (h : Represents b t) (ts : Int) {r : Recording}
    (htree : r.tree = callTree t) :
    ChromeTrace.Cut r [⟨ts, b.nodes.map Node.toRaw, r.samples, r.timeDeltas⟩] := by
  have hnodes : ∀ n, n ∈ b.nodes.map Node.toRaw ↔ ∃ k ∈ b.nodes, k.toRaw = n :=
    fun n => List.mem_map
  have hentry : ∀ k ∈ b.nodes, ∃ p ∈ t.items, k.id = t.idOf p ∧ k.callFrame = frameAt p ∧
      ∀ x, x ∈ k.children ↔ (callTree t).Edge (t.idOf p) x := by
    intro k hk
    obtain ⟨p, hp, hid, hframe, hchildren⟩ := h.entry hk
    refine ⟨p, hp, hid, hframe, fun x => ?_⟩
    rw [hchildren, callTree_edge_iff hp]
  have hfound : ∀ p ∈ t.items, ∃ k ∈ b.nodes, k.id = t.idOf p ∧
      ∀ x, x ∈ k.children ↔ (callTree t).Edge (t.idOf p) x := by
    intro p hp
    obtain ⟨k, hk, hid, -, hchildren⟩ := h.exists_node hp
    refine ⟨k, hk, hid, fun x => ?_⟩
    rw [hchildren, callTree_edge_iff hp]
  constructor
  · exact List.pairwise_singleton _ _
  · exact List.flatMap_singleton ..
  · exact List.flatMap_singleton ..
  · intro m hm
    rw [htree] at hm
    obtain ⟨p, hp, rfl⟩ := List.mem_map.mp hm
    obtain ⟨k, hk, hid, -⟩ := hfound p hp
    exact ⟨k.toRaw, by simpa using ⟨k, hk, rfl⟩, hid⟩
  · intro n hn
    obtain ⟨k, hk, rfl⟩ := (hnodes n).mp (by simpa using hn)
    obtain ⟨p, hp, hid, hframe, -⟩ := hentry k hk
    rw [htree]
    exact ⟨treeNode t p, List.mem_map_of_mem hp, hid.symm, by
      show (frameAt p).toV8 = k.callFrame.toV8
      rw [hframe]⟩
  · intro n hn x hx
    obtain ⟨k, hk, rfl⟩ := (hnodes n).mp (by simpa using hn)
    obtain ⟨p, hp, hid, -, hchildren⟩ := hentry k hk
    rw [htree, show k.toRaw.id = t.idOf p from hid]
    exact (hchildren x).mp hx
  · intro n hn q hq
    obtain ⟨k, hk, rfl⟩ := (hnodes n).mp (by simpa using hn)
    cases hq
  · intro q x hedge
    rw [htree] at hedge
    -- the parent in an edge is a stack of the table too
    have hq : ∃ p ∈ t.items, t.idOf p = q := by
      obtain ⟨m, hm, -, hparent⟩ := hedge
      obtain ⟨p, hp, rfl⟩ := List.mem_map.mp hm
      replace hparent : t.parentOf p = some q := hparent
      rw [PrefixTable.parentOf] at hparent
      split at hparent
      · cases hparent
      · rename_i hne
        exact ⟨p.dropLast, t.closed _ _ (by rw [List.dropLast_append_getLast hne]; exact hp),
          Option.some.inj hparent⟩
    obtain ⟨p, hp, rfl⟩ := hq
    obtain ⟨k, hk, hid, hchildren⟩ := hfound p hp
    exact Or.inl ⟨k.toRaw, by simpa using ⟨k, hk, rfl⟩, hid, (hchildren x).mpr hedge⟩

end ChromeTraceExport
