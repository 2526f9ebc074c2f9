/-
The tree of stacks as a trie.

After any stacks have been interned, in any order:

* `internChild_ascending` — a child comes after its node and the children before it;
* `faithfulTrie_of_represents` — the ids, the lists of children and the map agree
  on one tree, in which siblings have distinct frames;
* `internStacks_faithful` — each returned id is the node that the frames of its
  stack lead to, also in every later tree.
-/
import MoonPprof.InlineFrames

namespace ChromeTraceExport

/-- The ids that are returned for stacks interned in turn, and the tree they leave. -/
def TreeBuilder.internStacks (b : TreeBuilder) : List (List CallFrame) → List Int × TreeBuilder
  | [] => ([], b)
  | frames :: rest =>
    let (id, b) := b.internStack frames
    let (ids, b) := b.internStacks rest
    (id :: ids, b)

/-! ### The order of the ids -/

/-- A node, then its children as they are listed, have growing ids. -/
def Ascending (b : TreeBuilder) : Prop :=
  ∀ n ∈ b.nodes, (n.id :: n.children).Pairwise (· < ·) ∧
    ∀ x ∈ n.id :: n.children, x ≤ b.nodes.length

theorem ascending_new : Ascending .new := by
  intro n hn
  obtain rfl : n = ⟨1, rootFrame, []⟩ := List.mem_singleton.mp hn
  refine ⟨List.pairwise_singleton _ _, fun x hx => ?_⟩
  obtain rfl : x = 1 := List.mem_singleton.mp hx
  exact le_refl _

/-- A new child goes to the end of the nodes and of the children of its parent. -/
theorem internChild_ascending {b : TreeBuilder} (h : Ascending b) {parent : Int}
    (hparent : (parent - 1).toNat < b.nodes.length) (frame : CallFrame) :
    Ascending (b.internChild parent frame).2 := by
  rw [TreeBuilder.internChild]
  split
  · exact h
  intro n hn
  obtain ⟨j, hj⟩ := List.mem_iff_getElem?.mp hn
  simp only [List.getElem?_modify, List.length_modify, List.length_append,
    List.length_singleton, Option.map_eq_map, Option.map_eq_some_iff] at hj ⊢
  obtain ⟨m, hm, hmod⟩ := hj
  rcases Nat.lt_or_ge j b.nodes.length with hlt | hge
  · -- an old node, perhaps with the new id as its last child
    rw [List.getElem?_append_left hlt] at hm
    obtain ⟨hpair, hle⟩ := h m (List.mem_of_getElem? hm)
    split at hmod
    · subst hmod
      constructor
      · show (m.id :: m.children ++ [(b.nodes.length : Int) + 1]).Pairwise (· < ·)
        rw [List.pairwise_append]
        refine ⟨hpair, List.pairwise_singleton _ _, fun x hx y hy => ?_⟩
        rw [List.mem_singleton.mp hy]
        have := hle x hx
        omega
      · intro x hx
        replace hx : x ∈ m.id :: m.children ++ [(b.nodes.length : Int) + 1] := hx
        rcases List.mem_append.mp hx with hx | hx
        · have := hle x hx
          omega
        · rw [List.mem_singleton.mp hx]
          omega
    · subst hmod
      refine ⟨hpair, fun x hx => ?_⟩
      have := hle x hx
      omega
  · rw [if_neg (by omega)] at hmod
    rw [List.getElem?_append_right hge] at hm
    obtain rfl := List.mem_singleton.mp (List.mem_of_getElem? hm)
    subst hmod
    refine ⟨List.pairwise_singleton _ _, fun x hx => ?_⟩
    obtain rfl : x = (b.nodes.length : Int) + 1 := List.mem_singleton.mp hx
    omega

variable {b : TreeBuilder} {t : PrefixTable CallFrame}

theorem Represents.foldl_ascending (h : Represents b t) (hb : Ascending b)
    {p : List CallFrame} (hp : p ∈ t.items) (frames : List CallFrame) :
    Ascending (frames.foldl (fun (parent, b) frame => TreeBuilder.internChild b parent frame)
      (t.idOf p, b)).2 := by
  induction frames generalizing b t p with
  | nil => exact hb
  | cons a frames ih =>
    obtain ⟨hid, hrep⟩ := h.internChild hp a
    obtain ⟨i, hi, hidp⟩ := PrefixTable.exists_get hp
    have hlt : (t.idOf p - 1).toNat < b.nodes.length := by
      rw [h.length, hidp]
      have := (List.getElem?_eq_some_iff.mp hi).1
      omega
    have hnext := ih hrep (internChild_ascending hb hlt a) (t.child_mem hp a)
    rwa [← hid] at hnext

theorem internStack_ascending (h : Represents b t) (hb : Ascending b) (frames : List CallFrame) :
    Ascending (b.internStack frames).2 := by
  have hfold := h.foldl_ascending hb t.nil_mem frames
  rwa [t.idOf_nil] at hfold

/-! ### Interning stacks in turn -/

theorem internStacks_append (b : TreeBuilder) (xs ys : List (List CallFrame)) :
    b.internStacks (xs ++ ys) =
      ((b.internStacks xs).1 ++ ((b.internStacks xs).2.internStacks ys).1,
        ((b.internStacks xs).2.internStacks ys).2) := by
  induction xs generalizing b with
  | nil => rfl
  | cons frames xs ih => simp only [List.cons_append, TreeBuilder.internStacks, ih]

/-- The table grows, and the ids stay those of the stacks. -/
theorem Represents.internStacks (h : Represents b t) (hb : Ascending b)
    (xs : List (List CallFrame)) :
    ∃ t' : PrefixTable CallFrame, t.items <+: t'.items ∧ Represents (b.internStacks xs).2 t' ∧
      Ascending (b.internStacks xs).2 ∧ (∀ frames ∈ xs, frames ∈ t'.items) ∧
      (b.internStacks xs).1 = xs.map t'.idOf := by
  induction xs generalizing b t with
  | nil => exact ⟨t, List.prefix_refl _, h, hb, List.forall_mem_nil _, rfl⟩
  | cons frames xs ih =>
    obtain ⟨t₁, hpre, hmem, hid, hrep, -⟩ := internStack_spec h frames
    obtain ⟨t', hpre', hrep', hasc, hall, hids⟩ := ih hrep (internStack_ascending h hb frames)
    refine ⟨t', hpre.trans hpre', hrep', hasc, ?_, ?_⟩
    · exact List.forall_mem_cons.mpr ⟨hpre'.subset hmem, hall⟩
    · rw [List.map_cons, PrefixTable.idOf_of_isPrefix hpre' hmem, ← hid, ← hids]
      rfl

/-- The frames that lead to a node stay. -/
theorem Leads.of_isPrefix {b' : TreeBuilder} {t' : PrefixTable CallFrame} (h : Represents b t)
    (h' : Represents b' t') (hpre : t.items <+: t'.items) {id : Int} {frames : List CallFrame}
    (hleads : Leads b.nodes id frames) : Leads b'.nodes id frames := by
  obtain ⟨hmem, rfl⟩ := (leads_iff h).mp hleads
  rw [leads_iff h']
  exact ⟨hpre.subset hmem, (PrefixTable.idOf_of_isPrefix hpre hmem).symm⟩

/-! ### One tree -/

/-- The nodes, their lists of children and the map hold one tree of frames. -/
structure FaithfulTrie (b : TreeBuilder) : Prop where
  ids : ∀ (i : Nat) (n : Node), b.nodes[i]? = some n → n.id = i + 1
  root : b.nodes.head?.map (·.callFrame) = some rootFrame
  parent : ∀ m ∈ b.nodes, m.id ≠ 1 → ∃ n ∈ b.nodes, m.id ∈ n.children ∧ n.id < m.id ∧
    ∀ n' ∈ b.nodes, m.id ∈ n'.children → n' = n
  children : ∀ n ∈ b.nodes, n.children.Nodup ∧
    ∀ x ∈ n.children, x ≠ 1 ∧ ∃ m ∈ b.nodes, m.id = x
  siblings : ∀ n ∈ b.nodes, ∀ m ∈ b.nodes, ∀ m' ∈ b.nodes, m.id ∈ n.children →
    m'.id ∈ n.children → m.callFrame = m'.callFrame → m = m'
  edges : ∀ (parent : Int) (frame : CallFrame) (id : Int),
    b.childByKey.lookup (parent, frame) = some id ↔ ∃ n ∈ b.nodes, ∃ m ∈ b.nodes,
      n.id = parent ∧ m.id = id ∧ m.callFrame = frame ∧ m.id ∈ n.children

theorem Represents.node_inj (h : Represents b t) {m n : Node} (hm : m ∈ b.nodes)
    (hn : n ∈ b.nodes) (hid : m.id = n.id) : m = n := by
  obtain ⟨i, hi⟩ := List.mem_iff_getElem?.mp hm
  obtain ⟨j, hj⟩ := List.mem_iff_getElem?.mp hn
  obtain ⟨-, -, hidm, -⟩ := h.node i m hi
  obtain ⟨-, -, hidn, -⟩ := h.node j n hj
  obtain rfl : i = j := by omega
  exact Option.some.inj (hi.symm.trans hj)

/-- A child of a node is the entry with one frame more. -/
theorem Represents.mem_children_iff (h : Represents b t) {n m : Node} (hn : n ∈ b.nodes)
    (hm : m ∈ b.nodes) : m.id ∈ n.children ↔
      ∃ p ∈ t.items, n.id = t.idOf p ∧ p ++ [m.callFrame] ∈ t.items ∧
        m.id = t.idOf (p ++ [m.callFrame]) := by
  obtain ⟨p, hp, hidp, -, hchildren⟩ := h.entry hn
  obtain ⟨q, hq, hidq, hframe, -⟩ := h.entry hm
  rw [hchildren]
  constructor
  · rintro ⟨a, ha, hida⟩
    obtain rfl := PrefixTable.idOf_inj hq ha (hidq.symm.trans hida)
    obtain rfl : m.callFrame = a := by simp [hframe, frameAt]
    exact ⟨p, hp, hidp, ha, hida⟩
  · rintro ⟨r, hr, hidr, ha, hida⟩
    obtain rfl := PrefixTable.idOf_inj hp hr (hidp.symm.trans hidr)
    exact ⟨_, ha, hida⟩

/-- Every entry but the empty stack is a child of the entry with one frame less. -/
theorem Represents.exists_parent (h : Represents b t) {m : Node} (hm : m ∈ b.nodes)
    (hne : m.id ≠ 1) : ∃ n ∈ b.nodes, m.id ∈ n.children := by
  obtain ⟨q, hq, hidq, hframe, -⟩ := h.entry hm
  have hqne : q ≠ [] := by
    rintro rfl
    exact hne (hidq.trans t.idOf_nil)
  have hlast : q.dropLast ++ [m.callFrame] = q := by
    rw [hframe, frameAt, List.getLast?_eq_some_getLast hqne]
    exact List.dropLast_append_getLast hqne
  have hparent : q.dropLast ∈ t.items := t.closed _ _ (by rw [hlast]; exact hq)
  obtain ⟨n, hn, hidn, -⟩ := h.exists_node hparent
  refine ⟨n, hn, (h.mem_children_iff hn hm).mpr ⟨_, hparent, hidn, ?_⟩⟩
  rw [hlast]
  exact ⟨hq, hidq⟩

theorem faithfulTrie_of_represents (h : Represents b t) (hb : Ascending b) : FaithfulTrie b where
  ids := by
    intro i n hn
    obtain ⟨-, -, hid, -⟩ := h.node i n hn
    exact hid
  root := by
    obtain ⟨n, hn, hid, hframe, -⟩ := h.exists_node t.nil_mem
    obtain ⟨i, hi⟩ := List.mem_iff_getElem?.mp hn
    obtain ⟨-, -, hidn, -⟩ := h.node i n hi
    rw [t.idOf_nil] at hid
    obtain rfl : i = 0 := by omega
    rw [List.head?_eq_getElem?, hi, Option.map_some, hframe]
    rfl
  parent := by
    intro m hm hne
    obtain ⟨n, hn, hchild⟩ := h.exists_parent hm hne
    refine ⟨n, hn, hchild, (List.pairwise_cons.mp (hb n hn).1).1 _ hchild, fun n' hn' hchild' => ?_⟩
    obtain ⟨p, hp, hidp, ha, hida⟩ := (h.mem_children_iff hn hm).mp hchild
    obtain ⟨p', hp', hidp', ha', hida'⟩ := (h.mem_children_iff hn' hm).mp hchild'
    -- two parents stand for the same stack, that of `m` without its last frame
    have heq := PrefixTable.idOf_inj ha ha' (hida.symm.trans hida')
    rw [List.append_cancel_right heq, ← hidp'] at hidp
    exact h.node_inj hn' hn hidp.symm
  children := by
    intro n hn
    obtain ⟨hlt, hpair⟩ := List.pairwise_cons.mp (hb n hn).1
    refine ⟨hpair.imp fun hxy => ne_of_lt hxy, fun x hx => ⟨?_, ?_⟩⟩
    · obtain ⟨i, hi⟩ := List.mem_iff_getElem?.mp hn
      obtain ⟨-, -, hid, -⟩ := h.node i n hi
      have := hlt x hx
      omega
    · obtain ⟨p, -, -, -, hchildren⟩ := h.entry hn
      obtain ⟨a, ha, rfl⟩ := (hchildren x).mp hx
      obtain ⟨m, hm, hid, -⟩ := h.exists_node ha
      exact ⟨m, hm, hid⟩
  siblings := by
    intro n hn m hm m' hm' hchild hchild' hframe
    obtain ⟨p, hp, hidp, -, hida⟩ := (h.mem_children_iff hn hm).mp hchild
    obtain ⟨p', hp', hidp', -, hida'⟩ := (h.mem_children_iff hn hm').mp hchild'
    obtain rfl := PrefixTable.idOf_inj hp hp' (hidp.symm.trans hidp')
    rw [hframe, ← hida'] at hida
    exact h.node_inj hm hm' hida
  edges := by
    intro parent frame id
    rw [h.child]
    constructor
    · rintro ⟨p, ha, rfl, rfl⟩
      obtain ⟨n, hn, hidn, -⟩ := h.exists_node (t.closed _ _ ha)
      obtain ⟨m, hm, hidm, hframe, -⟩ := h.exists_node ha
      obtain rfl : m.callFrame = frame := by simp [hframe, frameAt]
      exact ⟨n, hn, m, hm, hidn, hidm, rfl,
        (h.mem_children_iff hn hm).mpr ⟨p, t.closed _ _ ha, hidn, ha, hidm⟩⟩
    · rintro ⟨n, hn, m, hm, rfl, rfl, rfl, hchild⟩
      obtain ⟨p, -, hidp, ha, hida⟩ := (h.mem_children_iff hn hm).mp hchild
      exact ⟨p, ha, hidp, hida⟩

/-- Interning any stacks in turn makes a trie; in it, and in the tree after any more
stacks, an id is the node that the frames of its stack lead to, and no others. -/
theorem internStacks_faithful (xs ys : List (List CallFrame)) :
    let run := TreeBuilder.new.internStacks xs
    let later := TreeBuilder.new.internStacks (xs ++ ys)
    FaithfulTrie run.2 ∧
      List.Forall₂ (fun id stack => ∀ frames, Leads run.2.nodes id frames ↔ frames = stack)
        run.1 xs ∧
      (∀ i j : Nat, run.1[i]? = run.1[j]? ↔ xs[i]? = xs[j]?) ∧
      run.1 <+: later.1 ∧
      ∀ id frames, Leads run.2.nodes id frames → Leads later.2.nodes id frames := by
  intro run later
  obtain ⟨t, -, hrep, hasc, hall, hids⟩ := represents_new.internStacks ascending_new xs
  obtain ⟨t', hpre, hrep', -⟩ := hrep.internStacks hasc ys
  have hlater : later = _ := internStacks_append .new xs ys
  refine ⟨faithfulTrie_of_represents hrep hasc, ?_, fun i j => ?_, ?_, fun id frames hleads => ?_⟩
  · rw [hids, List.forall₂_map_left_iff, List.forall₂_same]
    intro stack hstack frames
    rw [leads_iff hrep]
    constructor
    · rintro ⟨hmem, hid⟩
      exact (PrefixTable.idOf_inj (hall stack hstack) hmem hid).symm
    · rintro rfl
      exact ⟨hall _ hstack, rfl⟩
  · -- distinct stacks have distinct ids in the table
    rw [hids, List.getElem?_map, List.getElem?_map]
    constructor
    · intro heq
      rcases hi : xs[i]? with _ | p <;> rcases hj : xs[j]? with _ | q <;> simp [hi, hj] at heq
      · rfl
      · rw [PrefixTable.idOf_inj (hall p (List.mem_of_getElem? hi))
          (hall q (List.mem_of_getElem? hj)) heq]
    · intro heq
      rw [heq]
  · rw [hlater]
    exact List.prefix_append _ _
  · rw [hlater]
    exact hleads.of_isPrefix hrep hrep' hpre

end ChromeTraceExport
