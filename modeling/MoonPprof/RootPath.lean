/-
Paths to the root in a tree given by parent links.

`RootPath idOf parentOf nodes id path`: `path` leads from the node `id` up to a
node without a parent, each node named by the one before it.

* `RootPath.unique` — where ids are distinct there is at most one such path;
* `RootPath.nodup`, `RootPath.length_le` — it meets no node twice, so it is no
  longer than the list of all nodes;
* `RootPath.exists_of_acyclic` — where no node is above itself, every node has
  such a path.
-/
import Mathlib.Data.Fintype.Card
import Mathlib.Data.List.Nodup
import Mathlib.Data.List.Perm.Subperm
import Mathlib.Data.Set.Finite.Basic
import Mathlib.Logic.Relation

universe u v

variable {α : Type u} {ι : Type v}

inductive RootPath (idOf : α → ι) (parentOf : α → Option ι) (nodes : List α) :
    ι → List α → Prop
  | root {id : ι} {n : α} (_ : n ∈ nodes) (_ : idOf n = id) (_ : parentOf n = none) :
      RootPath idOf parentOf nodes id [n]
  | child {id q : ι} {n : α} {path : List α} (_ : n ∈ nodes) (_ : idOf n = id)
      (_ : parentOf n = some q) (_ : RootPath idOf parentOf nodes q path) :
      RootPath idOf parentOf nodes id (n :: path)

namespace RootPath

variable {idOf : α → ι} {parentOf : α → Option ι} {nodes : List α} {id : ι} {path : List α}

theorem mem (h : RootPath idOf parentOf nodes id path) {n : α} (hn : n ∈ path) : n ∈ nodes := by
  induction h with
  | root hmem => rwa [List.mem_singleton.mp hn]
  | child hmem _ _ _ ih =>
    rcases List.mem_cons.mp hn with rfl | hn
    · exact hmem
    · exact ih hn

theorem unique (hids : (nodes.map idOf).Nodup) (h : RootPath idOf parentOf nodes id path)
    {path' : List α} (h' : RootPath idOf parentOf nodes id path') : path = path' := by
  have hinj : ∀ {n n'}, n ∈ nodes → n' ∈ nodes → idOf n = idOf n' → n = n' :=
    fun hn hn' heq => List.inj_on_of_nodup_map hids hn hn' heq
  induction h generalizing path' with
  | @root id n hn hid hp =>
    cases h' with
    | @root _ n' hn' hid' hp' => rw [hinj hn hn' (hid.trans hid'.symm)]
    | @child _ q' n' _ hn' hid' hp' =>
      rw [hinj hn hn' (hid.trans hid'.symm), hp'] at hp
      cases hp
  | @child id q n path hn hid hp _ ih =>
    cases h' with
    | @root _ n' hn' hid' hp' =>
      rw [hinj hn hn' (hid.trans hid'.symm), hp'] at hp
      cases hp
    | @child _ q' n' path' hn' hid' hp' hrest =>
      obtain rfl := hinj hn hn' (hid.trans hid'.symm)
      obtain rfl : q = q' := Option.some.inj (hp.symm.trans hp')
      rw [ih hrest]

/-- The rest of the path, from any of its nodes on. -/
theorem from_mem (h : RootPath idOf parentOf nodes id path) {n : α} (hn : n ∈ path) :
    ∃ path', RootPath idOf parentOf nodes (idOf n) path' ∧ path'.length ≤ path.length := by
  induction h with
  | root hmem hid hp =>
    rw [List.mem_singleton.mp hn]
    exact ⟨_, .root hmem rfl hp, Nat.le_refl _⟩
  | child hmem hid hp hrest ih =>
    rcases List.mem_cons.mp hn with rfl | hn
    · exact ⟨_, .child hmem rfl hp hrest, Nat.le_refl _⟩
    · obtain ⟨path', hpath', hle⟩ := ih hn
      exact ⟨path', hpath', Nat.le_succ_of_le hle⟩

theorem nodup (hids : (nodes.map idOf).Nodup) (h : RootPath idOf parentOf nodes id path) :
    path.Nodup := by
  induction h with
  | root => exact List.nodup_singleton _
  | @child id q n path hn hid hp hrest ih =>
    refine List.nodup_cons.mpr ⟨fun hmem => ?_, ih⟩
    -- a second visit would have to continue with the whole path again
    obtain ⟨path', hpath', hle⟩ := hrest.from_mem hmem
    rw [hpath'.unique hids (.child hn rfl hp hrest), List.length_cons] at hle
    omega

theorem length_le (hids : (nodes.map idOf).Nodup) (h : RootPath idOf parentOf nodes id path) :
    path.length ≤ nodes.length :=
  ((h.nodup hids).subperm fun _ hn => h.mem hn).length_le

/-- One step up: a node with the id `c` names the parent `q`. -/
def Up (idOf : α → ι) (parentOf : α → Option ι) (nodes : List α) (c q : ι) : Prop :=
  ∃ n ∈ nodes, idOf n = c ∧ parentOf n = some q

theorem exists_of_acyclic
    (hparent : ∀ n ∈ nodes, ∀ q, parentOf n = some q → ∃ m ∈ nodes, idOf m = q)
    (hacyclic : ∀ id, ¬ Relation.TransGen (Up idOf parentOf nodes) id id) {n : α} (hn : n ∈ nodes) :
    ∃ path, RootPath idOf parentOf nodes (idOf n) path := by
  -- the ids of the nodes are finitely many, so "above" is well-founded on them
  let above : {id // id ∈ nodes.map idOf} → {id // id ∈ nodes.map idOf} → Prop :=
    fun q c => Relation.TransGen (Up idOf parentOf nodes) c q
  have : Finite {id // id ∈ nodes.map idOf} := (nodes.map idOf).finite_toSet
  have : IsTrans _ above := ⟨fun _ _ _ hab hbc => hbc.trans hab⟩
  have : Std.Irrefl above := ⟨fun id => hacyclic id⟩
  have hwf := Finite.wellFounded_of_trans_of_irrefl above
  suffices h : ∀ id : {id // id ∈ nodes.map idOf}, ∃ path, RootPath idOf parentOf nodes id path from
    h ⟨idOf n, List.mem_map_of_mem hn⟩
  intro id
  induction id using hwf.induction with
  | h id ih =>
    obtain ⟨m, hm, hid⟩ := List.mem_map.mp id.2
    rcases hp : parentOf m with _ | q
    · exact ⟨[m], root hm hid hp⟩
    · obtain ⟨m', hm', hq⟩ := hparent m hm q hp
      obtain ⟨path, hpath⟩ := ih ⟨q, List.mem_map.mpr ⟨m', hm', hq⟩⟩ (.single ⟨m, hm, hid, hp⟩)
      exact ⟨m :: path, child hm hid hp hpath⟩

/-- Relabelled nodes have the same paths. -/
theorem map {β : Type u} {f : α → β} {idOf' : β → ι} {parentOf' : β → Option ι}
    (hid : ∀ n, idOf' (f n) = idOf n) (hparent : ∀ n, parentOf' (f n) = parentOf n)
    (h : RootPath idOf parentOf nodes id path) :
    RootPath idOf' parentOf' (nodes.map f) id (path.map f) := by
  induction h with
  | root hn hnid hp =>
    exact .root (List.mem_map_of_mem hn) ((hid _).trans hnid) ((hparent _).trans hp)
  | child hn hnid hp _ ih =>
    exact .child (List.mem_map_of_mem hn) ((hid _).trans hnid) ((hparent _).trans hp) ih

end RootPath
