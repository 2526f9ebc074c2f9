/-
Trees that are given by their children.

`Nest children roots nodes` says that the trees at `roots` consist of `nodes`.
`visit` is the loop that pops a node off a stack and pushes its children.

* `Nest.visit_perm` — the loop ends, and has met each node as often as it occurs;
* `Nest.mem_iff` — the nodes are what the roots lead to;
* `Nest.root_not_mem_children` — a root of distinct nodes is nobody's child;
* `Nest.exists_sub` — with fewer children there are fewer nodes.
-/
import Mathlib.Data.List.Perm.Basic
import Mathlib.Logic.Relation

universe u

variable {α : Type u} {children : α → List α}

inductive Nest (children : α → List α) : List α → List α → Prop
  | nil : Nest children [] []
  | cons {a : α} {roots inner outer : List α} : Nest children (children a) inner →
      Nest children roots outer → Nest children (a :: roots) (a :: (inner ++ outer))

/-- `while let Some(a) = stack.pop() { out.push(a); for b in children(a) { stack.push(b) } }`;
the top of the stack is the head of the list. -/
def visit (children : α → List α) : Nat → List α → List α → Option (List α)
  | _, [], out => some out
  | 0, _ :: _, _ => none
  | fuel + 1, a :: stack, out => visit children fuel ((children a).reverse ++ stack) (out ++ [a])

namespace Nest

variable {roots nodes : List α}

/-- One tree. -/
theorem tree {a : α} {inner : List α} (h : Nest children (children a) inner) :
    Nest children [a] (a :: inner) := by
  have hone := cons h nil
  rwa [List.append_nil] at hone

theorem append {roots' nodes' : List α} (h : Nest children roots nodes)
    (h' : Nest children roots' nodes') : Nest children (roots ++ roots') (nodes ++ nodes') := by
  induction h with
  | nil => exact h'
  | cons hinner _ _ ih =>
    rw [List.cons_append, List.cons_append, List.append_assoc]
    exact cons hinner ih

/-- The trees in the opposite order. -/
theorem reverse (h : Nest children roots nodes) :
    ∃ nodes', Nest children roots.reverse nodes' ∧ nodes'.Perm nodes := by
  induction h with
  | nil => exact ⟨[], nil, List.Perm.refl _⟩
  | @cons a roots inner outer hinner _ _ ih =>
    obtain ⟨outer', houter, hperm⟩ := ih
    refine ⟨outer' ++ a :: inner, ?_, ?_⟩
    · rw [List.reverse_cons]
      exact houter.append hinner.tree
    · exact List.perm_append_comm.trans ((hperm.append_left inner).cons a)

theorem visit_perm (h : Nest children roots nodes) {fuel : Nat} (hfuel : nodes.length ≤ fuel)
    (out : List α) : ∃ l, visit children fuel roots out = some (out ++ l) ∧ l.Perm nodes := by
  induction fuel generalizing roots nodes out with
  | zero =>
    obtain rfl := List.eq_nil_of_length_eq_zero (Nat.le_zero.mp hfuel)
    cases h
    exact ⟨[], by rw [visit, List.append_nil], List.Perm.refl _⟩
  | succ fuel ih =>
    cases h with
    | nil => exact ⟨[], by rw [visit, List.append_nil], List.Perm.refl _⟩
    | @cons a roots inner outer hinner houter =>
      obtain ⟨inner', hinner', hperm⟩ := hinner.reverse
      have hlen : (inner' ++ outer).length ≤ fuel := by
        rw [List.length_append, hperm.length_eq]
        rw [List.length_cons, List.length_append] at hfuel
        omega
      obtain ⟨l, hl, hlperm⟩ := ih (hinner'.append houter) hlen (out ++ [a])
      refine ⟨a :: l, ?_, (hlperm.trans (hperm.append_right outer)).cons a⟩
      rw [visit, hl, List.append_assoc, List.singleton_append]

theorem roots_subset (h : Nest children roots nodes) : roots ⊆ nodes := by
  induction h with
  | nil => exact List.Subset.refl _
  | cons _ _ _ ih =>
    exact List.cons_subset_cons _ (List.Subset.trans ih (List.subset_append_right _ _))

/-- The nodes hold their children. -/
theorem children_subset (h : Nest children roots nodes) {a : α} (ha : a ∈ nodes) :
    children a ⊆ nodes := by
  induction h with
  | nil => cases ha
  | @cons r roots inner outer hinner _ ih₁ ih₂ =>
    have hleft : inner ⊆ r :: (inner ++ outer) := fun b hb =>
      List.mem_cons_of_mem _ (List.mem_append_left _ hb)
    have hright : outer ⊆ r :: (inner ++ outer) := fun b hb =>
      List.mem_cons_of_mem _ (List.mem_append_right _ hb)
    rcases List.mem_cons.mp ha with rfl | ha
    · exact List.Subset.trans hinner.roots_subset hleft
    · rcases List.mem_append.mp ha with ha | ha
      · exact List.Subset.trans (ih₁ ha) hleft
      · exact List.Subset.trans (ih₂ ha) hright

/-- `b` is one of the roots, or a child of a child … of one. -/
def Leads (children : α → List α) (roots : List α) (b : α) : Prop :=
  ∃ r ∈ roots, Relation.ReflTransGen (fun a b => b ∈ children a) r b

theorem mem_iff (h : Nest children roots nodes) {b : α} :
    b ∈ nodes ↔ Leads children roots b := by
  constructor
  · intro hb
    induction h with
    | nil => cases hb
    | @cons a roots inner outer _ _ ih₁ ih₂ =>
      rcases List.mem_cons.mp hb with rfl | hb
      · exact ⟨b, List.mem_cons_self, Relation.ReflTransGen.refl⟩
      · rcases List.mem_append.mp hb with hb | hb
        · obtain ⟨r, hr, hrb⟩ := ih₁ hb
          exact ⟨a, List.mem_cons_self, hrb.head hr⟩
        · obtain ⟨r, hr, hrb⟩ := ih₂ hb
          exact ⟨r, List.mem_cons_of_mem _ hr, hrb⟩
  · rintro ⟨r, hr, hrb⟩
    induction hrb with
    | refl => exact h.roots_subset hr
    | tail _ hbc ih => exact h.children_subset ih hbc

/-- In a tree whose nodes are distinct, the root is nobody's child. -/
theorem root_not_mem_children {r : α} (h : Nest children [r] nodes) (hnodup : nodes.Nodup)
    {a : α} (ha : a ∈ nodes) : r ∉ children a := by
  cases h with
  | @cons _ _ inner outer hinner houter =>
    cases houter
    rw [List.append_nil] at ha hnodup
    have hr : r ∉ inner := (List.nodup_cons.mp hnodup).1
    rcases List.mem_cons.mp ha with rfl | ha
    · exact fun hmem => hr (hinner.roots_subset hmem)
    · exact fun hmem => hr (hinner.children_subset ha hmem)

theorem exists_sub {children' : α → List α} (hsub : ∀ a, (children' a).Sublist (children a))
    (h : Nest children roots nodes) {roots' : List α} (hroots : roots'.Sublist roots) :
    ∃ nodes', Nest children' roots' nodes' ∧ nodes'.Sublist nodes := by
  induction h generalizing roots' with
  | nil =>
    obtain rfl := List.sublist_nil.mp hroots
    exact ⟨[], nil, List.Sublist.refl _⟩
  | @cons a roots inner outer _ _ ih₁ ih₂ =>
    cases hroots with
    | cons _ hroots =>
      obtain ⟨nodes', hnest, hnodes⟩ := ih₂ hroots
      exact ⟨nodes', hnest, (hnodes.trans (List.sublist_append_right _ _)).cons a⟩
    | cons_cons _ hroots =>
      obtain ⟨inner', hinner, hinnerSub⟩ := ih₁ (hsub a)
      obtain ⟨outer', houter, houterSub⟩ := ih₂ hroots
      exact ⟨_, cons hinner houter, (hinnerSub.append houterSub).cons_cons a⟩

end Nest
