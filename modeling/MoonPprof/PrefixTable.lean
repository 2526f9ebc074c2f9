/-
Tables of paths, and the tree they make.

A `PrefixTable` interns lists together with everything they extend: it holds
`[]`, and with `p ++ [a]` also `p`.  Read as a tree, the entry `p` is a node with
the id `idOf p`, its position counted from 1, whose parent is the entry one
element shorter.

* `child_of_mem`, `child_of_not_mem` — a child is added when it is new;
* `idOf_inj` — entries have distinct ids;
* `rootPath` — from an entry the parents lead through its prefixes to `[]`.
-/
import MoonPprof.InternTable
import MoonPprof.RootPath
import Mathlib.Data.List.Infix

universe u v w

structure PrefixTable (α : Type u) [DecidableEq α] extends InternTable (List α) where
  root : items[0]? = some []
  closed : ∀ p a, p ++ [a] ∈ items → p ∈ items

namespace PrefixTable

variable {α : Type u} [DecidableEq α]

/-- The table of the empty path. -/
def empty : PrefixTable α where
  toInternTable := (InternTable.empty.intern []).2
  root := rfl
  closed := by
    intro p a h
    have hnil : p ++ [a] = [] := List.mem_singleton.mp h
    simp at hnil

/-- The id of an entry. -/
def idOf (t : PrefixTable α) (p : List α) : Int := (t.index.lookup p).getD 0 + 1

/-- The id of the parent of an entry. -/
def parentOf (t : PrefixTable α) (p : List α) : Option Int :=
  if p = [] then none else some (t.idOf p.dropLast)

theorem idOf_of_get {t : PrefixTable α} {i : Nat} {p : List α} (h : t.items[i]? = some p) :
    t.idOf p = i + 1 := by
  rw [idOf, (t.lookup_iff p i).mpr h, Option.getD_some]

theorem exists_get {t : PrefixTable α} {p : List α} (h : p ∈ t.items) :
    ∃ i : Nat, t.items[i]? = some p ∧ t.idOf p = i + 1 := by
  obtain ⟨i, hi⟩ := List.mem_iff_getElem?.mp h
  exact ⟨i, hi, idOf_of_get hi⟩

theorem idOf_inj {t : PrefixTable α} {p q : List α} (hp : p ∈ t.items) (hq : q ∈ t.items)
    (h : t.idOf p = t.idOf q) : p = q := by
  obtain ⟨i, hi, hidp⟩ := exists_get hp
  obtain ⟨j, hj, hidq⟩ := exists_get hq
  obtain rfl : i = j := by omega
  exact Option.some.inj (hi.symm.trans hj)

theorem idOf_of_isPrefix {t t' : PrefixTable α} (h : t.items <+: t'.items) {p : List α}
    (hp : p ∈ t.items) : t'.idOf p = t.idOf p := by
  obtain ⟨i, hi, hid⟩ := exists_get hp
  rw [hid, idOf_of_get (getElem?_of_isPrefix h hi)]

theorem nodup_ids (t : PrefixTable α) : (t.items.map t.idOf).Nodup := by
  rw [List.nodup_map_iff_inj_on ?_]
  · exact fun p hp q hq h => idOf_inj hp hq h
  · rw [List.nodup_iff_getElem?_ne_getElem?]
    intro i j hij hj heq
    rw [List.getElem?_eq_getElem hj] at heq
    have := t.get_inj heq (List.getElem?_eq_getElem hj)
    omega

theorem nil_mem (t : PrefixTable α) : [] ∈ t.items := List.mem_of_getElem? t.root

theorem idOf_nil (t : PrefixTable α) : t.idOf [] = 1 := idOf_of_get t.root

/-- The table with the child `a` of the entry `p`. -/
def child (t : PrefixTable α) (p : List α) (hp : p ∈ t.items) (a : α) : PrefixTable α where
  toInternTable := (t.intern (p ++ [a])).2
  root := getElem?_of_isPrefix (t.intern_isPrefix (p ++ [a])) t.root
  closed := by
    intro q b h
    by_cases hmem : p ++ [a] ∈ t.items
    · obtain ⟨i, hi⟩ := List.mem_iff_getElem?.mp hmem
      rw [InternTable.intern_of_get hi] at h ⊢
      exact t.closed q b h
    · rw [(InternTable.intern_items_of_not_mem hmem).2] at h ⊢
      rcases List.mem_append.mp h with h | h
      · exact List.mem_append_left _ (t.closed q b h)
      · obtain ⟨rfl, -⟩ := List.append_inj' (List.mem_singleton.mp h) rfl
        exact List.mem_append_left _ hp

theorem child_isPrefix (t : PrefixTable α) {p : List α} (hp : p ∈ t.items) (a : α) :
    t.items <+: (t.child p hp a).items :=
  t.intern_isPrefix (p ++ [a])

theorem child_mem (t : PrefixTable α) {p : List α} (hp : p ∈ t.items) (a : α) :
    p ++ [a] ∈ (t.child p hp a).items :=
  List.mem_of_getElem? (t.intern_get (p ++ [a]))

/-- A child that is there is not added. -/
theorem child_of_mem {t : PrefixTable α} {p : List α} (hp : p ∈ t.items) {a : α}
    (h : p ++ [a] ∈ t.items) : t.child p hp a = t := by
  obtain ⟨i, hi⟩ := List.mem_iff_getElem?.mp h
  have htable : (t.intern (p ++ [a])).2 = t.toInternTable := by
    rw [InternTable.intern_of_get hi]
  cases t
  simp only [child, mk.injEq]
  exact htable

/-- A new child is added at the end. -/
theorem child_of_not_mem {t : PrefixTable α} {p : List α} (hp : p ∈ t.items) {a : α}
    (h : p ++ [a] ∉ t.items) : (t.child p hp a).items = t.items ++ [p ++ [a]] :=
  (InternTable.intern_items_of_not_mem h).2

/-- Nothing but the child is added. -/
theorem mem_child {t : PrefixTable α} {p : List α} (hp : p ∈ t.items) {a : α} {q : List α}
    (hq : q ∈ (t.child p hp a).items) : q ∈ t.items ∨ q = p ++ [a] := by
  by_cases ha : p ++ [a] ∈ t.items
  · rw [child_of_mem hp ha] at hq
    exact Or.inl hq
  · rw [child_of_not_mem hp ha, List.mem_append, List.mem_singleton] at hq
    exact hq

theorem length_child_le {t : PrefixTable α} {p : List α} (hp : p ∈ t.items) (a : α) :
    (t.child p hp a).items.length ≤ t.items.length + 1 := by
  by_cases ha : p ++ [a] ∈ t.items
  · rw [child_of_mem hp ha]
    omega
  · rw [child_of_not_mem hp ha, List.length_append, List.length_singleton]

theorem idOf_child {t : PrefixTable α} {p : List α} (hp : p ∈ t.items) {a : α}
    (h : p ++ [a] ∉ t.items) : (t.child p hp a).idOf (p ++ [a]) = t.items.length + 1 := by
  refine idOf_of_get ?_
  rw [child_of_not_mem hp h, List.getElem?_append_right (le_refl _), Nat.sub_self,
    List.getElem?_cons_zero]

/-- A new child `a` of `p` is a child of `p` and of no other entry. -/
theorem exists_child_iff {t : PrefixTable α} {p : List α} (hp : p ∈ t.items) {a : α}
    (h : p ++ [a] ∉ t.items) (q : List α) (x : Int) :
    (∃ b, q ++ [b] ∈ (t.child p hp a).items ∧ x = (t.child p hp a).idOf (q ++ [b])) ↔
      (∃ b, q ++ [b] ∈ t.items ∧ x = t.idOf (q ++ [b])) ∨ q = p ∧ x = t.items.length + 1 := by
  have hold : ∀ {r}, r ∈ t.items → (t.child p hp a).idOf r = t.idOf r :=
    fun hr => idOf_of_isPrefix (t.child_isPrefix hp a) hr
  rw [child_of_not_mem hp h]
  constructor
  · rintro ⟨b, hb, hx⟩
    rcases List.mem_append.mp hb with hb | hb
    · exact Or.inl ⟨b, hb, hx.trans (hold hb)⟩
    · have heq := List.mem_singleton.mp hb
      rw [heq, idOf_child hp h] at hx
      exact Or.inr ⟨(List.append_inj' heq rfl).1, hx⟩
  · rintro (⟨b, hb, hx⟩ | ⟨rfl, hx⟩)
    · exact ⟨b, List.mem_append_left _ hb, hx.trans (hold hb).symm⟩
    · exact ⟨a, by simp, hx.trans (idOf_child hp h).symm⟩

/-- The parents of an entry are its prefixes. -/
theorem rootPath (t : PrefixTable α) {p : List α} (h : p ∈ t.items) :
    RootPath t.idOf t.parentOf t.items (t.idOf p) p.inits.reverse := by
  induction p using List.reverseRecOn with
  | nil => exact .root h rfl (if_pos rfl)
  | append_singleton p a ih =>
    have hparent : t.parentOf (p ++ [a]) = some (t.idOf p) := by
      rw [parentOf, if_neg (by simp), List.dropLast_concat]
    have hinits : (p ++ [a]).inits.reverse = (p ++ [a]) :: p.inits.reverse := by
      simp [List.inits_append]
    rw [hinits]
    exact .child h rfl hparent (ih (t.closed p a h))

end PrefixTable
