/-
Lists, entry by entry.

* `getElem?_concat_eq_some`, `forall_getElem?_concat` — the entries of a list with one
  more at its end;
* `mapM_eq_some_of_forall₂`, `forall₂_filterMap` — what a partial function makes of a
  list, matched with it;
* `forall₂_filter_filterMap` — whether it makes something of all elements that pass a
  test;
* `bind_eq_ok`, `foldlM_cons_eq_ok` — one step, and one turn of a loop, that may fail.
-/
import Mathlib.Data.List.Forall2

universe u v

/-! ### Positions -/

theorem getElem?_of_isPrefix {α : Type u} {l l' : List α} (h : l <+: l') {i : Nat} {a : α}
    (hi : l[i]? = some a) : l'[i]? = some a := by
  obtain ⟨t, rfl⟩ := h
  rw [List.getElem?_append_left (List.getElem?_eq_some_iff.mp hi).1]
  exact hi

theorem getElem?_concat_eq_some {α : Type u} {l : List α} {a b : α} {i : Nat} :
    (l ++ [a])[i]? = some b ↔ l[i]? = some b ∨ i = l.length ∧ a = b := by
  rcases Nat.lt_trichotomy i l.length with hlt | rfl | hgt
  · rw [List.getElem?_append_left hlt]
    exact (or_iff_left fun h => Nat.ne_of_lt hlt h.1).symm
  · rw [List.getElem?_concat_length, Option.some.injEq, List.getElem?_eq_none (Nat.le_refl _)]
    simp
  · rw [List.getElem?_eq_none (by simp; omega), List.getElem?_eq_none (Nat.le_of_lt hgt)]
    simp [Nat.ne_of_gt hgt]

/-- What holds of the entries of a list by their index, and of one more entry at the
end of it. -/
theorem forall_getElem?_concat {α : Type u} {P : Nat → α → Prop} {l : List α} {a : α}
    (h : ∀ i b, l[i]? = some b → P i b) (ha : P l.length a) :
    ∀ i b, (l ++ [a])[i]? = some b → P i b := by
  intro i b hb
  rcases getElem?_concat_eq_some.mp hb with hb | ⟨rfl, rfl⟩
  · exact h i b hb
  · exact ha

/-! ### Matched lists -/

theorem mapM_eq_some_of_forall₂ {α β : Type} {f : α → Option β} {xs : List α} {ys : List β}
    (h : List.Forall₂ (fun x y => f x = some y) xs ys) : xs.mapM f = some ys := by
  induction h with
  | nil => rfl
  | cons hx _ ih => rw [List.mapM_cons, hx, ih]; rfl

theorem forall₂_of_mapM {α β : Type} {f : α → Option β} {xs : List α} {ys : List β}
    (h : xs.mapM f = some ys) : List.Forall₂ (fun x y => f x = some y) xs ys := by
  induction xs generalizing ys with
  | nil =>
    cases h
    exact .nil
  | cons x xs ih =>
    rw [List.mapM_cons] at h
    simp only [Option.bind_eq_bind, Option.bind_eq_some_iff, Option.pure_def,
      Option.some.injEq] at h
    obtain ⟨y, hy, ys, hys, rfl⟩ := h
    exact .cons hy (ih hys)

theorem map_eq_map_of_forall₂ {α β γ : Type} {R : α → β → Prop} {f : α → γ} {g : β → γ}
    {xs : List α} {ys : List β} (h : List.Forall₂ R xs ys) (hR : ∀ x y, R x y → f x = g y) :
    xs.map f = ys.map g := by
  rw [← List.forall₂_eq_eq_eq, List.forall₂_map_left_iff, List.forall₂_map_right_iff]
  exact h.imp hR

/-- Lists with the same keys, element by element. -/
theorem forall₂_of_map_eq {α γ : Type u} {κ : Type v} {f : α → κ} {g : γ → κ} :
    ∀ {l : List α} {m : List γ}, l.map f = m.map g →
      List.Forall₂ (fun a b => f a = g b ∧ a ∈ l ∧ b ∈ m) l m := by
  intro l m h
  rw [← List.forall₂_eq_eq_eq, List.forall₂_map_left_iff, List.forall₂_map_right_iff] at h
  refine List.forall₂_iff_get.mpr ⟨h.length_eq,
    fun i hi hj => ⟨?_, List.get_mem _ _, List.get_mem _ _⟩⟩
  exact (List.forall₂_iff_get.mp h).2 i hi hj

theorem exists_of_forall₂ {α : Type u} {γ : Type v} {R : α → γ → Prop} {l : List α} {m : List γ}
    (h : List.Forall₂ R l m) {a : α} (ha : a ∈ l) : ∃ c ∈ m, R a c := by
  induction h with
  | nil => cases ha
  | cons hac _ ih =>
    rcases List.mem_cons.mp ha with rfl | ha
    · exact ⟨_, List.mem_cons_self, hac⟩
    · obtain ⟨c, hc, hr⟩ := ih ha
      exact ⟨c, List.mem_cons_of_mem _ hc, hr⟩

/-- Lists matched up, where `f` finds a partner for each element of the first. -/
theorem forall₂_filterMap {α γ δ : Type u} {f : α → Option γ} {R : γ → δ → Prop} {l : List α}
    {m : List δ} (h : List.Forall₂ (fun a d => ∃ c, f a = some c ∧ R c d) l m) :
    List.Forall₂ R (l.filterMap f) m := by
  induction h with
  | nil => exact List.Forall₂.nil
  | cons ha _ ih =>
    obtain ⟨c, hc, hr⟩ := ha
    rw [List.filterMap_cons, hc]
    exact List.Forall₂.cons hr ih

/-- The elements that pass `p` are matched with what `f` makes of the list exactly
where `f` makes something of each of them. -/
theorem forall₂_filter_filterMap {γ δ : Type u} {p : γ → Bool} {f : γ → Option δ}
    {R : γ → δ → Prop} {xs : List γ} (hnone : ∀ x, p x = false → f x = none)
    (hrel : ∀ x s, p x = true → f x = some s → R x s) :
    List.Forall₂ R (xs.filter p) (xs.filterMap f) ↔
      ∀ x ∈ xs, p x = true → (f x).isSome = true := by
  have hfilter : xs.filterMap f = (xs.filter p).filterMap f := by
    rw [List.filterMap_filter]
    refine List.filterMap_congr fun x _ => ?_
    cases hx : p x with
    | true => rfl
    | false => exact hnone x hx
  rw [hfilter]
  constructor
  · -- an element without a partner would leave the second list shorter
    intro h x hx hp
    by_contra hno
    have hlt := List.length_filterMap_lt_length_iff_exists.mpr
      ⟨x, List.mem_filter.mpr ⟨hx, hp⟩, Option.not_isSome_iff_eq_none.mp hno⟩
    rw [← h.length_eq] at hlt
    exact Nat.lt_irrefl _ hlt
  · intro h
    refine (forall₂_filterMap (List.forall₂_same.mpr fun x hx => ?_) :
      List.Forall₂ (fun s x => R x s) _ _).flip
    obtain ⟨hmem, hp⟩ := List.mem_filter.mp hx
    obtain ⟨s, hs⟩ := Option.isSome_iff_exists.mp (h x hmem hp)
    exact ⟨s, hs, hrel x s hp hs⟩

/-! ### Loops that may fail -/

theorem bind_eq_ok {ε α β : Type} {x : Except ε α} {f : α → Except ε β} {b : β} :
    (x >>= f) = .ok b ↔ ∃ a, x = .ok a ∧ f a = .ok b := by
  cases x with
  | error e =>
    constructor
    · intro h
      cases h
    · rintro ⟨a, h, -⟩
      cases h
  | ok a =>
    constructor
    · exact fun h => ⟨a, rfl, h⟩
    · rintro ⟨a', h, hf⟩
      cases h
      exact hf

theorem foldlM_cons_eq_ok {α ε σ : Type} {f : σ → α → Except ε σ} {x : α} {xs : List α}
    {st st' : σ} : (x :: xs).foldlM f st = .ok st' ↔
      ∃ st₁, f st x = .ok st₁ ∧ xs.foldlM f st₁ = .ok st' := by
  rw [List.foldlM_cons]
  constructor
  · intro hrun
    rcases hx : f st x with e | st₁
    · rw [hx] at hrun
      cases hrun
    · rw [hx] at hrun
      exact ⟨st₁, rfl, hrun⟩
  · rintro ⟨st₁, hx, hrun⟩
    rw [hx]
    exact hrun
