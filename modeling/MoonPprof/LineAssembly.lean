/-
Cutting a stream into lines, and several streams through one buffer.

`finished p xs` are the lines of `xs`, each with the element that ends it, and
`unfinished p xs` is what follows the last of these ends; `eq_flatMap_append` says that nothing is
lost and nothing moved.

A list of tagged elements is the traffic of several streams.  Put through one
buffer, `linesFor tag` are the lines that the ends of one stream cut off,
whichever stream their elements are from.

* `linesFor_eq_iff` — every stream gets exactly its own lines if and only if
  every line is ended by the stream that wrote it all, `Clean`;
* `Clean.unfinished_eq` — what is left in the buffer is then each stream's own;
* `linesFor_rest_eq_iff` — and the buffer is one stream's rest if and only if
  it is also all of one stream, `Single`.
-/
import Mathlib.Data.List.Basic
import Mathlib.Data.List.Induction
import Mathlib.Tactic.Common

namespace LineAssembly

universe u v

variable {α : Type u} (p : α → Bool)

/-- One more element: it ends the line or is put at its end. -/
def push (st : List (List α × α) × List α) (x : α) : List (List α × α) × List α :=
  if p x then (st.1 ++ [(st.2, x)], []) else (st.1, st.2 ++ [x])

def finished (xs : List α) : List (List α × α) := (xs.foldl (push p) ([], [])).1

def unfinished (xs : List α) : List α := (xs.foldl (push p) ([], [])).2

theorem finished_concat (xs : List α) (x : α) :
    finished p (xs ++ [x]) =
      if p x then finished p xs ++ [(unfinished p xs, x)] else finished p xs := by
  rw [finished, List.foldl_append, List.foldl_cons, List.foldl_nil, push]
  split
  · rfl
  · rfl

theorem unfinished_concat (xs : List α) (x : α) :
    unfinished p (xs ++ [x]) = if p x then [] else unfinished p xs ++ [x] := by
  rw [unfinished, List.foldl_append, List.foldl_cons, List.foldl_nil, push]
  split
  · rfl
  · rfl

/-- The lines with their ends and the rest are the whole. -/
theorem eq_flatMap_append (xs : List α) :
    xs = ((finished p xs).flatMap fun l => l.1 ++ [l.2]) ++ unfinished p xs := by
  induction xs using List.reverseRecOn with
  | nil => rfl
  | append_singleton xs x ih =>
    rw [finished_concat, unfinished_concat]
    by_cases hx : p x
    · rw [if_pos hx, if_pos hx, List.flatMap_append, List.append_nil, List.flatMap_singleton,
        ← List.append_assoc, ← ih]
    · rw [if_neg hx, if_neg hx, ← List.append_assoc, ← ih]

theorem unfinished_not (xs : List α) : ∀ x ∈ unfinished p xs, ¬p x := by
  induction xs using List.reverseRecOn with
  | nil => exact nofun
  | append_singleton xs x ih =>
    rw [unfinished_concat]
    intro y hy
    by_cases hx : p x
    · rw [if_pos hx] at hy
      cases hy
    · rw [if_neg hx] at hy
      rcases List.mem_append.mp hy with hy | hy
      · exact ih y hy
      · rwa [List.mem_singleton.mp hy]

/-- Only the ends of lines satisfy `p`. -/
theorem finished_not (xs : List α) : ∀ l ∈ finished p xs, (∀ x ∈ l.1, ¬p x) ∧ p l.2 := by
  induction xs using List.reverseRecOn with
  | nil => exact nofun
  | append_singleton xs x ih =>
    rw [finished_concat]
    intro l hl
    by_cases hx : p x
    · rw [if_pos hx] at hl
      rcases List.mem_append.mp hl with hl | hl
      · exact ih l hl
      · rw [List.mem_singleton.mp hl]
        exact ⟨unfinished_not p xs, hx⟩
    · rw [if_neg hx] at hl
      exact ih l hl

theorem finished_of_not {xs : List α} (h : ∀ x ∈ xs, ¬p x) :
    finished p xs = [] ∧ unfinished p xs = xs := by
  induction xs using List.reverseRecOn with
  | nil => exact ⟨rfl, rfl⟩
  | append_singleton xs x ih =>
    obtain ⟨hfinished, hunfinished⟩ := ih fun y hy => h y (List.mem_append_left _ hy)
    have hx : ¬p x := h x (List.mem_append_right _ List.mem_cons_self)
    rw [finished_concat, unfinished_concat, if_neg hx, if_neg hx, hunfinished]
    exact ⟨hfinished, rfl⟩

/-- More of the stream meets what the last line left in the buffer. -/
theorem finished_append (xs ys : List α) :
    finished p (xs ++ ys) = finished p xs ++ finished p (unfinished p xs ++ ys) ∧
      unfinished p (xs ++ ys) = unfinished p (unfinished p xs ++ ys) := by
  induction ys using List.reverseRecOn with
  | nil =>
    obtain ⟨hfinished, hunfinished⟩ := finished_of_not p (unfinished_not p xs)
    rw [List.append_nil, List.append_nil, hfinished, hunfinished, List.append_nil]
    exact ⟨rfl, rfl⟩
  | append_singleton ys y ih =>
    obtain ⟨hfinished, hunfinished⟩ := ih
    rw [← List.append_assoc, ← List.append_assoc, finished_concat, unfinished_concat,
      finished_concat, unfinished_concat, hfinished, hunfinished]
    by_cases hy : p y
    · rw [if_pos hy, if_pos hy, if_pos hy, List.append_assoc]
      exact ⟨rfl, rfl⟩
    · rw [if_neg hy, if_neg hy, if_neg hy]
      exact ⟨rfl, rfl⟩

/-- The first line. -/
theorem finished_cons {xs ys : List α} {x : α} (hxs : ∀ y ∈ xs, ¬p y) (hx : p x) :
    finished p (xs ++ x :: ys) = (xs, x) :: finished p ys ∧
      unfinished p (xs ++ x :: ys) = unfinished p ys := by
  obtain ⟨hfinished, hunfinished⟩ := finished_of_not p hxs
  have happend := finished_append p (xs ++ [x]) ys
  rw [finished_concat, unfinished_concat, if_pos hx, if_pos hx, hfinished, hunfinished,
    List.append_assoc] at happend
  exact happend

theorem finished_map {β : Type v} (f : β → α) (xs : List β) :
    finished p (xs.map f) =
        (finished (fun x => p (f x)) xs).map (fun l => (l.1.map f, f l.2)) ∧
      unfinished p (xs.map f) = (unfinished (fun x => p (f x)) xs).map f := by
  induction xs using List.reverseRecOn with
  | nil => exact ⟨rfl, rfl⟩
  | append_singleton xs x ih =>
    obtain ⟨hfinished, hunfinished⟩ := ih
    rw [List.map_append, List.map_singleton, finished_concat, unfinished_concat, finished_concat,
      unfinished_concat, hfinished, hunfinished]
    by_cases hx : p (f x)
    · rw [if_pos hx, if_pos hx, if_pos hx, if_pos hx, List.map_append]
      exact ⟨rfl, rfl⟩
    · rw [if_neg hx, if_neg hx, if_neg hx, if_neg hx, List.map_append]
      exact ⟨rfl, rfl⟩

/-- The lines of a stream. -/
def linesOf (xs : List α) : List (List α) := (finished p xs).map Prod.fst

/-- A stream of elements that are written as several: the ends of lines, as one that ends a line,
and the others, as some that do not. -/
theorem linesOf_flatMap {β : Type v} {q : β → Bool} {enc : β → List α}
    (hend : ∀ x, q x → ∃ e, enc x = [e] ∧ p e) (hnot : ∀ x, ¬q x → ∀ e ∈ enc x, ¬p e)
    (xs : List β) :
    linesOf p (xs.flatMap enc) = (linesOf q xs).map (·.flatMap enc) ∧
      unfinished p (xs.flatMap enc) = (unfinished q xs).flatMap enc := by
  induction xs using List.reverseRecOn with
  | nil => exact ⟨rfl, rfl⟩
  | append_singleton xs x ih =>
    obtain ⟨hlines, hrest⟩ := ih
    rw [List.flatMap_append, List.flatMap_singleton, linesOf, linesOf, finished_concat,
      unfinished_concat]
    by_cases hx : q x
    · obtain ⟨e, he, hp⟩ := hend x hx
      rw [he, finished_concat, unfinished_concat, if_pos hp, if_pos hp, if_pos hx, if_pos hx,
        List.map_append, ← linesOf, hlines, hrest, List.map_append, List.map_append]
      exact ⟨rfl, rfl⟩
    · obtain ⟨hfinished, hunfinished⟩ := finished_append p (xs.flatMap enc) (enc x)
      have hnone : ∀ e ∈ unfinished p (xs.flatMap enc) ++ enc x, ¬p e := by
        intro e he
        rcases List.mem_append.mp he with he | he
        · exact unfinished_not p _ e he
        · exact hnot x hx e he
      obtain ⟨hf, hu⟩ := finished_of_not p hnone
      rw [hfinished, hunfinished, hf, hu, if_neg hx, if_neg hx, List.append_nil, ← linesOf,
        hlines, hrest, List.flatMap_append, List.flatMap_singleton]
      exact ⟨rfl, rfl⟩

/-! ### Several streams through one buffer -/

variable {τ : Type v} [DecidableEq τ]

/-- What one stream has put in. -/
def own (tag : τ) (t : List (τ × α)) : List α := (t.filter (·.1 = tag)).map Prod.snd

/-- The lines of the buffer that the stream has ended. -/
def linesFor (tag : τ) (t : List (τ × α)) : List (List α) :=
  ((finished (fun x : τ × α => p x.2) t).filter (·.2.1 = tag)).map fun l => l.1.map Prod.snd

/-- What is in the buffer. -/
def buffered (t : List (τ × α)) : List (τ × α) := unfinished (fun x : τ × α => p x.2) t

/-- A line is ended by the stream that wrote it all. -/
def Clean (t : List (τ × α)) : Prop :=
  ∀ as x bs, t = as ++ x :: bs → p x.2 → ∀ y ∈ buffered p as, y.1 = x.1

/-- What is in the buffer is of one stream. -/
def Single (t : List (τ × α)) : Prop := ∀ y ∈ buffered p t, ∀ z ∈ buffered p t, y.1 = z.1

instance (t : List (τ × α)) : Decidable (Single p t) :=
  inferInstanceAs (Decidable (∀ y ∈ buffered p t, ∀ z ∈ buffered p t, y.1 = z.1))

omit [DecidableEq τ] in
theorem clean_concat (t : List (τ × α)) (x : τ × α) :
    Clean p (t ++ [x]) ↔ Clean p t ∧ (p x.2 → ∀ y ∈ buffered p t, y.1 = x.1) := by
  constructor
  · intro h
    refine ⟨fun as y bs heq => ?_, h t x [] rfl⟩
    exact h as y (bs ++ [x]) (by rw [heq, List.append_assoc, List.cons_append])
  · rintro ⟨h, hx⟩ as y bs heq
    rcases List.eq_nil_or_concat bs with rfl | ⟨bs, z, rfl⟩
    · obtain ⟨rfl, hy⟩ := List.append_inj' heq rfl
      obtain ⟨rfl, -⟩ := List.cons.inj hy
      exact hx
    · rw [List.concat_eq_append, ← List.cons_append, ← List.append_assoc] at heq
      obtain ⟨ht, -⟩ := List.append_inj' heq rfl
      exact h as y bs ht

omit [DecidableEq τ] in
theorem clean_iff_finished (t : List (τ × α)) :
    Clean p t ↔ ∀ l ∈ finished (fun x : τ × α => p x.2) t, ∀ y ∈ l.1, y.1 = l.2.1 := by
  induction t using List.reverseRecOn with
  | nil => exact iff_of_true (fun as x bs h => absurd h (by simp)) (by simp [finished])
  | append_singleton t x ih =>
    rw [clean_concat, ih, finished_concat]
    by_cases hx : p x.2
    · rw [if_pos hx, List.forall_mem_append, List.forall_mem_singleton]
      exact and_congr_right fun _ => ⟨fun h => h hx, fun h _ => h⟩
    · rw [if_neg hx]
      exact and_iff_left fun h => absurd h hx

instance (t : List (τ × α)) : Decidable (Clean p t) :=
  decidable_of_iff _ (clean_iff_finished p t).symm

variable {p}

theorem own_concat (tag : τ) (t : List (τ × α)) (x : τ × α) :
    own tag (t ++ [x]) = if x.1 = tag then own tag t ++ [x.2] else own tag t := by
  rw [own, List.filter_append, List.map_append, ← own]
  by_cases hx : x.1 = tag
  · rw [if_pos hx, List.filter_cons_of_pos (by simpa using hx)]
    rfl
  · rw [if_neg hx, List.filter_cons_of_neg (by simpa using hx)]
    exact List.append_nil _

/-- With clean lines, each stream's share of the buffer is what it has left unfinished. -/
theorem Clean.unfinished_eq {t : List (τ × α)} (h : Clean p t) (tag : τ) :
    unfinished p (own tag t) = own tag (buffered p t) := by
  induction t using List.reverseRecOn with
  | nil => rfl
  | append_singleton t x ih =>
    obtain ⟨h, hx⟩ := (clean_concat p t x).mp h
    rw [own_concat, buffered, unfinished_concat, ← buffered]
    by_cases htag : x.1 = tag
    · rw [if_pos htag, unfinished_concat, ih h]
      by_cases hp : p x.2
      · rw [if_pos hp, if_pos hp]
        rfl
      · rw [if_neg hp, if_neg hp, own_concat, if_pos htag]
    · rw [if_neg htag, ih h]
      by_cases hp : p x.2
      · rw [if_pos hp, own, List.filter_eq_nil_iff.mpr]
        · rfl
        · intro y hy hytag
          exact htag ((hx hp y hy).symm.trans (of_decide_eq_true hytag))
      · rw [if_neg hp, own_concat, if_neg htag]

theorem linesFor_concat (tag : τ) (t : List (τ × α)) (x : τ × α) :
    linesFor p tag (t ++ [x]) =
      if p x.2 ∧ x.1 = tag then linesFor p tag t ++ [(buffered p t).map Prod.snd]
      else linesFor p tag t := by
  rw [linesFor, finished_concat]
  by_cases hp : p x.2
  · rw [if_pos hp, List.filter_append, List.map_append, ← linesFor]
    by_cases htag : x.1 = tag
    · rw [if_pos ⟨hp, htag⟩, List.filter_cons_of_pos (by simpa using htag)]
      rfl
    · rw [if_neg fun h => htag h.2, List.filter_cons_of_neg (by simpa using htag)]
      exact List.append_nil _
  · rw [if_neg hp, if_neg fun h => hp h.1, linesFor]

theorem linesOf_own_concat (tag : τ) (t : List (τ × α)) (x : τ × α) :
    linesOf p (own tag (t ++ [x])) =
      if p x.2 ∧ x.1 = tag then linesOf p (own tag t) ++ [unfinished p (own tag t)]
      else linesOf p (own tag t) := by
  rw [own_concat]
  by_cases htag : x.1 = tag
  · rw [if_pos htag, linesOf, finished_concat]
    by_cases hp : p x.2
    · rw [if_pos hp, if_pos ⟨hp, htag⟩, List.map_append, ← linesOf]
      rfl
    · rw [if_neg hp, if_neg fun h => hp h.1, linesOf]
  · rw [if_neg htag, if_neg fun h => htag h.2]

/-- A buffer is one stream's own only if nobody else has put anything in. -/
theorem forall_tag_of_own_eq {t : List (τ × α)} {tag : τ} (h : t.map Prod.snd = own tag t) :
    ∀ y ∈ t, y.1 = tag := by
  have hlength := congrArg List.length h
  rw [own, List.length_map, List.length_map] at hlength
  have hfilter := (List.filter_sublist (p := fun x : τ × α => decide (x.1 = tag))).eq_of_length
    hlength.symm
  intro y hy
  rw [← hfilter] at hy
  exact of_decide_eq_true (List.mem_filter.mp hy).2

theorem linesFor_eq_iff (t : List (τ × α)) :
    (∀ tag, linesFor p tag t = linesOf p (own tag t)) ↔ Clean p t := by
  induction t using List.reverseRecOn with
  | nil =>
    refine iff_of_true (fun tag => rfl) fun as x bs h => ?_
    exact absurd h (by simp)
  | append_singleton t x ih =>
    rw [clean_concat, ← ih]
    constructor
    · intro h
      have hinit : ∀ tag, linesFor p tag t = linesOf p (own tag t) := by
        intro tag
        have htag := h tag
        rw [linesFor_concat, linesOf_own_concat] at htag
        split at htag
        · exact (List.append_inj' htag rfl).1
        · exact htag
      refine ⟨hinit, fun hp => ?_⟩
      -- the line that `x` ends is read from both sides: all of the buffer is its own
      have hlast := h x.1
      rw [linesFor_concat, linesOf_own_concat, if_pos ⟨hp, rfl⟩, if_pos ⟨hp, rfl⟩,
        (ih.mp hinit).unfinished_eq] at hlast
      exact forall_tag_of_own_eq (List.cons.inj (List.append_inj' hlast rfl).2).1
    · rintro ⟨h, hx⟩ tag
      rw [linesFor_concat, linesOf_own_concat, h tag]
      by_cases hp : p x.2 ∧ x.1 = tag
      · have hall : own tag (buffered p t) = (buffered p t).map Prod.snd := by
          rw [own, List.filter_eq_self.mpr fun y hy => decide_eq_true ((hx hp.1 y hy).trans hp.2)]
        rw [if_pos hp, if_pos hp, (ih.mp h).unfinished_eq, hall]
      · rw [if_neg hp, if_neg hp]

/-- Only one stream has put anything in the buffer: it is the rest of that stream. -/
theorem single_iff_own [Nonempty τ] (t : List (τ × α)) :
    (∃ tag, (buffered p t).map Prod.snd = own tag (buffered p t) ∧
      ∀ tag' ≠ tag, own tag' (buffered p t) = []) ↔ Single p t := by
  constructor
  · rintro ⟨tag, hown, -⟩ y hy z hz
    exact (forall_tag_of_own_eq hown y hy).trans (forall_tag_of_own_eq hown z hz).symm
  · intro h
    obtain ⟨tag, htag⟩ : ∃ tag, ∀ y ∈ buffered p t, y.1 = tag := by
      cases hbuf : buffered p t with
      | nil => exact ⟨Classical.arbitrary τ, by simp⟩
      | cons x rest =>
        exact ⟨x.1, fun y hy => h y (hbuf ▸ hy) x (hbuf ▸ List.mem_cons_self)⟩
    refine ⟨tag, ?_, fun tag' hne => ?_⟩
    · rw [own, List.filter_eq_self.mpr fun y hy => decide_eq_true (htag y hy)]
    · rw [own, List.filter_eq_nil_iff.mpr, List.map_nil]
      intro y hy heq
      exact hne ((of_decide_eq_true heq).symm.trans (htag y hy))

/-- Lines and rest are each stream's own if and only if no line and not the buffer is shared. -/
theorem linesFor_rest_eq_iff [Nonempty τ] (t : List (τ × α)) :
    ((∀ tag, linesFor p tag t = linesOf p (own tag t)) ∧
      ∃ tag, (buffered p t).map Prod.snd = unfinished p (own tag t) ∧
        ∀ tag' ≠ tag, unfinished p (own tag' t) = []) ↔ Clean p t ∧ Single p t := by
  rw [linesFor_eq_iff]
  refine and_congr_right fun h => ?_
  rw [← single_iff_own]
  simp only [h.unfinished_eq]

/-- A stream puts in several elements at once. -/
theorem linesFor_append {t s : List (τ × α)} {tag : τ} (hs : ∀ x ∈ s, x.1 = tag) (tag' : τ) :
    linesFor p tag' (t ++ s) = linesFor p tag' t ++
      if tag' = tag then linesOf p ((buffered p t).map Prod.snd ++ s.map Prod.snd) else [] := by
  set q := fun x : τ × α => p x.2
  -- nothing in the buffer ends a line, so each line is ended by what is put in now
  have hends : ∀ l ∈ finished q (buffered p t ++ s), l.2.1 = tag := by
    intro l hl
    have hmem : l.2 ∈ buffered p t ++ s := by
      rw [eq_flatMap_append q (buffered p t ++ s)]
      refine List.mem_append_left _ (List.mem_flatMap.mpr ⟨l, hl, ?_⟩)
      exact List.mem_append_right _ List.mem_cons_self
    rcases List.mem_append.mp hmem with h | h
    · exact absurd (finished_not q _ l hl).2 (unfinished_not q t _ h)
    · exact hs _ h
  have hbodies : (finished q (buffered p t ++ s)).map (fun l => l.1.map Prod.snd) =
      linesOf p ((buffered p t).map Prod.snd ++ s.map Prod.snd) := by
    rw [linesOf, ← List.map_append, (finished_map p Prod.snd _).1, List.map_map]
    rfl
  rw [linesFor, (finished_append q t s).1, List.filter_append, List.map_append, ← linesFor]
  refine congrArg (linesFor p tag' t ++ ·) ?_
  by_cases htag : tag' = tag
  · rw [if_pos htag, ← hbodies]
    exact congrArg (List.map _) (List.filter_eq_self.mpr fun l hl =>
      decide_eq_true ((hends l hl).trans htag.symm))
  · rw [if_neg htag]
    refine List.map_eq_nil_iff.mpr (List.filter_eq_nil_iff.mpr fun l hl h => ?_)
    exact htag ((of_decide_eq_true h).symm.trans (hends l hl))

omit [DecidableEq τ] in
theorem buffered_append (t s : List (τ × α)) :
    (buffered p (t ++ s)).map Prod.snd =
      unfinished p ((buffered p t).map Prod.snd ++ s.map Prod.snd) := by
  rw [buffered, (finished_append _ t s).2, ← (finished_map p Prod.snd _).2, List.map_append]
  rfl

end LineAssembly
