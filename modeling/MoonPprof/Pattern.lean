/-
Regular expressions by backtracking.

A `Pattern` lists the beginnings of a text that it matches, the preferred one
first, each with the rest of the text; `leftmost` tries the suffixes of a text
one after the other, as a search does.

* `mem_seq`, `mem_alt`, `mem_many`, `mem_many1`, `mem_lit` — what each pattern
  matches, whatever the preference;
* `leftmost_eq_some_iff` — what a search finds.
-/
import Mathlib.Data.List.Infix
import Mathlib.Tactic.Common

universe u

/-- The matches at the start of a text, in order of preference. -/
abbrev Pattern (α : Type u) := List α → List (List α × List α)

namespace Pattern

variable {α : Type u}

/-! ### Patterns -/

/-- One character of a class. -/
def one (p : α → Bool) : Pattern α
  | [] => []
  | c :: rest => if p c then [([c], rest)] else []

def seq (r r' : Pattern α) : Pattern α := fun s =>
  (r s).flatMap fun m => (r' m.2).map fun m' => (m.1 ++ m'.1, m'.2)

def alt (r r' : Pattern α) : Pattern α := fun s => r s ++ r' s

/-- `p*`, as many as there are before fewer. -/
def many (p : α → Bool) : Pattern α
  | [] => [([], [])]
  | c :: rest =>
    if p c then (many p rest).map (fun m => (c :: m.1, m.2)) ++ [([], c :: rest)]
    else [([], c :: rest)]

/-- `p+`. -/
def many1 (p : α → Bool) : Pattern α := seq (one p) (many p)

/-- A fixed text. -/
def lit [DecidableEq α] : List α → Pattern α
  | [], s => [([], s)]
  | c :: cs, s => seq (one (· = c)) (lit cs) s

/-- The text of the group `r` in the preferred match of `r` and then `r'`. -/
def group (r r' : Pattern α) (s : List α) : Option (List α) :=
  ((r s).flatMap fun m => (r' m.2).map fun _ => m.1).head?

/-- The first place of a text where `f` has a result. -/
def leftmost {β : Type u} (f : List α → Option β) : List α → Option β
  | [] => f []
  | c :: s => (f (c :: s)).or (leftmost f s)

/-! ### What they match -/

theorem mem_one {p : α → Bool} {s x rest : List α} :
    (x, rest) ∈ one p s ↔ ∃ c, p c ∧ x = [c] ∧ s = c :: rest := by
  cases s with
  | nil =>
    refine iff_of_false List.not_mem_nil ?_
    rintro ⟨c, -, -, h⟩
    cases h
  | cons d s =>
    rw [one]
    constructor
    · intro h
      by_cases hd : p d
      · rw [if_pos hd, List.mem_singleton] at h
        obtain ⟨rfl, rfl⟩ := Prod.mk.inj h
        exact ⟨d, hd, rfl, rfl⟩
      · rw [if_neg hd] at h
        cases h
    · rintro ⟨c, hc, rfl, h⟩
      obtain ⟨rfl, rfl⟩ := List.cons.inj h
      rw [if_pos hc]
      exact List.mem_cons_self

theorem mem_seq {r r' : Pattern α} {s x rest : List α} :
    (x, rest) ∈ seq r r' s ↔
      ∃ y z mid, (y, mid) ∈ r s ∧ (z, rest) ∈ r' mid ∧ x = y ++ z := by
  rw [seq, List.mem_flatMap]
  constructor
  · rintro ⟨⟨y, mid⟩, hy, h⟩
    obtain ⟨⟨z, rest'⟩, hz, heq⟩ := List.mem_map.mp h
    obtain ⟨rfl, rfl⟩ := Prod.mk.inj heq
    exact ⟨y, z, mid, hy, hz, rfl⟩
  · rintro ⟨y, z, mid, hy, hz, rfl⟩
    exact ⟨(y, mid), hy, List.mem_map.mpr ⟨(z, rest), hz, rfl⟩⟩

theorem mem_alt {r r' : Pattern α} {s : List α} {m : List α × List α} :
    m ∈ alt r r' s ↔ m ∈ r s ∨ m ∈ r' s :=
  List.mem_append

theorem mem_many {p : α → Bool} {s x rest : List α} :
    (x, rest) ∈ many p s ↔ s = x ++ rest ∧ ∀ c ∈ x, p c := by
  induction s generalizing x with
  | nil =>
    rw [many, List.mem_singleton]
    constructor
    · intro h
      obtain ⟨rfl, rfl⟩ := Prod.mk.inj h
      exact ⟨rfl, nofun⟩
    · rintro ⟨h, -⟩
      obtain ⟨rfl, rfl⟩ := List.append_eq_nil_iff.mp h.symm
      rfl
  | cons d s ih =>
    rw [many]
    constructor
    · intro h
      -- a character that matches may be taken, and need not be
      by_cases hd : p d
      · rw [if_pos hd, List.mem_append] at h
        rcases h with h | h
        · obtain ⟨⟨y, rest'⟩, hy, heq⟩ := List.mem_map.mp h
          obtain ⟨rfl, rfl⟩ := Prod.mk.inj heq
          obtain ⟨rfl, hall⟩ := ih.mp hy
          exact ⟨rfl, List.forall_mem_cons.mpr ⟨hd, hall⟩⟩
        · obtain ⟨rfl, rfl⟩ := Prod.mk.inj (List.mem_singleton.mp h)
          exact ⟨rfl, nofun⟩
      · rw [if_neg hd, List.mem_singleton] at h
        obtain ⟨rfl, rfl⟩ := Prod.mk.inj h
        exact ⟨rfl, nofun⟩
    · rintro ⟨heq, hall⟩
      cases x with
      | nil =>
        rw [List.nil_append] at heq
        subst heq
        by_cases hd : p d
        · rw [if_pos hd]
          exact List.mem_append_right _ List.mem_cons_self
        · rw [if_neg hd]
          exact List.mem_cons_self
      | cons c x =>
        obtain ⟨rfl, rfl⟩ := List.cons.inj heq
        rw [List.forall_mem_cons] at hall
        rw [if_pos hall.1]
        exact List.mem_append_left _ (List.mem_map.mpr ⟨(x, rest), ih.mpr ⟨rfl, hall.2⟩, rfl⟩)

theorem mem_many1 {p : α → Bool} {s x rest : List α} :
    (x, rest) ∈ many1 p s ↔ s = x ++ rest ∧ x ≠ [] ∧ ∀ c ∈ x, p c := by
  rw [many1, mem_seq]
  constructor
  · rintro ⟨y, z, mid, hy, hz, rfl⟩
    obtain ⟨c, hc, rfl, rfl⟩ := mem_one.mp hy
    obtain ⟨rfl, hall⟩ := mem_many.mp hz
    exact ⟨rfl, List.cons_ne_nil _ _, List.forall_mem_cons.mpr ⟨hc, hall⟩⟩
  · rintro ⟨rfl, hne, hall⟩
    cases x with
    | nil => exact absurd rfl hne
    | cons c x =>
      rw [List.forall_mem_cons] at hall
      exact ⟨[c], x, x ++ rest, mem_one.mpr ⟨c, hall.1, rfl, rfl⟩, mem_many.mpr ⟨rfl, hall.2⟩, rfl⟩

theorem mem_lit [DecidableEq α] {t s x rest : List α} :
    (x, rest) ∈ lit t s ↔ x = t ∧ s = t ++ rest := by
  induction t generalizing s x with
  | nil =>
    rw [lit, List.mem_singleton, Prod.mk.injEq, List.nil_append]
    exact and_congr_right fun _ => eq_comm
  | cons c t ih =>
    rw [lit, mem_seq]
    constructor
    · rintro ⟨y, z, mid, hy, hz, rfl⟩
      obtain ⟨d, hd, rfl, rfl⟩ := mem_one.mp hy
      obtain ⟨rfl, rfl⟩ := ih.mp hz
      rw [of_decide_eq_true hd]
      exact ⟨rfl, rfl⟩
    · rintro ⟨rfl, rfl⟩
      exact ⟨[c], t, t ++ rest, mem_one.mpr ⟨c, decide_eq_true rfl, rfl, rfl⟩, ih.mpr ⟨rfl, rfl⟩,
        rfl⟩

/-- A group that can have one text only. -/
theorem group_eq_some_iff {r r' : Pattern α} {s x : List α}
    (hone : ∀ y y' mid mid', (y, mid) ∈ r s → (y', mid') ∈ r s → r' mid ≠ [] → r' mid' ≠ [] →
      y = y') :
    group r r' s = some x ↔ ∃ mid, (x, mid) ∈ r s ∧ r' mid ≠ [] := by
  have hmem : ∀ y, y ∈ ((r s).flatMap fun m => (r' m.2).map fun _ => m.1) ↔
      ∃ mid, (y, mid) ∈ r s ∧ r' mid ≠ [] := by
    intro y
    rw [List.mem_flatMap]
    constructor
    · rintro ⟨⟨z, mid⟩, hz, h⟩
      obtain ⟨m, hm, rfl⟩ := List.mem_map.mp h
      exact ⟨mid, hz, List.ne_nil_of_mem hm⟩
    · rintro ⟨mid, hy, hne⟩
      obtain ⟨m, hm⟩ := List.exists_mem_of_ne_nil _ hne
      exact ⟨(y, mid), hy, List.mem_map.mpr ⟨m, hm, rfl⟩⟩
  rw [group, ← hmem]
  constructor
  · exact List.mem_of_mem_head?
  · intro hx
    -- the preferred match is one of the matches, and these agree on the group
    rcases hl : ((r s).flatMap fun m => (r' m.2).map fun _ => m.1) with _ | ⟨y, l⟩
    · rw [hl] at hx
      cases hx
    · have hy : y ∈ ((r s).flatMap fun m => (r' m.2).map fun _ => m.1) :=
        hl ▸ List.mem_cons_self
      obtain ⟨mid, hxm, hne⟩ := (hmem x).mp hx
      obtain ⟨mid', hym, hne'⟩ := (hmem y).mp hy
      rw [hone x y mid mid' hxm hym hne hne', hl]
      rfl

/-! ### The search -/

variable {β : Type u} {f : List α → Option β}

theorem leftmost_eq_none_iff {s : List α} :
    leftmost f s = none ↔ ∀ rest, rest <:+ s → f rest = none := by
  induction s with
  | nil =>
    rw [leftmost]
    constructor
    · intro h rest hrest
      rwa [List.suffix_nil.mp hrest]
    · intro h
      exact h [] (List.suffix_refl [])
  | cons c s ih =>
    rw [leftmost, Option.or_eq_none_iff, ih]
    constructor
    · rintro ⟨hhere, hlater⟩ rest hrest
      rcases List.suffix_cons_iff.mp hrest with rfl | hrest
      · exact hhere
      · exact hlater rest hrest
    · intro h
      exact ⟨h _ (List.suffix_refl _),
        fun rest hrest => h rest (hrest.trans (List.suffix_cons c s))⟩

/-- A result at a place such that no earlier place has one. -/
theorem leftmost_eq_some_iff {s : List α} {b : β} :
    leftmost f s = some b ↔ ∃ rest, rest <:+ s ∧ f rest = some b ∧
      ∀ rest', rest' <:+ s → rest.length < rest'.length → f rest' = none := by
  induction s with
  | nil =>
    rw [leftmost]
    constructor
    · intro h
      refine ⟨[], List.suffix_refl [], h, fun rest' hrest' hlt => ?_⟩
      rw [List.suffix_nil.mp hrest'] at hlt
      exact absurd hlt (Nat.lt_irrefl _)
    · rintro ⟨rest, hrest, h, -⟩
      rwa [List.suffix_nil.mp hrest] at h
  | cons c s ih =>
    rw [leftmost]
    -- a result here comes before all places behind it
    cases hhere : f (c :: s) with
    | some b' =>
      rw [Option.some_or]
      constructor
      · intro h
        refine ⟨c :: s, List.suffix_refl _, hhere.trans h, fun rest' hrest' hlt => ?_⟩
        exact absurd hrest'.length_le (Nat.not_le.mpr hlt)
      · rintro ⟨rest, hrest, h, hearlier⟩
        rcases List.suffix_cons_iff.mp hrest with rfl | hrest
        · exact hhere.symm.trans h
        · have hlt : rest.length < (c :: s).length := by
            rw [List.length_cons]
            exact Nat.lt_succ_of_le hrest.length_le
          rw [hearlier _ (List.suffix_refl _) hlt] at hhere
          cases hhere
    | none =>
      rw [Option.none_or, ih]
      constructor
      · rintro ⟨rest, hrest, h, hearlier⟩
        refine ⟨rest, hrest.trans (List.suffix_cons c s), h, fun rest' hrest' hlt => ?_⟩
        rcases List.suffix_cons_iff.mp hrest' with rfl | hrest'
        · exact hhere
        · exact hearlier rest' hrest' hlt
      · rintro ⟨rest, hrest, h, hearlier⟩
        rcases List.suffix_cons_iff.mp hrest with rfl | hrest
        · rw [hhere] at h
          cases h
        · exact ⟨rest, hrest, h, fun rest' hrest' hlt =>
            hearlier rest' (hrest'.trans (List.suffix_cons c s)) hlt⟩

/-- A text of two parts, where what `f` finds in the first does not reach the second. -/
theorem leftmost_append {s t : List α} (hf : ∀ r, r <:+ s → f (r ++ t) = f r) (hnil : f [] = none) :
    leftmost f (s ++ t) = (leftmost f s).or (leftmost f t) := by
  induction s with
  | nil => rw [List.nil_append, leftmost, hnil, Option.none_or]
  | cons c s ih =>
    have hhere := hf (c :: s) (List.suffix_refl _)
    rw [List.cons_append] at hhere
    rw [List.cons_append, leftmost, leftmost, hhere,
      ih fun r hr => hf r (hr.trans (List.suffix_cons c s)), Option.or_assoc]

end Pattern
