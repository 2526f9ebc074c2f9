/-
Scanning a text: the first occurrence of a pattern, and the bracket that closes
another one.

* `splitAtFirst_eq_some_iff` — the text before and after the first occurrence;
* `Bracketed` — texts in which the brackets match, other symbols being free;
* `bracketed_iff` — these are the texts that a counter of open brackets passes
  through without a bracket too many or one left;
* `Bracketed.insert_iff` — a balanced part does not matter to the rest;
* `matchClose_eq_some_iff` — the counter stops at the matching bracket.
-/
import Mathlib.Data.List.Infix
import Mathlib.Tactic.Common

universe u

namespace Brackets

variable {α : Type u}

/-! ### The first occurrence -/

/-- The text before the first occurrence of `pat`, and the text after it. -/
def splitAtFirst [DecidableEq α] (pat : List α) : List α → Option (List α × List α)
  | [] => if pat = [] then some ([], []) else none
  | c :: s =>
    if pat <+: c :: s then some ([], (c :: s).drop pat.length)
    else (splitAtFirst pat s).map fun r => (c :: r.1, r.2)

/-- `pat` occurs in `s` after `before`, and not earlier. -/
structure FirstAt (pat s before after : List α) : Prop where
  split : s = before ++ pat ++ after
  first : ∀ before' after', s = before' ++ pat ++ after' → before.length ≤ before'.length

theorem splitAtFirst_eq_some_iff [DecidableEq α] {pat s before after : List α} :
    splitAtFirst pat s = some (before, after) ↔ FirstAt pat s before after := by
  induction s generalizing before with
  | nil =>
    rw [splitAtFirst]
    constructor
    · intro h
      split at h
      · rename_i hpat
        cases h
        exact ⟨by rw [hpat]; rfl, fun _ _ _ => Nat.zero_le _⟩
      · cases h
    · rintro ⟨hsplit, -⟩
      obtain ⟨hrest, rfl⟩ := List.append_eq_nil_iff.mp hsplit.symm
      obtain ⟨rfl, rfl⟩ := List.append_eq_nil_iff.mp hrest
      rfl
  | cons c s ih =>
    rw [splitAtFirst]
    by_cases hpat : pat <+: c :: s
    · rw [if_pos hpat]
      obtain ⟨t, ht⟩ := hpat
      have hdrop : (c :: s).drop pat.length = t := by rw [← ht, List.drop_left]
      rw [hdrop, Option.some.injEq, Prod.mk.injEq]
      constructor
      · rintro ⟨rfl, rfl⟩
        exact ⟨ht.symm, fun _ _ _ => Nat.zero_le _⟩
      · rintro ⟨hsplit, hfirst⟩
        have hnil : before = [] := List.length_eq_zero_iff.mp
          (Nat.le_zero.mp (hfirst [] t ht.symm))
        subst hnil
        exact ⟨rfl, List.append_cancel_left (ht.trans hsplit)⟩
    · rw [if_neg hpat]
      constructor
      · intro h
        obtain ⟨⟨before₁, after₁⟩, hrest, heq⟩ := Option.map_eq_some_iff.mp h
        cases heq
        obtain ⟨rfl, hfirst⟩ := ih.mp hrest
        refine ⟨rfl, fun before' after' hsplit => ?_⟩
        rcases before' with _ | ⟨c', before'⟩
        · exact absurd ⟨after', hsplit.symm⟩ hpat
        · rw [List.cons_append, List.cons_append, List.cons.injEq] at hsplit
          exact Nat.succ_le_succ (hfirst _ _ hsplit.2)
      · rintro ⟨hsplit, hfirst⟩
        rcases before with _ | ⟨c', before⟩
        · exact absurd ⟨after, hsplit.symm⟩ hpat
        · rw [List.cons_append, List.cons_append, List.cons.injEq] at hsplit
          obtain ⟨rfl, hsplit⟩ := hsplit
          have hrest := ih.mpr ⟨hsplit, fun before' after' h => Nat.le_of_succ_le_succ
            (hfirst (c :: before') after' (congrArg (c :: ·) h))⟩
          rw [hrest]
          rfl

/-- The first occurrence stays the first when the text after it is replaced. -/
theorem FirstAt.replace {pat s before after : List α} (h : FirstAt pat s before after)
    (after' : List α) : FirstAt pat (before ++ pat ++ after') before after' := by
  refine ⟨rfl, fun before₁ after₁ hsplit => ?_⟩
  by_contra hlt
  -- an earlier occurrence ends within `before ++ pat`, so `s` has it too
  have hprefix : before₁ ++ pat <+: before ++ pat ++ after' := by
    rw [hsplit]
    exact List.prefix_append _ _
  have hlength : (before₁ ++ pat).length ≤ (before ++ pat).length := by
    rw [List.length_append, List.length_append]
    omega
  obtain ⟨t, ht⟩ := List.prefix_of_prefix_length_le hprefix (List.prefix_append _ _) hlength
  refine hlt (h.first before₁ (t ++ after) ?_)
  rw [h.split, ← ht, List.append_assoc _ t]

/-! ### Matching brackets -/

section

variable (op cl : α)

/-- The brackets of the text match. -/
inductive Bracketed : List α → Prop
  | nil : Bracketed []
  | other {c : α} {s : List α} : c ≠ op → c ≠ cl → Bracketed s → Bracketed (c :: s)
  | group {s t : List α} : Bracketed s → Bracketed t → Bracketed (op :: s ++ cl :: t)

variable [DecidableEq α]

/-- The number of open brackets after a text, unless one is closed that is not open. -/
def openAfter : Nat → List α → Option Nat
  | n, [] => some n
  | n, c :: s =>
    if c = op then openAfter (n + 1) s
    else if c = cl then if n = 0 then none else openAfter (n - 1) s
    else openAfter n s

/-- The text up to the bracket that closes the outermost of `depth` open ones, and the
text after it. -/
def matchClose : Nat → List α → Option (List α × List α)
  | _, [] => none
  | depth, c :: s =>
    if c = op then (matchClose (depth + 1) s).map fun r => (c :: r.1, r.2)
    else if c = cl then
      if depth - 1 = 0 then some ([], s)
      else (matchClose (depth - 1) s).map fun r => (c :: r.1, r.2)
    else (matchClose depth s).map fun r => (c :: r.1, r.2)

end

variable {op cl : α}

theorem Bracketed.append {s t : List α} (hs : Bracketed op cl s) (ht : Bracketed op cl t) :
    Bracketed op cl (s ++ t) := by
  induction hs with
  | nil => exact ht
  | other hop hcl _ ih => exact .other hop hcl ih
  | @group s₁ s₂ hs₁ _ _ ih =>
    rw [List.append_assoc, List.cons_append]
    exact .group hs₁ ih

/-- With `n` brackets open, the text closes `n` of them, with balanced texts between. -/
def Closes (op cl : α) : Nat → List α → Prop
  | 0, s => Bracketed op cl s
  | n + 1, s => ∃ s₁ s₂, Bracketed op cl s₁ ∧ s = s₁ ++ cl :: s₂ ∧ Closes op cl n s₂

theorem Closes.append {n : Nat} {s t : List α} (hs : Bracketed op cl s) (ht : Closes op cl n t) :
    Closes op cl n (s ++ t) := by
  rcases n with _ | n
  · exact hs.append ht
  · obtain ⟨t₁, t₂, hbal, rfl, hrest⟩ := ht
    exact ⟨s ++ t₁, t₂, hs.append hbal, (List.append_assoc _ _ _).symm, hrest⟩

theorem Closes.cons_other {n : Nat} {c : α} {s : List α} (hop : c ≠ op) (hcl : c ≠ cl)
    (hs : Closes op cl n s) : Closes op cl n (c :: s) :=
  Closes.append (.other hop hcl .nil) hs

theorem Closes.cons_op {n : Nat} {s : List α} (hs : Closes op cl (n + 1) s) :
    Closes op cl n (op :: s) := by
  obtain ⟨s₁, s₂, hbal, rfl, hrest⟩ := hs
  have happ := Closes.append (.group hbal .nil) hrest
  rw [List.append_assoc] at happ
  exact happ

variable [DecidableEq α]

theorem openAfter_append (n : Nat) (s t : List α) :
    openAfter op cl n (s ++ t) = (openAfter op cl n s).bind fun m => openAfter op cl m t := by
  induction s generalizing n with
  | nil => rfl
  | cons c s ih =>
    rw [List.cons_append, openAfter, openAfter]
    split
    · exact ih _
    · split
      · split
        · rfl
        · exact ih _
      · exact ih _

/-- A balanced text leaves the open brackets as they are. -/
theorem openAfter_of_bracketed (h : op ≠ cl) {s : List α} (hs : Bracketed op cl s) (n : Nat) :
    openAfter op cl n s = some n := by
  induction hs generalizing n with
  | nil => rfl
  | other hop hcl _ ih =>
    rw [openAfter, if_neg hop, if_neg hcl]
    exact ih n
  | @group s t _ _ ihs iht =>
    rw [List.cons_append, openAfter, if_pos rfl, openAfter_append, ihs, Option.bind_some,
      openAfter, if_neg h.symm, if_pos rfl, if_neg (Nat.succ_ne_zero n)]
    exact iht n

theorem closes_of_openAfter {n : Nat} {s : List α} (h : openAfter op cl n s = some 0) :
    Closes op cl n s := by
  induction s generalizing n with
  | nil =>
    cases h
    exact .nil
  | cons c s ih =>
    rw [openAfter] at h
    split at h
    · rename_i hop
      rw [hop]
      exact (ih h).cons_op
    · rename_i hop
      split at h
      · rename_i hcl
        split at h
        · cases h
        · obtain ⟨m, rfl⟩ := Nat.exists_eq_succ_of_ne_zero (by assumption)
          rw [hcl]
          exact ⟨[], s, .nil, rfl, ih h⟩
      · rename_i hcl
        exact (ih h).cons_other hop hcl

/-- The brackets match exactly when the counter gets through and ends where it began. -/
theorem bracketed_iff (h : op ≠ cl) {s : List α} :
    Bracketed op cl s ↔ openAfter op cl 0 s = some 0 :=
  ⟨fun hs => openAfter_of_bracketed h hs 0, closes_of_openAfter⟩

/-- A balanced part does not matter to the brackets around it. -/
theorem Bracketed.insert_iff (h : op ≠ cl) {s : List α} (hs : Bracketed op cl s) (a b : List α) :
    Bracketed op cl (a ++ s ++ b) ↔ Bracketed op cl (a ++ b) := by
  rw [bracketed_iff h, bracketed_iff h, openAfter_append, openAfter_append, openAfter_append,
    Option.bind_assoc]
  simp only [openAfter_of_bracketed h hs, Option.bind_some]

/-- The counter passes over a balanced text. -/
theorem matchClose_append (h : op ≠ cl) {s : List α} (hs : Bracketed op cl s) (n : Nat)
    (t : List α) : matchClose op cl (n + 1) (s ++ t) =
      (matchClose op cl (n + 1) t).map fun r => (s ++ r.1, r.2) := by
  induction hs generalizing n t with
  | nil => simp
  | other hop hcl _ ih =>
    rw [List.cons_append, matchClose, if_neg hop, if_neg hcl, ih, Option.map_map]
    rfl
  | @group s₁ s₂ _ _ ih₁ ih₂ =>
    rw [List.append_assoc, List.cons_append, List.cons_append, matchClose, if_pos rfl, ih₁,
      matchClose, if_neg h.symm, if_pos rfl, if_neg (by omega), Nat.add_sub_cancel, ih₂]
    simp only [Option.map_map]
    refine congrArg (Option.map · _) (funext fun r => ?_)
    simp

/-- The counter stops at the bracket that closes the outermost open one: the text
before it is balanced. -/
theorem matchClose_eq_some_iff (h : op ≠ cl) {s body after : List α} :
    matchClose op cl 1 s = some (body, after) ↔
      s = body ++ cl :: after ∧ Bracketed op cl body := by
  constructor
  · have hrun : ∀ (s : List α) (n : Nat) (body after : List α),
        matchClose op cl (n + 1) s = some (body, after) →
        s = body ++ cl :: after ∧ Closes op cl n body := by
      intro s
      induction s with
      | nil =>
        intro n body after hmatch
        cases hmatch
      | cons c s ih =>
        intro n body after hmatch
        rw [matchClose] at hmatch
        split at hmatch
        · rename_i hop
          obtain ⟨⟨body₁, after₁⟩, hrest, heq⟩ := Option.map_eq_some_iff.mp hmatch
          cases heq
          obtain ⟨rfl, hcloses⟩ := ih (n + 1) _ _ hrest
          exact ⟨rfl, hop ▸ hcloses.cons_op⟩
        · rename_i hop
          split at hmatch
          · rename_i hcl
            rw [Nat.add_sub_cancel] at hmatch
            rcases n with _ | n
            · cases hmatch
              exact ⟨by rw [hcl]; rfl, .nil⟩
            · rw [if_neg (Nat.succ_ne_zero n)] at hmatch
              obtain ⟨⟨body₁, after₁⟩, hrest, heq⟩ := Option.map_eq_some_iff.mp hmatch
              cases heq
              obtain ⟨rfl, hcloses⟩ := ih n _ _ hrest
              exact ⟨rfl, [], body₁, .nil, by rw [hcl]; rfl, hcloses⟩
          · rename_i hcl
            obtain ⟨⟨body₁, after₁⟩, hrest, heq⟩ := Option.map_eq_some_iff.mp hmatch
            cases heq
            obtain ⟨rfl, hcloses⟩ := ih n _ _ hrest
            exact ⟨rfl, hcloses.cons_other hop hcl⟩
    exact hrun s 0 body after
  · rintro ⟨rfl, hbody⟩
    rw [matchClose_append h hbody, matchClose, if_neg h.symm, if_pos rfl]
    simp

end Brackets
