/-
Chains of links.

`next` gives each element at most one successor.  `LinkChain next a xs`: the
links from `a` pass the elements `xs`, `a` first, and end.

* `LinkChain.mem_iff` — the chain passes what can be reached from `a`;
* `LinkChain.nodup` — it passes nothing twice;
* `exists_linkChain_iff` — where the successors are finitely many, the links
  from `a` end exactly when they lead into no cycle.
-/
import Mathlib.Data.Fintype.Card
import Mathlib.Data.List.Nodup
import Mathlib.Data.List.Perm.Subperm
import Mathlib.Data.Set.Finite.Basic
import Mathlib.Logic.Relation

universe u

variable {α : Type u}

inductive LinkChain (next : α → Option α) : α → List α → Prop
  | last {a : α} (_ : next a = none) : LinkChain next a [a]
  | link {a b : α} {xs : List α} (_ : next a = some b) (_ : LinkChain next b xs) :
      LinkChain next a (a :: xs)

/-- `b` is the successor of `a`. -/
def Linked (next : α → Option α) (a b : α) : Prop := next a = some b

/-- The links from `a` come back to an element they have passed. -/
def IntoCycle (link : α → α → Prop) (a : α) : Prop :=
  ∃ x, Relation.ReflTransGen link a x ∧ Relation.TransGen link x x

namespace LinkChain

variable {next : α → Option α} {a : α} {xs : List α}

theorem unique (h : LinkChain next a xs) {ys : List α} (h' : LinkChain next a ys) : xs = ys := by
  induction h generalizing ys with
  | last hnone =>
    cases h' with
    | last => rfl
    | link hsome _ =>
      rw [hnone] at hsome
      cases hsome
  | link hsome _ ih =>
    cases h' with
    | last hnone =>
      rw [hsome] at hnone
      cases hnone
    | link hsome' hrest =>
      obtain rfl := Option.some.inj (hsome.symm.trans hsome')
      rw [ih hrest]

/-- The rest of the chain, from any of its elements on. -/
theorem from_mem (h : LinkChain next a xs) {x : α} (hx : x ∈ xs) :
    ∃ ys, LinkChain next x ys ∧ ys.length ≤ xs.length := by
  induction h with
  | last hnone =>
    rw [List.mem_singleton.mp hx]
    exact ⟨_, .last hnone, Nat.le_refl _⟩
  | link hsome hrest ih =>
    rcases List.mem_cons.mp hx with rfl | hx
    · exact ⟨_, .link hsome hrest, Nat.le_refl _⟩
    · obtain ⟨ys, hys, hle⟩ := ih hx
      exact ⟨ys, hys, Nat.le_succ_of_le hle⟩

theorem nodup (h : LinkChain next a xs) : xs.Nodup := by
  induction h with
  | last => exact List.nodup_singleton _
  | @link a b xs hsome hrest ih =>
    refine List.nodup_cons.mpr ⟨fun hmem => ?_, ih⟩
    -- a second visit would have to continue with the whole chain again
    obtain ⟨ys, hys, hle⟩ := hrest.from_mem hmem
    rw [hys.unique (.link hsome hrest), List.length_cons] at hle
    omega

theorem mem_iff (h : LinkChain next a xs) {x : α} :
    x ∈ xs ↔ Relation.ReflTransGen (Linked next) a x := by
  induction h with
  | @last a hnone =>
    rw [List.mem_singleton]
    constructor
    · rintro rfl
      exact .refl
    · intro hreach
      rcases hreach.cases_head with rfl | ⟨b, hlink, -⟩
      · rfl
      · rw [Linked, hnone] at hlink
        cases hlink
  | @link a b xs hsome _ ih =>
    rw [List.mem_cons, ih]
    constructor
    · rintro (rfl | hreach)
      · exact .refl
      · exact .head hsome hreach
    · intro hreach
      rcases hreach.cases_head with rfl | ⟨c, hlink, hrest⟩
      · exact .inl rfl
      · obtain rfl := Option.some.inj (hsome.symm.trans hlink)
        exact .inr hrest

/-- Links that end lead into no cycle. -/
theorem not_intoCycle (h : LinkChain next a xs) : ¬ IntoCycle (Linked next) a := by
  rintro ⟨x, hreach, hcycle⟩
  obtain ⟨ys, hys, -⟩ := h.from_mem (h.mem_iff.mpr hreach)
  obtain ⟨b, hlink, hback⟩ := Relation.TransGen.head'_iff.mp hcycle
  cases hys with
  | last hnone =>
    rw [Linked, hnone] at hlink
    cases hlink
  | @link _ c zs hsome hrest =>
    obtain rfl := Option.some.inj (hsome.symm.trans hlink)
    -- the rest of the chain would pass `x` a second time
    exact (List.nodup_cons.mp (LinkChain.link hsome hrest).nodup).1 (hrest.mem_iff.mpr hback)

end LinkChain

/-- Links that lead into no cycle end, when the successors are all in a list. -/
theorem exists_linkChain {next : α → Option α} (succs : List α)
    (hsuccs : ∀ x y, next x = some y → y ∈ succs) {a : α}
    (h : ¬ IntoCycle (Linked next) a) : ∃ xs, LinkChain next a xs := by
  -- on what can be reached from `a`, which is a finite set, the links are well-founded
  let Reached := {x // Relation.ReflTransGen (Linked next) a x}
  let above : Reached → Reached → Prop := fun y x => Relation.TransGen (Linked next) x y
  have : Finite Reached := by
    refine Set.Finite.subset (a :: succs).finite_toSet fun x hx => ?_
    rcases hx.cases_tail with rfl | ⟨w, -, hlink⟩
    · exact List.mem_cons_self
    · exact List.mem_cons_of_mem _ (hsuccs w x hlink)
  have : IsTrans Reached above := ⟨fun _ _ _ hab hbc => hbc.trans hab⟩
  have : Std.Irrefl above := ⟨fun x hx => h ⟨x, x.2, hx⟩⟩
  have hwf := Finite.wellFounded_of_trans_of_irrefl above
  suffices hall : ∀ x : Reached, ∃ xs, LinkChain next x xs from hall ⟨a, .refl⟩
  intro x
  induction x using hwf.induction with
  | h x ih =>
    rcases hnext : next x with _ | y
    · exact ⟨_, .last hnext⟩
    · obtain ⟨xs, hxs⟩ := ih ⟨y, x.2.tail hnext⟩ (.single hnext)
      exact ⟨_, .link hnext hxs⟩

theorem exists_linkChain_iff {next : α → Option α} (succs : List α)
    (hsuccs : ∀ x y, next x = some y → y ∈ succs) (a : α) :
    (∃ xs, LinkChain next a xs) ↔ ¬ IntoCycle (Linked next) a :=
  ⟨fun ⟨_, hxs⟩ => hxs.not_intoCycle, exists_linkChain succs hsuccs⟩

/-- A chain passes at most its first element and the successors. -/
theorem LinkChain.length_le {next : α → Option α} {succs : List α}
    (hsuccs : ∀ x y, next x = some y → y ∈ succs) {a : α} {xs : List α}
    (h : LinkChain next a xs) : xs.length ≤ succs.length + 1 := by
  have hmem : ∀ x ∈ xs, x ∈ a :: succs := by
    intro x hx
    rcases (h.mem_iff.mp hx).cases_tail with rfl | ⟨w, -, hlink⟩
    · exact List.mem_cons_self
    · exact List.mem_cons_of_mem _ (hsuccs w x hlink)
  exact (h.nodup.subperm hmem).length_le
