/-
Fields before a delimiter.

A field that does not contain the delimiter is recovered from what follows it:
`append_cons_inj` reads two such fields back from equal texts, `intercalate_inj`
any number of them.  The symbol decoder uses it for `::`-joined paths, the
profile builders for the composite keys of their intern tables.
-/
import Mathlib.Data.List.Basic

namespace Delimited

variable {α : Type*} {d : α}

/-- Two texts that agree have the same field before the first delimiter and
the same remainder. -/
theorem append_cons_inj : ∀ {x y r r' : List α}, d ∉ x → d ∉ y →
    x ++ d :: r = y ++ d :: r' → x = y ∧ r = r'
  | [], [], _, _, _, _, h => ⟨rfl, (List.cons.inj h).2⟩
  | [], b :: y, _, _, _, hy, h => by
    rw [List.nil_append, List.cons_append] at h
    exact absurd (List.cons.inj h).1 (fun hb => hy (by simp [hb]))
  | a :: x, [], _, _, hx, _, h => by
    rw [List.nil_append, List.cons_append] at h
    exact absurd (List.cons.inj h).1 (fun ha => hx (by simp [ha]))
  | a :: x, b :: y, r, r', hx, hy, h => by
    rw [List.cons_append, List.cons_append] at h
    obtain ⟨rfl, htail⟩ := List.cons.inj h
    obtain ⟨rfl, rfl⟩ := append_cons_inj (fun hm => hx (by simp [hm])) (fun hm => hy (by simp [hm]))
      htail
    exact ⟨rfl, rfl⟩

/-- Joined texts that agree have the same fields, if none is empty. -/
theorem intercalate_inj [DecidableEq α] {xs ys : List (List α)}
    (hx : ∀ f ∈ xs, d ∉ f ∧ f ≠ []) (hy : ∀ f ∈ ys, d ∉ f ∧ f ≠ [])
    (h : [d].intercalate xs = [d].intercalate ys) : xs = ys := by
  -- a joined text is empty only where there is no field at all
  have hne : ∀ {zs : List (List α)}, (∀ f ∈ zs, d ∉ f ∧ f ≠ []) → [d].intercalate zs = [] →
      zs = [] := by
    intro zs hz hnil
    match zs with
    | [] => rfl
    | [f] =>
      rw [List.intercalate_singleton] at hnil
      exact absurd hnil (hz f List.mem_cons_self).2
    | f :: g :: zs =>
      rw [List.intercalate_cons_cons] at hnil
      simp at hnil
  rcases eq_or_ne xs [] with rfl | hxs
  · exact (hne hy h.symm).symm
  · rcases eq_or_ne ys [] with rfl | hys
    · exact absurd (hne hx h) hxs
    · rw [← List.splitOn_intercalate d (fun f hf => (hx f hf).1) hxs, h,
        List.splitOn_intercalate d (fun f hf => (hy f hf).1) hys]

end Delimited
