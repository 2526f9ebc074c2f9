/-
Streams of self-delimiting records.

A stream is the concatenation of encoded records, possibly cut off anywhere.
`completeWithin n rs` counts the records of `rs` that end within the first `n`
bytes.  Two facts about a consumer of such a stream:

* `consume_take` — a consumer that turns one encoded record into one step, and
  stops at anything shorter than a record, performs exactly the steps of the
  complete records in any prefix of the stream;
* `reader_eq_none_of_isPrefix` — a reader whose answer does not change when bytes
  are appended cannot succeed on a proper prefix of an encoding.
-/
import Mathlib.Data.List.Infix
import Mathlib.Tactic.Common

namespace RecordStream

universe u v w x

variable {α : Type u} {σ : Type v} {ρ : Type w} {β : Type x}

/-- How many of the records end within the first `n` elements. -/
def completeWithin (n : Nat) : List (List β) → Nat
  | [] => 0
  | r :: rs => if r.length ≤ n then completeWithin (n - r.length) rs + 1 else 0

/-- Nothing is cut off a prefix that covers the whole stream. -/
theorem completeWithin_of_length_le {n : Nat} {rs : List (List β)} (h : rs.flatten.length ≤ n) :
    completeWithin n rs = rs.length := by
  induction rs generalizing n with
  | nil => rfl
  | cons r rs ih =>
    rw [List.flatten_cons, List.length_append] at h
    rw [completeWithin, if_pos (by omega), ih (by omega), List.length_cons]

/-- The steps of a consumer over a prefix of a stream of records. -/
theorem consume_take (encode : α → List β) (step : σ → α → σ) (consume : σ → List β → ρ)
    (done : σ → ρ) {as : List α}
    (hstep : ∀ a ∈ as, ∀ s rest, consume s (encode a ++ rest) = consume (step s a) rest)
    (hcut : ∀ a ∈ as, ∀ s p, p <+: encode a → p ≠ encode a → consume s p = done s)
    (hnil : ∀ s, consume s [] = done s) (n : Nat) (s : σ) :
    consume s ((as.flatMap encode).take n) =
      done ((as.take (completeWithin n (as.map encode))).foldl step s) := by
  induction as generalizing n s with
  | nil => simpa using hnil s
  | cons a as ih =>
    rw [List.flatMap_cons, List.map_cons, completeWithin]
    by_cases hn : (encode a).length ≤ n
    · rw [if_pos hn, List.take_append, List.take_of_length_le hn, hstep a (by simp),
        List.take_succ_cons,
        List.foldl_cons]
      exact ih (fun b hb => hstep b (by simp [hb])) (fun b hb => hcut b (by simp [hb])) _ _
    · rw [if_neg hn, List.take_zero, List.foldl_nil, List.take_append_of_le_length (by omega)]
      refine hcut a (by simp) s _ (List.take_prefix _ _) fun h => hn ?_
      rw [← h, List.length_take]
      exact Nat.min_le_left _ _

/-- A reader that ignores what follows fails on every proper prefix of an
encoding that it reads to the end. -/
theorem reader_eq_none_of_isPrefix {read : List β → Option (α × List β)}
    (hext : ∀ s t a r, read s = some (a, r) → read (s ++ t) = some (a, r ++ t))
    {e : List β} {a : α} (hfull : read e = some (a, [])) {p : List β} (hp : p <+: e)
    (hne : p ≠ e) : read p = none := by
  rcases hread : read p with _ | ⟨b, r⟩
  · rfl
  · obtain ⟨t, rfl⟩ := hp
    have hboth := hext p t b r hread
    rw [hfull, Option.some.injEq, Prod.mk.injEq] at hboth
    have ht : t = [] := (List.append_eq_nil_iff.mp hboth.2.symm).2
    rw [ht, List.append_nil] at hne
    exact absurd rfl hne

end RecordStream
