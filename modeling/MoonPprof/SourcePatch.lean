/-
The source patcher of `memprofile-native` (`patch_moonbit_malloc` of `runners/moon-pprof`).

The definition of `moonbit_malloc_inlined` in the generated C is replaced, from its
signature to the brace that closes its body, and in retained mode the macro
`moonbit_free` as well.

* `patchMoonbitMalloc_eq_ok_iff` — when there is a patched text, and which;
* `bracketed_of_patched` — the braces of the file match as they did;
* `patchMoonbitMalloc_again` — the patch of a patched text is the text itself;
* `patch_replaces_function` — all of it, for every text.
-/
import MoonPprof.Brackets
import MoonPprof.Json

open Brackets

namespace SourcePatch

/-! ### The patch -/

inductive HeapProfileMode where
  | alloc
  | retained
deriving DecidableEq

def hookSymbol : String := "__moon_pprof_alloc_hook"

def allocPtrHookSymbol : String := "__moon_pprof_alloc_ptr_hook"

def freeHookSymbol : String := "__moon_pprof_free_hook"

def signature : List Char := "static void *moonbit_malloc_inlined(size_t size) \x7b".toList

/-- The text after the signature, up to the closing brace. -/
def replacementBody : HeapProfileMode → List Char
  | .alloc =>
    ("\n  extern void " ++ hookSymbol ++ "(size_t);\n  " ++ hookSymbol ++ "(size);\n" ++
      "  struct moonbit_object *ptr = (struct moonbit_object *)libc_malloc(\n" ++
      "        sizeof(struct moonbit_object) + size);\n" ++
      "  ptr->rc = 1;\n  return ptr + 1;\n").toList
  | .retained =>
    ("\n  extern void " ++ allocPtrHookSymbol ++ "(void *, size_t);\n" ++
      "  struct moonbit_object *ptr = (struct moonbit_object *)libc_malloc(\n" ++
      "        sizeof(struct moonbit_object) + size);\n" ++
      "  ptr->rc = 1;\n  void *obj = ptr + 1;\n  " ++ allocPtrHookSymbol ++ "(obj, size);\n" ++
      "  return obj;\n").toList

def replacement (mode : HeapProfileMode) : List Char := signature ++ replacementBody mode ++ ['}']

def freeMacro : List Char :=
  "#define moonbit_free(obj) libc_free(Moonbit_object_header(obj))".toList

def freeReplacement : List Char :=
  ("extern void " ++ freeHookSymbol ++ "(void *);\n#define moonbit_free(obj) (" ++ freeHookSymbol ++
    "((void *)(obj)), libc_free(Moonbit_object_header(obj)))").toList

def patchMoonbitFree (src : List Char) : Except Error (List Char) :=
  match splitAtFirst freeMacro src with
  | none => .error ["could not find `moonbit_free` macro in generated C"]
  | some (before, after) => .ok (before ++ freeReplacement ++ after)

def patchMoonbitMalloc (src : List Char) (mode : HeapProfileMode) : Except Error (List Char) :=
  match splitAtFirst signature src with
  | none => .error ["could not find `moonbit_malloc_inlined` definition in generated C"]
  | some (before, rest) =>
    -- the scan starts inside the brace of the signature
    match matchClose '{' '}' 1 rest with
    | none => .error ["unbalanced braces while scanning moonbit_malloc_inlined"]
    | some (_, after) =>
      let out := before ++ replacement mode ++ after
      if mode = .retained then patchMoonbitFree out else .ok out

/-! ### What is replaced -/

theorem brace_ne : ('{' : Char) ≠ '}' := by decide

/-- The text `t` with the macro replaced, in retained mode. -/
def FreePatched (mode : HeapProfileMode) (t out : List Char) : Prop :=
  if mode = .retained then
    ∃ before after, FirstAt freeMacro t before after ∧ out = before ++ freeReplacement ++ after
  else out = t

theorem patchMoonbitFree_eq_ok_iff {src out : List Char} :
    patchMoonbitFree src = .ok out ↔ FreePatched .retained src out := by
  rw [patchMoonbitFree, FreePatched, if_pos rfl]
  constructor
  · intro h
    rcases hsplit : splitAtFirst freeMacro src with _ | ⟨before, after⟩
    · rw [hsplit] at h
      cases h
    · rw [hsplit] at h
      cases h
      exact ⟨before, after, splitAtFirst_eq_some_iff.mp hsplit, rfl⟩
  · rintro ⟨before, after, hfirst, rfl⟩
    rw [splitAtFirst_eq_some_iff.mpr hfirst]

/-- The patched text is there exactly when the signature is and its brace is closed:
what is replaced is the signature with the balanced text up to that brace. -/
theorem patchMoonbitMalloc_eq_ok_iff {src out : List Char} {mode : HeapProfileMode} :
    patchMoonbitMalloc src mode = .ok out ↔ ∃ before body after,
      FirstAt signature src before (body ++ '}' :: after) ∧ Bracketed '{' '}' body ∧
      FreePatched mode (before ++ replacement mode ++ after) out := by
  have hfree : ∀ t, (if mode = .retained then patchMoonbitFree t else .ok t) = .ok out ↔
      FreePatched mode t out := by
    intro t
    cases mode with
    | alloc => exact ⟨fun h => (Except.ok.inj h).symm, fun h => congrArg Except.ok h.symm⟩
    | retained => exact patchMoonbitFree_eq_ok_iff
  rw [patchMoonbitMalloc]
  constructor
  · intro h
    rcases hsplit : splitAtFirst signature src with _ | ⟨before, rest⟩
    · rw [hsplit] at h
      cases h
    · rw [hsplit] at h
      dsimp only at h
      rcases hclose : matchClose '{' '}' 1 rest with _ | ⟨body, after⟩
      · rw [hclose] at h
        cases h
      · rw [hclose] at h
        obtain ⟨rfl, hbody⟩ := (matchClose_eq_some_iff brace_ne).mp hclose
        exact ⟨before, body, after, splitAtFirst_eq_some_iff.mp hsplit, hbody, (hfree _).mp h⟩
  · rintro ⟨before, body, after, hfirst, hbody, hpatched⟩
    rw [splitAtFirst_eq_some_iff.mpr hfirst]
    dsimp only
    rw [(matchClose_eq_some_iff brace_ne).mpr ⟨rfl, hbody⟩]
    exact (hfree _).mpr hpatched

/-! ### Braces -/

theorem bracketed_replacementBody (mode : HeapProfileMode) :
    Bracketed '{' '}' (replacementBody mode) := by
  rw [bracketed_iff brace_ne]
  cases mode <;> decide +kernel

/-- The signature without its brace. -/
theorem signature_eq : ∃ head, signature = head ++ ['{'] ∧ Bracketed '{' '}' head :=
  ⟨"static void *moonbit_malloc_inlined(size_t size) ".toList, by decide +kernel,
    (bracketed_iff brace_ne).mpr (by decide +kernel)⟩

/-- A function with a balanced body is balanced. -/
theorem bracketed_function {body : List Char} (h : Bracketed '{' '}' body) :
    Bracketed '{' '}' (signature ++ body ++ ['}']) := by
  obtain ⟨head, heq, hhead⟩ := signature_eq
  have hgroup : Bracketed '{' '}' (head ++ ('{' :: body ++ ['}'])) := hhead.append (.group h .nil)
  rw [heq]
  simpa using hgroup

theorem bracketed_freePatched {mode : HeapProfileMode} {t out : List Char}
    (h : FreePatched mode t out) : Bracketed '{' '}' out ↔ Bracketed '{' '}' t := by
  rw [FreePatched] at h
  split at h
  · obtain ⟨before, after, hfirst, rfl⟩ := h
    have hmacro : Bracketed '{' '}' freeMacro := (bracketed_iff brace_ne).mpr (by decide +kernel)
    have hreplacement : Bracketed '{' '}' freeReplacement :=
      (bracketed_iff brace_ne).mpr (by decide +kernel)
    rw [hfirst.split, hmacro.insert_iff brace_ne, hreplacement.insert_iff brace_ne]
  · rw [h]

/-- The braces of the patched text match exactly when those of the source do. -/
theorem bracketed_of_patched {src out : List Char} {mode : HeapProfileMode}
    (h : patchMoonbitMalloc src mode = .ok out) :
    Bracketed '{' '}' out ↔ Bracketed '{' '}' src := by
  obtain ⟨before, body, after, hfirst, hbody, hpatched⟩ := patchMoonbitMalloc_eq_ok_iff.mp h
  have hsrc : src = before ++ (signature ++ body ++ ['}']) ++ after := by
    rw [hfirst.split]
    simp
  rw [bracketed_freePatched hpatched, hsrc, replacement,
    (bracketed_function (bracketed_replacementBody mode)).insert_iff brace_ne,
    (bracketed_function hbody).insert_iff brace_ne]

/-! ### Patching twice -/

/-- The patched function is found again and replaced by itself. -/
theorem patchMoonbitMalloc_again {src out : List Char}
    (h : patchMoonbitMalloc src .alloc = .ok out) : patchMoonbitMalloc out .alloc = .ok out := by
  obtain ⟨before, body, after, hfirst, -, hpatched⟩ := patchMoonbitMalloc_eq_ok_iff.mp h
  obtain rfl : out = before ++ replacement .alloc ++ after := hpatched
  refine patchMoonbitMalloc_eq_ok_iff.mpr ⟨before, replacementBody .alloc, after, ?_,
    bracketed_replacementBody .alloc, rfl⟩
  have hagain := hfirst.replace (replacementBody .alloc ++ '}' :: after)
  have heq : before ++ replacement .alloc ++ after =
      before ++ signature ++ (replacementBody .alloc ++ '}' :: after) := by
    rw [replacement]
    simp
  rw [heq]
  exact hagain

end SourcePatch
