/-
Relinking a native binary (`cmd_memprofile_native.rs`): the cc command of the
executable is looked for in the listing of the build, and its arguments are
rewritten to build the profiled binary.

* `rebuildCcArgv_eq` — what the rewritten arguments are;
* `findCcLineForExe_iff`, `rebuildCcArgv_iff` — when the command is that of the
  executable, and only the files that must change are changed;
* `relink_iff` — both together.
-/
import MoonPprof.Json
import MoonPprof.Text
import Mathlib.Data.List.Infix

open Text

namespace Relink

/-! ### The command -/

def isAsciiWhitespace (c : Char) : Bool :=
  c == ' ' || c == '\t' || c == '\n' || c == '\x0c' || c == '\r'

/-- `line.split_ascii_whitespace().next().unwrap_or("")`. -/
def firstWord (line : List Char) : List Char :=
  (line.dropWhile isAsciiWhitespace).takeWhile fun c => !isAsciiWhitespace c

def isCcInvocation (line : List Char) : Bool :=
  let first := firstWord line
  decide ("/cc".toList <:+ first) || decide ("/gcc".toList <:+ first) ||
    decide ("/clang".toList <:+ first) || first == "cc".toList || first == "gcc".toList ||
    first == "clang".toList

/-- The test of a cc line: `/<exe>` is somewhere in it, or `<exe>` at its end. -/
def mentions (exeFilename line : List Char) : Bool :=
  decide ('/' :: exeFilename <:+: line) || decide (exeFilename <:+ line)

def findCcLineForExe (dryText exeFilename : List Char) : Option (List Char) :=
  ((lines dryText).map trim).find? fun trimmed =>
    isCcInvocation trimmed && mentions exeFilename trimmed

structure SplitState where
  out : List (List Char)
  cur : List Char
  inSingle : Bool

/-- One turn of the loop over the characters. -/
def SplitState.push (st : SplitState) (c : Char) : SplitState :=
  if st.inSingle then
    if c = '\'' then { st with inSingle := false } else { st with cur := st.cur ++ [c] }
  else if c = '\'' then { st with inSingle := true }
  else if isWhitespace c then
    if st.cur.isEmpty then st else { st with out := st.out ++ [st.cur], cur := [] }
  else { st with cur := st.cur ++ [c] }

def shellSplit (line : List Char) : Except Error (List (List Char)) :=
  let st := line.foldl SplitState.push ⟨[], [], false⟩
  if st.inSingle then
    .error ["unterminated single-quote in cc command: " ++ String.ofList line]
  else .ok (if st.cur.isEmpty then st.out else st.out ++ [st.cur])

/-! ### The arguments -/

/-- An absolute path with a file name. -/
structure Path where
  dir : List Char
  name : List Char

/-- `path.to_string_lossy()`. -/
def Path.text (p : Path) : List Char := p.dir ++ '/' :: p.name

/-- The test of an argument for the file: it is the path, or ends in `/<name>`, or
ends in `<name>`. -/
def Path.matches (p : Path) (arg : List Char) : Bool :=
  arg == p.text || decide ('/' :: p.name <:+ arg) || decide (p.name <:+ arg)

def outputFlag : List Char := "-o".toList

section

variable (originalC patchedC originalExe memprofExe : Path)

/-- The loop over the arguments. -/
def rewriteArgs : List (List Char) → Except Error (List (List Char))
  | [] => .ok []
  | a :: rest =>
    if a = outputFlag then
      match rest with
      | [] => .error ["cc command ends mid -o"]
      | exeArg :: rest => do
        let out ← rewriteArgs rest
        .ok (a :: (if originalExe.matches exeArg then memprofExe.text else exeArg) :: out)
    else do
      let out ← rewriteArgs rest
      .ok ((if originalC.matches a then patchedC.text else a) :: out)

/-- `cfg!(target_os = "linux")`. -/
def linkFlags (linux : Bool) : List (List Char) :=
  if linux then ["-rdynamic".toList, "-ldl".toList, "-lpthread".toList] else []

def rebuildCcArgv (linux : Bool) (hookO : Path) (ccArgv : List (List Char)) :
    Except Error (List (List Char)) := do
  let out ← rewriteArgs originalC patchedC originalExe memprofExe ccArgv
  .ok (out ++ [hookO.text] ++ linkFlags linux)

end

/-! ### What the arguments stand for -/

inductive Role
  | flag
  | output
  | plain
deriving DecidableEq

/-- The arguments with their roles: each `-o` makes the next one an output. -/
def roles : List (List Char) → List (Role × List Char)
  | [] => []
  | a :: rest =>
    if a = outputFlag then
      match rest with
      | [] => [(.flag, a)]
      | target :: rest => (.flag, a) :: (.output, target) :: roles rest
    else (.plain, a) :: roles rest

/-- The last argument is a `-o`. -/
def EndsMidOutput (argv : List (List Char)) : Prop :=
  (roles argv).getLast?.map Prod.fst = some .flag

instance (argv : List (List Char)) : Decidable (EndsMidOutput argv) :=
  inferInstanceAs (Decidable (_ = _))

/-- The arguments with the files replaced that `isC` and `isExe` tell. -/
def replaced (isC isExe : List Char → Bool) (patchedC memprofExe : List Char)
    (argv : List (List Char)) : List (List Char) :=
  (roles argv).map fun x =>
    match x.1 with
    | .flag => x.2
    | .output => if isExe x.2 then memprofExe else x.2
    | .plain => if isC x.2 then patchedC else x.2

theorem roles_output (target : List Char) (rest : List (List Char)) :
    roles (outputFlag :: target :: rest) =
      (.flag, outputFlag) :: (.output, target) :: roles rest := by
  rw [roles, if_pos rfl]

theorem roles_plain {a : List Char} (h : a ≠ outputFlag) (rest : List (List Char)) :
    roles (a :: rest) = (.plain, a) :: roles rest := by
  rw [roles.eq_def]
  exact if_neg h

theorem endsMid_cons {x : Role × List Char} {xs : List (Role × List Char)} (hx : x.1 ≠ .flag) :
    (x :: xs).getLast?.map Prod.fst = some .flag ↔ xs.getLast?.map Prod.fst = some .flag := by
  rcases xs with _ | ⟨y, ys⟩
  · simp [hx]
  · rw [List.getLast?_cons_cons]

section

variable {originalC patchedC originalExe memprofExe : Path}

theorem rewriteArgs_eq (argv : List (List Char)) :
    rewriteArgs originalC patchedC originalExe memprofExe argv =
      if EndsMidOutput argv then .error ["cc command ends mid -o"]
      else .ok (replaced originalC.matches originalExe.matches patchedC.text memprofExe.text
        argv) := by
  fun_induction roles argv with
  | case1 => rfl
  | case2 => rfl
  | case3 target rest ih =>
    have hends : EndsMidOutput (outputFlag :: target :: rest) ↔ EndsMidOutput rest := by
      rw [EndsMidOutput, roles_output, List.getLast?_cons_cons, endsMid_cons Role.noConfusion]
      rfl
    rw [rewriteArgs, if_pos rfl, replaced, roles_output]
    simp only [ih, hends]
    split
    · rfl
    · rfl
  | case4 a rest h ih =>
    have hends : EndsMidOutput (a :: rest) ↔ EndsMidOutput rest := by
      rw [EndsMidOutput, roles_plain h, endsMid_cons Role.noConfusion]
      rfl
    rw [rewriteArgs.eq_def, replaced, roles_plain h]
    simp only [if_neg h, ih, hends]
    split
    · rfl
    · rfl

theorem rebuildCcArgv_eq (linux : Bool) (hookO : Path) (argv : List (List Char)) :
    rebuildCcArgv originalC patchedC originalExe memprofExe linux hookO argv =
      if EndsMidOutput argv then .error ["cc command ends mid -o"]
      else .ok (replaced originalC.matches originalExe.matches patchedC.text memprofExe.text argv ++
        [hookO.text] ++ linkFlags linux) := by
  rw [rebuildCcArgv, rewriteArgs_eq]
  split
  · rfl
  · rfl

end

/-! ### The right command, and only its files -/

/-- The argument names a file of this name, in some directory. -/
def Named (name arg : List Char) : Prop := arg = name ∨ '/' :: name <:+ arg

theorem Named.suffix {name arg : List Char} (h : Named name arg) : name <:+ arg := by
  rcases h with rfl | h
  · exact List.suffix_rfl
  · exact (List.suffix_cons '/' name).trans h

/-- The test for a file is that the argument ends in its name. -/
theorem matches_iff {p : Path} {arg : List Char} : p.matches arg = true ↔ p.name <:+ arg := by
  simp only [Path.matches, Bool.or_eq_true, beq_iff_eq, decide_eq_true_eq]
  constructor
  · rintro ((rfl | h) | h)
    · exact Named.suffix (Or.inr (List.suffix_append _ _))
    · exact Named.suffix (Or.inr h)
    · exact h
  · exact Or.inr

/-- One of the outputs of the command is the executable. -/
def builds (isExe : List Char → Bool) (line : List Char) : Bool :=
  match shellSplit line with
  | .ok argv => (roles argv).any fun x => x.1 == .output && isExe x.2
  | .error _ => false

/-- The command that is found builds the executable exactly when one that does
mentions it, and so does every one before it that mentions it. -/
theorem findCcLineForExe_iff (isExe : List Char → Bool) (dryText exeFilename : List Char) :
    (∃ line, findCcLineForExe dryText exeFilename = some line ∧ builds isExe line = true) ↔
      ∃ pre line post, (lines dryText).map trim = pre ++ line :: post ∧
        isCcInvocation line = true ∧ mentions exeFilename line = true ∧ builds isExe line = true ∧
        ∀ l ∈ pre, isCcInvocation l = true → mentions exeFilename l = true →
          builds isExe l = true := by
  rw [findCcLineForExe]
  constructor
  · rintro ⟨line, hfind, hbuilds⟩
    obtain ⟨hmatch, pre, post, hsplit, hpre⟩ := List.find?_eq_some_iff_append.mp hfind
    rw [Bool.and_eq_true] at hmatch
    refine ⟨pre, line, post, hsplit, hmatch.1, hmatch.2, hbuilds, fun l hl hcc hmentions => ?_⟩
    have hnot := hpre l hl
    rw [hcc, hmentions] at hnot
    cases hnot
  · rintro ⟨pre, line, post, hsplit, hcc, hmentions, hbuilds, hpre⟩
    rw [hsplit, List.find?_append]
    rcases hfirst : pre.find? fun l => isCcInvocation l && mentions exeFilename l with _ | l
    · rw [Option.none_or, List.find?_cons_of_pos (by rw [hcc, hmentions]; rfl)]
      exact ⟨line, rfl, hbuilds⟩
    · have hmatch := List.find?_some hfirst
      rw [Bool.and_eq_true] at hmatch
      exact ⟨l, rfl, hpre l (List.mem_of_find?_eq_some hfirst) hmatch.1 hmatch.2⟩

theorem ite_eq_ite_iff {α : Type} {p q : Bool} {a b : α} (h : q = true → p = true) :
    (if p then b else a) = (if q then b else a) ↔ (p = true → q = true ∨ a = b) := by
  by_cases hq : q = true
  · simp [hq, h hq]
  · by_cases hp : p = true
    · rw [if_pos hp, if_neg hq]
      exact ⟨fun heq _ => Or.inr heq.symm, fun hall => ((hall hp).resolve_left hq).symm⟩
    · simp [hp, hq]

/-- Two ways to replace files agree when they agree on each argument, or write
what was there. -/
theorem replaced_eq_iff {isC isC' isExe isExe' : List Char → Bool} {patchedC memprofExe : List Char}
    {argv : List (List Char)} (hC : ∀ a, isC' a = true → isC a = true)
    (hExe : ∀ a, isExe' a = true → isExe a = true) :
    replaced isC isExe patchedC memprofExe argv = replaced isC' isExe' patchedC memprofExe argv ↔
      ∀ x ∈ roles argv,
        (x.1 = .plain → isC x.2 = true → isC' x.2 = true ∨ x.2 = patchedC) ∧
        (x.1 = .output → isExe x.2 = true → isExe' x.2 = true ∨ x.2 = memprofExe) := by
  rw [replaced, replaced, List.map_inj_left]
  refine forall₂_congr fun x _ => ?_
  obtain ⟨role, a⟩ := x
  cases role with
  | flag => simp
  | output =>
    show (if isExe a then memprofExe else a) = (if isExe' a then memprofExe else a) ↔ _
    rw [ite_eq_ite_iff (hExe a)]
    simp
  | plain =>
    show (if isC a then patchedC else a) = (if isC' a then patchedC else a) ↔ _
    rw [ite_eq_ite_iff (hC a)]
    simp

section

variable {originalC patchedC originalExe memprofExe : Path} {isC isExe : List Char → Bool}

/-- The rewritten command differs from the original in the right files exactly
when it does not end in a `-o` and no other argument ends in the name of one. -/
theorem rebuildCcArgv_iff (hC : ∀ a, isC a = true → Named originalC.name a)
    (hExe : ∀ a, isExe a = true → Named originalExe.name a) (linux : Bool) (hookO : Path)
    (argv : List (List Char)) :
    rebuildCcArgv originalC patchedC originalExe memprofExe linux hookO argv =
        .ok (replaced isC isExe patchedC.text memprofExe.text argv ++ [hookO.text] ++
          linkFlags linux) ↔
      ¬ EndsMidOutput argv ∧ ∀ x ∈ roles argv,
        (x.1 = .plain → originalC.name <:+ x.2 → isC x.2 = true ∨ x.2 = patchedC.text) ∧
        (x.1 = .output → originalExe.name <:+ x.2 →
          isExe x.2 = true ∨ x.2 = memprofExe.text) := by
  have hreplaced :
      replaced originalC.matches originalExe.matches patchedC.text memprofExe.text argv =
        replaced isC isExe patchedC.text memprofExe.text argv ↔ _ :=
    replaced_eq_iff (fun a ha => matches_iff.mpr (hC a ha).suffix)
      (fun a ha => matches_iff.mpr (hExe a ha).suffix)
  simp only [matches_iff] at hreplaced
  rw [rebuildCcArgv_eq, ← hreplaced]
  by_cases hends : EndsMidOutput argv
  · rw [if_pos hends]
    simp [hends]
  · rw [if_neg hends]
    simp [hends]

/-- Relinking: the command that is chosen is one that builds the executable, and
its arguments change only in the generated C file and the output. -/
theorem relink_iff (hC : ∀ a, isC a = true → Named originalC.name a)
    (hExe : ∀ a, isExe a = true → Named originalExe.name a) :
    (∀ dryText, (∃ line, findCcLineForExe dryText originalExe.name = some line ∧
        builds isExe line = true) ↔
      ∃ pre line post, (lines dryText).map trim = pre ++ line :: post ∧
        isCcInvocation line = true ∧ mentions originalExe.name line = true ∧
        builds isExe line = true ∧
        ∀ l ∈ pre, isCcInvocation l = true → mentions originalExe.name l = true →
          builds isExe l = true) ∧
    ∀ linux hookO argv,
      rebuildCcArgv originalC patchedC originalExe memprofExe linux hookO argv =
          .ok (replaced isC isExe patchedC.text memprofExe.text argv ++ [hookO.text] ++
            linkFlags linux) ↔
        ¬ EndsMidOutput argv ∧ ∀ x ∈ roles argv,
          (x.1 = .plain → originalC.name <:+ x.2 → isC x.2 = true ∨ x.2 = patchedC.text) ∧
          (x.1 = .output → originalExe.name <:+ x.2 →
            isExe x.2 = true ∨ x.2 = memprofExe.text) :=
  ⟨fun dryText => findCcLineForExe_iff isExe dryText originalExe.name,
    fun linux hookO argv => rebuildCcArgv_iff hC hExe linux hookO argv⟩

end

/-! ### Names that end alike -/

def file (dir name : String) : Path := ⟨dir.toList, name.toList⟩

def timeC : List Char := "./time/time.c".toList

def timeExe : List Char := "./time/time.exe".toList

/-- The command of `time.exe`, with the runtime. -/
def timeArgv : List (List Char) :=
  ["cc".toList, outputFlag, timeExe, timeC, "/m/lib/runtime.c".toList]

/-- Two executables of one name. -/
def twoMains : List Char :=
  "cc -o ./a/main.exe ./a/main.c\ncc -o ./b/main.exe ./b/main.c\n".toList

/-- The command of the first `main.exe` is taken for the second, and `runtime.c`
for the C file of `time.exe`. -/
theorem relink_wrong_files :
    findCcLineForExe twoMains "main.exe".toList = some "cc -o ./a/main.exe ./a/main.c".toList ∧
    builds (· == "./b/main.exe".toList) "cc -o ./a/main.exe ./a/main.c".toList = false ∧
    rebuildCcArgv (file "/p/time" "time.c") (file "/p/time" "time.memprof.c")
        (file "/p/time" "time.exe") (file "/p/time" "time.memprof.exe") false
        (file "/p/time" "time.memprof_hook.o") timeArgv =
      .ok ["cc".toList, outputFlag, "/p/time/time.memprof.exe".toList,
        "/p/time/time.memprof.c".toList, "/p/time/time.memprof.c".toList,
        "/p/time/time.memprof_hook.o".toList] ∧
    replaced (· == timeC) (· == timeExe) "/p/time/time.memprof.c".toList
        "/p/time/time.memprof.exe".toList timeArgv =
      ["cc".toList, outputFlag, "/p/time/time.memprof.exe".toList,
        "/p/time/time.memprof.c".toList, "/m/lib/runtime.c".toList] := by
  refine ⟨by decide +kernel, by decide +kernel, rfl, by decide +kernel⟩

/-- Without the runtime only the two files of `time.exe` change. -/
theorem relink_iff_time :
    rebuildCcArgv (file "/p/time" "time.c") (file "/p/time" "time.memprof.c")
        (file "/p/time" "time.exe") (file "/p/time" "time.memprof.exe") true
        (file "/p/time" "time.memprof_hook.o") ["cc".toList, outputFlag, timeExe, timeC] =
      .ok (replaced (· == timeC) (· == timeExe) (file "/p/time" "time.memprof.c").text
          (file "/p/time" "time.memprof.exe").text ["cc".toList, outputFlag, timeExe, timeC] ++
        [(file "/p/time" "time.memprof_hook.o").text] ++ linkFlags true) := by
  have hC : ∀ a : List Char, (a == timeC) = true → Named (file "/p/time" "time.c").name a := by
    intro a ha
    rw [beq_iff_eq.mp ha]
    exact Or.inr (by decide)
  have hExe : ∀ a : List Char, (a == timeExe) = true →
      Named (file "/p/time" "time.exe").name a := by
    intro a ha
    rw [beq_iff_eq.mp ha]
    exact Or.inr (by decide)
  refine ((relink_iff hC hExe).2 true (file "/p/time" "time.memprof_hook.o") _).mpr ⟨by decide, ?_⟩
  decide

end Relink
