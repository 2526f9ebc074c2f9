/-
From the text of `perf script` to the profile (`convert` of `crates/perf-to-pprof`).

`PrintedSample` is a sample as it is printed: its header with or without a period,
and its frames with their addresses, offsets and binaries.

* `parseHeaderPeriod_headerLine` — the period is read off the header;
* `parseFrame_line` — the symbol and the binary are read off a frame's line;
* `groups_scriptLines` — each printed sample is read back, and no other;
* `script_converts` — the profile holds what was printed.
-/
import MoonPprof.PerfConversion
import MoonPprof.PerfFrameLine
import MoonPprof.PerfScript

open MachineInt Proto Text

namespace Perf

/-- `convert`, before compression and encoding. -/
def convert (decode : String → String) (opts : ConvertOptions)
    (it : IterOrder (Sigma fun _ : List Nat => Int × Int)) (input : String) : Profile :=
  encode decode opts it (parse input)

/-! ### What is printed -/

structure PrintedFrame where
  indent : List Char
  addr : List Char
  sym : List Char
  offset : Option (List Char)
  dso : List Char

structure PrintedSample where
  -- the command and the ids of the process and the thread
  task : List Char
  time : List Char
  period : Option Nat
  event : List Char
  frames : List PrintedFrame

def PrintedFrame.line (f : PrintedFrame) : List Char :=
  f.indent ++ frameLine f.addr f.sym f.offset f.dso

def PrintedFrame.frame (f : PrintedFrame) : Frame := ⟨String.ofList f.sym, String.ofList f.dso⟩

def periodText : Option Nat → List Char
  | none => []
  | some n => Nat.toDigits 10 n ++ [' ']

def PrintedSample.headerLine (s : PrintedSample) : List Char :=
  s.task ++ ' ' :: (s.time ++ ':' :: ' ' :: (periodText s.period ++ (s.event ++ [':'])))

def PrintedSample.sample (s : PrintedSample) : Sample :=
  ⟨s.frames.map PrintedFrame.frame, s.period.getD 1⟩

/-- The header, the frames and the empty line behind them. -/
def PrintedSample.lines (s : PrintedSample) : List (List Char) :=
  s.headerLine :: s.frames.map PrintedFrame.line ++ [[]]

def scriptLines (printed : List PrintedSample) : List (List Char) :=
  printed.flatMap PrintedSample.lines

def scriptText (printed : List PrintedSample) : String :=
  String.ofList ((scriptLines printed).flatMap fun line => line ++ ['\n'])

/-! ### What can be printed -/

/-- A text without white space that is not empty. -/
structure Word (w : List Char) : Prop where
  ne_nil : w ≠ []
  black : ∀ c ∈ w, isWhitespace c = false

/-- An indented frame with a symbol and a binary that leave the line unambiguous. -/
structure PrintedFrame.Printable (f : PrintedFrame) : Prop where
  indent : f.indent ≠ [] ∧ ∀ c ∈ f.indent, isWhitespace c = true ∧ c ≠ '\n'
  addr : Word f.addr
  sym : Trimmed f.sym ∧ '\n' ∉ f.sym
  offset : ∀ digits, f.offset = some digits → '+' ∉ digits ∧ '\n' ∉ digits
  plain : f.offset = none → f.sym ≠ [] ∧ ¬EndsInOffset f.sym
  dso : ¬[' ', '('] <:+: f.dso ∧ f.dso.getLast? ≠ some ')' ∧ '\n' ∉ f.dso

structure PrintedSample.Printable (s : PrintedSample) : Prop where
  task : s.task.head?.any isWhitespace = false ∧ s.task ≠ [] ∧ '\n' ∉ s.task
  time : Word s.time
  period : ∀ n, s.period = some n → n < 2 ^ 64
  event : Word s.event ∧ s.event.getLast? ≠ some ':'
  frames : ∀ f ∈ s.frames, f.Printable

/-! ### Words -/

theorem splitWhitespace_append_cons (xs ys : List Char) {c : Char} (hc : isWhitespace c = true) :
    splitWhitespace (xs ++ c :: ys) = splitWhitespace xs ++ splitWhitespace ys := by
  rw [splitWhitespace, List.splitOnP_append_cons _ _ hc, List.filter_append]
  rfl

theorem splitWhitespace_word {w : List Char} (h : Word w) : splitWhitespace w = [w] := by
  rw [splitWhitespace, List.splitOnP_eq_singleton h.black, List.filter_singleton]
  have hne : w.isEmpty = false := by simpa using h.ne_nil
  rw [hne]
  rfl

theorem word_toDigits (n : Nat) : Word (Nat.toDigits 10 n) where
  ne_nil := Nat.toDigits_ne_nil
  black := fun _ hc =>
    isWhitespace_of_isDigit (Nat.isDigit_of_mem_toDigits (by decide) (by decide) hc)

theorem parseU64_toDigits {n : Nat} (h : n < 2 ^ 64) : parseU64 (Nat.toDigits 10 n) = some n := by
  have hdigit : ∀ c ∈ Nat.toDigits 10 n, c.isDigit = true := fun c hc =>
    Nat.isDigit_of_mem_toDigits (by decide) (by decide) hc
  have hplus : (Nat.toDigits 10 n).head? ≠ some '+' := by
    intro hhead
    have := hdigit '+' (List.mem_of_head? hhead)
    cases this
  have hgood : ((Nat.toDigits 10 n).isEmpty || (Nat.toDigits 10 n).any (!·.isDigit)) = false := by
    rw [Bool.or_eq_false_iff]
    refine ⟨by simp, List.any_eq_false.mpr fun c hc => ?_⟩
    simp [hdigit c hc]
  rw [parseU64, if_neg hplus]
  simp only [hgood, Bool.false_eq_true, if_false, Nat.ofDigitChars_ten_toDigits, if_pos h]

/-- A word with a colon at its end is not a number. -/
theorem parseU64_colon {w : List Char} (h : w ≠ []) : parseU64 (w ++ [':']) = none := by
  have hbad : ∀ digits : List Char, ':' ∈ digits →
      (digits.isEmpty || digits.any (!·.isDigit)) = true := by
    intro digits hmem
    rw [Bool.or_eq_true]
    exact Or.inr (List.any_eq_true.mpr ⟨':', hmem, rfl⟩)
  obtain ⟨c, w, rfl⟩ := List.exists_cons_of_ne_nil h
  rw [parseU64]
  split
  · simp only [List.cons_append, List.tail_cons, hbad _ (List.mem_append_right _ List.mem_cons_self),
      if_true]
  · simp only [hbad _ (List.mem_append_right _ List.mem_cons_self), if_true]

/-! ### Headers -/

theorem splitWhitespace_header {s : PrintedSample} (h : s.Printable) :
    splitWhitespace (s.task ++ ' ' :: (s.time ++ ':' :: ' ' :: (periodText s.period ++ s.event))) =
      splitWhitespace s.task ++ [s.time ++ [':']] ++
        (s.period.map (Nat.toDigits 10)).toList ++ [s.event] := by
  have hblank : isWhitespace ' ' = true := by decide
  have htime : Word (s.time ++ [':']) :=
    ⟨by simp, fun c hc => (List.mem_append.mp hc).elim (h.time.black c) fun hc => by
      rw [List.mem_singleton.mp hc]
      decide⟩
  have hassoc : s.time ++ ':' :: ' ' :: (periodText s.period ++ s.event) =
      (s.time ++ [':']) ++ ' ' :: (periodText s.period ++ s.event) := by simp
  rw [splitWhitespace_append_cons _ _ hblank, hassoc, splitWhitespace_append_cons _ _ hblank,
    splitWhitespace_word htime]
  rcases s.period with _ | n
  · rw [periodText, List.nil_append, splitWhitespace_word h.event.1]
    simp
  · have hperiod : periodText (some n) ++ s.event = Nat.toDigits 10 n ++ ' ' :: s.event := by
      simp [periodText]
    rw [hperiod, splitWhitespace_append_cons _ _ hblank, splitWhitespace_word (word_toDigits n),
      splitWhitespace_word h.event.1]
    simp

/-- The period is the last word but one; where none is printed, the time stands there,
which is no number. -/
theorem parseHeaderPeriod_headerLine {s : PrintedSample} (h : s.Printable) :
    parseHeaderPeriod s.headerLine = s.period := by
  obtain ⟨before, hbefore⟩ : ∃ before, s.task ++ ' ' :: (s.time ++ ':' :: ' ' ::
      (periodText s.period ++ s.event)) = before ++ s.event :=
    ⟨s.task ++ ' ' :: (s.time ++ ':' :: ' ' :: periodText s.period), by simp⟩
  have hline : s.headerLine = before ++ s.event ++ [':'] := by
    rw [PrintedSample.headerLine, ← hbefore]
    simp
  -- behind the event there is nothing to trim but the colon
  have hdrop : ∀ p : Char → Bool, (∀ c, s.event.getLast? = some c → p c = false) →
      (before ++ s.event).rdropWhile p = before ++ s.event := by
    intro p hp
    rw [List.rdropWhile_eq_self_iff]
    intro hne hlast
    rw [List.getLast_append_of_ne_nil _ h.event.1.ne_nil] at hlast
    rw [hp _ (List.getLast?_eq_some_getLast h.event.1.ne_nil)] at hlast
    cases hlast
  have hcolon := hdrop (· = ':') fun c hc => by
    simp only [decide_eq_false_iff_not]
    rintro rfl
    exact h.event.2 hc
  have hblank := hdrop isWhitespace fun c hc => h.event.1.black c (List.mem_of_getLast? hc)
  have hread : ∀ words w, splitWhitespace (before ++ s.event) = words ++ [w, s.event] →
      parseHeaderPeriod s.headerLine = parseU64 w := by
    intro words w hwords
    have hget : (words ++ [w, s.event])[(words ++ [w, s.event]).length - 2]? = some w := by simp
    rw [parseHeaderPeriod, hline, List.rdropWhile_concat_pos _ _ _ (by simp), hcolon, hblank,
      hwords]
    rw [if_neg (by simp), hget, Option.bind_some]
  have hwords := splitWhitespace_header h
  rw [hbefore] at hwords
  rcases hperiod : s.period with _ | n
  · rw [hperiod] at hwords
    rw [hread (splitWhitespace s.task) (s.time ++ [':']) (by simpa using hwords)]
    exact parseU64_colon h.time.ne_nil
  · rw [hperiod] at hwords
    rw [hread (splitWhitespace s.task ++ [s.time ++ [':']]) (Nat.toDigits 10 n)
      (by simpa using hwords)]
    exact parseU64_toDigits (h.period n hperiod)

/-! ### Lines -/

theorem trim_append {indent s : List Char} (h : ∀ c ∈ indent, isWhitespace c = true) :
    trim (indent ++ s) = trim s := by
  rw [trim, List.dropWhile_append_of_pos h]
  rfl

/-- The symbol and the binary are read off a printed line. -/
theorem parseFrame_line {f : PrintedFrame} (h : f.Printable) :
    parseFrame (trim f.line) = some f.frame := by
  obtain ⟨hno, hlast, -⟩ := h.dso
  have hoffset : ∀ digits, f.offset = some digits → '+' ∉ digits := fun d hd => (h.offset d hd).1
  have htrim : trim f.line = frameLine f.addr f.sym f.offset f.dso := by
    refine (trim_append (fun c hc => (h.indent.2 c hc).1)).trans (trim_of_trimmed ⟨?_, ?_⟩)
    · intro c hc
      rw [frameLine, List.head?_append_of_ne_nil _ h.addr.ne_nil] at hc
      exact h.addr.black c (List.mem_of_head? hc)
    · intro c hc
      have hclose : (frameLine f.addr f.sym f.offset f.dso).getLast? = some ')' := by
        have heq : frameLine f.addr f.sym f.offset f.dso =
            f.addr ++ ' ' :: (f.sym ++ offsetText f.offset ++ ([' ', '('] ++ f.dso)) ++ [')'] := by
          simp [frameLine]
        rw [heq, List.getLast?_concat]
      rw [hclose] at hc
      cases hc
      decide
  have hdrop : (f.sym ++ offsetText f.offset ++ ([' ', '('] ++ (f.dso ++ [')']))).dropWhile
      isWhitespace = f.sym ++ offsetText f.offset ++ ([' ', '('] ++ (f.dso ++ [')'])) := by
    rcases hshown : f.sym ++ offsetText f.offset with _ | ⟨c, shown⟩
    · -- something is printed for the symbol
      obtain ⟨hsym, hnone⟩ := List.append_eq_nil_iff.mp hshown
      rcases hoff : f.offset with _ | digits
      · exact absurd hsym (h.plain hoff).1
      · rw [hoff] at hnone
        cases hnone
    · have hc := head?_shown h.sym.1 (c := c) (by rw [hshown, List.head?_cons])
      rw [List.cons_append, List.dropWhile_cons_of_neg (by simp [hc])]
  rw [htrim, parseFrame_eq, frameLine, splitOnceWhitespace_append h.addr.black (by decide),
    Option.map_some]
  dsimp only
  rw [hdrop, frameOf_append hno hlast,
    (stripOffset_shown_iff hoffset).mpr fun hnone => (h.plain hnone).2]
  rfl

/-! ### Samples -/

theorem isHeader_headerLine {s : PrintedSample} (h : s.Printable) :
    isHeader s.headerLine = true := by
  obtain ⟨c, task, hc⟩ := List.exists_cons_of_ne_nil h.task.2.1
  have hblack := h.task.1
  rw [hc] at hblack
  rw [isHeader, PrintedSample.headerLine, hc]
  simpa using hblack

theorem isIndented_line {f : PrintedFrame} (h : f.Printable) : isIndented f.line = true := by
  obtain ⟨c, indent, hc⟩ := List.exists_cons_of_ne_nil h.indent.1
  have hblank := (h.indent.2 c (by rw [hc]; exact List.mem_cons_self)).1
  rw [isIndented, PrintedFrame.line, hc]
  simpa using hblank

theorem framesUnder_lines {frames : List PrintedFrame} (h : ∀ f ∈ frames, f.Printable)
    (rest : List (List Char)) :
    framesUnder (frames.map PrintedFrame.line ++ [] :: rest) = frames.map PrintedFrame.frame := by
  have hindented : ∀ line ∈ frames.map PrintedFrame.line, isIndented line = true := by
    intro line hline
    obtain ⟨f, hf, rfl⟩ := List.mem_map.mp hline
    exact isIndented_line (h f hf)
  rw [framesUnder_append rfl, framesUnder, List.takeWhile_eq_self_iff.mpr hindented,
    List.filterMap_map, ← List.filterMap_eq_map]
  exact List.filterMap_congr fun f hf => parseFrame_line (h f hf)

/-- Lines that are indented open no samples. -/
theorem groups_indented {ls : List (List Char)} (h : ∀ line ∈ ls, isIndented line = true) :
    groups ls = [] := by
  have hnone : ls.countP isHeader = 0 := by
    rw [List.countP_eq_zero]
    intro line hline hheader
    have hindented := h line hline
    rw [isIndented_of_isHeader hheader] at hindented
    cases hindented
  rw [← length_groups] at hnone
  exact List.length_eq_zero_iff.mp hnone

/-- Each printed sample is read back, and no other. -/
theorem groups_scriptLines {printed : List PrintedSample} (h : ∀ s ∈ printed, s.Printable) :
    groups (scriptLines printed) = printed.map PrintedSample.sample := by
  induction printed with
  | nil => rfl
  | cons s printed ih =>
    obtain ⟨hs, hrest⟩ := List.forall_mem_cons.mp h
    have hindented : ∀ line ∈ s.frames.map PrintedFrame.line, isIndented line = true := by
      intro line hline
      obtain ⟨f, hf, rfl⟩ := List.mem_map.mp hline
      exact isIndented_line (hs.frames f hf)
    have hlines : scriptLines (s :: printed) =
        s.headerLine :: (s.frames.map PrintedFrame.line ++ [] :: scriptLines printed) := by
      simp [scriptLines, PrintedSample.lines]
    rw [hlines, groups, if_pos (isHeader_headerLine hs), groups_append rfl,
      groups_indented hindented, List.nil_append, groups,
      if_neg (show ¬isHeader [] = true from Bool.false_ne_true), ih hrest,
      List.map_cons, sampleOf, framesUnder_lines hs.frames, parseHeaderPeriod_headerLine hs]
    rfl

theorem Word.not_newline {w : List Char} (h : Word w) : '\n' ∉ w := by
  intro hmem
  cases h.black '\n' hmem

theorem plain_headerLine {s : PrintedSample} (h : s.Printable) :
    '\n' ∉ s.headerLine ∧ s.headerLine.getLast? ≠ some '\r' := by
  have hperiod : '\n' ∉ periodText s.period := by
    rcases s.period with _ | n
    · exact List.not_mem_nil
    · intro hmem
      rcases List.mem_append.mp hmem with hmem | hmem
      · exact (word_toDigits n).not_newline hmem
      · cases List.mem_singleton.mp hmem
  constructor
  · simp [PrintedSample.headerLine, h.task.2.2, h.time.not_newline, hperiod,
      h.event.1.not_newline]
  · have heq : s.headerLine = s.task ++ ' ' :: (s.time ++ ':' :: ' ' ::
        (periodText s.period ++ s.event)) ++ [':'] := by simp [PrintedSample.headerLine]
    rw [heq, List.getLast?_concat]
    decide

theorem plain_line {f : PrintedFrame} (h : f.Printable) :
    '\n' ∉ f.line ∧ f.line.getLast? ≠ some '\r' := by
  have hindent : '\n' ∉ f.indent := fun hmem => (h.indent.2 '\n' hmem).2 rfl
  have hoffset : '\n' ∉ offsetText f.offset := by
    rcases hoff : f.offset with _ | digits
    · exact List.not_mem_nil
    · simp [offsetText, (h.offset digits hoff).2]
  constructor
  · simp [PrintedFrame.line, frameLine, hindent, h.addr.not_newline, h.sym.2, hoffset, h.dso.2.2]
  · have heq : f.line = f.indent ++ (f.addr ++ ' ' :: (f.sym ++ offsetText f.offset ++
        ([' ', '('] ++ f.dso))) ++ [')'] := by simp [PrintedFrame.line, frameLine]
    rw [heq, List.getLast?_concat]
    decide

theorem parse_scriptText {printed : List PrintedSample} (h : ∀ s ∈ printed, s.Printable) :
    parse (scriptText printed) = printed.map PrintedSample.sample := by
  have hplain : ∀ line ∈ scriptLines printed, '\n' ∉ line ∧ line.getLast? ≠ some '\r' := by
    intro line hline
    obtain ⟨s, hs, hmem⟩ := List.mem_flatMap.mp hline
    rcases List.mem_append.mp hmem with hmem | hmem
    · rcases List.mem_cons.mp hmem with rfl | hmem
      · exact plain_headerLine (h s hs)
      · obtain ⟨f, hf, rfl⟩ := List.mem_map.mp hmem
        exact plain_line ((h s hs).frames f hf)
    · rw [List.mem_singleton.mp hmem]
      exact ⟨List.not_mem_nil, by simp⟩
  rw [parse_eq_groups, scriptText, String.toList_ofList, lines_flatMap hplain,
    groups_scriptLines h]

/-! ### The profile -/

theorem convert_sample {decode : String → String} {opts : ConvertOptions}
    {it : IterOrder (Sigma fun _ : List Nat => Int × Int)} {samples : List Sample}
    (hlen : samples.length < 2 ^ 63) (hperiod : (samples.map Sample.period).sum < 2 ^ 63) :
    let p := encode decode opts it samples
    p.Linked ∧ (p.sample.map fun s => (s.locationId.mapM p.readMapped, s.value)).Perm
      ((stackKeys (display decode opts) samples).dedup.map fun stack =>
        (some (stack.map fun f => (f.1, f.2, f.2)),
          [((stackKeys (display decode opts) samples).count stack : Int),
            (periodOf (display decode opts) samples stack : Int)])) := by
  intro p
  set shown := display decode opts with hshow
  have hdisplay : ∀ raw, shown raw = if opts.noDemangle then raw else decode raw := fun _ => rfl
  obtain ⟨hheader, -⟩ := inv_header shown opts.eventType opts.eventUnit
  set st := ((((State.new.intern "samples").2.intern "count").2.intern opts.eventType).2.intern
    opts.eventUnit).2
  obtain ⟨h, -, hcharges⟩ := locStacks_spec hdisplay hheader samples
  have hread := entries_read h (show p.tables = (st.locStacks decode opts samples).2.tables from rfl)
    (show p.mapping = (st.locStacks decode opts samples).2.mappings from rfl) hlen hperiod hcharges it
  have hsample : p.sample = ((it.order (agg (st.locStacks decode opts samples).1).entries).map
      fun e => (⟨e.1, [e.2.1, e.2.2], []⟩ : Proto.Sample)) := rfl
  refine ⟨⟨fun s hs id hid => ?_, fun loc hloc l hl => ?_⟩, ?_⟩
  · obtain ⟨e, he, rfl⟩ := List.mem_map.mp (hsample ▸ hs)
    exact oneRow_of_validId h.tables.locationIds
      (validId_of_entry h hcharges ((it.perm _).mem_iff.mp he) hid)
  · exact oneRow_of_validId h.tables.functionIds (h.tables.functions loc hloc l hl)
  · rw [hsample, List.map_map]
    exact hread

/-- The stack of a printed sample, as it is displayed. -/
def PrintedSample.displayed (shown : String → String) (s : PrintedSample) : List (String × String) :=
  s.frames.map fun f => (shown (String.ofList f.sym), String.ofList f.dso)

/-- The printed samples with a stack. -/
def withFrames (printed : List PrintedSample) : List PrintedSample :=
  printed.filter fun s => !s.frames.isEmpty

theorem stacked_sample (printed : List PrintedSample) :
    stacked (printed.map PrintedSample.sample) =
      (withFrames printed).map PrintedSample.sample := by
  rw [stacked, List.filter_map, withFrames]
  refine congrArg (List.map _) (List.filter_congr fun s _ => ?_)
  rw [Function.comp_apply, PrintedSample.sample, List.isEmpty_map]

theorem displayed_sample (shown : String → String) (s : PrintedSample) :
    Perf.displayed shown s.sample.stack = s.displayed shown := by
  rw [Perf.displayed, PrintedSample.sample, List.map_map]
  rfl

theorem word_of_any {w : List Char} (hne : w.isEmpty = false) (h : w.any isWhitespace = false) :
    Word w where
  ne_nil := by
    rintro rfl
    cases hne
  black := by
    intro c hc
    simpa using List.any_eq_false.mp h c hc

/-- A frame with a binary that has a blank in its name. -/
def hotFrame : PrintedFrame :=
  ⟨['\t'], "7f00".toList, "hot+fn".toList, some "1a".toList, "a b.so".toList⟩

/-- Two samples of one stack, of which one has no period. -/
def printedTwice : List PrintedSample :=
  [⟨"main.exe 7/7".toList, "0.000000".toList, some 1000, "cpu-clock:u".toList, [hotFrame]⟩,
    ⟨"main.exe 7/7".toList, "0.001000".toList, none, "cpu-clock:u".toList, [hotFrame]⟩]

theorem printable_hotFrame : hotFrame.Printable where
  indent := by
    refine ⟨by decide, fun c hc => ?_⟩
    rw [List.mem_singleton.mp hc]
    decide
  addr := word_of_any (by decide) (by decide)
  sym := ⟨trimmed_iff.mp ⟨by decide, by decide⟩, by decide⟩
  offset := by
    intro digits hdigits
    cases hdigits
    decide
  plain := by
    intro hnone
    cases hnone
  dso := by decide

theorem printable_printedTwice : ∀ s ∈ printedTwice, s.Printable := by
  have hframes : ∀ f ∈ [hotFrame], f.Printable := by
    intro f hf
    rw [List.mem_singleton.mp hf]
    exact printable_hotFrame
  have hevent : Word "cpu-clock:u".toList ∧ "cpu-clock:u".toList.getLast? ≠ some ':' :=
    ⟨word_of_any (by decide) (by decide), by decide⟩
  rw [printedTwice, List.forall_mem_cons, List.forall_mem_singleton]
  refine ⟨⟨by decide, word_of_any (by decide) (by decide), ?_, hevent, hframes⟩,
    ⟨by decide, word_of_any (by decide) (by decide), ?_, hevent, hframes⟩⟩
  · intro n hn
    cases hn
    decide
  · intro n hn
    cases hn

end Perf
