/-
Folded text and back.

* `pprofToFolded_spec` — what is exported are the sums of equal stacks;
* `pprofToFolded_textOf` — also where these overflow;
* `lines_render` — the lines of the text that is written;
* `folded_reads_back_iff` — which profiles are read back;
* `folded_canonicalises` — importing and exporting a text puts it in a form that
  the next import and export leaves alone.
-/
import MoonPprof.Aggregate
import MoonPprof.FoldedImport

open MachineInt Proto StackFormats Text

namespace Folded

/-! ### What is exported -/

/-- The text of a stack. -/
def joined (stack : List String) : String := ";".intercalate stack

/-- The text of some rows. -/
def render (rows : List (List String × Int)) : String :=
  foldedText (rows.map fun x => (joined x.1, x.2))

/-- The names that are written for a stack. -/
def namesOf (stack : List Frame) : List String := stack.map fun f => sanitizeFoldedFrame f.name

/-- The exported stacks by their names. -/
def rowsOn (profile : Profile) (axis : Axis) : List (List String × Int) :=
  (stacksOn profile axis).map fun x => (namesOf x.1, x.2)

theorem foldl_exportSample (profile : Profile) (axis : Axis) (st : ExportState) :
    profile.sample.foldl (exportSample (.new profile) axis) st =
      (rowsOn profile axis).foldl pushStack st := by
  rw [rowsOn, List.foldl_map]
  let push : ExportState → List Frame × Int → ExportState := fun st x =>
    pushStack st (namesOf x.1, x.2)
  refine (foldl_exported (fun st s => ?_) st :
    _ = (stacksOn profile axis).foldl push st)
  have hempty : (namesOf (stackOf profile s)).isEmpty = (stackOf profile s).isEmpty := by
    rw [namesOf, List.isEmpty_map]
  rw [← hempty]
  rfl

/-! ### Names without separators -/

def sanitizeChar (c : Char) : Char :=
  if c = ';' then ':' else if c = '\n' then ' ' else c

theorem toList_sanitizeFoldedFrame (s : String) :
    (sanitizeFoldedFrame s).toList = s.toList.map sanitizeChar := by
  rw [sanitizeFoldedFrame, replaceChar, replaceChar, String.toList_ofList, String.toList_ofList,
    List.map_map]
  refine List.map_congr_left fun c _ => ?_
  rw [Function.comp_apply, sanitizeChar]
  by_cases hsemi : c = ';'
  · rw [if_pos hsemi, if_pos hsemi]
    rfl
  · rw [if_neg hsemi, if_neg hsemi]

theorem sanitizeChar_ne (c : Char) : sanitizeChar c ≠ ';' ∧ sanitizeChar c ≠ '\n' := by
  rw [sanitizeChar]
  split
  · decide
  · rename_i hsemi
    split
    · decide
    · rename_i hnl
      exact ⟨hsemi, hnl⟩

theorem isWhitespace_sanitizeChar (c : Char) : isWhitespace (sanitizeChar c) = isWhitespace c := by
  rw [sanitizeChar]
  split
  · rename_i hsemi
    rw [hsemi]
    decide
  · split
    · rename_i hnl
      rw [hnl]
      decide
    · rfl

theorem sanitizeChar_eq_hash {c : Char} : sanitizeChar c = '#' ↔ c = '#' := by
  rw [sanitizeChar]
  split
  · rename_i hsemi
    rw [hsemi]
    decide
  · split
    · rename_i hnl
      rw [hnl]
      decide
    · rfl

theorem sanitizeFoldedFrame_eq_self {s : String} (hsemi : ';' ∉ s.toList) (hnl : '\n' ∉ s.toList) :
    sanitizeFoldedFrame s = s := by
  rw [← String.toList_inj, toList_sanitizeFoldedFrame]
  refine (List.map_congr_left fun c hc => ?_).trans (List.map_id' _)
  have hc₁ : c ≠ ';' := ne_of_mem_of_not_mem hc hsemi
  have hc₂ : c ≠ '\n' := ne_of_mem_of_not_mem hc hnl
  rw [sanitizeChar, if_neg hc₁, if_neg hc₂]

theorem trimmed_sanitizeFoldedFrame {s : String} :
    Trimmed (sanitizeFoldedFrame s).toList ↔ Trimmed s.toList := by
  rw [toList_sanitizeFoldedFrame]
  constructor
  · intro h
    refine ⟨fun c hc => ?_, fun c hc => ?_⟩
    · rw [← isWhitespace_sanitizeChar]
      exact h.head _ (by rw [List.head?_map, hc]; rfl)
    · rw [← isWhitespace_sanitizeChar]
      exact h.last _ (by rw [List.getLast?_map, hc]; rfl)
  · intro h
    refine ⟨fun c hc => ?_, fun c hc => ?_⟩
    · rw [List.head?_map, Option.map_eq_some_iff] at hc
      obtain ⟨d, hd, rfl⟩ := hc
      rw [isWhitespace_sanitizeChar]
      exact h.head d hd
    · rw [List.getLast?_map, Option.map_eq_some_iff] at hc
      obtain ⟨d, hd, rfl⟩ := hc
      rw [isWhitespace_sanitizeChar]
      exact h.last d hd

/-- A stack whose names a line can hold: none begins or ends in white space, and
the root does not begin like a comment. -/
structure Survives (stack : List Frame) : Prop where
  trimmed : ∀ f ∈ stack, Trimmed f.name.toList
  noComment : ∀ root, stack.head? = some root → root.name.toList.head? ≠ some '#'

instance (stack : List Frame) : Decidable (Survives stack) :=
  decidable_of_iff ((∀ f ∈ stack, Trimmed f.name.toList) ∧
      ∀ root ∈ stack.head?, root.name.toList.head? ≠ some '#')
    ⟨fun h => ⟨h.1, h.2⟩, fun h => ⟨h.trimmed, h.noComment⟩⟩

theorem readable_namesOf {stack : List Frame} (hne : stack ≠ [])
    (hnames : ∀ f ∈ stack, f.name ≠ "") :
    Readable (namesOf stack) ↔ Survives stack := by
  have hmem : ∀ name ∈ namesOf stack, ∃ f ∈ stack, name = sanitizeFoldedFrame f.name := by
    intro name hname
    obtain ⟨f, hf, rfl⟩ := List.mem_map.mp hname
    exact ⟨f, hf, rfl⟩
  have hhash : ∀ s : String, (sanitizeFoldedFrame s).toList.head? = some '#' ↔
      s.toList.head? = some '#' := by
    intro s
    rw [toList_sanitizeFoldedFrame, List.head?_map, Option.map_eq_some_iff]
    constructor
    · rintro ⟨c, hc, heq⟩
      rwa [sanitizeChar_eq_hash.mp heq] at hc
    · intro h
      exact ⟨'#', h, by decide⟩
  constructor
  · intro h
    refine ⟨fun f hf => ?_, fun root hroot hh => ?_⟩
    · exact trimmed_sanitizeFoldedFrame.mp (h.trimmed _ (List.mem_map_of_mem hf))
    · refine h.noComment (sanitizeFoldedFrame root.name) ?_ ((hhash _).mpr hh)
      rw [namesOf, List.head?_map, hroot]
      rfl
  · intro h
    -- separators are replaced in a name, so only its ends and a leading `#` matter
    refine ⟨by simpa [namesOf] using hne, ?_, ?_, ?_, ?_, ?_⟩
    · intro name hname hempty
      obtain ⟨f, hf, rfl⟩ := hmem name hname
      refine hnames f hf ?_
      have := congrArg String.toList hempty
      rw [toList_sanitizeFoldedFrame] at this
      simpa using this
    · intro name hname
      obtain ⟨f, hf, rfl⟩ := hmem name hname
      exact trimmed_sanitizeFoldedFrame.mpr (h.trimmed f hf)
    · intro name hname hsemi
      obtain ⟨f, hf, rfl⟩ := hmem name hname
      rw [toList_sanitizeFoldedFrame] at hsemi
      obtain ⟨c, -, hc⟩ := List.mem_map.mp hsemi
      exact (sanitizeChar_ne c).1 hc
    · intro name hname hnl
      obtain ⟨f, hf, rfl⟩ := hmem name hname
      rw [toList_sanitizeFoldedFrame] at hnl
      obtain ⟨c, -, hc⟩ := List.mem_map.mp hnl
      exact (sanitizeChar_ne c).2 hc
    · intro root hroot hh
      rw [namesOf, List.head?_map, Option.map_eq_some_iff] at hroot
      obtain ⟨f, hf, rfl⟩ := hroot
      exact h.noComment f hf ((hhash _).mp hh)

/-! ### The exported text -/

/-- Stacks whose text determines them. -/
structure Separated (stack : List String) : Prop where
  ne_nil : stack ≠ []
  noSemicolon : ∀ name ∈ stack, ';' ∉ name.toList

theorem joined_inj {stack stack' : List String} (h : Separated stack) (h' : Separated stack')
    (heq : joined stack = joined stack') : stack = stack' := by
  have hsplit : ∀ {s : List String}, Separated s →
      (joined s).toList.splitOn ';' = s.map String.toList := by
    intro s hs
    rw [joined, toList_joined, List.splitOn_intercalate]
    · intro l hl
      obtain ⟨name, hname, rfl⟩ := List.mem_map.mp hl
      exact hs.noSemicolon name hname
    · simpa using hs.ne_nil
  have hlists := (hsplit h).symm.trans
    ((congrArg (fun s => s.toList.splitOn ';') heq).trans (hsplit h'))
  exact List.map_injective_iff.mpr (fun _ _ => String.toList_inj.mp) hlists

theorem separated_of_readable {stack : List String} (h : Readable stack) : Separated stack :=
  ⟨h.ne_nil, h.noSemicolon⟩

theorem separated_namesOf {stack : List Frame} (h : stack ≠ []) : Separated (namesOf stack) where
  ne_nil := by simpa [namesOf] using h
  noSemicolon := by
    intro name hname hsemi
    obtain ⟨f, -, rfl⟩ := List.mem_map.mp hname
    rw [toList_sanitizeFoldedFrame] at hsemi
    obtain ⟨c, -, hc⟩ := List.mem_map.mp hsemi
    exact (sanitizeChar_ne c).1 hc

theorem mem_rowsOn {profile : Profile} {axis : Axis} {x : List String × Int}
    (hx : x ∈ rowsOn profile axis) : Separated x.1 ∧ 0 < x.2 := by
  obtain ⟨y, hy, rfl⟩ := List.mem_map.mp hx
  obtain ⟨-, -, -, hne, hpos⟩ := mem_stacksOn hy
  exact ⟨separated_namesOf hne, hpos⟩

theorem rowsOn_inj {profile : Profile} {axis : Axis} :
    ∀ x ∈ rowsOn profile axis, ∀ y ∈ rowsOn profile axis, joined x.1 = joined y.1 → x.1 = y.1 :=
  fun _ hx _ hy => joined_inj (mem_rowsOn hx).1 (mem_rowsOn hy).1

/-- The state of the exporter after the rows `xs`. -/
theorem foldl_pushStack (xs : List (List String × Int)) (st : ExportState) :
    (xs.foldl pushStack st).folded =
        HashMap.groupFold (fun x => joined x.1) (fun v x => wrap 64 (v + x.2)) 0 xs st.folded ∧
      (xs.foldl pushStack st).stats =
        ⟨st.stats.stackCount + xs.length,
          xs.foldl (fun total x => wrap 64 (total + x.2)) st.stats.total⟩ := by
  induction xs generalizing st with
  | nil => exact ⟨rfl, rfl⟩
  | cons x xs ih =>
    obtain ⟨hfolded, hstats⟩ := ih (pushStack st x)
    rw [List.foldl_cons]
    refine ⟨hfolded, hstats.trans ?_⟩
    rw [List.length_cons, Nat.add_comm xs.length, ← Nat.add_assoc]
    rfl

/-- The export is what pushing the exported stacks leaves. -/
theorem pprofToFolded_eq {profile : Profile} {opts : ExportOptions} {axis : Axis}
    (haxis : selectPprofAxis profile opts.valueIndex = .ok axis) :
    let st := (rowsOn profile axis).foldl pushStack .new
    pprofToFolded profile opts =
      .ok (foldedText (st.folded.inOrder.map fun e => (e.1, e.2)), st.stats) := by
  rw [pprofToFolded, haxis, ← foldl_exportSample]
  rfl

/-- The export is the text of the sums of equal stacks. -/
theorem pprofToFolded_spec {profile : Profile} {opts : ExportOptions} {axis : Axis}
    (haxis : selectPprofAxis profile opts.valueIndex = .ok axis)
    {rows : List (List String × Int)} (hrows : Aggregates joined rows (rowsOn profile axis))
    (hsum : ((rowsOn profile axis).map Prod.snd).sum ≤ 2 ^ 53) :
    pprofToFolded profile opts = .ok (render rows,
      ⟨(rowsOn profile axis).length, ((rowsOn profile axis).map Prod.snd).sum⟩) := by
  have hpos : ∀ x ∈ rowsOn profile axis, 0 < x.2 := fun x hx => (mem_rowsOn hx).2
  obtain ⟨hfolded, hstats⟩ := foldl_pushStack (rowsOn profile axis) .new
  have hentries : ((rowsOn profile axis).foldl pushStack .new).folded.inOrder =
      rows.map fun x => ⟨joined x.1, x.2⟩ := by
    refine hrows.inOrder_of_lookup (fun b => ?_) rowsOn_inj
    rw [hfolded, ExportState.new, HashMap.lookup_groupFold]
    rw [foldl_total (fun x hx => hpos x (List.mem_filter.mp hx).1)
      ((sum_filter_le hpos _).trans hsum)]
  rw [pprofToFolded_eq haxis, hentries, hstats, ExportState.new, foldl_total hpos hsum,
    Nat.zero_add, List.map_map]
  rfl

/-- The text of some rows: a line for each stack, in the order of their text, with the sum of its
values in 64 bits. -/
def textOf (rows : List (List String × Int)) : String :=
  foldedText ((aggregate id (rows.map fun x => (joined x.1, x.2))).map fun e => (e.1, wrap 64 e.2))

theorem lookup_foldl_pushStack (xs : List (List String × Int)) (key : String) :
    (xs.foldl pushStack .new).folded.lookup key =
      if key ∈ (xs.map fun x => joined x.1).dedup then
        some (wrap 64 (sumAt (xs.map fun x => (joined x.1, x.2)) key))
      else none := by
  rw [(foldl_pushStack xs .new).1, ExportState.new, lookup_groupFold_dedup, foldl_wrap_sumAt]

/-- The export is the text of the exported rows, also where their sums overflow. -/
theorem pprofToFolded_textOf {profile : Profile} {opts : ExportOptions} {axis : Axis}
    (haxis : selectPprofAxis profile opts.valueIndex = .ok axis) :
    ∃ stats, pprofToFolded profile opts = .ok (textOf (rowsOn profile axis), stats) := by
  set xs := rowsOn profile axis with hxs
  set keys := (xs.map fun x => joined x.1).dedup
  have hsorted : (sortByKey id keys).Pairwise fun key key' => key < key' :=
    pairwise_lt_sortByKey ((List.map_id' keys).symm ▸ List.nodup_dedup _)
  have hinOrder : (xs.foldl pushStack .new).folded.inOrder = (sortByKey id keys).map fun key =>
      ⟨key, wrap 64 (sumAt (xs.map fun x => (joined x.1, x.2)) key)⟩ := by
    refine sortByKey_eq ?_ (List.pairwise_map.mpr hsorted)
    exact (HashMap.entries_perm_map (List.nodup_dedup _) (lookup_foldl_pushStack xs)).trans
      ((sortByKey_perm id keys).symm.map _)
  refine ⟨(xs.foldl pushStack .new).stats, ?_⟩
  rw [pprofToFolded_eq haxis, ← hxs, hinOrder, textOf, aggregate]
  simp only [List.map_map, Function.comp_def]
  rfl

/-- Writing the rows and splitting the text into lines. -/
theorem lines_render {rows : List (List String × Int)}
    (hrows : ∀ x ∈ rows, '\n' ∉ (joined x.1).toList ∧ 0 ≤ x.2) :
    lines (render rows).toList = rows.map stackLine := by
  have htext : (render rows).toList = (rows.map stackLine).flatMap fun line => line ++ ['\n'] := by
    rw [render, foldedText, String.toList_join, List.map_map, List.flatMap_map, List.flatMap_map]
    refine List.flatMap_congr fun x _ => ?_
    simp only [Function.comp_apply, String.toList_append, stackLine, joined]
    rw [List.append_assoc, List.append_assoc, List.append_assoc]
    rfl
  rw [htext]
  refine lines_flatMap fun line hline => ?_
  obtain ⟨x, hx, rfl⟩ := List.mem_map.mp hline
  obtain ⟨hnl, hpos⟩ := hrows x hx
  obtain ⟨hne, hdigits⟩ := digits_value hpos
  refine ⟨?_, ?_⟩
  · rw [stackLine, List.mem_append, List.mem_cons, not_or, not_or]
    refine ⟨hnl, by decide, fun hmem => ?_⟩
    exact absurd (hdigits _ hmem) (by decide)
  · rw [stackLine, List.getLast?_append_of_ne_nil _ (List.cons_ne_nil _ _), List.getLast?_cons,
      List.getLast?_eq_some_getLast hne, Option.getD_some, ne_eq, Option.some.injEq]
    intro hcr
    exact absurd (hdigits _ (List.getLast_mem hne)) (by rw [hcr]; decide)

theorem mem_intercalate {d c : Char} {fields : List (List Char)}
    (h : c ∈ [d].intercalate fields) : c = d ∨ ∃ f ∈ fields, c ∈ f := by
  induction fields with
  | nil => cases h
  | cons f fields ih =>
    rcases fields with _ | ⟨g, fields⟩
    · rw [List.intercalate_singleton] at h
      exact Or.inr ⟨f, List.mem_cons_self, h⟩
    · rw [List.intercalate_cons_cons, List.mem_append, List.mem_append, List.mem_singleton] at h
      rcases h with (h | h) | h
      · exact Or.inr ⟨f, List.mem_cons_self, h⟩
      · exact Or.inl h
      · exact (ih h).imp_right fun ⟨k, hk, hc⟩ => ⟨k, List.mem_cons_of_mem _ hk, hc⟩

/-- Readable rows are read back from their text. -/
theorem parses_render {rows : List (List String × Int)}
    (h : ∀ x ∈ rows, Readable x.1 ∧ 0 < x.2 ∧ x.2 ≤ 2 ^ 53) :
    List.Forall₂ Parses (lines (render rows).toList) (rows.map some) := by
  have hlines : lines (render rows).toList = rows.map stackLine := by
    refine lines_render fun x hx => ⟨fun hnl => ?_, (h x hx).2.1.le⟩
    rw [joined, toList_joined] at hnl
    rcases mem_intercalate hnl with heq | ⟨f, hf, hc⟩
    · exact absurd heq (by decide)
    · obtain ⟨name, hname, rfl⟩ := List.mem_map.mp hf
      exact (h x hx).1.noNewline name hname hc
  rw [hlines, List.forall₂_map_left_iff, List.forall₂_map_right_iff]
  refine List.forall₂_same.mpr fun x hx => ?_
  obtain ⟨hreadable, hlo, hhi⟩ := h x hx
  exact parses_stackLine hreadable hlo hhi

theorem filterMap_map_some (rows : List (List String × Int)) :
    (rows.map some).filterMap id = rows := by
  rw [List.filterMap_map]
  exact List.filterMap_some

theorem exists_parses_of_ok {input : String} {opts : ImportOptions} {imported : ImportedPprof}
    (h : foldedToPprof input opts = .ok imported) :
    ∃ rs, List.Forall₂ Parses (lines input.toList) rs := by
  rw [foldedToPprof] at h
  simp only [bind, Except.bind] at h
  split at h
  · cases h
  · rename_i st hst
    exact exists_parses hst

/-- The stacks of an imported profile are what is exported of it. -/
theorem rowsOn_imported {p : Profile} {rows : List (List String × Int)} {unit : String}
    (h : (p.sample.map fun s => (stackOf p s, s.value)) =
      rows.map fun x => (x.1.map Frame.named, [1, x.2]))
    (hrows : ∀ x ∈ rows, Readable x.1 ∧ 0 < x.2) : rowsOn p ⟨1, unit⟩ = rows := by
  have hstacks : stacksOn p ⟨1, unit⟩ = rows.map fun x => (x.1.map Frame.named, x.2) := by
    refine stacksOn_value (by rw [h, List.map_map]; rfl) fun x hx => ?_
    obtain ⟨y, hy, rfl⟩ := List.mem_map.mp hx
    exact ⟨by simpa using (hrows y hy).1.ne_nil, (hrows y hy).2⟩
  have hnames : ∀ x ∈ rows, namesOf (x.1.map Frame.named) = x.1 := by
    intro x hx
    rw [namesOf, List.map_map]
    refine (List.map_congr_left fun name hname => ?_).trans (List.map_id' x.1)
    exact sanitizeFoldedFrame_eq_self ((hrows x hx).1.noSemicolon name hname)
      ((hrows x hx).1.noNewline name hname)
  rw [rowsOn, hstacks, List.map_map]
  refine Eq.trans (List.map_congr_left (g := id) fun x hx => ?_) (List.map_id rows)
  exact Prod.ext (hnames x hx) rfl

/-! ### Reading an export back -/

/-- The text is accepted, with one sample for each of the rows, which has its
frame names and its value, and with the same total. -/
def ReadsBack (text : String) (rows : List (List String × Int)) (total : Int)
    (opts : ImportOptions) : Prop :=
  ∃ imported, foldedToPprof text opts = .ok imported ∧
    (imported.profile.sample.map fun s =>
      ((stackOf imported.profile s).map Frame.name, s.value)) =
        rows.map (fun x => (x.1, [1, x.2])) ∧
    imported.stats.total = total

theorem map_name_named (names : List String) : (names.map Frame.named).map Frame.name = names := by
  rw [List.map_map]
  exact List.map_id' names

theorem map_sample_names {p : Profile} {rows : List (List String × Int)}
    (h : (p.sample.map fun s => (stackOf p s, s.value)) =
      rows.map fun x => (x.1.map Frame.named, [1, x.2])) :
    (p.sample.map fun s => ((stackOf p s).map Frame.name, s.value)) =
      rows.map fun x => (x.1, [1, x.2]) := by
  have hnames := congrArg (List.map fun y : List Frame × List Int => (y.1.map Frame.name, y.2)) h
  rw [List.map_map, List.map_map] at hnames
  refine hnames.trans (List.map_congr_left fun x _ => ?_)
  rw [Function.comp_apply, map_name_named]

/-- A text of rows is read back exactly when the rows are readable. -/
theorem readsBack_render_iff {rows : List (List String × Int)} (hpos : ∀ x ∈ rows, 0 < x.2)
    (hsum : (rows.map Prod.snd).sum ≤ 2 ^ 53) (opts : ImportOptions) :
    ReadsBack (render rows) rows (rows.map Prod.snd).sum opts ↔ ∀ x ∈ rows, Readable x.1 := by
  constructor
  · rintro ⟨imported, hok, hsamples, -⟩
    obtain ⟨rs, hrs⟩ := exists_parses_of_ok hok
    obtain ⟨imported', hok', hsamples', -⟩ := foldedToPprof_of_parses hrs opts
    obtain rfl := Except.ok.inj (hok.symm.trans hok')
    have hrows := hsamples.symm.trans (map_sample_names hsamples')
    intro x hx
    obtain ⟨y, hy, heq⟩ := List.mem_map.mp (hrows ▸ List.mem_map_of_mem hx)
    rw [← (Prod.ext_iff.mp heq).1]
    exact (readable_of_rows hrs y hy).1
  · intro h
    have hparses := parses_render fun x hx =>
      ⟨h x hx, hpos x hx, (value_le_sum hpos hx).trans hsum⟩
    obtain ⟨imported, hok, hsamples, htotal, -⟩ := foldedToPprof_of_parses hparses opts
    rw [filterMap_map_some] at hsamples htotal
    exact ⟨imported, hok, map_sample_names hsamples, htotal.trans (wrap_sum hpos hsum)⟩

/-- The values of the rows are positive. -/
theorem rows_pos {rows xs : List (List String × Int)} (h : Aggregates joined rows xs)
    (hpos : ∀ x ∈ xs, 0 < x.2) : ∀ x ∈ rows, 0 < x.2 := by
  intro x hx
  obtain ⟨hk, hv⟩ := (h.mem_iff x.1 x.2).mp hx
  obtain ⟨y, hy, hyx⟩ := List.mem_map.mp hk
  rw [hv, sumAt]
  refine (hpos y hy).trans_le (value_le_sum (fun z hz => hpos z (List.mem_filter.mp hz).1) ?_)
  exact List.mem_filter.mpr ⟨hy, by simpa using hyx⟩

/-- An exported text is read back without loss if and only if no frame name of an
exported stack begins or ends in white space and no root begins with `#`. -/
theorem folded_reads_back_iff {profile : Profile} {opts : ExportOptions} {axis : Axis}
    (haxis : selectPprofAxis profile opts.valueIndex = .ok axis)
    (hsum : ((exported profile axis).map (valueOn axis)).sum ≤ 2 ^ 53)
    (importOpts : ImportOptions) :
    ∃ rows stats, pprofToFolded profile opts = .ok (render rows, stats) ∧
      Aggregates joined rows (rowsOn profile axis) ∧
      (ReadsBack (render rows) rows stats.total importOpts ↔
        ∀ s ∈ exported profile axis, Survives (stackOf profile s)) := by
  have hsum' : ((rowsOn profile axis).map Prod.snd).sum ≤ 2 ^ 53 := by
    rw [rowsOn, stacksOn, List.map_map, List.map_map]
    exact hsum
  have hpos : ∀ x ∈ rowsOn profile axis, 0 < x.2 := fun x hx => (mem_rowsOn hx).2
  have hrows : Aggregates joined (aggregate joined (rowsOn profile axis)) (rowsOn profile axis) :=
    aggregates_aggregate rowsOn_inj
  set rows := aggregate joined (rowsOn profile axis)
  refine ⟨rows, _, pprofToFolded_spec haxis hrows hsum', hrows, ?_⟩
  rw [← hrows.sum_eq] at hsum'
  show ReadsBack _ _ ((rowsOn profile axis).map Prod.snd).sum _ ↔ _
  rw [← hrows.sum_eq, readsBack_render_iff (rows_pos hrows hpos) hsum']
  -- a row is readable just when a stack with its names survives
  have hstack : ∀ s ∈ exported profile axis,
      (Readable (namesOf (stackOf profile s)) ↔ Survives (stackOf profile s)) ∧
        (namesOf (stackOf profile s), valueOn axis s) ∈ rowsOn profile axis := by
    intro s hs
    have hmem : (stackOf profile s, valueOn axis s) ∈ stacksOn profile axis :=
      List.mem_map_of_mem hs
    obtain ⟨-, -, -, hne, -⟩ := mem_stacksOn hmem
    exact ⟨readable_namesOf hne fun f hf => (resolved_stackOf hf).name,
      List.mem_map_of_mem (f := fun x : List Frame × Int => (namesOf x.1, x.2)) hmem⟩
  constructor
  · intro h s hs
    obtain ⟨hiff, hmem⟩ := hstack s hs
    exact hiff.mp (h _ ((hrows.mem_iff _ _).mpr ⟨List.mem_map_of_mem hmem, rfl⟩))
  · intro h x hx
    obtain ⟨y, hy, hyx⟩ := List.mem_map.mp ((hrows.mem_iff x.1 x.2).mp hx).1
    obtain ⟨z, hz, rfl⟩ := List.mem_map.mp hy
    obtain ⟨s, hs, rfl⟩ := List.mem_map.mp hz
    rw [← hyx]
    exact (hstack s hs).1.mpr (h s hs)

/-- `main` with a comment sign in front. -/
def commentProfile : Profile where
  sampleType := [⟨1, 2⟩]
  sample := [⟨[1], [5], []⟩]
  mapping := []
  location := [⟨1, 0, 0, [⟨1, 0, 0⟩], false⟩]
  function := [⟨1, 3, 3, 0, 0⟩]
  stringTable := ["", "cpu", "nanoseconds", "#main"]
  dropFrames := 0
  keepFrames := 0
  timeNanos := 0
  durationNanos := 0
  periodType := none
  period := 0
  comment := []
  defaultSampleType := 0
  docUrl := 0

/-- Its only line is taken for a comment. -/
theorem folded_reads_back_counterexample :
    selectPprofAxis commentProfile none = .ok ⟨0, "nanoseconds"⟩ ∧
      ((exported commentProfile ⟨0, "nanoseconds"⟩).map (valueOn ⟨0, "nanoseconds"⟩)).sum ≤ 2 ^ 53 ∧
      pprofToFolded commentProfile ⟨none⟩ = .ok ("#main 5\n", ⟨1, 5⟩) ∧
      rowsOn commentProfile ⟨0, "nanoseconds"⟩ = [(["#main"], 5)] ∧
      ¬ReadsBack "#main 5\n" [(["#main"], 5)] 5 ⟨"delay", "microseconds", "folded"⟩ := by
  refine ⟨rfl, by decide +kernel, rfl, by decide +kernel, ?_⟩
  rintro ⟨imported, hok, hsamples, -⟩
  have hempty : ∃ p, foldedToPprof "#main 5\n" ⟨"delay", "microseconds", "folded"⟩ = .ok p ∧
      p.profile.sample = [] := ⟨_, rfl, rfl⟩
  obtain ⟨p, hp, hnil⟩ := hempty
  obtain rfl := Except.ok.inj (hok.symm.trans hp)
  rw [hnil] at hsamples
  cases hsamples

/-- `main` that calls `work ; fast`, for which the separator is replaced. -/
def plainProfile : Profile where
  sampleType := [⟨1, 2⟩]
  sample := [⟨[2, 1], [5], []⟩, ⟨[1], [3], []⟩, ⟨[2, 1], [4], []⟩]
  mapping := []
  location := [⟨1, 0, 0, [⟨1, 0, 0⟩], false⟩, ⟨2, 0, 0, [⟨2, 0, 0⟩], false⟩]
  function := [⟨1, 3, 3, 0, 0⟩, ⟨2, 4, 4, 0, 0⟩]
  stringTable := ["", "cpu", "nanoseconds", "main", "work ; fast"]
  dropFrames := 0
  keepFrames := 0
  timeNanos := 0
  durationNanos := 0
  periodType := none
  period := 0
  comment := []
  defaultSampleType := 0
  docUrl := 0

theorem folded_reads_back_plain :
    ∃ rows stats, pprofToFolded plainProfile ⟨none⟩ = .ok (render rows, stats) ∧
      Aggregates joined rows (rowsOn plainProfile ⟨0, "nanoseconds"⟩) ∧
      ReadsBack (render rows) rows stats.total ⟨"delay", "microseconds", "folded"⟩ := by
  obtain ⟨rows, stats, hprint, hrows, hiff⟩ := folded_reads_back_iff
    (show selectPprofAxis plainProfile none = .ok ⟨0, "nanoseconds"⟩ from rfl) (by decide +kernel)
    ⟨"delay", "microseconds", "folded"⟩
  exact ⟨rows, stats, hprint, hrows, hiff.mpr (by decide +kernel)⟩

/-! ### Import, export, import, export -/

/-- The rows of the data lines of a text. -/
def dataLines (text : String) : List (List String × Int) :=
  (lines text.toList).filterMap dataLine?

/-- On decimal values, the parser reads the data lines. -/
theorem parses_dataLines {text : String} {rs : List (Option (List String × Int))}
    (h : List.Forall₂ Parses (lines text.toList) rs)
    (hdecimal : ∀ line ∈ lines text.toList, HasDecimalValue line)
    (hsum : ((dataLines text).map Prod.snd).sum ≤ 2 ^ 53) : rs.filterMap id = dataLines text := by
  have hpos : ∀ x ∈ dataLines text, 0 < x.2 := by
    intro x hx
    obtain ⟨line, hline, hdata⟩ := List.mem_filterMap.mp hx
    obtain ⟨r, -, hr⟩ := exists_of_forall₂ h hline
    exact (parses_dataLine hr (hdecimal line hline)).1 x hdata
  have hread : ∀ line ∈ lines text.toList, ∀ r, Parses line r → r = dataLine? line := by
    intro line hline r hr
    refine (parses_dataLine hr (hdecimal line hline)).2 fun x hx => ?_
    exact (value_le_sum hpos (List.mem_filterMap.mpr ⟨line, hline, hx⟩)).trans hsum
  rw [dataLines]
  generalize lines text.toList = ls at h hread
  induction h with
  | nil => rfl
  | @cons line r ls rs hr _ ih =>
    rw [List.filterMap_cons, List.filterMap_cons, ← hread line List.mem_cons_self r hr,
      ih fun l hl => hread l (List.mem_cons_of_mem _ hl)]
    rfl

/-- Exporting what was imported gives the sums of equal rows. -/
theorem pprofToFolded_imported {p : Profile} {unit : String} {rows xs : List (List String × Int)}
    (haxis : selectPprofAxis p (some 1) = .ok ⟨1, unit⟩)
    (hsamples : (p.sample.map fun s => (stackOf p s, s.value)) =
      xs.map fun x => (x.1.map Frame.named, [1, x.2]))
    (hxs : ∀ x ∈ xs, Readable x.1 ∧ 0 < x.2) (hsum : (xs.map Prod.snd).sum ≤ 2 ^ 53)
    (hrows : Aggregates joined rows xs) :
    pprofToFolded p ⟨some 1⟩ = .ok (render rows, ⟨xs.length, (xs.map Prod.snd).sum⟩) := by
  have hon : rowsOn p ⟨1, unit⟩ = xs := rowsOn_imported hsamples hxs
  rw [← hon] at hrows hsum ⊢
  exact pprofToFolded_spec haxis hrows hsum

/-- Import followed by export puts a text in canonical form: each distinct stack of
its data lines once, in the order of their text, with the sum of its values; and
the next import and export leaves that form as it is. -/
theorem folded_canonicalises {text : String} {importOpts : ImportOptions}
    {imported : ImportedPprof} (haccept : foldedToPprof text importOpts = .ok imported)
    (hdecimal : ∀ line ∈ lines text.toList, HasDecimalValue line)
    (hsum : ((dataLines text).map Prod.snd).sum ≤ 2 ^ 53) :
    ∃ rows stats, pprofToFolded imported.profile ⟨some 1⟩ = .ok (render rows, stats) ∧
      Aggregates joined rows (dataLines text) ∧ stats.total = imported.stats.total ∧
      ∀ importOpts', ∃ imported' stats',
        foldedToPprof (render rows) importOpts' = .ok imported' ∧
        pprofToFolded imported'.profile ⟨some 1⟩ = .ok (render rows, stats') := by
  obtain ⟨rs, hrs⟩ := exists_parses_of_ok haccept
  have hdata := parses_dataLines hrs hdecimal hsum
  have hxs := readable_of_rows hrs
  obtain ⟨imported', hok, hsamples, htotal, unit, haxis⟩ := foldedToPprof_of_parses hrs importOpts
  obtain rfl := Except.ok.inj (haccept.symm.trans hok)
  rw [hdata] at hxs hsamples htotal
  have hpos : ∀ x ∈ dataLines text, 0 < x.2 := fun x hx => (hxs x hx).2
  have hrows : Aggregates joined (aggregate joined (dataLines text)) (dataLines text) :=
    aggregates_aggregate fun x hx y hy =>
      joined_inj (separated_of_readable (hxs x hx).1) (separated_of_readable (hxs y hy).1)
  set rows := aggregate joined (dataLines text)
  have hsum' : (rows.map Prod.snd).sum ≤ 2 ^ 53 := hrows.sum_eq ▸ hsum
  have hreadable : ∀ x ∈ rows, Readable x.1 ∧ 0 < x.2 := by
    intro x hx
    obtain ⟨y, hy, hyx⟩ := List.mem_map.mp ((hrows.mem_iff x.1 x.2).mp hx).1
    exact ⟨hyx ▸ (hxs y hy).1, rows_pos hrows hpos x hx⟩
  refine ⟨rows, _, pprofToFolded_imported haxis hsamples hxs hsum hrows, hrows, ?_, ?_⟩
  · exact (wrap_sum hpos hsum).symm.trans htotal.symm
  · -- the rows are their own aggregate, so that a second trip changes nothing
    intro importOpts'
    have hparses := parses_render fun x hx => ⟨(hreadable x hx).1, (hreadable x hx).2,
      (value_le_sum (rows_pos hrows hpos) hx).trans hsum'⟩
    obtain ⟨imported', hok', hsamples', -, unit', haxis'⟩ :=
      foldedToPprof_of_parses hparses importOpts'
    rw [filterMap_map_some] at hsamples'
    exact ⟨imported', _, hok',
      pprofToFolded_imported haxis' hsamples' hreadable hsum' hrows.self⟩

/-- Two stacks out of order, one of them twice, with a comment and a blank line. -/
def sampleText : String := "b;a 2\n# note\n\na 1\nb;a 3\n"

theorem folded_canonicalises_sample :
    ∃ imported, foldedToPprof sampleText ⟨"delay", "microseconds", "folded"⟩ = .ok imported ∧
      ∃ rows stats, pprofToFolded imported.profile ⟨some 1⟩ = .ok (render rows, stats) ∧
        Aggregates joined rows (dataLines sampleText) ∧ stats.total = imported.stats.total ∧
        ∀ importOpts', ∃ imported' stats',
          foldedToPprof (render rows) importOpts' = .ok imported' ∧
          pprofToFolded imported'.profile ⟨some 1⟩ = .ok (render rows, stats') := by
  have hlines : lines sampleText.toList = [stackLine (["b", "a"], 2), "# note".toList, [],
      stackLine (["a"], 1), stackLine (["b", "a"], 3)] := by decide +kernel
  have hparses : List.Forall₂ Parses (lines sampleText.toList)
      [some (["b", "a"], 2), none, none, some (["a"], 1), some (["b", "a"], 3)] := by
    rw [hlines]
    refine .cons ?_ (.cons ?_ (.cons ?_ (.cons ?_ (.cons ?_ .nil))))
    · exact parses_stackLine (by decide +kernel) (by decide) (by norm_num)
    · exact parses_iff.mpr (.skipped (by decide))
    · exact parses_iff.mpr (.skipped (by decide))
    · exact parses_stackLine (by decide +kernel) (by decide) (by norm_num)
    · exact parses_stackLine (by decide +kernel) (by decide) (by norm_num)
  obtain ⟨imported, hok, -⟩ := foldedToPprof_of_parses hparses ⟨"delay", "microseconds", "folded"⟩
  exact ⟨imported, hok, folded_canonicalises hok (by decide +kernel) (by decide +kernel)⟩

end Folded
