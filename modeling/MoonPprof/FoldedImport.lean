/-
What `foldedToPprof` makes of its lines.

* `frameIdsOf_spec` — the ids of a stack name its frames;
* `pushSamples_spec` — the samples after any number of rows;
* `foldedToPprof_of_parses` — the profile of a text whose lines are accepted;
* `exists_parses` — and every line of a text that is accepted is.
-/
import MoonPprof.FoldedLines

open MachineInt Proto StackFormats Text

namespace Folded

/-! ### Frames -/

def ImportState.tables (st : ImportState) : Tables := ⟨st.strings.items, st.functions, st.locations⟩

/-- The tables hold the frames `names`, and `frameIds` has their ids. -/
structure Tracks (emptyStr : Int) (st : ImportState) (names : List String) : Prop where
  written : Written st.tables (names.map Frame.named)
  lookup_iff : ∀ name id, st.frameIds.lookup name = some id ↔
    ∃ i, id = i + 1 ∧ names[i]? = some name
  empty : getString st.strings.items emptyStr = some ""
  named : ∀ name ∈ names, name ≠ ""

theorem tracks_new {strings : InternTable String} {emptyStr : Int}
    (h : getString strings.items emptyStr = some "") :
    Tracks emptyStr ⟨strings, ∅, [], [], [], 0⟩ [] where
  written := written_nil _
  lookup_iff := by simp
  empty := h
  named := by intro name hname; cases hname

/-- The samples and the total are not changed. -/
structure SameSamples (st st' : ImportState) : Prop where
  samples : st'.samples = st.samples
  total : st'.total = st.total

/-- The id of a frame leads to it. -/
theorem frameId_spec {emptyStr : Int} {st : ImportState} {names : List String}
    (h : Tracks emptyStr st names) {name : String} (hname : name ≠ "") :
    ∃ names' i, names <+: names' ∧ Tracks emptyStr (frameId emptyStr st name).2 names' ∧
      (frameId emptyStr st name).1 = i + 1 ∧ names'[i]? = some name ∧
      SameSamples st (frameId emptyStr st name).2 := by
  rw [frameId]
  rcases hlookup : st.frameIds.lookup name with _ | id
  · have hlen : st.functions.length = names.length := by
      rw [show st.functions.length = (names.map Frame.named).length from h.written.functions,
        List.length_map]
    obtain ⟨hstr, hpre⟩ := internString_spec st.strings name
    refine ⟨names ++ [name], names.length, List.prefix_append _ _, ?_, by rw [← hlen], ?_, rfl, rfl⟩
    · -- the new name has the id of the row that is pushed for it
      refine ⟨?_, fun name' id => ?_, getString_of_isPrefix hpre h.empty, fun name' hname' => ?_⟩
      · have hid : st.functions.length + 1 = (names.map Frame.named).length + 1 := by
          rw [List.length_map, hlen]
        rw [List.map_append]
        exact h.written.push hpre rfl rfl hid hid rfl hid rfl rfl hstr
          (getString_of_isPrefix hpre h.empty) rfl
      · simp only [getElem?_concat_eq_some]
        by_cases hn : name' = name
        · subst hn
          rw [AList.lookup_insert, Option.some.injEq]
          constructor
          · rintro rfl
            exact ⟨names.length, by rw [hlen], Or.inr ⟨rfl, rfl⟩⟩
          · rintro ⟨i, rfl, hi | ⟨rfl, -⟩⟩
            · rw [(h.lookup_iff name' (i + 1)).mpr ⟨i, rfl, hi⟩] at hlookup
              cases hlookup
            · rw [hlen]
        · rw [AList.lookup_insert_ne hn, h.lookup_iff]
          refine exists_congr fun i => and_congr_right fun _ => ?_
          exact (or_iff_left fun heq => hn heq.2.symm).symm
      · rcases List.mem_append.mp hname' with hmem | hmem
        · exact h.named name' hmem
        · rw [List.mem_singleton.mp hmem]
          exact hname
    · simp
  · obtain ⟨i, rfl, hi⟩ := (h.lookup_iff name id).mp hlookup
    exact ⟨names, i, List.prefix_refl _, h, rfl, hi, rfl, rfl⟩

/-- The ids of a stack lead to its frames. -/
theorem frameIdsOf_spec {emptyStr : Int} {st : ImportState} {names : List String}
    (h : Tracks emptyStr st names) {stack : List String} (hstack : ∀ name ∈ stack, name ≠ "") :
    ∃ names' idxs, names <+: names' ∧ Tracks emptyStr (frameIdsOf emptyStr st stack).2 names' ∧
      (frameIdsOf emptyStr st stack).1 = idxs.map (· + 1) ∧
      List.Forall₂ (fun (i : Nat) name => names'[i]? = some name) idxs stack ∧
      SameSamples st (frameIdsOf emptyStr st stack).2 := by
  induction stack using List.reverseRecOn with
  | nil => exact ⟨names, [], List.prefix_refl _, h, rfl, List.Forall₂.nil, rfl, rfl⟩
  | append_singleton stack name ih =>
    obtain ⟨names₁, idxs, hpre, htracks, hids, hidxs, hsame⟩ :=
      ih fun n hn => hstack n (List.mem_append_left _ hn)
    obtain ⟨names₂, i, hpre', htracks', hid, hi, hsame'⟩ :=
      frameId_spec htracks (hstack name (by simp))
    rw [frameIdsOf, List.foldl_append, ← frameIdsOf, List.foldl_cons, List.foldl_nil]
    refine ⟨names₂, idxs ++ [i], hpre.trans hpre', htracks', ?_, ?_, ?_⟩
    · show (frameIdsOf emptyStr st stack).1 ++ _ = _
      rw [hids, hid, List.map_append, List.map_singleton]
    · refine List.rel_append (hidxs.imp fun _ _ h => getElem?_of_isPrefix hpre' h) ?_
      exact List.Forall₂.cons hi List.Forall₂.nil
    · exact ⟨hsame'.samples.trans hsame.samples, hsame'.total.trans hsame.total⟩

/-! ### Rows -/

/-- What the state holds of the rows that were read. -/
structure Imported (emptyStr : Int) (rows : List (List String × Int)) (st : ImportState)
    (names : List String) : Prop where
  tracks : Tracks emptyStr st names
  samples : List.Forall₂ (fun (s : Sample) (x : List String × Int) =>
    ∃ idxs : List Nat, s.locationId = (idxs.map (· + 1)).reverse ∧ s.value = [1, x.2] ∧
      List.Forall₂ (fun (i : Nat) name => names[i]? = some name) idxs x.1) st.samples rows
  total : st.total = wrap 64 (rows.map Prod.snd).sum

theorem pushSamples_spec {emptyStr : Int} {st : ImportState} (h : Tracks emptyStr st [])
    (hsamples : st.samples = []) (htotal : st.total = 0) {rows : List (List String × Int)}
    (hrows : ∀ x ∈ rows, ∀ name ∈ x.1, name ≠ "") :
    ∃ names, Imported emptyStr rows (rows.foldl (pushSample emptyStr) st) names := by
  induction rows using List.reverseRecOn with
  | nil =>
    refine ⟨[], h, ?_, ?_⟩
    · rw [List.foldl_nil, hsamples]
      exact List.Forall₂.nil
    · rw [List.foldl_nil, htotal]
      exact (wrap_zero 64).symm
  | append_singleton rows x ih =>
    obtain ⟨names, hi⟩ := ih fun y hy => hrows y (List.mem_append_left _ hy)
    rw [List.foldl_append, List.foldl_cons, List.foldl_nil]
    set st₁ := rows.foldl (pushSample emptyStr) st
    obtain ⟨names', idxs, hpre, htracks, hids, hidxs, hsame⟩ :=
      frameIdsOf_spec hi.tracks (hrows x (by simp))
    refine ⟨names', ⟨htracks.written, htracks.lookup_iff, htracks.empty, htracks.named⟩, ?_, ?_⟩
    · show List.Forall₂ _ ((frameIdsOf emptyStr st₁ x.1).2.samples ++
        [⟨(frameIdsOf emptyStr st₁ x.1).1.reverse, [1, x.2], []⟩]) _
      rw [hsame.samples, hids]
      refine List.rel_append (hi.samples.imp fun s y hy => ?_)
        (List.Forall₂.cons ?_ List.Forall₂.nil)
      · obtain ⟨js, hloc, hvalue, hjs⟩ := hy
        exact ⟨js, hloc, hvalue, hjs.imp fun _ _ h => getElem?_of_isPrefix hpre h⟩
      · exact ⟨idxs, rfl, rfl, hidxs⟩
    · show wrap 64 ((frameIdsOf emptyStr st₁ x.1).2.total + x.2) = _
      rw [hsame.total, hi.total, wrap_add_left, List.map_append, List.sum_append,
        List.map_singleton, List.sum_singleton]

/-- The samples resolve to the rows. -/
theorem Imported.map_sample {emptyStr : Int} {rows : List (List String × Int)}
    {st : ImportState} {names : List String} (h : Imported emptyStr rows st names) {p : Profile}
    (hp : p.tables = st.tables) :
    (st.samples.map fun s => (stackOf p s, s.value)) =
      rows.map fun x => (x.1.map Frame.named, [1, x.2]) := by
  have hw : Written p.tables (names.map Frame.named) := hp ▸ h.tracks.written
  have hresolved : ∀ f ∈ names.map Frame.named, f.Resolved := by
    intro f hf
    obtain ⟨name, hname, rfl⟩ := List.mem_map.mp hf
    exact Frame.resolved_named (h.tracks.named name hname)
  have hsamples := h.samples
  clear h
  generalize st.samples = samples at hsamples
  induction hsamples with
  | nil => rfl
  | @cons s x samples rows hs _ ih =>
    obtain ⟨idxs, hloc, hvalue, hidxs⟩ := hs
    have hframes : List.Forall₂ (fun i f => (names.map Frame.named)[i]? = some f) idxs
        (x.1.map Frame.named) := by
      rw [List.forall₂_map_right_iff]
      exact hidxs.imp fun i name hi => by rw [List.getElem?_map, hi]; rfl
    rw [List.map_cons, List.map_cons, ih, hw.stackOf hresolved hframes hloc, hvalue]

/-! ### Lines -/

theorem importLines_of_parses {emptyStr : Int} {ls : List (List Char)}
    {rs : List (Option (List String × Int))} (h : List.Forall₂ Parses ls rs) (k : Nat)
    (st : ImportState) :
    (ls.zipIdx k).foldlM (importLine emptyStr) st =
      .ok ((rs.filterMap id).foldl (pushSample emptyStr) st) := by
  induction h generalizing k st with
  | nil => rfl
  | @cons line r ls rs hr _ ih =>
    rw [List.zipIdx_cons, List.foldlM_cons, importLine, hr]
    cases r with
    | none => exact ih (k + 1) st
    | some x => exact ih (k + 1) (pushSample emptyStr st x)

theorem exists_parses {emptyStr : Int} {ls : List (List Char)} {k : Nat} {st st' : ImportState}
    (h : (ls.zipIdx k).foldlM (importLine emptyStr) st = .ok st') :
    ∃ rs, List.Forall₂ Parses ls rs := by
  induction ls generalizing k st with
  | nil => exact ⟨[], List.Forall₂.nil⟩
  | cons line ls ih =>
    rw [List.zipIdx_cons] at h
    obtain ⟨st₁, hline, hrest⟩ := foldlM_cons_eq_ok.mp h
    obtain ⟨rs, hrs⟩ := ih hrest
    rw [importLine] at hline
    rcases hparse : parseFoldedLine line (k + 1) with e | r
    · rw [hparse] at hline
      cases hline
    · exact ⟨r :: rs, List.Forall₂.cons (parses_of_ok hparse) hrs⟩

theorem readable_of_rows {text : List Char} {rs : List (Option (List String × Int))}
    (h : List.Forall₂ Parses (lines text) rs) :
    ∀ x ∈ rs.filterMap id, Readable x.1 ∧ 0 < x.2 := by
  intro x hx
  rw [List.mem_filterMap] at hx
  obtain ⟨r, hr, hrx⟩ := hx
  have hflip := h.flip
  obtain ⟨line, hline, hparse⟩ := exists_of_forall₂ hflip hr
  rw [show r = some x from hrx] at hparse
  exact readable_of_parses hparse (not_mem_of_mem_lines hline)

/-- The samples of a text whose lines are accepted are its rows. -/
theorem foldedToPprof_of_parses {input : String} {rs : List (Option (List String × Int))}
    (h : List.Forall₂ Parses (lines input.toList) rs) (opts : ImportOptions) :
    ∃ imported, foldedToPprof input opts = .ok imported ∧
      (imported.profile.sample.map fun s => (stackOf imported.profile s, s.value)) =
        ((rs.filterMap id).map fun x => (x.1.map Frame.named, [1, x.2])) ∧
      imported.stats.total = wrap 64 ((rs.filterMap id).map Prod.snd).sum ∧
      ∃ unit, selectPprofAxis imported.profile (some 1) = .ok ⟨1, unit⟩ := by
  have hrows : ∀ x ∈ rs.filterMap id, ∀ name ∈ x.1, name ≠ "" := fun x hx =>
    (readable_of_rows h x hx).1.ne_empty
  have hempty : ∀ strings : InternTable String,
      getString (internString (internString strings "").2 opts.mappingFilename).2.items
        (internString strings "").1 = some "" := by
    intro strings
    exact getString_of_isPrefix (internString_spec _ _).2 (internString_spec strings "").1
  rw [foldedToPprof]
  simp only [importLines_of_parses h]
  obtain ⟨names, hi⟩ := pushSamples_spec (tracks_new (hempty _)) rfl rfl hrows
  exact ⟨_, rfl, hi.map_sample rfl, hi.total, _, rfl⟩

end Folded
