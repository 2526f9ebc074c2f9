/-
pprof to Speedscope and back.

The export depends on the resolved stacks and their values only
(`foldl_exportSample`), and the import gives these back.

* `pushStacks_spec` — the frames, samples and weights of the exported file;
* `decode_toJson` — the file is decoded from its JSON form;
* `importSamples_eq` — the samples and the total the importer ends with;
* `speedscope_round_trip` — the trip, and the second export after it.
-/
import MoonPprof.SortByKey
import MoonPprof.Speedscope
import Mathlib.Data.List.Forall2

open MachineInt Proto StackFormats

namespace Speedscope

/-! ### The exported file -/

theorem foldl_exportSample (profile : Profile) (axis : Axis) (st : ExportState) :
    profile.sample.foldl (exportSample (.new profile) axis) st =
      (stacksOn profile axis).foldl pushStack st :=
  foldl_exported (fun _ _ => rfl) st

/-- Interning a stack: its indices name its frames. -/
theorem internFrames_spec (stack : List Frame) (t : InternTable Frame) :
    let r := internFrames t stack
    t.items <+: r.2.items ∧ List.Forall₂ (fun (i : Nat) f => r.2.items[i]? = some f) r.1 stack ∧
      (∀ f ∈ r.2.items, f ∈ t.items ∨ f ∈ stack) ∧
      r.2.items.length ≤ t.items.length + stack.length := by
  induction stack using List.reverseRecOn with
  | nil => exact ⟨List.prefix_refl _, List.Forall₂.nil, fun f hf => Or.inl hf, Nat.le_refl _⟩
  | append_singleton stack f ih =>
    obtain ⟨hpre, hids, honly, hlen⟩ := ih
    intro r
    set r₀ := internFrames t stack
    have hr : r = (r₀.1 ++ [(r₀.2.intern f).1], (r₀.2.intern f).2) := by
      show internFrames t (stack ++ [f]) = _
      rw [internFrames, List.foldl_append]
      rfl
    have hpre' := r₀.2.intern_isPrefix f
    rw [hr]
    refine ⟨hpre.trans hpre', ?_, fun g hg => ?_, ?_⟩
    · refine List.rel_append (hids.imp fun _ _ h => getElem?_of_isPrefix hpre' h) ?_
      exact List.Forall₂.cons (r₀.2.intern_get f) List.Forall₂.nil
    · by_cases hf : f ∈ r₀.2.items
      · obtain ⟨i, hi⟩ := List.mem_iff_getElem?.mp hf
        rw [InternTable.intern_of_get hi] at hg
        exact (honly g hg).imp_right (List.mem_append_left _)
      · rw [(InternTable.intern_items_of_not_mem hf).2, List.mem_append, List.mem_singleton] at hg
        rcases hg with hg | rfl
        · exact (honly g hg).imp_right (List.mem_append_left _)
        · exact Or.inr (by simp)
    · by_cases hf : f ∈ r₀.2.items
      · obtain ⟨i, hi⟩ := List.mem_iff_getElem?.mp hf
        rw [InternTable.intern_of_get hi, List.length_append]
        exact hlen.trans (by omega)
      · rw [(InternTable.intern_items_of_not_mem hf).2, List.length_append, List.length_append]
        exact Nat.add_le_add_right hlen 1

/-- What the export holds of the stacks `xs`. -/
structure Exported (xs : List (List Frame × Int)) (st : ExportState) : Prop where
  samples : List.Forall₂ (fun ids (x : List Frame × Int) =>
    List.Forall₂ (fun (i : Nat) f => st.frames.items[i]? = some f) ids x.1) st.samples xs
  weights : st.weights = xs.map fun x => F64.ofInt x.2
  total : st.stats.total = wrap 64 (xs.map Prod.snd).sum
  only : ∀ f ∈ st.frames.items, ∃ x ∈ xs, f ∈ x.1
  size : st.frames.items.length ≤ (xs.map fun x => x.1.length).sum

theorem pushStacks_spec (xs : List (List Frame × Int)) : Exported xs (xs.foldl pushStack .new) := by
  induction xs using List.reverseRecOn with
  | nil =>
    refine ⟨List.Forall₂.nil, rfl, (wrap_zero 64).symm, ?_, Nat.le_refl _⟩
    intro f hf
    cases hf
  | append_singleton xs x ih =>
    rw [List.foldl_append, List.foldl_cons, List.foldl_nil]
    set st := xs.foldl pushStack .new
    obtain ⟨hpre, hids, honly, hlen⟩ := internFrames_spec x.1 st.frames
    refine ⟨?_, ?_, ?_, fun f hf => ?_, ?_⟩
    · refine List.rel_append (ih.samples.imp fun _ _ h => h.imp fun _ _ h =>
        getElem?_of_isPrefix hpre h) (List.Forall₂.cons hids List.Forall₂.nil)
    · show st.weights ++ [F64.ofInt x.2] = _
      rw [ih.weights, List.map_append, List.map_singleton]
    · show wrap 64 (st.stats.total + x.2) = _
      rw [ih.total, wrap_add_left, List.map_append, List.sum_append, List.map_singleton,
        List.sum_singleton]
    · rcases honly f hf with hf | hf
      · obtain ⟨y, hy, hfy⟩ := ih.only f hf
        exact ⟨y, List.mem_append_left _ hy, hfy⟩
      · exact ⟨x, by simp, hf⟩
    · rw [List.map_append, List.sum_append, List.map_singleton, List.sum_singleton]
      exact hlen.trans (Nat.add_le_add_right ih.size _)

/-! ### The file as JSON -/

/-- The numbers of a file are in the range of its fields. -/
structure FileFits (file : SpeedscopeFile) : Prop where
  active : file.activeProfileIndex < 2 ^ 63
  lines : ∀ f ∈ file.shared.frames, (∀ n, f.line = some n → InRange 64 n) ∧
    ∀ n, f.col = some n → InRange 64 n
  indices : ∀ p ∈ file.profiles, ∀ ids ∈ p.samples, ∀ i ∈ ids, i < 2 ^ 63
  finite : ∀ p ∈ file.profiles, p.startValue.isFinite = true ∧ p.endValue.isFinite = true ∧
    ∀ w ∈ p.weights, w.isFinite = true

theorem decodeUsize_int {n : Nat} (h : n < 2 ^ 63) : decodeUsize (.int n) = some n := by
  rw [decodeUsize, if_pos ⟨by omega, by omega⟩, Int.toNat_natCast]

theorem decodeVec_map {α β : Type} {decode : Value → Option α} {encode : β → Value} {g : β → α}
    {xs : List β} (h : ∀ x ∈ xs, decode (encode x) = some (g x)) :
    Value.decodeVec decode (.array (xs.map encode)) = some (xs.map g) := by
  refine Value.decodeVec_array ?_
  rw [List.forall₂_map_left_iff, List.forall₂_map_right_iff]
  exact List.forall₂_same.mpr h

theorem decodeFrame_frameToJson {f : Frame} (hline : ∀ n, f.line = some n → InRange 64 n)
    (hcol : ∀ n, f.col = some n → InRange 64 n) : decodeFrame (frameToJson f) = some f := by
  obtain ⟨name, file, line, col⟩ := f
  have hdec : ∀ {n : Int}, InRange 64 n → Value.decodeInt 64 (.int n) = some n :=
    fun h => Value.decodeInt_int h
  have hname : (frameToJson ⟨name, file, line, col⟩).field "name" Value.decodeString = some name :=
    rfl
  have hfile : (frameToJson ⟨name, file, line, col⟩).fieldOpt "file" Value.decodeString =
      some file := by
    cases file <;> cases line <;> cases col <;> rfl
  have hl : (frameToJson ⟨name, file, line, col⟩).fieldOpt "line" (Value.decodeInt 64) =
      some line := by
    rcases line with _ | n
    · cases file <;> cases col <;> rfl
    · have hget : (frameToJson ⟨name, file, some n, col⟩).get "line" = some (.int n) := by
        cases file <;> rfl
      rw [Value.fieldOpt, hget]
      exact congrArg (Option.map some) (hdec (hline n rfl))
  have hc : (frameToJson ⟨name, file, line, col⟩).fieldOpt "col" (Value.decodeInt 64) =
      some col := by
    rcases col with _ | n
    · cases file <;> cases line <;> rfl
    · have hget : (frameToJson ⟨name, file, line, some n⟩).get "col" = some (.int n) := by
        cases file <;> cases line <;> rfl
      rw [Value.fieldOpt, hget]
      exact congrArg (Option.map some) (hdec (hcol n rfl))
  rw [decodeFrame, hname, hfile, hl, hc]
  rfl

theorem decodeSampledProfile_toJson {p : SampledProfile}
    (hindices : ∀ ids ∈ p.samples, ∀ i ∈ ids, i < 2 ^ 63) :
    decodeSampledProfile p.toJson = some p := by
  have hsamples : p.toJson.field "samples" (Value.decodeVec (Value.decodeVec decodeUsize)) =
      some p.samples := by
    refine (decodeVec_map (g := fun ids => ids) fun ids hids => ?_).trans
      (congrArg some (List.map_id' _))
    refine (decodeVec_map (g := fun i => i) fun i hi => ?_).trans (congrArg some (List.map_id' _))
    exact decodeUsize_int (hindices ids hids i hi)
  have hweights : p.toJson.fieldOr "weights" [] (Value.decodeVec Value.asF64) = some p.weights :=
    (show Value.decodeVec Value.asF64 (.array (p.weights.map Value.float)) = _ from
      decodeVec_map (g := fun w => w) fun w _ => rfl).trans (congrArg some (List.map_id' _))
  rw [decodeSampledProfile, hsamples, hweights]
  rfl

theorem decode_toJson {file : SpeedscopeFile} (h : FileFits file) :
    decodeSpeedscopeFile file.toJson = some file := by
  have hactive : file.toJson.field "activeProfileIndex" decodeUsize =
      some file.activeProfileIndex := by
    rw [Value.field, show file.toJson.get "activeProfileIndex" =
      some (.int file.activeProfileIndex) from rfl, Option.bind_some]
    exact decodeUsize_int h.active
  have hframes : decodeShared (.object [("frames", .array (file.shared.frames.map frameToJson))]) =
      some file.shared := by
    have hvec : Value.decodeVec decodeFrame (.array (file.shared.frames.map frameToJson)) =
        some file.shared.frames :=
      (decodeVec_map (g := fun f => f) fun f hf =>
        decodeFrame_frameToJson (h.lines f hf).1 (h.lines f hf).2).trans
        (congrArg some (List.map_id' _))
    rw [decodeShared]
    exact congrArg (fun x : Option (List Frame) => x.bind fun frames =>
      some (Shared.mk frames)) hvec
  have hshared : file.toJson.field "shared" decodeShared = some file.shared := hframes
  have hprofiles : file.toJson.field "profiles" (Value.decodeVec decodeSampledProfile) =
      some file.profiles :=
    (decodeVec_map (g := fun p => p) fun p hp =>
      decodeSampledProfile_toJson (h.indices p hp)).trans (congrArg some (List.map_id' _))
  rw [decodeSpeedscopeFile, hactive, hshared, hprofiles]
  rfl

/-! ### The exported file is one that JSON can hold -/

/-- Lines and columns are `i64` in the message. -/
structure Int64Lines (profile : Profile) : Prop where
  lines : ∀ loc ∈ profile.location, ∀ l ∈ loc.line, InRange 64 l.line ∧ InRange 64 l.column
  startLines : ∀ f ∈ profile.function, InRange 64 f.startLine

theorem frameForLocation_inRange {profile : Profile} (h : Int64Lines profile) (locId : Nat) :
    let f := (PprofResolver.new profile).frameForLocation locId
    (∀ n, f.line = some n → InRange 64 n) ∧ ∀ n, f.col = some n → InRange 64 n := by
  have hnamed : ∀ name, (∀ n, (Frame.named name).line = some n → InRange 64 n) ∧
      ∀ n, (Frame.named name).col = some n → InRange 64 n := by
    intro name
    refine ⟨fun n hn => ?_, fun n hn => ?_⟩
    · cases hn
    · cases hn
  intro f
  rw [show f = (PprofResolver.new profile).frameForLocation locId from rfl,
    PprofResolver.frameForLocation]
  split
  · exact hnamed _
  · rename_i loc hloc
    split
    · exact hnamed _
    · rename_i line hline
      split
      · exact hnamed _
      · rename_i func hfunc
        obtain ⟨hl, hc⟩ := h.lines loc (HashMap.lookup_indexBy hloc).1 line
          (List.mem_of_mem_head? hline)
        have hs := h.startLines func (HashMap.lookup_indexBy hfunc).1
        refine ⟨fun n hn => ?_, fun n hn => ?_⟩
        · replace hn : (if line.line > 0 then some line.line
            else if func.startLine > 0 then some func.startLine else none) = some n := hn
          split at hn
          · cases hn
            exact hl
          · split at hn
            · cases hn
              exact hs
            · cases hn
        · replace hn : (if line.column > 0 then some line.column else none) = some n := hn
          split at hn
          · cases hn
            exact hc
          · cases hn

theorem plain_frameToJson {f : Frame} (hline : ∀ n, f.line = some n → InRange 64 n)
    (hcol : ∀ n, f.col = some n → InRange 64 n) : (frameToJson f).Plain := by
  obtain ⟨name, file, line, col⟩ := f
  refine Value.Plain.object ?_ fun e he => ?_
  · cases file <;> cases line <;> cases col <;> simp
  · simp only [List.mem_append, List.mem_map, List.mem_singleton, Option.mem_toList] at he
    rcases he with ((rfl | ⟨s, -, rfl⟩) | ⟨n, hn, rfl⟩) | ⟨n, hn, rfl⟩
    · exact Value.Plain.string _
    · exact Value.Plain.string _
    · exact Value.Plain.int (hline n hn)
    · exact Value.Plain.int (hcol n hn)

theorem plain_usizes {xs : List Nat} (h : ∀ x ∈ xs, x < 2 ^ 63) : (usizes xs).Plain := by
  refine Value.Plain.array fun v hv => ?_
  obtain ⟨x, hx, rfl⟩ := List.mem_map.mp hv
  have := h x hx
  exact Value.Plain.int ⟨by omega, by omega⟩

theorem plain_sampledProfile {p : SampledProfile}
    (hindices : ∀ ids ∈ p.samples, ∀ i ∈ ids, i < 2 ^ 63) (hstart : p.startValue.isFinite = true)
    (hend : p.endValue.isFinite = true) (hweights : ∀ w ∈ p.weights, w.isFinite = true) :
    p.toJson.Plain := by
  refine Value.Plain.object (by simp) fun e he => ?_
  simp only [List.mem_cons, List.not_mem_nil, or_false] at he
  rcases he with rfl | rfl | rfl | rfl | rfl | rfl | rfl
  · exact Value.Plain.string _
  · exact Value.Plain.string _
  · exact Value.Plain.string _
  · exact Value.Plain.float hstart
  · exact Value.Plain.float hend
  · refine Value.Plain.array fun v hv => ?_
    obtain ⟨ids, hids, rfl⟩ := List.mem_map.mp hv
    exact plain_usizes (hindices ids hids)
  · refine Value.Plain.array fun v hv => ?_
    obtain ⟨w, hw, rfl⟩ := List.mem_map.mp hv
    exact Value.Plain.float (hweights w hw)

theorem plain_toJson {file : SpeedscopeFile} (h : FileFits file) : file.toJson.Plain := by
  refine Value.Plain.object (by simp) fun e he => ?_
  simp only [List.mem_cons, List.not_mem_nil, or_false] at he
  rcases he with rfl | rfl | rfl | rfl | rfl | rfl
  · exact Value.Plain.string _
  · exact Value.Plain.string _
  · have := h.active
    exact Value.Plain.int ⟨by omega, by omega⟩
  · exact Value.Plain.string _
  · refine Value.Plain.object (by simp) fun e he => ?_
    rw [List.mem_singleton] at he
    rw [he]
    refine Value.Plain.array fun v hv => ?_
    obtain ⟨f, hf, rfl⟩ := List.mem_map.mp hv
    exact plain_frameToJson (h.lines f hf).1 (h.lines f hf).2
  · refine Value.Plain.array fun v hv => ?_
    obtain ⟨p, hp, rfl⟩ := List.mem_map.mp hv
    obtain ⟨hstart, hend, hweights⟩ := h.finite p hp
    exact plain_sampledProfile (h.indices p hp) hstart hend hweights

/-! ### The imported tables -/

def FrameTables.tables (st : FrameTables) : Tables := ⟨st.strings.items, st.functions, st.locations⟩

theorem written_pushFrame {st : FrameTables} {frames : List Frame} (h : Written st.tables frames)
    {f : Frame} (hf : f.Resolved) : Written (pushFrame st f).tables (frames ++ [f]) := by
  have hname : (if f.name.isEmpty then "(unknown)" else f.name) = f.name :=
    if_neg (by simpa using hf.name)
  have hfid : st.functions.length + 1 = frames.length + 1 := by rw [← h.functions]; rfl
  obtain ⟨hn, hpre⟩ := internString_spec st.strings f.name
  obtain ⟨hfile, hpre'⟩ := internString_spec (internString st.strings f.name).2 (f.file.getD "")
  rw [pushFrame]
  simp only [hname]
  exact h.push (hpre.trans hpre') rfl rfl hfid hfid rfl hfid rfl rfl
    (getString_of_isPrefix hpre' hn) hfile rfl

theorem written_pushFrames (frames : List Frame) (strings : InternTable String)
    (hframes : ∀ f ∈ frames, f.Resolved) :
    Written (frames.foldl pushFrame ⟨strings, [], []⟩).tables frames := by
  induction frames using List.reverseRecOn with
  | nil => exact written_nil _
  | append_singleton frames f ih =>
    rw [List.foldl_append, List.foldl_cons, List.foldl_nil]
    exact written_pushFrame (ih fun g hg => hframes g (List.mem_append_left _ hg))
      (hframes f (by simp))

/-! ### The imported samples -/

theorem weightAt_ofInt {weights : List F64} {i : Nat} {v : Int}
    (hget : weights[i]? = some (F64.ofInt v)) (hpos : 0 < v) (hle : v ≤ 2 ^ 53) :
    weightAt weights i = v := by
  have habs : |v| ≤ 2 ^ 53 := abs_le.mpr ⟨by omega, hle⟩
  have hmax : (F64.fin v).max (.fin 0) = .fin v := by
    rw [F64.max_fin, sup_of_le_left (by exact_mod_cast hpos.le)]
  rw [weightAt, hget, Option.getD_some, F64.ofInt_of_abs_le habs, F64.round_intCast, hmax]
  exact F64.toI64_intCast (by omega) (by omega)

/-- The sample written for the frame indices of a stack. -/
def importedSample (ids : List Nat) (value : Int) : Sample :=
  ⟨(ids.map (· + 1)).reverse, [1, value], []⟩

theorem filterMap_location {locations : List Location} (hids : CountsFrom1 Location.id locations)
    {ids : List Nat} (h : ∀ i ∈ ids, i < locations.length) :
    (ids.reverse.filterMap fun idx => locations[idx]?.map Location.id) =
      (ids.map (· + 1)).reverse := by
  rw [← List.map_reverse, ← List.filterMap_eq_map]
  refine List.filterMap_congr fun i hi => ?_
  have hlt := h i (List.mem_reverse.mp hi)
  rw [List.getElem?_eq_getElem hlt, Option.map_some, Function.comp_apply]
  exact congrArg some (hids i _ (List.getElem?_eq_getElem hlt))

/-- The loop of the importer over samples that all count. -/
theorem importSamples_eq {locations : List Location} {weights : List F64}
    (hids : CountsFrom1 Location.id locations) {samples : List (List Nat)}
    {xs : List (List Frame × Int)}
    (h : List.Forall₂ (fun ids (x : List Frame × Int) =>
      ids ≠ [] ∧ (∀ i ∈ ids, i < locations.length) ∧ 0 < x.2) samples xs)
    {k : Nat} (hweights : ∀ i x, xs[i]? = some x → weightAt weights (k + i) = x.2)
    (acc : List Sample) (total : Int) :
    (samples.zipIdx k).foldl (importSample locations weights) (acc, wrap 64 total) =
      (acc ++ List.zipWith (fun ids x => importedSample ids x.2) samples xs,
        wrap 64 (total + (xs.map Prod.snd).sum)) := by
  induction h generalizing k acc total with
  | nil => simp
  | @cons ids x samples xs hx _ ih =>
    obtain ⟨hne, hin, hpos⟩ := hx
    have hweight : weightAt weights k = x.2 := hweights 0 x rfl
    have hstep : importSample locations weights (acc, wrap 64 total) (ids, k) =
        (acc ++ [importedSample ids x.2], wrap 64 (total + x.2)) := by
      rw [importSample]
      simp only [hweight, filterMap_location hids hin]
      rw [if_neg (by omega), if_neg (by simpa using hne), wrap_add_left]
      rfl
    rw [List.zipIdx_cons, List.foldl_cons, hstep, ih fun i y hy => ?_]
    · rw [List.zipWith_cons_cons, List.append_assoc, List.singleton_append, List.map_cons,
        List.sum_cons, add_assoc]
    · rw [Nat.add_assoc, Nat.add_comm 1 i]
      exact hweights (i + 1) y hy

/-- The samples resolve to the stacks, with a count of one and their value. -/
theorem map_importedSample {p : Profile} {frames : List Frame} (hw : Written p.tables frames)
    (hframes : ∀ f ∈ frames, f.Resolved) {samples : List (List Nat)}
    {xs : List (List Frame × Int)} (h : List.Forall₂ (fun ids (x : List Frame × Int) =>
      List.Forall₂ (fun (i : Nat) f => frames[i]? = some f) ids x.1) samples xs) :
    (List.zipWith (fun ids x => importedSample ids x.2) samples xs).map
      (fun s => (stackOf p s, s.value)) = xs.map fun x => (x.1, [1, x.2]) := by
  induction h with
  | nil => rfl
  | @cons ids x samples xs hids _ ih =>
    rw [List.zipWith_cons_cons, List.map_cons, List.map_cons, ih]
    exact congrArg (fun stack => (stack, [1, x.2]) :: _) (hw.stackOf hframes hids rfl)

/-! ### The trip -/

theorem buildSpeedscope_eq {profile : Profile} {opts : ExportOptions} {axis : Axis}
    (haxis : selectPprofAxis profile opts.valueIndex = .ok axis) :
    buildSpeedscope profile opts =
      .ok (((stacksOn profile axis).foldl pushStack .new).file opts axis.unit,
        ((stacksOn profile axis).foldl pushStack .new).stats) := by
  rw [buildSpeedscope, haxis, ← foldl_exportSample]
  rfl

theorem Exported.index_lt {xs : List (List Frame × Int)} {st : ExportState} (h : Exported xs st)
    {ids : List Nat} (hids : ids ∈ st.samples) {i : Nat} (hi : i ∈ ids) :
    i < st.frames.items.length := by
  obtain ⟨x, -, hx⟩ := exists_of_forall₂ h.samples hids
  obtain ⟨f, -, hf⟩ := exists_of_forall₂ hx hi
  exact (List.getElem?_eq_some_iff.mp hf).1

theorem Exported.abs_total_le {xs : List (List Frame × Int)} {st : ExportState} (h : Exported xs st)
    (hpos : ∀ x ∈ xs, 0 < x.2) (hsum : (xs.map Prod.snd).sum ≤ 2 ^ 53) :
    |st.stats.total| ≤ 2 ^ 53 := by
  rw [h.total, wrap_sum hpos hsum]
  exact abs_le.mpr ⟨by linarith [sum_values_nonneg hpos], hsum⟩

section

variable {profile : Profile} {axis : Axis}

theorem fileFits {st : ExportState} (h : Exported (stacksOn profile axis) st)
    (hlines : Int64Lines profile)
    (hsize : ((stacksOn profile axis).map fun x => x.1.length).sum < 2 ^ 63)
    (hsum : ((stacksOn profile axis).map Prod.snd).sum ≤ 2 ^ 53) (opts : ExportOptions)
    (unit : String) : FileFits (st.file opts unit) := by
  have hpos : ∀ x ∈ stacksOn profile axis, 0 < x.2 := by
    intro x hx
    obtain ⟨-, -, -, -, hpos⟩ := mem_stacksOn hx
    exact hpos
  refine ⟨by simp [ExportState.file], fun f hf => ?_, fun p hp ids hids i hi => ?_, fun p hp => ?_⟩
  · obtain ⟨x, hx, hfx⟩ := h.only f hf
    obtain ⟨s, -, rfl, -⟩ := mem_stacksOn hx
    obtain ⟨locId, -, rfl⟩ := List.mem_map.mp hfx
    exact frameForLocation_inRange hlines locId
  · rw [ExportState.file, List.mem_singleton] at hp
    subst hp
    exact (h.index_lt hids hi).trans_le (h.size.trans hsize.le)
  · rw [ExportState.file, List.mem_singleton] at hp
    subst hp
    refine ⟨rfl, ?_, fun w hw => ?_⟩
    · show (F64.ofInt st.stats.total).isFinite = true
      rw [F64.ofInt_of_abs_le (h.abs_total_le hpos hsum)]
      rfl
    · obtain ⟨x, hx, rfl⟩ := List.mem_map.mp (h.weights ▸ hw)
      have hlo := hpos x hx
      rw [F64.ofInt_of_abs_le (abs_le.mpr ⟨by omega, (value_le_sum hpos hx).trans hsum⟩)]
      rfl

/-- Importing what was exported gives the stacks back. -/
theorem importProfile_spec {st : ExportState} (h : Exported (stacksOn profile axis) st)
    (hsum : ((stacksOn profile axis).map Prod.snd).sum ≤ 2 ^ 53) (opts : ExportOptions)
    (unit mappingFilename : String) {p : SampledProfile}
    (hp : p ∈ (st.file opts unit).profiles) :
    let imported := importProfile st.frames.items p mappingFilename
    (imported.profile.sample.map fun s => (stackOf imported.profile s, s.value)) =
        (stacksOn profile axis).map (fun x => (x.1, [1, x.2])) ∧
      imported.stats.total = st.stats.total := by
  have hxs : ∀ x ∈ stacksOn profile axis, x.1 ≠ [] ∧ 0 < x.2 := by
    intro x hx
    obtain ⟨-, -, -, hxs⟩ := mem_stacksOn hx
    exact hxs
  rw [ExportState.file, List.mem_singleton] at hp
  subst hp
  have hframes : ∀ f ∈ st.frames.items, f.Resolved := by
    intro f hf
    obtain ⟨x, hx, hfx⟩ := h.only f hf
    obtain ⟨s, -, rfl, -⟩ := mem_stacksOn hx
    exact resolved_stackOf hfx
  intro imported
  obtain ⟨strings, hstrings⟩ : ∃ strings,
      imported.profile.tables = (st.frames.items.foldl pushFrame ⟨strings, [], []⟩).tables :=
    ⟨_, rfl⟩
  have hw : Written imported.profile.tables st.frames.items := by
    rw [hstrings]
    exact written_pushFrames _ strings hframes
  -- no exported sample is skipped: its frames exist, and its weight is positive
  have hall : List.Forall₂ (fun ids (x : List Frame × Int) =>
      ids ≠ [] ∧ (∀ i ∈ ids, i < imported.profile.location.length) ∧ 0 < x.2)
      st.samples (stacksOn profile axis) := by
    refine List.forall₂_iff_get.mpr ⟨h.samples.length_eq, fun i hi hj => ?_⟩
    have hframes := (List.forall₂_iff_get.mp h.samples).2 i hi hj
    obtain ⟨hne, hpos⟩ := hxs _ (List.get_mem (stacksOn profile axis) ⟨i, hj⟩)
    refine ⟨fun hnil => hne ?_, fun j hj => ?_, hpos⟩
    · rw [hnil] at hframes
      exact List.forall₂_nil_left_iff.mp hframes
    · rw [show imported.profile.location.length = st.frames.items.length from hw.locations]
      exact h.index_lt (List.get_mem _ _) hj
  have hweights : ∀ i x, (stacksOn profile axis)[i]? = some x →
      weightAt st.weights (0 + i) = x.2 := by
    intro i x hx
    have hmem := List.mem_of_getElem? hx
    refine weightAt_ofInt ?_ (hxs x hmem).2
      ((value_le_sum (fun y hy => (hxs y hy).2) hmem).trans hsum)
    rw [h.weights, List.getElem?_map, Nat.zero_add, hx]
    rfl
  have hfold := importSamples_eq hw.locationIds hall hweights [] 0
  rw [wrap_zero, List.nil_append, zero_add] at hfold
  have hsample : imported.profile.sample =
      List.zipWith (fun ids x => importedSample ids x.2) st.samples (stacksOn profile axis) :=
    congrArg Prod.fst hfold
  refine ⟨?_, ?_⟩
  · rw [hsample]
    exact map_importedSample hw hframes h.samples
  · rw [h.total]
    exact congrArg Prod.snd hfold

/-- Exporting and importing again is lossless on the exported axis, and the
second export is the first. -/
theorem speedscope_round_trip {showFloat : F64 → String} {fromStr : String → Option Value}
    {opts : ExportOptions} (haxis : selectPprofAxis profile opts.valueIndex = .ok axis)
    (hserde : ∀ file stats, buildSpeedscope profile opts = .ok (file, stats) →
      file.toJson.Plain → fromStr (file.toJson.toStringPretty showFloat) = some file.toJson)
    (hlines : Int64Lines profile)
    (hsize : ((exported profile axis).map fun s => (stackOf profile s).length).sum < 2 ^ 63)
    (hsum : ((exported profile axis).map (valueOn axis)).sum ≤ 2 ^ 53)
    {importOpts : ImportOptions} (hindex : importOpts.profileIndex = 0) :
    ∃ file stats imported, buildSpeedscope profile opts = .ok (file, stats) ∧
      pprofToSpeedscope showFloat profile opts =
        .ok (file.toJson.toStringPretty showFloat, stats) ∧
      speedscopeToPprof fromStr (file.toJson.toStringPretty showFloat) importOpts =
        .ok imported ∧
      (imported.profile.sample.map fun s => (stackOf imported.profile s, s.value)) =
        ((exported profile axis).map fun s => (stackOf profile s, [1, valueOn axis s])) ∧
      imported.stats.total = stats.total ∧
      ∀ opts' : ExportOptions, opts'.valueIndex = some 1 →
        ∃ file' stats', buildSpeedscope imported.profile opts' = .ok (file', stats') ∧
          pprofToSpeedscope showFloat imported.profile opts' =
            .ok (file'.toJson.toStringPretty showFloat, stats') ∧
          file'.shared = file.shared ∧
          file'.profiles.map (fun p => (p.samples, p.weights)) =
            file.profiles.map (fun p => (p.samples, p.weights)) := by
  have hsize' : ((stacksOn profile axis).map fun x => x.1.length).sum < 2 ^ 63 := by
    rw [stacksOn, List.map_map]
    exact hsize
  have hsum' : ((stacksOn profile axis).map Prod.snd).sum ≤ 2 ^ 53 := by
    rw [stacksOn, List.map_map]
    exact hsum
  have hbuild := buildSpeedscope_eq haxis
  have h := pushStacks_spec (stacksOn profile axis)
  set st := (stacksOn profile axis).foldl pushStack .new
  have hfits := fileFits h hlines hsize' hsum' opts axis.unit
  have hparse := hserde _ _ hbuild (plain_toJson hfits)
  obtain ⟨hsample, htotal⟩ := importProfile_spec h hsum' opts axis.unit
    importOpts.mappingFilename (List.mem_singleton.mpr rfl)
  refine ⟨_, _, _, hbuild, ?_, ?_, hsample.trans ?_, htotal, fun opts' hvalue => ?_⟩
  · rw [pprofToSpeedscope, hbuild]
    rfl
  · rw [speedscopeToPprof, hparse, Option.bind_some, decode_toJson hfits, hindex]
    rfl
  · rw [stacksOn, List.map_map]
    rfl
  · set imported := importProfile st.frames.items _ importOpts.mappingFilename
    obtain ⟨unit, haxis'⟩ : ∃ unit,
        selectPprofAxis imported.profile opts'.valueIndex = .ok ⟨1, unit⟩ := by
      rw [hvalue]
      exact ⟨_, rfl⟩
    -- the second export starts from the same stacks
    have hstacks : stacksOn imported.profile ⟨1, unit⟩ = stacksOn profile axis := by
      refine stacksOn_value hsample fun x hx => ?_
      obtain ⟨-, -, -, hxs⟩ := mem_stacksOn hx
      exact hxs
    have hbuild' := buildSpeedscope_eq haxis'
    rw [hstacks] at hbuild'
    refine ⟨_, _, hbuild', ?_, rfl, rfl⟩
    rw [pprofToSpeedscope, hbuild']
    rfl

end

/-! ### Two stacks -/

/-- `main` in `main.mbt`, which calls a location that is missing and a function
that is missing; the latter also runs by itself. -/
def smallProfile : Profile where
  sampleType := [⟨1, 2⟩, ⟨3, 4⟩]
  sample := [⟨[9, 1], [2, 30], []⟩, ⟨[2, 1], [1, 5], []⟩, ⟨[2], [1, 7], []⟩, ⟨[1], [1, 0], []⟩]
  mapping := []
  location := [⟨1, 0, 0, [⟨1, 0, 3⟩], false⟩, ⟨2, 0, 64, [⟨8, 4, 0⟩], false⟩]
  function := [⟨1, 5, 5, 6, 12⟩]
  stringTable := ["", "samples", "count", "cpu", "nanoseconds", "main", "main.mbt"]
  dropFrames := 0
  keepFrames := 0
  timeNanos := 0
  durationNanos := 0
  periodType := none
  period := 0
  comment := []
  defaultSampleType := 0
  docUrl := 0

def smallOpts : ExportOptions := ⟨none, "moon-pprof", "profile"⟩

def smallFile : SpeedscopeFile :=
  ((stacksOn smallProfile ⟨1, "nanoseconds"⟩).foldl pushStack .new).file smallOpts "nanoseconds"

/-- Prints an integral number. -/
def showIntegral : F64 → String
  | .fin q => toString q.num ++ ".0"
  | _ => "null"

theorem speedscope_round_trip_small :
    ∃ file stats imported, buildSpeedscope smallProfile smallOpts = .ok (file, stats) ∧
      pprofToSpeedscope showIntegral smallProfile smallOpts =
        .ok (file.toJson.toStringPretty showIntegral, stats) ∧
      speedscopeToPprof (fun text => if text = smallFile.toJson.toStringPretty showIntegral then
        some smallFile.toJson else none) (file.toJson.toStringPretty showIntegral) ⟨0, "[wasm]"⟩ =
        .ok imported ∧
      (imported.profile.sample.map fun s => (stackOf imported.profile s, s.value)) =
        ((exported smallProfile ⟨1, "nanoseconds"⟩).map fun s =>
          (stackOf smallProfile s, [1, valueOn ⟨1, "nanoseconds"⟩ s])) ∧
      imported.stats.total = stats.total ∧
      ∀ opts' : ExportOptions, opts'.valueIndex = some 1 →
        ∃ file' stats', buildSpeedscope imported.profile opts' = .ok (file', stats') ∧
          pprofToSpeedscope showIntegral imported.profile opts' =
            .ok (file'.toJson.toStringPretty showIntegral, stats') ∧
          file'.shared = file.shared ∧
          file'.profiles.map (fun p => (p.samples, p.weights)) =
            file.profiles.map (fun p => (p.samples, p.weights)) := by
  have haxis : selectPprofAxis smallProfile smallOpts.valueIndex = .ok ⟨1, "nanoseconds"⟩ := rfl
  set fromStr : String → Option Value := fun text =>
    if text = smallFile.toJson.toStringPretty showIntegral then some smallFile.toJson else none
  have hserde : ∀ file stats, buildSpeedscope smallProfile smallOpts = .ok (file, stats) →
      file.toJson.Plain → fromStr (file.toJson.toStringPretty showIntegral) = some file.toJson := by
    intro file stats h _
    obtain ⟨rfl, -⟩ := Prod.mk.inj (Except.ok.inj ((buildSpeedscope_eq haxis).symm.trans h))
    exact if_pos rfl
  exact speedscope_round_trip haxis hserde ⟨by decide, by decide⟩ (by decide +kernel)
    (by decide +kernel) rfl

end Speedscope
