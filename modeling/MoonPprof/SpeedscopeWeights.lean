/-
The weighted samples of a Speedscope profile.

A weight is rounded to an integer of the unit of its profile, and a sample whose
weight rounds to zero is dropped.

* `weightAt_ne_zero_iff` — the weights that do not round to zero;
* `importSamples_samples` — the samples that the importer ends with;
* `imports_weighted_iff` — the profiles of which every weighted sample is kept.
-/
import MoonPprof.SpeedscopeRoundTrip

open MachineInt Proto StackFormats

namespace Speedscope

/-! ### Weights -/

/-- The weight of the sample at an index; one where it is missing. -/
def weightOf (weights : List F64) (i : Nat) : F64 := weights[i]?.getD (.fin 1)

theorem toI64_of_nonneg {n : Int} (h : 0 ≤ n) : F64.toI64 (.fin n) = min (2 ^ 63 - 1) n := by
  have hneg : ¬(n : ℚ) < 0 := not_lt.mpr (by exact_mod_cast h)
  rw [F64.toI64, if_neg hneg, Int.floor_intCast]
  omega

/-- A weight rounds away from zero from one half on. -/
theorem floor_half_pos {q : ℚ} : 0 < ⌊q + 1 / 2⌋ ↔ 1 / 2 ≤ q := by
  rw [← Int.add_one_le_iff, zero_add, Int.le_floor, Int.cast_one]
  constructor <;> intro h <;> linarith

theorem toI64_round_fin (q : ℚ) :
    ((F64.fin q).round.max (.fin 0)).toI64 = min (2 ^ 63 - 1) (max 0 ⌊q + 1 / 2⌋) := by
  by_cases hneg : q < 0
  · -- a negative weight is rounded to zero or below, and clamped
    have hfloor : ⌊q + 1 / 2⌋ ≤ 0 := by
      rw [← not_lt, floor_half_pos]
      intro h
      linarith
    have hround : (0 : ℚ) ≤ ⌊-q + 1 / 2⌋ := by
      exact_mod_cast Int.floor_nonneg.mpr (show 0 ≤ -q + 1 / 2 by linarith)
    rw [F64.round, if_pos hneg, F64.max_fin, sup_of_le_right (by linarith),
      show (0 : ℚ) = ((0 : Int) : ℚ) from rfl, toI64_of_nonneg le_rfl]
    omega
  · have hfloor : 0 ≤ ⌊q + 1 / 2⌋ := Int.floor_nonneg.mpr (by linarith)
    rw [F64.round, if_neg hneg, F64.max_fin, sup_of_le_left (by exact_mod_cast hfloor),
      toI64_of_nonneg hfloor]
    omega

theorem toI64_round_nonneg (w : F64) : 0 ≤ (w.round.max (.fin 0)).toI64 := by
  rcases w with _ | negative | q
  · decide
  · cases negative <;> decide
  · rw [toI64_round_fin]
    omega

theorem weightAt_nonneg (weights : List F64) (i : Nat) : 0 ≤ weightAt weights i :=
  toI64_round_nonneg _

/-- A weight does not round to zero where it is at least one half. -/
theorem weightAt_ne_zero_iff {weights : List F64} {i : Nat} :
    weightAt weights i ≠ 0 ↔
      (F64.fin 0).lt (weightOf weights i) = true ∧
        (weightOf weights i).lt (.fin (1 / 2)) = false := by
  show (F64.toI64 ((weightOf weights i).round.max (.fin 0))) ≠ 0 ↔ _
  rcases weightOf weights i with _ | negative | q
  · decide
  · cases negative <;> decide
  · rw [toI64_round_fin, F64.lt, F64.lt, decide_eq_true_iff, decide_eq_false_iff_not, not_lt]
    have hpos := @floor_half_pos q
    constructor
    · intro hne
      have hhalf := hpos.mp (by omega)
      exact ⟨by linarith, hhalf⟩
    · rintro ⟨-, hhalf⟩
      have := hpos.mpr hhalf
      omega

/-! ### The frames that are read back -/

/-- A frame of the file, as it is read from the profile. -/
def readFrame (f : Frame) : ReadFrame :=
  let name := if f.name.isEmpty then "(unknown)" else f.name
  ⟨name, name, f.file.getD "", f.line.getD 0⟩

/-- Each row of the tables reads as its frame. -/
structure Reads (t : Tables) (frames : List Frame) : Prop where
  locationIds : CountsFrom1 Location.id t.locations
  functionIds : CountsFrom1 Function.id t.functions
  locations : t.locations.length = frames.length
  functions : t.functions.length = frames.length
  rows : ∀ i f, frames[i]? = some f → t.LocationAt (i + 1) (readFrame f)

theorem reads_pushFrame {st : FrameTables} {frames : List Frame} (h : Reads st.tables frames)
    (f : Frame) : Reads (pushFrame st f).tables (frames ++ [f]) := by
  set name := if f.name.isEmpty then "(unknown)" else f.name with hname
  obtain ⟨hn, hpre⟩ := internString_spec st.strings name
  obtain ⟨hfile, hpre'⟩ := internString_spec (internString st.strings name).2 (f.file.getD "")
  have hlocations : st.locations.length = frames.length := h.locations
  have hfunctions : st.functions.length = frames.length := h.functions
  have hext : st.tables.Extends (pushFrame st f).tables :=
    ⟨hpre.trans hpre', List.prefix_append _ _, List.prefix_append _ _⟩
  refine ⟨h.locationIds.append ?_, h.functionIds.append rfl, ?_, ?_, ?_⟩
  · show st.functions.length + 1 = st.locations.length + 1
    rw [hlocations, hfunctions]
  · simp [FrameTables.tables, pushFrame, hlocations]
  · simp [FrameTables.tables, pushFrame, hfunctions]
  · refine forall_getElem?_concat (fun i g hg => (h.rows i g hg).extend hext) ?_
    have hloc : (pushFrame st f).tables.locations[frames.length]? =
        some ⟨st.functions.length + 1, 1, 0,
          [⟨st.functions.length + 1, f.line.getD 0, f.col.getD 0⟩], false⟩ := by
      rw [← hlocations]
      exact List.getElem?_concat_length
    have hfunc : (pushFrame st f).tables.functions[frames.length]? =
        some ⟨st.functions.length + 1, (internString st.strings name).1,
          (internString st.strings name).1,
          (internString (internString st.strings name).2 (f.file.getD "")).1,
          f.line.getD 0⟩ := by
      rw [← hfunctions]
      exact List.getElem?_concat_length
    exact ⟨frames.length, _, _, rfl, hloc, rfl, rfl, frames.length, _, by rw [hfunctions], hfunc,
      getString_of_isPrefix hpre' hn, getString_of_isPrefix hpre' hn, hfile⟩

theorem reads_pushFrames (frames : List Frame) (strings : InternTable String) :
    Reads (frames.foldl pushFrame ⟨strings, [], []⟩).tables frames := by
  induction frames using List.reverseRecOn with
  | nil =>
    refine ⟨?_, ?_, rfl, rfl, ?_⟩
    · intro i r hr
      cases hr
    · intro i r hr
      cases hr
    · intro i f hf
      cases hf
  | append_singleton frames f ih =>
    rw [List.foldl_append, List.foldl_cons, List.foldl_nil]
    exact reads_pushFrame ih f

/-- The frames of a stack that the file has. -/
def validFrames (frames : List Frame) (stack : List Nat) : List Frame :=
  stack.filterMap fun idx => frames[idx]?

theorem Reads.locationAt {t : Tables} {frames : List Frame} (h : Reads t frames)
    (stack : List Nat) :
    List.Forall₂ t.LocationAt (stack.filterMap fun idx => t.locations[idx]?.map Location.id)
      ((validFrames frames stack).map readFrame) := by
  rw [validFrames]
  induction stack with
  | nil => exact List.Forall₂.nil
  | cons idx stack ih =>
    rw [List.filterMap_cons, List.filterMap_cons]
    by_cases hidx : idx < frames.length
    · -- location `idx` has the id `idx + 1`, which is the row of frame `idx`
      have hloc : idx < t.locations.length := h.locations.symm ▸ hidx
      have hframe := List.getElem?_eq_getElem hidx
      rw [List.getElem?_eq_getElem hloc, hframe]
      have hid := h.locationIds idx _ (List.getElem?_eq_getElem hloc)
      exact List.Forall₂.cons (hid ▸ h.rows idx _ hframe) ih
    · have hloc : t.locations.length ≤ idx := by
        rw [h.locations]
        omega
      rw [List.getElem?_eq_none hloc, List.getElem?_eq_none (by omega)]
      exact ih

/-! ### The loop over the samples -/

/-- The sample that is written for a stack and its index, if any. -/
def written (locations : List Location) (weights : List F64) (x : List Nat × Nat) :
    Option Sample :=
  let ids := x.1.reverse.filterMap fun idx => locations[idx]?.map Location.id
  if weightAt weights x.2 = 0 ∨ ids = [] then none
  else some ⟨ids, [1, weightAt weights x.2], []⟩

theorem importSample_samples (locations : List Location) (weights : List F64)
    (acc : List Sample × Int) (x : List Nat × Nat) :
    (importSample locations weights acc x).1 = acc.1 ++ (written locations weights x).toList := by
  rw [importSample, written]
  by_cases hweight : weightAt weights x.2 = 0
  · simp [hweight]
  · by_cases hids : (x.1.reverse.filterMap fun idx => locations[idx]?.map Location.id) = []
    · simp [hids]
    · simp only [hweight, hids, List.isEmpty_iff, if_false, or_self]
      rfl

theorem importSamples_samples (locations : List Location) (weights : List F64)
    (xs : List (List Nat × Nat)) (acc : List Sample × Int) :
    (xs.foldl (importSample locations weights) acc).1 =
      acc.1 ++ xs.filterMap (written locations weights) := by
  induction xs generalizing acc with
  | nil => simp
  | cons x xs ih =>
    rw [List.foldl_cons, ih, importSample_samples, List.append_assoc]
    cases hx : written locations weights x <;> simp [hx]

/-! ### What is kept -/

section

variable (frames : List Frame) (profile : SampledProfile)

/-- The sample has a positive weight and a frame that the file has. -/
def isWeighted (x : List Nat × Nat) : Bool :=
  (F64.fin 0).lt (weightOf profile.weights x.2) && x.1.any fun idx => decide (idx < frames.length)

/-- The import has, in their order, one sample for each weighted sample of the file,
with its frames and a positive value, and no other sample. -/
def KeepsWeighted (imported : ImportedPprof) : Prop :=
  List.Forall₂ (fun x s =>
      imported.profile.readStack s =
        some ((validFrames frames x.1).reverse.map readFrame) ∧
      ∃ v, 0 < v ∧ s.value = [1, v])
    (profile.samples.zipIdx.filter (isWeighted frames profile)) imported.profile.sample

variable {frames profile}

theorem validFrames_eq_nil_iff {stack : List Nat} :
    validFrames frames stack = [] ↔
      (stack.any fun idx => decide (idx < frames.length)) = false := by
  simp [validFrames, List.filterMap_eq_nil_iff]

theorem validFrames_reverse (stack : List Nat) :
    validFrames frames stack.reverse = (validFrames frames stack).reverse := by
  rw [validFrames, validFrames, List.filterMap_reverse]

variable {t : Tables} (h : Reads t frames)
include h

/-- A sample is written for a stack where its weight does not round to zero and it has
a frame. -/
theorem written_eq (weights : List F64) (x : List Nat × Nat) :
    written t.locations weights x =
      if weightAt weights x.2 = 0 ∨ validFrames frames x.1 = [] then none
      else some ⟨x.1.reverse.filterMap fun idx => t.locations[idx]?.map Location.id,
        [1, weightAt weights x.2], []⟩ := by
  have hread := h.locationAt x.1.reverse
  rw [validFrames_reverse] at hread
  have hnil : (x.1.reverse.filterMap fun idx => t.locations[idx]?.map Location.id) = [] ↔
      validFrames frames x.1 = [] := by
    rw [← List.length_eq_zero_iff, hread.length_eq, List.length_map, List.length_reverse,
      List.length_eq_zero_iff]
  rw [written]
  simp only [hnil]

theorem written_isSome_iff {x : List Nat × Nat} (hx : isWeighted frames profile x = true) :
    (written t.locations profile.weights x).isSome = true ↔
      (weightOf profile.weights x.2).lt (.fin (1 / 2)) = false := by
  rw [isWeighted, Bool.and_eq_true] at hx
  have hne : ¬validFrames frames x.1 = [] := by
    rw [validFrames_eq_nil_iff, hx.2]
    exact Bool.noConfusion
  have hweight := @weightAt_ne_zero_iff profile.weights x.2
  rw [written_eq h]
  by_cases hzero : weightAt profile.weights x.2 = 0
  · -- a positive weight that rounds to zero is below one half
    have hlight : ¬(weightOf profile.weights x.2).lt (.fin (1 / 2)) = false := fun hhalf =>
      hweight.mpr ⟨hx.1, hhalf⟩ hzero
    rw [if_pos (Or.inl hzero)]
    exact iff_of_false Bool.noConfusion hlight
  · rw [if_neg (not_or.mpr ⟨hzero, hne⟩)]
    exact iff_of_true rfl (hweight.mp hzero).2

theorem written_eq_none {x : List Nat × Nat} (hx : isWeighted frames profile x = false) :
    written t.locations profile.weights x = none := by
  rw [isWeighted, Bool.and_eq_false_iff] at hx
  rw [written_eq h]
  refine if_pos ?_
  rcases hx with hweight | hframes
  · left
    by_contra hzero
    rw [(weightAt_ne_zero_iff.mp hzero).1] at hweight
    cases hweight
  · exact Or.inr (validFrames_eq_nil_iff.mpr hframes)

end

theorem keepsWeighted_iff (frames : List Frame) (profile : SampledProfile)
    (mappingFilename : String) :
    KeepsWeighted frames profile (importProfile frames profile mappingFilename) ↔
      ∀ x ∈ profile.samples.zipIdx, isWeighted frames profile x = true →
        (weightOf profile.weights x.2).lt (.fin (1 / 2)) = false := by
  obtain ⟨strings, hstrings⟩ : ∃ strings,
      (importProfile frames profile mappingFilename).profile.tables =
        (frames.foldl pushFrame ⟨strings, [], []⟩).tables := ⟨_, rfl⟩
  have h : Reads (importProfile frames profile mappingFilename).profile.tables frames := by
    rw [hstrings]
    exact reads_pushFrames frames strings
  set imported := importProfile frames profile mappingFilename
  have hsample : imported.profile.sample = profile.samples.zipIdx.filterMap
      (written imported.profile.tables.locations profile.weights) :=
    importSamples_samples _ _ _ _
  rw [KeepsWeighted, hsample, forall₂_filter_filterMap (fun x hx => written_eq_none h hx)]
  · exact forall₂_congr fun x _ => imp_congr_right fun hx => written_isSome_iff h hx
  · intro x s _ hs
    rw [written_eq h] at hs
    split at hs
    · cases hs
    · rename_i hweight
      obtain rfl := Option.some.inj hs
      refine ⟨?_, _, ?_, rfl⟩
      · have hread := h.locationAt x.1.reverse
        rw [validFrames_reverse] at hread
        exact readStack_of_locationAt h.functionIds h.locationIds hread
      · have := weightAt_nonneg profile.weights x.2
        omega

/-- The import keeps the weighted samples of a file exactly where each of their weights
is at least one half of the unit. -/
theorem imports_weighted_iff {fromStr : String → Option Value} {json : String}
    {opts : ImportOptions} {file : SpeedscopeFile} {profile : SampledProfile}
    (hjson : (fromStr json).bind decodeSpeedscopeFile = some file)
    (hprofile : file.profiles[opts.profileIndex]? = some profile)
    (hsampled : profile.profileType = "sampled") :
    (∃ imported, speedscopeToPprof fromStr json opts = .ok imported ∧
        KeepsWeighted file.shared.frames profile imported) ↔
      ∀ x ∈ profile.samples.zipIdx, isWeighted file.shared.frames profile x = true →
        (weightOf profile.weights x.2).lt (.fin (1 / 2)) = false := by
  have himport : speedscopeToPprof fromStr json opts =
      .ok (importProfile file.shared.frames profile opts.mappingFilename) := by
    rw [speedscopeToPprof, hjson]
    simp only [hprofile]
    exact if_neg (not_not.mpr hsampled)
  rw [← keepsWeighted_iff file.shared.frames profile opts.mappingFilename]
  constructor
  · rintro ⟨imported, hok, hkeeps⟩
    obtain rfl := Except.ok.inj (himport.symm.trans hok)
    exact hkeeps
  · intro hkeeps
    exact ⟨_, himport, hkeeps⟩

/-! ### Seconds -/

/-- A profile in seconds: two samples on one frame, the second without a weight. -/
def secondsProfile (weight : ℚ) : SampledProfile where
  profileType := "sampled"
  name := "seconds"
  unit := "seconds"
  startValue := .fin 0
  endValue := .fin (weight + 1)
  samples := [[0], [0]]
  weights := [.fin weight]

def secondsFile (weight : ℚ) : SpeedscopeFile where
  schema := "https://www.speedscope.app/file-format-schema.json"
  name := "seconds"
  activeProfileIndex := 0
  exporter := "sampler"
  shared := ⟨[.named "main"]⟩
  profiles := [secondsProfile weight]

/-- Prints an integral number of seconds, and quarters. -/
def showSeconds (w : F64) : String :=
  if w = .fin (1 / 4) then "0.25" else if w = .fin (5 / 4) then "1.25" else showIntegral w

def secondsJson (weight : ℚ) : String := (secondsFile weight).toJson.toStringPretty showSeconds

/-- Parses the text of the file. -/
def parseSeconds (weight : ℚ) (text : String) : Option Value :=
  if text = secondsJson weight then some (secondsFile weight).toJson else none

theorem parseSeconds_decodes (weight : ℚ) :
    (parseSeconds weight (secondsJson weight)).bind decodeSpeedscopeFile =
      some (secondsFile weight) := by
  have hfits : FileFits (secondsFile weight) :=
    ⟨by simp [secondsFile], by simp [secondsFile, Frame.named],
      by simp [secondsFile, secondsProfile],
      by simp [secondsFile, secondsProfile, F64.isFinite]⟩
  rw [parseSeconds, if_pos rfl, Option.bind_some, decode_toJson hfits]

theorem imports_weighted_seconds :
    ∃ imported, speedscopeToPprof (parseSeconds 2) (secondsJson 2) ⟨0, "speedscope"⟩ =
        .ok imported ∧ KeepsWeighted [.named "main"] (secondsProfile 2) imported :=
  (imports_weighted_iff (parseSeconds_decodes 2) rfl rfl).mpr (by decide +kernel)

/-- A quarter of a second rounds to nothing, and its stack is lost. -/
theorem not_keepsWeighted_quarter :
    ∃ imported, speedscopeToPprof (parseSeconds (1 / 4)) (secondsJson (1 / 4))
        ⟨0, "speedscope"⟩ = .ok imported ∧
      imported.profile.sample.map Sample.value = [[1, 1]] ∧
      ¬KeepsWeighted [.named "main"] (secondsProfile (1 / 4)) imported := by
  refine ⟨importProfile [.named "main"] (secondsProfile (1 / 4)) "speedscope", ?_,
    by decide +kernel, fun h => ?_⟩
  · rw [speedscopeToPprof, parseSeconds_decodes]
    rfl
  · have hlength := h.length_eq
    revert hlength
    decide +kernel

end Speedscope
