/-
The time deltas of a Chrome trace stream.

`intoProfile` puts the samples of all chunks in one row and their deltas in
another, and makes the rows equally long at the end only.  A sample is
`Displaced` when the numbers of samples and deltas before it let another delta
than its own stand in its place.

* `getElem?_charges` — a sample is charged with the delta in its place;
* `deltaAt_of_not_displaced` — without displacement that delta is its own;
* `chargesOwn_iff` — every sample is charged with its own delta exactly when each
  displaced one meets a delta of the same value;
* `deltaAt_relabel_ne` — with other deltas it meets a wrong one.
-/
import MoonPprof.ChromeTrace

open MachineInt Proto V8

namespace ChromeTrace

/-! ### Places -/

def sampleCount (chunks : List ProfileChunk) : Nat := (chunks.flatMap ProfileChunk.samples).length

def deltaCount (chunks : List ProfileChunk) : Nat :=
  (chunks.flatMap ProfileChunk.timeDeltas).length

/-- The delta of the `j`-th sample of a chunk, in the chunk itself. -/
def ownDelta (defaultSampleDeltaUs : Int) (c : ProfileChunk) (j : Nat) : Int :=
  c.timeDeltas[j]?.getD (max 1 defaultSampleDeltaUs)

/-- The `i`-th of all deltas. -/
def deltaAt (defaultSampleDeltaUs : Int) (chunks : List ProfileChunk) (i : Nat) : Int :=
  (chunks.flatMap ProfileChunk.timeDeltas)[i]?.getD (max 1 defaultSampleDeltaUs)

/-- The place of the `j`-th sample of `c` is not the place of its delta: the chunks
before do not have as many deltas as samples, or the sample has no delta and its
place is taken by one of another chunk. -/
def Displaced (before : List ProfileChunk) (c : ProfileChunk) (after : List ProfileChunk)
    (j : Nat) : Prop :=
  if j < c.timeDeltas.length then deltaCount before ≠ sampleCount before
  else sampleCount before + j < deltaCount (before ++ c :: after)

theorem getElem?_fixTimeDeltas (defaultSampleDeltaUs : Int) {n : Nat} (timeDeltas : List Int)
    {i : Nat} (hi : i < n) :
    (fixTimeDeltas defaultSampleDeltaUs n timeDeltas)[i]? =
      some (timeDeltas[i]?.getD (max 1 defaultSampleDeltaUs)) := by
  rw [fixTimeDeltas, max_comm]
  by_cases hshort : timeDeltas.length < n
  · rw [if_pos hshort]
    rcases Nat.lt_or_ge i timeDeltas.length with hlt | hge
    · rw [List.getElem?_append_left hlt, List.getElem?_eq_getElem hlt, Option.getD_some]
    · rw [List.getElem?_append_right hge, List.getElem?_replicate, if_pos (by omega),
        List.getElem?_eq_none hge, Option.getD_none]
  · rw [if_neg hshort, List.getElem?_take_of_lt hi]
    rw [List.getElem?_eq_getElem (by omega), Option.getD_some]

/-- The samples of a chunk stand behind those of the chunks before it. -/
theorem getElem?_samples {before after : List ProfileChunk} {c : ProfileChunk} {j : Nat}
    (hj : j < c.samples.length) :
    ((before ++ c :: after).flatMap ProfileChunk.samples)[sampleCount before + j]? =
      c.samples[j]? := by
  rw [List.flatMap_append, List.flatMap_cons, sampleCount,
    List.getElem?_append_right (Nat.le_add_right _ _), Nat.add_sub_cancel_left,
    List.getElem?_append_left hj]

/-- Its deltas stand behind theirs. -/
theorem getElem?_timeDeltas {before after : List ProfileChunk} {c : ProfileChunk} {j : Nat}
    (hj : j < c.timeDeltas.length) :
    ((before ++ c :: after).flatMap ProfileChunk.timeDeltas)[deltaCount before + j]? =
      c.timeDeltas[j]? := by
  rw [List.flatMap_append, List.flatMap_cons, deltaCount,
    List.getElem?_append_right (Nat.le_add_right _ _), Nat.add_sub_cancel_left,
    List.getElem?_append_left hj]

theorem deltaAt_of_not_displaced (defaultSampleDeltaUs : Int) {before after : List ProfileChunk}
    {c : ProfileChunk} {j : Nat} (h : ¬ Displaced before c after j) :
    deltaAt defaultSampleDeltaUs (before ++ c :: after) (sampleCount before + j) =
      ownDelta defaultSampleDeltaUs c j := by
  rw [Displaced] at h
  rw [deltaAt, ownDelta]
  by_cases hj : j < c.timeDeltas.length
  · rw [if_pos hj, not_not] at h
    rw [← h, getElem?_timeDeltas hj]
  · rw [if_neg hj, deltaCount] at h
    rw [List.getElem?_eq_none (by omega), List.getElem?_eq_none (by omega)]

/-! ### The profile -/

variable {stream : PartialProfile} {defaultSampleDeltaUs : Int}

theorem intoProfile_eq_some {e : ExtractedCpuProfile}
    (h : stream.intoProfile defaultSampleDeltaUs = some e) :
    e.profile.samples = (sortByKey ProfileChunk.ts stream.chunks).flatMap ProfileChunk.samples ∧
      e.profile.timeDeltas = fixTimeDeltas defaultSampleDeltaUs e.profile.samples.length
        ((sortByKey ProfileChunk.ts stream.chunks).flatMap ProfileChunk.timeDeltas) := by
  rw [PartialProfile.intoProfile] at h
  split at h
  · cases h
  · cases h
    exact ⟨rfl, rfl⟩

/-- A sample is charged with the delta in its place. -/
theorem getElem?_charges {e : ExtractedCpuProfile}
    (h : stream.intoProfile defaultSampleDeltaUs = some e) {before after : List ProfileChunk}
    {c : ProfileChunk} (hchunks : sortByKey ProfileChunk.ts stream.chunks = before ++ c :: after)
    {j : Nat} {s : Int} (hs : c.samples[j]? = some s) :
    e.profile.charges[sampleCount before + j]? = some (s,
      deltaAt defaultSampleDeltaUs (before ++ c :: after) (sampleCount before + j)) := by
  obtain ⟨hsamples, hdeltas⟩ := intoProfile_eq_some h
  have hj : j < c.samples.length := (List.getElem?_eq_some_iff.mp hs).1
  have hget : e.profile.samples[sampleCount before + j]? = some s := by
    rw [hsamples, hchunks, getElem?_samples hj, hs]
  have hlt : sampleCount before + j < e.profile.samples.length :=
    (List.getElem?_eq_some_iff.mp hget).1
  rw [CpuProfile.charges, List.getElem?_map, List.getElem?_zipIdx, hget, Option.map_some,
    Option.map_some, Nat.zero_add, hdeltas, getElem?_fixTimeDeltas _ _ hlt, Option.getD_some,
    deltaAt, hchunks]

/-- Each sample is charged with the delta its own chunk has for it, or with the
fallback when the chunk has none. -/
def ChargesOwn (stream : PartialProfile) (defaultSampleDeltaUs : Int) : Prop :=
  ∀ e, stream.intoProfile defaultSampleDeltaUs = some e → ∀ before c after,
    sortByKey ProfileChunk.ts stream.chunks = before ++ c :: after → ∀ j s, c.samples[j]? = some s →
      e.profile.charges[sampleCount before + j]? = some (s, ownDelta defaultSampleDeltaUs c j)

theorem chargesOwn_iff (stream : PartialProfile) (defaultSampleDeltaUs : Int) :
    ChargesOwn stream defaultSampleDeltaUs ↔
      ∀ before c after, sortByKey ProfileChunk.ts stream.chunks = before ++ c :: after →
        ∀ j < c.samples.length, Displaced before c after j →
          deltaAt defaultSampleDeltaUs (before ++ c :: after) (sampleCount before + j) =
            ownDelta defaultSampleDeltaUs c j := by
  constructor
  · intro h before c after hchunks j hj _
    have hne : (sortByKey ProfileChunk.ts stream.chunks).isEmpty = false := by
      rw [hchunks]
      simp
    obtain ⟨e, he⟩ : ∃ e, stream.intoProfile defaultSampleDeltaUs = some e := by
      rw [PartialProfile.intoProfile]
      simp only [hne]
      exact ⟨_, rfl⟩
    have hs := List.getElem?_eq_getElem hj
    have hplace := getElem?_charges he hchunks hs
    rw [h e he before c after hchunks j _ hs, Option.some.injEq, Prod.mk.injEq] at hplace
    exact hplace.2.symm
  · intro h e he before c after hchunks j s hs
    rw [getElem?_charges he hchunks hs]
    by_cases hplace : Displaced before c after j
    · rw [h before c after hchunks j (List.getElem?_eq_some_iff.mp hs).1 hplace]
    · rw [deltaAt_of_not_displaced _ hplace]

/-! ### Other values of the deltas -/

/-- The numbers of samples and deltas of a chunk. -/
def numbers (c : ProfileChunk) : Nat × Nat := (c.samples.length, c.timeDeltas.length)

theorem sampleCount_eq (chunks : List ProfileChunk) :
    sampleCount chunks = ((chunks.map numbers).map Prod.fst).sum := by
  rw [sampleCount, List.length_flatMap, List.map_map]
  rfl

theorem deltaCount_eq (chunks : List ProfileChunk) :
    deltaCount chunks = ((chunks.map numbers).map Prod.snd).sum := by
  rw [deltaCount, List.length_flatMap, List.map_map]
  rfl

/-- Only the numbers decide what is displaced. -/
theorem displaced_congr {before before' after after' : List ProfileChunk} {c c' : ProfileChunk}
    (hbefore : before.map numbers = before'.map numbers) (hc : numbers c = numbers c')
    (hafter : after.map numbers = after'.map numbers) (j : Nat) :
    Displaced before c after j ↔ Displaced before' c' after' j := by
  have hlen : c.timeDeltas.length = c'.timeDeltas.length := congrArg Prod.snd hc
  rw [Displaced, Displaced, sampleCount_eq, sampleCount_eq before', deltaCount_eq before,
    deltaCount_eq before', deltaCount_eq, deltaCount_eq (before' ++ _)]
  simp only [List.map_append, List.map_cons, hbefore, hc, hafter, hlen]

/-- The chunks with `x + k`, `x + k + 1` and so on for their deltas. -/
def relabel (x : Int) : Nat → List ProfileChunk → List ProfileChunk
  | _, [] => []
  | k, c :: chunks =>
    { c with timeDeltas := (List.range' k c.timeDeltas.length).map fun i : Nat => x + i } ::
      relabel x (k + c.timeDeltas.length) chunks

variable {x : Int}

theorem numbers_relabel (k : Nat) (chunks : List ProfileChunk) :
    (relabel x k chunks).map numbers = chunks.map numbers := by
  induction chunks generalizing k with
  | nil => rfl
  | cons c chunks ih => simp [relabel, ih, numbers]

theorem ts_relabel (k : Nat) (chunks : List ProfileChunk) :
    (relabel x k chunks).map ProfileChunk.ts = chunks.map ProfileChunk.ts := by
  induction chunks generalizing k with
  | nil => rfl
  | cons c chunks ih => simp [relabel, ih]

theorem timeDeltas_relabel (k : Nat) (chunks : List ProfileChunk) :
    (relabel x k chunks).flatMap ProfileChunk.timeDeltas =
      (List.range' k (deltaCount chunks)).map fun i : Nat => x + i := by
  induction chunks generalizing k with
  | nil => rfl
  | cons c chunks ih =>
    have hcount : deltaCount (c :: chunks) = c.timeDeltas.length + deltaCount chunks := by
      simp [deltaCount]
    rw [relabel, List.flatMap_cons, ih, hcount, ← List.map_append, List.range'_append_1]

/-- Chunks in order stay in order. -/
theorem sortByKey_relabel (chunks : List ProfileChunk) (k : Nat) :
    sortByKey ProfileChunk.ts (relabel x k (sortByKey ProfileChunk.ts chunks)) =
      relabel x k (sortByKey ProfileChunk.ts chunks) := by
  refine List.Pairwise.insertionSort_eq ?_
  have hpairwise := List.pairwise_map.mpr (pairwise_sortByKey ProfileChunk.ts chunks)
  rw [← ts_relabel (x := x) k] at hpairwise
  exact List.pairwise_map.mp hpairwise

/-- With increasing deltas above the fallback, a displaced sample meets a wrong one. -/
theorem deltaAt_relabel_ne {chunks before after : List ProfileChunk} {c : ProfileChunk}
    (hchunks : relabel (max 1 defaultSampleDeltaUs + 1) 0 chunks = before ++ c :: after) {j : Nat}
    (h : Displaced before c after j) :
    deltaAt defaultSampleDeltaUs (before ++ c :: after) (sampleCount before + j) ≠
      ownDelta defaultSampleDeltaUs c j := by
  have hdeltas : ∀ (i : Nat) dt,
      ((before ++ c :: after).flatMap ProfileChunk.timeDeltas)[i]? = some dt →
        dt = max 1 defaultSampleDeltaUs + 1 + i := by
    intro i dt hdt
    rw [← hchunks, timeDeltas_relabel] at hdt
    obtain ⟨hi, rfl⟩ := List.getElem?_eq_some_iff.mp hdt
    simp
  rw [Displaced] at h
  rw [deltaAt, ownDelta]
  by_cases hj : j < c.timeDeltas.length
  · rw [if_pos hj] at h
    have hown := List.getElem?_eq_getElem hj
    have hvalue := hdeltas _ _ ((getElem?_timeDeltas hj).trans hown)
    rw [hown, Option.getD_some, hvalue]
    set place := sampleCount before + j
    rcases hplace : ((before ++ c :: after).flatMap ProfileChunk.timeDeltas)[place]? with _ | dt
    · rw [Option.getD_none]
      omega
    · rw [Option.getD_some, hdeltas _ _ hplace]
      omega
  · rw [if_neg hj, deltaCount] at h
    have hplace := List.getElem?_eq_getElem h
    rw [hplace, Option.getD_some, hdeltas _ _ hplace, List.getElem?_eq_none (by omega),
      Option.getD_none]
    omega

/-! ### The condition -/

/-- Every sample is charged with the delta its own chunk has for it, or with the
fallback when it has none, exactly when each displaced sample finds a delta of the
same value in its place; and whatever the values of the deltas are, exactly when
no sample is displaced. -/
theorem charges_own_iff (stream : PartialProfile) (defaultSampleDeltaUs : Int) :
    (ChargesOwn stream defaultSampleDeltaUs ↔
      ∀ before c after, sortByKey ProfileChunk.ts stream.chunks = before ++ c :: after →
        ∀ j < c.samples.length, Displaced before c after j →
          deltaAt defaultSampleDeltaUs (before ++ c :: after) (sampleCount before + j) =
            ownDelta defaultSampleDeltaUs c j) ∧
    ((∀ stream' : PartialProfile, (sortByKey ProfileChunk.ts stream'.chunks).map numbers =
        (sortByKey ProfileChunk.ts stream.chunks).map numbers →
        ChargesOwn stream' defaultSampleDeltaUs) ↔
      ∀ before c after, sortByKey ProfileChunk.ts stream.chunks = before ++ c :: after →
        ∀ j < c.samples.length, ¬ Displaced before c after j) := by
  refine ⟨chargesOwn_iff stream defaultSampleDeltaUs, ?_, fun h stream' hnumbers => ?_⟩
  · intro h before c after hchunks j hj hplace
    set relabelled : PartialProfile := { stream with
      chunks := relabel (max 1 defaultSampleDeltaUs + 1) 0 (sortByKey ProfileChunk.ts stream.chunks) }
    have hsorted := sortByKey_relabel (x := max 1 defaultSampleDeltaUs + 1) stream.chunks 0
    have hnumbers := numbers_relabel (x := max 1 defaultSampleDeltaUs + 1) 0
      (sortByKey ProfileChunk.ts stream.chunks)
    have hown := (chargesOwn_iff relabelled defaultSampleDeltaUs).mp
      (h relabelled (by rw [hsorted, hnumbers]))
    -- the relabelled chunks split where the original ones do
    rw [hchunks, List.map_append, List.map_cons] at hnumbers
    obtain ⟨before', rest, hsplit, hbefore, hrest⟩ := List.map_eq_append_iff.mp hnumbers
    obtain ⟨c', after', rfl, hc, hafter⟩ := List.map_eq_cons_iff.mp hrest
    rw [← hchunks] at hsplit
    have hplace' := (displaced_congr hbefore hc hafter j).mpr hplace
    have hlen : c'.samples.length = c.samples.length := congrArg Prod.fst hc
    exact deltaAt_relabel_ne hsplit hplace'
      (hown before' c' after' (hsorted.trans hsplit) j (by omega) hplace')
  · rw [chargesOwn_iff]
    intro before' c' after' hchunks' j hj hplace
    rw [hchunks', List.map_append, List.map_cons] at hnumbers
    obtain ⟨before, rest, hsplit, hbefore, hrest⟩ := List.map_eq_append_iff.mp hnumbers.symm
    obtain ⟨c, after, rfl, hc, hafter⟩ := List.map_eq_cons_iff.mp hrest
    have hlen : c.samples.length = c'.samples.length := congrArg Prod.fst hc
    exact absurd ((displaced_congr hbefore hc hafter j).mpr hplace)
      (h before c after hsplit j (by omega))

/-- Two chunks of one sample each; only the second one has a delta. -/
def lateDeltas : PartialProfile where
  key := "pid=1/tid=1/id=0x1"
  startTime := none
  endTime := none
  chunks := [⟨10, [⟨1, ⟨"f", "m.wasm", .null, 0, 0⟩, [], none⟩], [1], []⟩, ⟨20, [], [1], [5]⟩]

/-- The first sample is charged with the delta of the second one. -/
theorem charges_lateDeltas :
    (∃ e, lateDeltas.intoProfile 1000 = some e ∧ e.profile.charges = [(1, 5), (1, 1000)]) ∧
      ¬ ChargesOwn lateDeltas 1000 := by
  refine ⟨⟨_, rfl, rfl⟩, fun h => ?_⟩
  have hfirst := h _ rfl [] _ _ rfl 0 1 rfl
  exact absurd hfirst (by decide)

end ChromeTrace
