/-
Importing a Chrome trace does not depend on how its profiles were streamed.

A trace holds a family of streams (`TraceOf`), each cut from a recording in any
way, its events in any order.

* `exists_keep` — without its lost chunks, each stream is one of the same tree;
* `extract_keeps` — the extracted profiles are those of what is left, by key;
* `more_eq_nil` — the pprof samples tell whether one is missing;
* `streamed_trace_converts_iff` — so conversion yields the pprof samples of the
  recording if and only if no event has samples without a V8 profile.
-/
import MoonPprof.ChromeTraceImport
import Mathlib.Algebra.BigOperators.Ring.Finset
import Mathlib.Algebra.Order.Ring.Int

open MachineInt Proto V8

namespace ChromeTrace

/-- A recording with a way to stream it under a key. -/
structure Stream where
  key : String
  recording : Recording
  chunks : List ProfileChunk
  cut : Cut recording chunks

def Stream.events (s : Stream) : List (String × ProfileChunk) := s.chunks.map fun c => (s.key, c)

/-- A trace, as an array or as an object with `traceEvents`, that holds the
chunks of the family in any order, mixed with other events. -/
structure TraceOf (display : Value → String) (family : List Stream) (v : Value) : Prop where
  events : ∃ vs kinds, Events v vs ∧
    List.Forall₂ (Describes display) vs kinds ∧
    kinds.reduceOption.Perm (family.flatMap Stream.events)

/-! ### The family -/

theorem Events.unique {json : Value} {vs vs' : List Value} (h : Events json vs)
    (h' : Events json vs') : vs = vs' := by
  rcases h with rfl | h
  · rcases h' with h' | h'
    · exact Value.array.inj h'
    · cases h'
  · rcases h' with rfl | h'
    · cases h
    · rw [h] at h'
      exact Value.array.inj (Option.some.inj h')

theorem parseTraceEvents_of_events {json : Value} {vs : List Value} (hvs : Events json vs)
    {es : List TraceEvent} (hes : vs.mapM decodeTraceEvent = some es)
    {fromStr : String → Option Value} {input : String} (hparse : fromStr input = some json) :
    parseTraceEvents fromStr input = .ok es := by
  have htrace : decodeTraceJson json = some es := by
    rcases hvs with rfl | hget
    · exact hes
    · cases json with
      | object fields =>
        rw [decodeTraceJson, Value.fieldOr, hget]
        exact hes
      | _ => cases hget
  rw [parseTraceEvents, hparse, Option.bind_some, htrace]

theorem chunksOf_perm {kinds : List (Option (String × ProfileChunk))} {family : List Stream}
    (h : kinds.reduceOption.Perm (family.flatMap Stream.events)) (key : String) :
    (chunksOf key kinds).Perm ((family.filter (·.key = key)).flatMap Stream.chunks) := by
  refine ((h.filter _).map _).trans (List.Perm.of_eq ?_)
  clear h
  induction family with
  | nil => rfl
  | cons s family ih =>
    rw [List.flatMap_cons, List.filter_append, List.map_append, ih]
    by_cases hkey : s.key = key
    · rw [List.filter_cons_of_pos (by simpa using hkey), List.flatMap_cons]
      simp [Stream.events, List.filter_map, Function.comp_def, hkey]
    · rw [List.filter_cons_of_neg (by simpa using hkey)]
      simp [Stream.events, List.filter_map, Function.comp_def, hkey]

theorem filter_key {family : List Stream} (hkeys : (family.map Stream.key).Nodup) {s : Stream}
    (hs : s ∈ family) : family.filter (·.key = s.key) = [s] := by
  induction family with
  | nil => cases hs
  | cons t family ih =>
    rw [List.map_cons, List.nodup_cons] at hkeys
    have hother : ∀ u ∈ family, u.key ≠ t.key := fun u hu heq =>
      hkeys.1 (heq ▸ List.mem_map_of_mem hu)
    rcases List.mem_cons.mp hs with rfl | hs
    · rw [List.filter_cons_of_pos (by simp), List.filter_eq_nil_iff.mpr]
      intro u hu
      simpa using hother u hu
    · rw [List.filter_cons_of_neg (by simpa using Ne.symm (hother s hs)), ih hkeys.2 hs]

/-- Each stream of the family has its own chunks. -/
theorem chunksOf_key {kinds : List (Option (String × ProfileChunk))} {family : List Stream}
    (hkeys : (family.map Stream.key).Nodup)
    (h : kinds.reduceOption.Perm (family.flatMap Stream.events)) {s : Stream} (hs : s ∈ family) :
    (chunksOf s.key kinds).Perm s.chunks := by
  have hp := chunksOf_perm h s.key
  rwa [filter_key hkeys hs, List.flatMap_cons, List.flatMap_nil, List.append_nil] at hp

/-- Among events of these kinds, the chunks are those of the family. -/
structure Holds (family : List Stream) (kinds : List (Option (String × ProfileChunk))) : Prop where
  own : ∀ s ∈ family, (chunksOf s.key kinds).Perm s.chunks
  other : ∀ key, key ∉ family.map Stream.key → chunksOf key kinds = []

theorem holds_of_perm {kinds : List (Option (String × ProfileChunk))} {family : List Stream}
    (hkeys : (family.map Stream.key).Nodup)
    (h : kinds.reduceOption.Perm (family.flatMap Stream.events)) : Holds family kinds where
  own _ hs := chunksOf_key hkeys h hs
  other key hkey := by
    have hnone : family.filter (·.key = key) = [] := by
      rw [List.filter_eq_nil_iff]
      intro s hs heq
      exact hkey (List.mem_map.mpr ⟨s, hs, by simpa using heq⟩)
    have hp := chunksOf_perm h key
    rw [hnone] at hp
    exact List.perm_nil.mp hp

theorem StreamsInv.chunks {kinds : List (Option (String × ProfileChunk))}
    {streams : HashMap String PartialProfile} (h : StreamsInv kinds streams) {key : String}
    {stream : PartialProfile} (hlookup : streams.lookup key = some stream) :
    stream.chunks = chunksOf key kinds := by
  rw [← h key, hlookup]
  rfl

/-- The streams with chunks are those of the family, in the order of their keys. -/
theorem StreamsInv.map_key {kinds : List (Option (String × ProfileChunk))}
    {streams : HashMap String PartialProfile} (hinv : StreamsInv kinds streams)
    {family : List Stream} (hkeys : (family.map Stream.key).Nodup) (h : Holds family kinds) :
    (streams.inOrder.filter fun e => !e.2.chunks.isEmpty).map Sigma.fst =
      (sortByKey Stream.key family).map Stream.key := by
  refine List.Pairwise.eq_of_mem_iff (r := (· < ·)) ?_ ?_ fun key => ?_
  · exact List.pairwise_map.mpr ((HashMap.pairwise_lt_inOrder streams).filter _)
  · exact List.pairwise_map.mpr (pairwise_lt_sortByKey hkeys)
  · rw [((sortByKey_perm Stream.key family).map Stream.key).mem_iff]
    constructor
    · intro hkey
      obtain ⟨⟨key', stream⟩, he, hkey'⟩ := List.mem_map.mp hkey
      obtain rfl : key' = key := hkey'
      obtain ⟨hin, hne⟩ := List.mem_filter.mp he
      by_contra hnot
      have hnil := h.other key' hnot
      rw [← hinv.chunks (HashMap.mem_inOrder.mp hin)] at hnil
      simp [hnil] at hne
    · intro hkey
      obtain ⟨s, hs, rfl⟩ := List.mem_map.mp hkey
      have hne : chunksOf s.key kinds ≠ [] := fun hnil =>
        s.cut.ne_nil (List.nil_perm.mp (hnil ▸ h.own s hs))
      rcases hlookup : streams.lookup s.key with _ | stream
      · have hnil := hinv s.key
        rw [hlookup] at hnil
        exact absurd hnil.symm hne
      · refine List.mem_map.mpr ⟨⟨s.key, stream⟩, List.mem_filter.mpr
          ⟨HashMap.mem_inOrder.mpr hlookup, ?_⟩, rfl⟩
        simpa [hinv.chunks hlookup] using hne

/-- The profiles extracted from events that take in a family are those of the family, in the order
of their keys. -/
theorem extract_taken {fromStr : String → Option Value} {display : Value → String} {input : String}
    {es : List TraceEvent} (hes : parseTraceEvents fromStr input = .ok es)
    {taken : List (Option (String × ProfileChunk))}
    (hingests : List.Forall₂ (Ingests display) es taken) {family : List Stream}
    (hkeys : (family.map Stream.key).Nodup) (h : Holds family taken) (defaultSampleDeltaUs : Int) :
    ∃ profiles, extractCpuProfiles fromStr display input defaultSampleDeltaUs = .ok profiles ∧
      List.Forall₂ (fun x s => x.profile.Realizes s.recording) profiles
        (sortByKey Stream.key family) := by
  obtain ⟨streams, hok, hinv⟩ := streams_spec hingests
    (show StreamsInv [] (∅ : HashMap String PartialProfile) from fun key => rfl)
  rw [List.nil_append] at hinv
  refine ⟨_, by rw [extractCpuProfiles, hes]; simp only [bind, Except.bind, hok]; rfl, ?_⟩
  -- streams that only had a header give no profile
  set live := streams.inOrder.filter fun e => !e.2.chunks.isEmpty with hlive
  have hout : (streams.inOrder.filterMap fun e => e.2.intoProfile defaultSampleDeltaUs) =
      live.filterMap fun e => e.2.intoProfile defaultSampleDeltaUs := by
    rw [hlive, List.filterMap_filter]
    refine List.filterMap_congr fun e _ => ?_
    by_cases hempty : e.2.chunks = []
    · rw [PartialProfile.intoProfile, hempty]
      rfl
    · simp [hempty]
  rw [hout]
  refine forall₂_filterMap ((forall₂_of_map_eq (hinv.map_key hkeys h)).imp ?_)
  rintro ⟨key, stream⟩ s ⟨heq, he, hs⟩
  obtain rfl : key = s.key := heq
  refine s.cut.intoProfile ?_ defaultSampleDeltaUs
  rw [hinv.chunks (HashMap.mem_inOrder.mp (List.mem_filter.mp he).1)]
  exact h.own s ((sortByKey_perm _ _).mem_iff.mp hs)

/-! ### What is left -/

/-- The chunks of a stream among lost ones. -/
def lostOf (key : String) (lost : List (String × ProfileChunk)) : List ProfileChunk :=
  (lost.filter (·.1 = key)).map Prod.snd

theorem mem_lostOf {key : String} {lost : List (String × ProfileChunk)} {c : ProfileChunk} :
    c ∈ lostOf key lost ↔ (key, c) ∈ lost := by
  simp [lostOf]

theorem chunksOf_lost {kinds taken : List (Option (String × ProfileChunk))}
    {lost : List (String × ProfileChunk)}
    (h : kinds.reduceOption.Perm (taken.reduceOption ++ lost)) (key : String) :
    (chunksOf key kinds).Perm (chunksOf key taken ++ lostOf key lost) := by
  have hp := (h.filter (fun x => decide (x.1 = key))).map Prod.snd
  rwa [List.filter_append, List.map_append] at hp

/-- What is left of a stream: the same key and tree, and the samples that are not lost. -/
structure Keeps (lost : List (String × ProfileChunk)) (s s' : Stream) : Prop where
  key : s'.key = s.key
  tree : s'.recording.tree = s.recording.tree
  samples : s.recording.samples.Perm
    (s'.recording.samples ++ (lostOf s.key lost).flatMap ProfileChunk.samples)
  recording : (∀ c ∈ lostOf s.key lost, c.samples = []) → s'.recording = s.recording

/-- Without its lost chunks, each stream of a family is one of the same tree. -/
theorem exists_keep {family : List Stream} {kinds taken : List (Option (String × ProfileChunk))}
    {lost : List (String × ProfileChunk)} (h : Holds family kinds)
    (hlost : kinds.reduceOption.Perm (taken.reduceOption ++ lost))
    (hbare : ∀ x ∈ lost, x.2.nodes = [] ∧ x.2.samples.length = x.2.timeDeltas.length) :
    ∃ keep : Stream → Stream, (∀ s ∈ family, Keeps lost s (keep s)) ∧
      Holds (family.map keep) taken := by
  have hone : ∀ s : Stream, ∃ s' : Stream, s ∈ family →
      Keeps lost s s' ∧ (chunksOf s.key taken).Perm s'.chunks := by
    intro s
    by_cases hs : s ∈ family
    · have hperm : s.chunks.Perm (chunksOf s.key taken ++ lostOf s.key lost) :=
        (h.own s hs).symm.trans (chunksOf_lost hlost s.key)
      -- what is taken in is put in the order of its timestamps, which differ
      have hsorted := sortByKey_perm ProfileChunk.ts (chunksOf s.key taken)
      have hts : ((chunksOf s.key taken).map ProfileChunk.ts).Nodup := by
        have hall : (s.chunks.map ProfileChunk.ts).Nodup :=
          (List.pairwise_map.mpr s.cut.ts).imp ne_of_lt
        rw [(hperm.map _).nodup_iff, List.map_append] at hall
        exact hall.of_append_left
      obtain ⟨r', hcut, htree, hsamples, hsame⟩ := s.cut.without
        (hperm.trans (hsorted.symm.append_right _)) (pairwise_lt_sortByKey hts)
        fun c hc => hbare _ (mem_lostOf.mp hc)
      exact ⟨⟨s.key, r', _, hcut⟩, fun _ => ⟨⟨rfl, htree, hsamples, hsame⟩, hsorted.symm⟩⟩
    · exact ⟨s, fun hmem => absurd hmem hs⟩
  choose keep hkeep using hone
  have hkey : (family.map keep).map Stream.key = family.map Stream.key := by
    rw [List.map_map]
    exact List.map_congr_left fun s hs => (hkeep s hs).1.key
  refine ⟨keep, fun s hs => (hkeep s hs).1, fun s' hs' => ?_, fun key hnot => ?_⟩
  · obtain ⟨s, hs, rfl⟩ := List.mem_map.mp hs'
    rw [(hkeep s hs).1.key]
    exact (hkeep s hs).2
  · rw [hkey] at hnot
    have hp := chunksOf_lost hlost key
    rw [h.other key hnot] at hp
    exact (List.append_eq_nil_iff.mp (List.nil_perm.mp hp)).1

/-- What a trace leaves of a stream: the whole recording if its samples are carried, and one of
fewer samples of the same tree if not. -/
structure Leaves (display : Value → String) (json : Value) (s s' : Stream) : Prop where
  tree : s'.recording.tree = s.recording.tree
  samples : ∃ more, s.recording.samples.Perm (s'.recording.samples ++ more) ∧
    (more = [] → CarriesSamples display json s.key)
  recording : CarriesSamples display json s.key → s'.recording = s.recording

/-- The extracted profiles are those of what is left of the family, in the order of its keys. -/
theorem extract_keeps {display : Value → String} {family : List Stream}
    (hkeys : (family.map Stream.key).Nodup) {json : Value} (h : TraceOf display family json)
    {fromStr : String → Option Value} {input : String} (hparse : fromStr input = some json)
    (defaultSampleDeltaUs : Int) :
    ∃ profiles, ∃ keep : Stream → Stream,
      extractCpuProfiles fromStr display input defaultSampleDeltaUs = .ok profiles ∧
      List.Forall₂ (fun x s => x.profile.Realizes (keep s).recording) profiles
        (sortByKey Stream.key family) ∧
      ∀ s ∈ family, Leaves display json s (keep s) := by
  obtain ⟨vs, kinds, hvs, hdescribes, hperm⟩ := h.events
  obtain ⟨es, taken, lost, hes, hingests, hlost, hbare, hcarried⟩ := decode_events hdescribes
  obtain ⟨keep, hkeep, hholds⟩ := exists_keep (holds_of_perm hkeys hperm) hlost hbare
  have hkey : (family.map keep).map Stream.key = family.map Stream.key := by
    rw [List.map_map]
    exact List.map_congr_left fun s hs => (hkeep s hs).key
  obtain ⟨profiles, hextract, hall⟩ := extract_taken (parseTraceEvents_of_events hvs hes hparse)
    hingests (hkey ▸ hkeys) hholds defaultSampleDeltaUs
  have hsorted : sortByKey Stream.key (family.map keep) = (sortByKey Stream.key family).map keep := by
    refine sortByKey_eq ((sortByKey_perm Stream.key family).symm.map keep) ?_
    refine List.pairwise_map.mpr ((pairwise_lt_sortByKey hkeys).imp_of_mem fun hs ht hlt => ?_)
    rw [(hkeep _ ((sortByKey_perm _ _).mem_iff.mp hs)).key,
      (hkeep _ ((sortByKey_perm _ _).mem_iff.mp ht)).key]
    exact hlt
  rw [hsorted, List.forall₂_map_right_iff] at hall
  refine ⟨profiles, keep, hextract, hall, fun s hs => ?_⟩
  have hiff : CarriesSamples display json s.key ↔ ∀ c ∈ lostOf s.key lost, c.samples = [] := by
    have hall : CarriesSamples display json s.key ↔
        ∀ x ∈ lost, x.1 = s.key → x.2.samples = [] := by
      rw [← hcarried s.key]
      exact ⟨fun h => h vs hvs, fun h vs' hvs' => hvs.unique hvs' ▸ h⟩
    rw [hall]
    constructor
    · intro h c hc
      exact h _ (mem_lostOf.mp hc) rfl
    · rintro h ⟨key, c⟩ hx rfl
      exact h c (mem_lostOf.mpr hx)
  refine ⟨(hkeep s hs).tree, ⟨_, (hkeep s hs).samples, fun hnil => ?_⟩,
    fun hc => (hkeep s hs).recording (hiff.mp hc)⟩
  exact hiff.mpr (List.flatMap_eq_nil_iff.mp hnil)

/-- The extracted profiles are those of the family, if all its samples are carried. -/
theorem extract_spec {display : Value → String} {family : List Stream}
    (hkeys : (family.map Stream.key).Nodup) {json : Value} (h : TraceOf display family json)
    (hcarries : ∀ s ∈ family, CarriesSamples display json s.key)
    {fromStr : String → Option Value} {input : String} (hparse : fromStr input = some json)
    (defaultSampleDeltaUs : Int) :
    ∃ profiles, extractCpuProfiles fromStr display input defaultSampleDeltaUs = .ok profiles ∧
      List.Forall₂ (fun x s => x.profile.Realizes s.recording) profiles
        (sortByKey Stream.key family) := by
  obtain ⟨profiles, keep, hextract, hall, hleaves⟩ :=
    extract_keeps hkeys h hparse defaultSampleDeltaUs
  refine ⟨profiles, hextract, List.forall₂_iff_get.mpr ⟨hall.length_eq, fun i hi hi' => ?_⟩⟩
  have hs := (sortByKey_perm Stream.key family).mem_iff.mp (List.get_mem _ ⟨i, hi'⟩)
  rw [← (hleaves _ hs).recording (hcarries _ hs)]
  exact hall.get hi hi'

/-- A selected profile that holds a recording converts to its readings. -/
theorem convert_of_realizes {fromStr : String → Option Value} {display : Value → String}
    (it : IterOrder (Sigma fun _ : Int => Int)) {input : String} {opts : ConvertOptions}
    (hopts : opts.noDemangle = true) {profiles : List ExtractedCpuProfile}
    (hprofiles : extractCpuProfiles fromStr display input opts.defaultSampleDeltaUs = .ok profiles)
    {x : ExtractedCpuProfile} (hx : profiles[opts.profileIndex]? = some x) {r : Recording}
    (hr : x.profile.Realizes r) (hsep : ∀ m ∈ r.tree.nodes, Separable m.callFrame) {fuel : Nat}
    (hfuel : r.tree.nodes.length ≤ fuel) :
    ∃ path out, (∀ id ∈ r.samples, NodePath r.tree.nodes id (path id)) ∧
      convert fromStr display it fuel input opts = some (.ok out) ∧
      (out.profile.sample.map fun s => (out.profile.readStack s, s.value)).Perm
        ((r.readings path).map wrapReading) := by
  obtain ⟨path, profile, stats, hpath, hbuild, hperm⟩ :=
    hr.build_spec hsep display opts.mappingFilename it hfuel
  refine ⟨path, ⟨profile, profiles.map ExtractedCpuProfile.info, stats⟩, hpath, ?_, hperm⟩
  have hne : profiles.isEmpty = false := by
    rw [List.isEmpty_eq_false_iff]
    rintro rfl
    cases hx
  rw [convert, hprofiles]
  simp only [hne, Bool.false_eq_true, if_false, hx, hopts, if_true]
  show Option.map _ (build display (fun s => s) opts.mappingFilename it fuel _) = _
  rw [hbuild]
  rfl

/-! ### Counting samples -/

/-- The readings count all samples, also when they are kept in another form that leaves the counts
as they are. -/
theorem sum_counts (r : Recording) (path : Int → List TreeNode) {g : Int → Int}
    (hg : ∀ id ∈ r.samples, g (r.samples.count id) = r.samples.count id) :
    ((r.readings path).map fun x => (x.2.map g).headD 0).sum = (r.samples.length : Int) := by
  rw [Recording.readings, List.map_map, ← List.sum_map_count_dedup_eq_length, Nat.cast_list_sum,
    List.map_map]
  exact congrArg List.sum (List.map_congr_left fun id hid => hg id (List.mem_dedup.mp hid))

theorem forall_count {r : Recording} {path : Int → List TreeNode} {P : Int → Prop}
    (h : ∀ x ∈ r.readings path, ∀ v ∈ x.2, P v) {id : Int} (hid : id ∈ r.samples) :
    P (r.samples.count id) :=
  h _ (List.mem_map_of_mem (List.mem_dedup.mpr hid)) _ List.mem_cons_self

theorem inRange_count {w a b : Nat} (h : a ≤ b) (hb : InRange w (b : Int)) : InRange w (a : Int) :=
  ⟨(inRange_zero w).1.trans (Int.natCast_nonneg a), (Int.ofNat_le.mpr h).trans_lt hb.2⟩

/-- Readings in 64 bits of some of the samples are those of all only if none is missing. -/
theorem more_eq_nil {r r' : Recording} {more : List Int} (hperm : r.samples.Perm (r'.samples ++ more))
    {path path' : Int → List TreeNode}
    (hrange : ∀ x ∈ r.readings path, ∀ v ∈ x.2, InRange 64 v)
    (h : ((r'.readings path').map wrapReading).Perm (r.readings path)) : more = [] := by
  have hcount : ∀ id ∈ r'.samples, InRange 64 (r'.samples.count id : Int) := by
    intro id hid
    have hmem : id ∈ r.samples := hperm.mem_iff.mpr (List.mem_append_left _ hid)
    have hle : r'.samples.count id ≤ r.samples.count id := by
      rw [hperm.count_eq, List.count_append]
      exact Nat.le_add_right _ _
    exact inRange_count hle (forall_count hrange hmem)
  have hsum := (h.map fun x => (x.2.map id).headD 0).sum_eq
  have hleft : ((r'.readings path').map wrapReading).map (fun x => (x.2.map id).headD 0) =
      (r'.readings path').map fun x => (x.2.map (wrap 64)).headD 0 := by
    rw [List.map_map]
    exact List.map_congr_left fun x _ => by rw [Function.comp_apply, List.map_id]; rfl
  rw [hleft, sum_counts r' path' fun id hid => wrap_of_inRange (by omega) (hcount id hid),
    sum_counts r path fun _ _ => rfl] at hsum
  have hlength := hperm.length_eq
  rw [List.length_append] at hlength
  exact List.length_eq_zero_iff.mp (by omega)

/-- Chrome traces import independently of how the profiler streamed them, whatever the chunks and
the order of all events, exactly when the samples of the stream come with V8 profiles: then
conversion at the index of the stream in key order gives exactly one pprof sample for each sampled
node of its recording.  Its stack reads as the path from the node to the root, and its values are
the number of its samples and their time in nanoseconds, in 64 bits.  Otherwise, where these values
fit, the result is not these samples. -/
theorem streamed_trace_converts_iff {fromStr : String → Option Value} {display : Value → String}
    (it : IterOrder (Sigma fun _ : Int => Int)) {family : List Stream}
    (hkeys : (family.map Stream.key).Nodup) {input : String} {json : Value}
    (hparse : fromStr input = some json) (h : TraceOf display family json)
    {opts : ConvertOptions} (hopts : opts.noDemangle = true) {s : Stream}
    (hs : (sortByKey Stream.key family)[opts.profileIndex]? = some s)
    (hsep : ∀ m ∈ s.recording.tree.nodes, Separable m.callFrame) {fuel : Nat}
    (hfuel : s.recording.tree.nodes.length ≤ fuel) :
    ∃ path, (∀ id ∈ s.recording.samples, NodePath s.recording.tree.nodes id (path id)) ∧
      (CarriesSamples display json s.key → ∃ out,
        convert fromStr display it fuel input opts = some (.ok out) ∧
        (out.profile.sample.map fun x => (out.profile.readStack x, x.value)).Perm
          ((s.recording.readings path).map wrapReading)) ∧
      ((∀ x ∈ s.recording.readings path, ∀ v ∈ x.2, InRange 64 v) →
        ((∃ out, convert fromStr display it fuel input opts = some (.ok out) ∧
          (out.profile.sample.map fun x => (out.profile.readStack x, x.value)).Perm
            (s.recording.readings path)) ↔ CarriesSamples display json s.key)) := by
  obtain ⟨profiles, keep, hprofiles, hall, hleaves⟩ :=
    extract_keeps hkeys h hparse opts.defaultSampleDeltaUs
  obtain ⟨hi, hget⟩ := List.getElem?_eq_some_iff.mp hs
  have hi' : opts.profileIndex < profiles.length := by rw [hall.length_eq]; exact hi
  have hmem : s ∈ family := (sortByKey_perm Stream.key family).mem_iff.mp (hget ▸ List.getElem_mem hi)
  have hrealizes : profiles[opts.profileIndex].profile.Realizes (keep s).recording := by
    have hr := hall.get hi' hi
    simp only [List.get_eq_getElem, hget] at hr
    exact hr
  obtain ⟨htree, ⟨more, hsamples, hmore⟩, hsame⟩ := hleaves s hmem
  obtain ⟨path', out, hpath', hconvert, hperm⟩ := convert_of_realizes it hopts hprofiles
    (List.getElem?_eq_getElem hi') hrealizes (htree ▸ hsep) (htree ▸ hfuel)
  -- paths of the samples that are lost are not the importer's
  obtain ⟨path, hpath, hcarried⟩ : ∃ path,
      (∀ id ∈ s.recording.samples, NodePath s.recording.tree.nodes id (path id)) ∧
        (CarriesSamples display json s.key → path = path') := by
    by_cases hc : CarriesSamples display json s.key
    · exact ⟨path', hsame hc ▸ hpath', fun _ => rfl⟩
    · obtain ⟨path, hpath⟩ := s.recording.exists_path
      exact ⟨path, hpath, fun hc' => absurd hc' hc⟩
  have hwrapped : CarriesSamples display json s.key →
      (out.profile.sample.map fun x => (out.profile.readStack x, x.value)).Perm
        ((s.recording.readings path).map wrapReading) := by
    intro hc
    rw [hcarried hc, ← hsame hc]
    exact hperm
  refine ⟨path, hpath, fun hc => ⟨out, hconvert, hwrapped hc⟩, fun hrange => ⟨?_, fun hc => ?_⟩⟩
  · rintro ⟨out', hconvert', hexact⟩
    obtain rfl : out = out' := Except.ok.inj (Option.some.inj (hconvert.symm.trans hconvert'))
    exact hmore (more_eq_nil hsamples hrange (hperm.symm.trans hexact))
  · have hexact := hwrapped hc
    rw [map_wrapReading hrange] at hexact
    exact ⟨out, hconvert, hexact⟩

/-! ### A trace out of order

Two chunks of one stream, the second one first in the array, and a node that
names its parent before that one is known. -/

def namedFrame (functionName : String) : CallFrame := ⟨functionName, "", .null, -1, -1⟩

def smallTree : CallTree where
  nodes := [⟨1, namedFrame "(root)", none⟩, ⟨2, namedFrame "f", some 1⟩]
  nonempty := by simp
  ids := by simp
  rooted := by
    have hroot : NodePath [⟨1, namedFrame "(root)", none⟩, ⟨2, namedFrame "f", some 1⟩] 1
        [⟨1, namedFrame "(root)", none⟩] := .root (by simp) rfl rfl
    intro n hn
    simp only [List.mem_cons, List.not_mem_nil, or_false] at hn
    rcases hn with rfl | rfl
    · exact ⟨_, hroot⟩
    · exact ⟨_, .child (by simp) rfl rfl hroot⟩

def smallRecording : Recording where
  tree := smallTree
  samples := [2, 2, 1]
  timeDeltas := [5, 7, 1]
  sampled := by simp [smallTree]
  deltas := rfl

def smallStream : Stream where
  key := "pid=1/tid=1/id=0x1"
  recording := smallRecording
  chunks := [⟨10, [⟨2, namedFrame "f", [], some 1⟩], [2], [5]⟩,
    ⟨20, [⟨1, namedFrame "(root)", [], none⟩], [2, 1], [7, 1]⟩]
  cut := by
    constructor <;> simp [smallRecording, smallTree, CallTree.Edge]

def smallChunkJson (ts id : Int) (functionName : String) (parent : List (String × Value))
    (samples timeDeltas : List Int) : Value :=
  .object [("name", .string "ProfileChunk"), ("pid", .int 1), ("tid", .int 1),
    ("id", .string "0x1"), ("ts", .int ts), ("args", .object [("data", .object [
      ("cpuProfile", .object [
        ("nodes", .array [.object ([("id", .int id), ("callFrame", .object
          [("functionName", .string functionName)])] ++ parent)]),
        ("samples", Value.ints samples)]),
      ("timeDeltas", Value.ints timeDeltas)])])]

def smallTrace : Value :=
  .array [smallChunkJson 20 1 "(root)" [] [2, 1] [7, 1],
    .object [("name", .string "thread_name")],
    smallChunkJson 10 2 "f" [("parent", .int 1)] [2] [5]]

def smallText : String :=
  "[\x7b\"name\":\"ProfileChunk\",\"pid\":1,\"tid\":1,\"id\":\"0x1\",\"ts\":20,\"args\":\x7b\"data\":\x7b" ++
  "\"cpuProfile\":\x7b\"nodes\":[\x7b\"id\":1,\"callFrame\":\x7b\"functionName\":\"(root)\"\x7d\x7d]," ++
  "\"samples\":[2,1]\x7d,\"timeDeltas\":[7,1]\x7d\x7d\x7d,\x7b\"name\":\"thread_name\"\x7d," ++
  "\x7b\"name\":\"ProfileChunk\",\"pid\":1,\"tid\":1,\"id\":\"0x1\",\"ts\":10,\"args\":\x7b\"data\":\x7b" ++
  "\"cpuProfile\":\x7b\"nodes\":[\x7b\"id\":2,\"callFrame\":\x7b\"functionName\":\"f\"\x7d,\"parent\":1\x7d]," ++
  "\"samples\":[2]\x7d,\"timeDeltas\":[5]\x7d\x7d\x7d]"

/-- The printer, on the numbers of the trace. -/
def displayInt : Value → String
  | .int n => toString n
  | _ => "null"

theorem smallChunkJson_describes (ts id : Int) (functionName : String) (parent : Option Int)
    (samples timeDeltas : List Int) (hts : InRange 64 ts) (hid : InRange 64 id)
    (hparent : ∀ q, parent = some q → InRange 64 q) (hsamples : ∀ x ∈ samples, InRange 64 x)
    (hdeltas : ∀ x ∈ timeDeltas, InRange 64 x) (hne : timeDeltas ≠ []) :
    ChunkJson displayInt (smallChunkJson ts id functionName
      (parent.toList.map fun q => ("parent", .int q)) samples timeDeltas) "pid=1/tid=1/id=0x1"
      ⟨ts, [⟨id, namedFrame functionName, [], parent⟩], samples, timeDeltas⟩ where
  object := rfl
  name := ⟨"ProfileChunk", by simp, rfl⟩
  key := by
    show "pid=" ++ toString (1 : Int) ++ "/tid=" ++ toString (1 : Int) ++ "/id=" ++ "0x1" = _
    decide +kernel
  ts := by
    show valueToI64 (.int ts) = some ts
    rw [valueToI64, Value.asI64, if_pos hts]
  profile := by
    refine Or.inl ⟨_, _, .nested rfl rfl, .nested rfl, rfl, Or.inl ⟨_, rfl, ?_⟩,
      ⟨[], samples, ⟨Or.inr ⟨rfl, rfl⟩, by simp⟩, ⟨Or.inl rfl, hsamples⟩, Or.inr ⟨rfl, rfl⟩⟩,
      ⟨timeDeltas, [], ⟨Or.inl rfl, hdeltas⟩, ⟨Or.inr ⟨rfl, rfl⟩, by simp⟩, Or.inl ⟨rfl, hne⟩⟩⟩
    refine List.Forall₂.cons ⟨rfl, ⟨rfl, hid⟩, ⟨_, rfl, ?_⟩,
      ⟨Or.inr ⟨?_, rfl⟩, by simp⟩, ?_, hparent⟩
      List.Forall₂.nil
    · have hline : InRange 32 (-1) := by decide
      exact ⟨rfl, Or.inl rfl, Or.inr ⟨rfl, rfl⟩, Or.inr ⟨rfl, rfl⟩, ⟨Or.inr ⟨rfl, rfl⟩, hline⟩,
        ⟨Or.inr ⟨rfl, rfl⟩, hline⟩⟩
    · cases parent <;> rfl
    · cases parent <;> rfl

/-- The two chunks of the trace. -/
theorem smallTrace_chunks :
    ChunkJson displayInt (smallChunkJson 20 1 "(root)" [] [2, 1] [7, 1]) smallStream.key
        ⟨20, [⟨1, namedFrame "(root)", [], none⟩], [2, 1], [7, 1]⟩ ∧
      ChunkJson displayInt (smallChunkJson 10 2 "f" [("parent", .int 1)] [2] [5]) smallStream.key
        ⟨10, [⟨2, namedFrame "f", [], some 1⟩], [2], [5]⟩ := by
  constructor
  · exact smallChunkJson_describes 20 1 "(root)" none [2, 1] [7, 1] (by decide) (by decide)
      (by simp) (by decide) (by decide) (by simp)
  · exact smallChunkJson_describes 10 2 "f" (some 1) [2] [5] (by decide) (by decide)
      (by simp only [Option.some.injEq, forall_eq']; decide) (by decide) (by decide) (by simp)

theorem smallTrace_traceOf : TraceOf displayInt [smallStream] smallTrace where
  events := by
    refine ⟨_, [some (smallStream.key, ⟨20, [⟨1, namedFrame "(root)", [], none⟩], [2, 1], [7, 1]⟩),
      none, some (smallStream.key, ⟨10, [⟨2, namedFrame "f", [], some 1⟩], [2], [5]⟩)],
      Or.inl rfl, ?_, List.Perm.swap _ _ _⟩
    exact .cons smallTrace_chunks.1 (.cons ⟨rfl, Or.inr ⟨"thread_name", rfl, Or.inl (by simp)⟩⟩
      (.cons smallTrace_chunks.2 .nil))

theorem smallTrace_carriesSamples : CarriesSamples displayInt smallTrace smallStream.key := by
  intro vs hvs v hv hname _
  obtain rfl := hvs.unique (Or.inl rfl : Events smallTrace _)
  simp only [List.mem_cons, List.not_mem_nil, or_false] at hv
  rcases hv with rfl | rfl | rfl
  · exact samplesCarried_of_carriedJson
      (smallTrace_chunks.1.profile.resolve_right fun h => absurd h.nodes (by simp))
  · obtain ⟨name, hmem, hname⟩ := hname
    cases hname
    exact absurd hmem (by decide)
  · exact samplesCarried_of_carriedJson
      (smallTrace_chunks.2.profile.resolve_right fun h => absurd h.nodes (by simp))

theorem smallTree_separable : ∀ m ∈ smallTree.nodes, Separable m.callFrame := by
  intro m hm
  have hframe : m.callFrame = namedFrame "(root)" ∨ m.callFrame = namedFrame "f" := by
    simp only [smallTree, List.mem_cons, List.not_mem_nil, or_false] at hm
    rcases hm with rfl | rfl
    · exact Or.inl rfl
    · exact Or.inr rfl
  rcases hframe with h | h
  · rw [h]
    exact ⟨by decide, by decide⟩
  · rw [h]
    exact ⟨by decide, by decide⟩

theorem streamed_trace_converts_iff_small :
    ∃ path out, (∀ id ∈ smallRecording.samples, NodePath smallTree.nodes id (path id)) ∧
      convert (fun text => if text = smallText then some smallTrace else none) displayInt
        ⟨fun l => l, fun _ => .refl _⟩ 2 smallText { ConvertOptions.default with noDemangle := true } =
          some (.ok out) ∧
      (out.profile.sample.map fun x => (out.profile.readStack x, x.value)).Perm
        (smallRecording.readings path) := by
  obtain ⟨path, hpath, -, hiff⟩ := @streamed_trace_converts_iff
    (fun text => if text = smallText then some smallTrace else none) displayInt
    ⟨fun l => l, fun _ => .refl _⟩ [smallStream] (by simp) smallText smallTrace (if_pos rfl)
    smallTrace_traceOf { ConvertOptions.default with noDemangle := true } rfl smallStream rfl
    smallTree_separable 2 (by decide)
  have hrange : ∀ id ∈ smallRecording.samples.dedup,
      ∀ v ∈ [(smallRecording.samples.count id : Int), 1000 * smallRecording.timeOf id],
        InRange 64 v := by
    decide
  obtain ⟨out, hconvert, hperm⟩ := (hiff fun x hx => by
    obtain ⟨id, hid, rfl⟩ := List.mem_map.mp hx
    exact hrange id hid).mpr smallTrace_carriesSamples
  exact ⟨path, out, hpath, hconvert, hperm⟩

/-! ### A trace that loses a sample

The second chunk of a stream repeats a node of the first one, so it has samples and time deltas
only. -/

def bareRecording : Recording where
  tree := smallTree
  samples := [2, 2]
  timeDeltas := [5, 7]
  sampled := by simp [smallTree]
  deltas := rfl

def bareStream : Stream where
  key := "pid=1/tid=1/id=0x1"
  recording := bareRecording
  chunks := [⟨10, [⟨1, namedFrame "(root)", [2], none⟩, ⟨2, namedFrame "f", [], none⟩], [2], [5]⟩,
    ⟨20, [], [2], [7]⟩]
  cut := by
    constructor <;> simp [bareRecording, smallTree, CallTree.Edge]

def bareEvent (ts : Int) (data : List (String × Value)) : Value :=
  .object [("name", .string "ProfileChunk"), ("pid", .int 1), ("tid", .int 1),
    ("id", .string "0x1"), ("ts", .int ts), ("args", .object [("data", .object data)])]

def bareTrace : Value :=
  .array [
    bareEvent 10 [("nodes", .array [
        .object [("id", .int 1), ("callFrame", .object [("functionName", .string "(root)")]),
          ("children", .ints [2])],
        .object [("id", .int 2), ("callFrame", .object [("functionName", .string "f")])]]),
      ("samples", .ints [2]), ("timeDeltas", .ints [5])],
    bareEvent 20 [("samples", .ints [2]), ("timeDeltas", .ints [7])]]

def bareText : String :=
  "[\x7b\"name\":\"ProfileChunk\",\"pid\":1,\"tid\":1,\"id\":\"0x1\",\"ts\":10,\"args\":\x7b\"data\":\x7b" ++
  "\"nodes\":[\x7b\"id\":1,\"callFrame\":\x7b\"functionName\":\"(root)\"\x7d,\"children\":[2]\x7d," ++
  "\x7b\"id\":2,\"callFrame\":\x7b\"functionName\":\"f\"\x7d\x7d],\"samples\":[2],\"timeDeltas\":[5]\x7d\x7d\x7d," ++
  "\x7b\"name\":\"ProfileChunk\",\"pid\":1,\"tid\":1,\"id\":\"0x1\",\"ts\":20,\"args\":\x7b\"data\":\x7b" ++
  "\"samples\":[2],\"timeDeltas\":[7]\x7d\x7d\x7d]"

theorem frameJson_named (functionName : String) :
    FrameJson (.object [("functionName", .string functionName)]) (namedFrame functionName) := by
  have hline : InRange 32 (-1) := by decide
  exact ⟨rfl, Or.inl rfl, Or.inr ⟨rfl, rfl⟩, Or.inr ⟨rfl, rfl⟩, ⟨Or.inr ⟨rfl, rfl⟩, hline⟩,
    ⟨Or.inr ⟨rfl, rfl⟩, hline⟩⟩

theorem bareTrace_traceOf : TraceOf displayInt [bareStream] bareTrace where
  events := by
    refine ⟨_, bareStream.events.map some, Or.inl rfl, .cons ?_ (.cons ?_ .nil), ?_⟩
    · refine ⟨rfl, ⟨"ProfileChunk", by simp, rfl⟩, by decide +kernel, rfl,
        Or.inl ⟨_, _, .nested rfl rfl, .flat rfl rfl, rfl, Or.inl ⟨_, rfl, ?_⟩,
          ⟨[2], [2], ⟨Or.inl rfl, by decide⟩, ⟨Or.inl rfl, by decide⟩, Or.inl ⟨rfl, by simp⟩⟩,
          ⟨[5], [5], ⟨Or.inl rfl, by decide⟩, ⟨Or.inl rfl, by decide⟩, Or.inl ⟨rfl, by simp⟩⟩⟩⟩
      refine .cons ⟨rfl, ⟨rfl, by decide⟩, ⟨_, rfl, frameJson_named _⟩, ⟨Or.inl rfl, by decide⟩, rfl,
        by simp⟩ (.cons ⟨rfl, ⟨rfl, by decide⟩, ⟨_, rfl, frameJson_named _⟩,
          ⟨Or.inr ⟨rfl, rfl⟩, by simp⟩, rfl, by simp⟩ .nil)
    · exact ⟨rfl, ⟨"ProfileChunk", by simp, rfl⟩, by decide +kernel, rfl,
        Or.inr ⟨⟨_, .nested rfl rfl, ⟨rfl, rfl⟩, ⟨Or.inl rfl, by decide⟩, ⟨Or.inl rfl, by decide⟩⟩,
          rfl, rfl⟩⟩
    · exact .refl _

/-- Of the two samples at `f`, in 12 microseconds, one is left with its 5. -/
theorem streamed_trace_loses_sample :
    TraceOf displayInt [bareStream] bareTrace ∧
    (∀ path, (bareStream.recording.readings path).map Prod.snd = [[2, 12000]]) ∧
    ∃ out, convert (fun text => if text = bareText then some bareTrace else none) displayInt
        ⟨fun l => l, fun _ => .refl _⟩ 2 bareText { ConvertOptions.default with noDemangle := true } =
          some (.ok out) ∧
      out.profile.sample.map (fun x => x.value) = [[1, 5000]] := by
  refine ⟨bareTrace_traceOf, fun path => rfl, ?_⟩
  have h : (convert (fun text => if text = bareText then some bareTrace else none) displayInt
      ⟨fun l => l, fun _ => .refl _⟩ 2 bareText
        { ConvertOptions.default with noDemangle := true }).bind (fun r => r.toOption.map fun out =>
          out.profile.sample.map fun x => x.value) = some [[1, 5000]] := by
    decide +kernel
  obtain ⟨r, hr, h⟩ := Option.bind_eq_some_iff.mp h
  cases r with
  | error e => cases h
  | ok out => exact ⟨out, hr, Option.some.inj h⟩

end ChromeTrace
