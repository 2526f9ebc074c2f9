/-
What an encoded memory profile owes to the order of its stacks.

* `encodeEntries_eq` — the profile is made of the numbering of the frames by the
  first occurrence of their function, and of the names of these first frames;
* `encodeEntries_eq_iff` — which can be read back from it;
* `encodePprof_eq_iff_perm` — the hash map may present the stacks in any order.
-/
import MoonPprof.FirstOccurrence
import MoonPprof.MemProfile

open Proto

namespace MemProfile

variable (decode : String → String) (noDemangle : Bool)

/-! ### The tables of a list of names -/

/-- The tables of the profile, without the maps. -/
structure Rows where
  strings : InternTable String
  functions : List Function
  locations : List Location

/-- The rows of a new function. -/
def Rows.push (t : Rows) (raw : String) : Rows :=
  let (name, strings) := t.strings.intern (if noDemangle then raw else decode raw)
  let (systemName, strings) := strings.intern raw
  { strings
    functions := t.functions ++ [⟨t.functions.length + 1, name, systemName, 0, 0⟩]
    locations := t.locations ++
      [⟨t.locations.length + 1, 1, 0, [⟨t.functions.length + 1, 0, 0⟩], false⟩] }

/-- The rows of the functions with these names, over the strings of `t`. -/
def Rows.pushAll (t : Rows) (names : List String) : Rows :=
  names.foldl (Rows.push decode noDemangle) t

theorem pushAll_concat (t : Rows) (names : List String) (raw : String) :
    t.pushAll decode noDemangle (names ++ [raw]) =
      (t.pushAll decode noDemangle names).push decode noDemangle raw := by
  rw [Rows.pushAll, List.foldl_append, List.foldl_cons, List.foldl_nil, ← Rows.pushAll]

/-- The names can be read from the rows. -/
theorem systemNames_pushAll (strings : InternTable String) (names : List String) :
    let t := Rows.pushAll decode noDemangle ⟨strings, [], []⟩ names
    (t.functions.map fun f => getString t.strings.items f.systemName) = names.map some := by
  induction names using List.reverseRecOn with
  | nil => rfl
  | append_singleton names raw ih =>
    intro t
    rw [show t = _ from pushAll_concat decode noDemangle _ names raw, Rows.push]
    set t' := Rows.pushAll decode noDemangle ⟨strings, [], []⟩ names
    set mid := t'.strings.intern (if noDemangle then raw else decode raw)
    have hprefix : t'.strings.items <+: (mid.2.intern raw).2.items :=
      (t'.strings.intern_isPrefix _).trans (mid.2.intern_isPrefix raw)
    rw [List.map_append, List.map_append, List.map_singleton, List.map_singleton, getString_natCast,
      InternTable.intern_get, ← ih]
    refine congrArg (· ++ [some raw]) (List.map_congr_left fun f hf => ?_)
    have hsome : getString t'.strings.items f.systemName ∈ names.map some := by
      rw [← ih]
      exact List.mem_map_of_mem hf
    obtain ⟨name, -, hname⟩ := List.mem_map.mp hsome
    rw [← hname]
    exact getString_of_isPrefix hprefix hname.symm

/-! ### The numbering -/

/-- The maps hold the ids of the functions of `fs`. -/
def Numbers (fs : List FrameKey) (m : HashMap Nat Nat) : Prop :=
  ∀ f, m.lookup f = if f ∈ fs.map FrameKey.funcIndex then
    some ((fs.map FrameKey.funcIndex).idxOf f + 1) else none

theorem Numbers.lookup_of_mem {fs : List FrameKey} {m : HashMap Nat Nat} (h : Numbers fs m)
    {frame : FrameKey} (hf : frame.funcIndex ∈ fs.map FrameKey.funcIndex) :
    m.lookup frame.funcIndex = some (number FrameKey.funcIndex fs frame + 1) := by
  rw [h, if_pos hf, number]

theorem Numbers.lookup_of_not_mem {fs : List FrameKey} {m : HashMap Nat Nat} (h : Numbers fs m)
    {frame : FrameKey} (hf : frame.funcIndex ∉ fs.map FrameKey.funcIndex) :
    m.lookup frame.funcIndex = none := by
  rw [h, if_neg hf]

theorem Numbers.insert {fs : List FrameKey} {m : HashMap Nat Nat} (h : Numbers fs m)
    {frame : FrameKey} (hf : frame.funcIndex ∉ fs.map FrameKey.funcIndex) :
    Numbers (record FrameKey.funcIndex fs frame) (m.insert frame.funcIndex (fs.length + 1)) := by
  intro f
  by_cases heq : f = frame.funcIndex
  · subst heq
    rw [AList.lookup_insert, if_pos ((mem_record _ _ _ _).mpr (Or.inr rfl)), ← number_record hf,
      number]
  · rw [AList.lookup_insert_ne heq, h]
    by_cases hmem : f ∈ fs.map FrameKey.funcIndex
    · rw [if_pos hmem, if_pos ((mem_record _ _ _ _).mpr (Or.inl hmem)), record, if_neg hf,
        List.map_append, List.idxOf_append_of_mem hmem]
    · rw [if_neg hmem, if_neg]
      rw [mem_record]
      exact not_or.mpr ⟨hmem, heq⟩

/-- The state after frames whose first occurrences are `fs`. -/
structure Encoded (strings : InternTable String) (fs : List FrameKey) (st : State) : Prop where
  funcIndex : Numbers fs st.funcIndex
  locIndex : Numbers fs st.locIndex
  functions : st.functions.length = fs.length
  locations : st.locations.length = fs.length
  rows : Rows.pushAll decode noDemangle ⟨strings, [], []⟩ (fs.map FrameKey.rawName) =
    ⟨st.strings, st.functions, st.locations⟩

variable {decode noDemangle} {strings : InternTable String}

theorem Encoded.internLocation {fs : List FrameKey} {st : State}
    (h : Encoded decode noDemangle strings fs st) (frame : FrameKey) :
    (st.internLocation decode noDemangle frame).1 =
        number FrameKey.funcIndex (record FrameKey.funcIndex fs frame) frame + 1 ∧
      Encoded decode noDemangle strings (record FrameKey.funcIndex fs frame)
        (st.internLocation decode noDemangle frame).2 := by
  by_cases hf : frame.funcIndex ∈ fs.map FrameKey.funcIndex
  · rw [State.internLocation, h.locIndex.lookup_of_mem hf, record, if_pos hf]
    exact ⟨rfl, h⟩
  · rw [State.internLocation, h.locIndex.lookup_of_not_mem hf]
    dsimp only
    rw [State.internFunction, h.funcIndex.lookup_of_not_mem hf]
    refine ⟨?_, ?_⟩
    · rw [number_record hf, ← h.locations]
      rfl
    · have hlength : (record FrameKey.funcIndex fs frame).length = fs.length + 1 := by
        rw [record, if_neg hf, List.length_append]
        rfl
      refine ⟨?_, ?_, ?_, ?_, ?_⟩
      · have hins := h.funcIndex.insert hf
        rwa [← h.functions] at hins
      · have hins := h.locIndex.insert hf
        rwa [← h.locations] at hins
      · rw [hlength, ← h.functions]
        exact List.length_append
      · rw [hlength, ← h.locations]
        exact List.length_append
      · rw [record, if_neg hf, List.map_append, List.map_singleton, pushAll_concat, h.rows]
        rfl

theorem Encoded.internStack {fs : List FrameKey} {st : State}
    (h : Encoded decode noDemangle strings fs st) (frames : List FrameKey) :
    (st.internStack decode noDemangle frames).1 = (frames.map fun frame =>
        number FrameKey.funcIndex (frames.foldl (record FrameKey.funcIndex) fs) frame + 1) ∧
      Encoded decode noDemangle strings (frames.foldl (record FrameKey.funcIndex) fs)
        (st.internStack decode noDemangle frames).2 := by
  induction frames generalizing fs st with
  | nil => exact ⟨rfl, h⟩
  | cons frame frames ih =>
    obtain ⟨hid, hst⟩ := h.internLocation frame
    obtain ⟨hids, hst⟩ := ih hst
    refine ⟨?_, hst⟩
    have hmem : frame.funcIndex ∈ (record FrameKey.funcIndex fs frame).map FrameKey.funcIndex :=
      (mem_record _ _ _ _).mpr (Or.inr rfl)
    -- later frames do not renumber the function of this one
    refine (congrArg₂ List.cons hid hids).trans ?_
    rw [List.map_cons, List.foldl_cons,
      number_of_isPrefix (isPrefix_foldl_record FrameKey.funcIndex _ frames) hmem]

/-- The ids of a stack. -/
def idsOf (fs : List FrameKey) (frames : List FrameKey) : List Nat :=
  frames.map fun frame => number FrameKey.funcIndex fs frame + 1

theorem idsOf_of_isPrefix {fs fs' frames : List FrameKey} (h : fs <+: fs')
    (hframes : ∀ frame ∈ frames, frame.funcIndex ∈ fs.map FrameKey.funcIndex) :
    idsOf fs' frames = idsOf fs frames :=
  List.map_congr_left fun frame hframe => by rw [number_of_isPrefix h (hframes frame hframe)]

/-- The samples of the entries that have a stack. -/
def samplesOf (fs : List FrameKey) (entries : List (Sigma fun _ : List FrameKey => SampleAgg)) :
    List Sample :=
  (entries.filter fun e => !e.1.isEmpty).map fun e => ⟨idsOf fs e.1, [e.2.count, e.2.bytes], []⟩

theorem Encoded.encodeStacks {fs : List FrameKey} {st : State}
    (h : Encoded decode noDemangle strings fs st)
    (entries : List (Sigma fun _ : List FrameKey => SampleAgg)) :
    let fs' := (entries.flatMap Sigma.fst).foldl (record FrameKey.funcIndex) fs
    (st.encodeStacks decode noDemangle entries).1 = samplesOf fs' entries ∧
      Encoded decode noDemangle strings fs' (st.encodeStacks decode noDemangle entries).2 := by
  induction entries generalizing fs st with
  | nil => exact ⟨rfl, h⟩
  | cons e entries ih =>
    obtain ⟨hids, hst⟩ := h.internStack e.1
    obtain ⟨hsamples, hst⟩ := ih hst
    intro fs'
    have hfs' : fs' = (entries.flatMap Sigma.fst).foldl (record FrameKey.funcIndex)
        (e.1.foldl (record FrameKey.funcIndex) fs) := by
      rw [← List.foldl_append]
      rfl
    rw [hfs']
    refine ⟨?_, hst⟩
    have hstack : idsOf ((entries.flatMap Sigma.fst).foldl (record FrameKey.funcIndex)
        (e.1.foldl (record FrameKey.funcIndex) fs)) e.1 =
          (st.internStack decode noDemangle e.1).1 := by
      rw [hids]
      refine idsOf_of_isPrefix (isPrefix_foldl_record _ _ _) fun frame hframe => ?_
      exact mem_foldl_record.mpr (Or.inr (List.mem_map_of_mem hframe))
    rw [State.encodeStacks, samplesOf]
    dsimp only
    rw [hsamples, ← hstack, idsOf, List.isEmpty_map]
    by_cases hnil : e.1.isEmpty
    · rw [if_pos hnil, List.filter_cons_of_neg (by simpa using hnil), samplesOf]
    · rw [if_neg hnil, List.filter_cons_of_pos (by simpa using hnil), List.map_cons,
        samplesOf, idsOf]

/-! ### The profile -/

/-- The strings of every profile. -/
def fixedStrings : InternTable String :=
  (["", "alloc_objects", "count", "alloc_space", "bytes", "^moonbit\\.(gc\\.)?malloc$", ""].foldl
    (fun t s => (t.intern s).2) InternTable.empty)

abbrev Entry := Sigma fun _ : List FrameKey => SampleAgg

/-- The first frames of the functions of some entries. -/
def firstFrames (entries : List Entry) : List FrameKey :=
  firsts FrameKey.funcIndex (entries.flatMap Sigma.fst)

variable (decode noDemangle) in
theorem encodeEntries_eq (entries : List Entry) :
    encodeEntries decode noDemangle entries =
      let t := Rows.pushAll decode noDemangle ⟨fixedStrings, [], []⟩
        ((firstFrames entries).map FrameKey.rawName)
      { encodeEntries decode noDemangle [] with
        sample := samplesOf (firstFrames entries) entries
        location := t.locations
        function := t.functions
        stringTable := t.strings.items } := by
  have hnumbers : Numbers [] (∅ : HashMap Nat Nat) := fun f => AList.lookup_empty f
  have hnew : Encoded decode noDemangle fixedStrings [] ⟨fixedStrings, [], ∅, [], ∅⟩ :=
    ⟨hnumbers, hnumbers, rfl, rfl, rfl⟩
  obtain ⟨hsamples, hst⟩ := hnew.encodeStacks entries
  have hrows := hst.rows
  rw [firstFrames, firsts, hrows, ← hsamples]
  rfl

/-- Two lists of entries give one profile when their samples and their names agree. -/
theorem encodeEntries_eq_iff {l l' : List Entry} :
    encodeEntries decode noDemangle l = encodeEntries decode noDemangle l' ↔
      (firstFrames l).map FrameKey.rawName = (firstFrames l').map FrameKey.rawName ∧
        samplesOf (firstFrames l) l = samplesOf (firstFrames l') l' := by
  constructor
  · intro h
    have hsample := congrArg Profile.sample h
    have hfunction := congrArg Profile.function h
    have hstrings := congrArg Profile.stringTable h
    rw [encodeEntries_eq, encodeEntries_eq decode noDemangle l'] at hsample hfunction hstrings
    -- the raw names are still in the profile, as the system names of the functions
    have hnames := systemNames_pushAll decode noDemangle fixedStrings
      ((firstFrames l).map FrameKey.rawName)
    have hnames' := systemNames_pushAll decode noDemangle fixedStrings
      ((firstFrames l').map FrameKey.rawName)
    dsimp only at hsample hfunction hstrings hnames hnames'
    rw [hfunction, hstrings, hnames'] at hnames
    exact ⟨(List.map_injective_iff.mpr (fun _ _ => Option.some.inj) hnames).symm, hsample⟩
  · rintro ⟨hnames, hsamples⟩
    rw [encodeEntries_eq, encodeEntries_eq decode noDemangle l', hnames, hsamples]

/-- The entries that are recorded with a stack. -/
def recorded (entries : List Entry) : List Entry := entries.filter fun e => !e.1.isEmpty

theorem encodeEntries_recorded (entries : List Entry) :
    encodeEntries decode noDemangle (recorded entries) =
      encodeEntries decode noDemangle entries := by
  have hframes : (recorded entries).flatMap Sigma.fst = entries.flatMap Sigma.fst := by
    induction entries with
    | nil => rfl
    | cons e entries ih =>
      rw [List.flatMap_cons, ← ih, recorded, List.filter_cons]
      by_cases hnil : e.1.isEmpty
      · rw [if_neg (by simpa using hnil), List.isEmpty_iff.mp hnil, List.nil_append, recorded]
      · rw [if_pos (by simpa using hnil), List.flatMap_cons, recorded]
  have hfirst : firstFrames (recorded entries) = firstFrames entries := by
    rw [firstFrames, hframes, firstFrames]
  rw [encodeEntries_eq_iff, hfirst]
  refine ⟨rfl, ?_⟩
  rw [samplesOf, recorded, List.filter_filter, samplesOf]
  simp only [Bool.and_self]

/-- The hash map may yield the recorded entries in any order. -/
theorem encodePprof_eq_iff_perm (samples : SampleMap) :
    (∀ it it', encodePprof decode noDemangle it samples =
      encodePprof decode noDemangle it' samples) ↔
      ∀ l l', l.Perm (recorded samples.entries) → l'.Perm (recorded samples.entries) →
        encodeEntries decode noDemangle l = encodeEntries decode noDemangle l' := by
  constructor
  · intro h l l' hl hl'
    have hrecorded : ∀ m : List Entry, m.Perm (recorded samples.entries) →
        ∃ it, encodePprof decode noDemangle it samples = encodeEntries decode noDemangle m := by
      intro m hm
      -- the entries without a stack come last
      have hperm : (m ++ samples.entries.filter fun e => !!e.1.isEmpty).Perm samples.entries :=
        (hm.append_right _).trans (List.filter_append_perm _ _)
      obtain ⟨it, hit⟩ := IterOrder.exists_order hperm
      refine ⟨it, ?_⟩
      have hm' : recorded m = m := List.filter_eq_self.mpr fun e he =>
        (List.mem_filter.mp (hm.mem_iff.mp he)).2
      have hnone : recorded (samples.entries.filter fun e => !!e.1.isEmpty) = [] :=
        List.filter_eq_nil_iff.mpr fun e he => by
          simpa using (List.mem_filter.mp he).2
      rw [encodePprof, hit, ← encodeEntries_recorded, recorded, List.filter_append, ← recorded,
        ← recorded, hm', hnone, List.append_nil]
    obtain ⟨it, hit⟩ := hrecorded l hl
    obtain ⟨it', hit'⟩ := hrecorded l' hl'
    rw [← hit, ← hit', h it it']
  · intro h it it'
    rw [encodePprof, encodePprof, ← encodeEntries_recorded, ← encodeEntries_recorded (it'.order _)]
    exact h _ _ ((it.perm _).filter _) ((it'.perm _).filter _)

end MemProfile
