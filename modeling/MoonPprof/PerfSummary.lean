/-
What `moon-pprof summary` shows of a perf capture.

Which sample type it adds up is decided by the type and the unit that the capture
was converted with: the periods, or else the number of samples.

* `valueAxis_event` — the axis of a converted capture;
* `reads_encode` — its reading;
* `summary_of_script` — the numbers, from the text of `perf script`.
-/
import MoonPprof.PerfText
import MoonPprof.SummaryReads

open MachineInt Proto CmdSummary

namespace Perf

/-- The summary knows the event by its type and its unit. -/
def EventKnown (opts : ConvertOptions) : Prop :=
  opts.eventType ∈ spaceNames ∨ opts.eventType ∈ objectNames ∨
    (isTimeSampleType opts.eventType ∧ opts.eventUnit ∈ timeUnits)

instance (opts : ConvertOptions) : Decidable (EventKnown opts) :=
  inferInstanceAs (Decidable (_ ∨ _ ∨ _))

/-- What a sample counts for. -/
def weight (opts : ConvertOptions) (period : Nat) : Nat := if EventKnown opts then period else 1

/-! ### The axis -/

theorem sampleTypes_encode (decode : String → String) (opts : ConvertOptions)
    (it : IterOrder (Sigma fun _ : List Nat => Int × Int)) (samples : List Sample) :
    typeTexts (encode decode opts it samples) =
      [("samples", "count"), (opts.eventType, opts.eventUnit)] := by
  set shown := display decode opts
  have hdisplay : ∀ raw, shown raw = if opts.noDemangle then raw else decode raw := fun _ => rfl
  obtain ⟨h₁, -, hsamples⟩ := (inv_new : State.new.Inv shown).intern "samples"
  obtain ⟨h₂, g₂, hcount⟩ := h₁.intern "count"
  obtain ⟨h₃, g₃, hevent⟩ := h₂.intern opts.eventType
  obtain ⟨h₄, g₄, hunit⟩ := h₃.intern opts.eventUnit
  obtain ⟨-, g₅, -⟩ := locStacks_spec hdisplay h₄ samples
  have e₄ := g₄.rows.strings.trans g₅.rows.strings
  have e₃ := g₃.rows.strings.trans e₄
  have e₂ := g₂.rows.strings.trans e₃
  refine typeTexts_of_sampleTypes ?_
  exact congrArg₂ List.cons
    (congrArg₂ Prod.mk (getString_of_isPrefix e₂ hsamples) (getString_of_isPrefix e₃ hcount))
    (congrArg (fun t => [t]) (congrArg₂ Prod.mk (getString_of_isPrefix e₄ hevent)
      (getString_of_isPrefix g₅.rows.strings hunit)))

theorem timeAxis_event {p : Profile} {opts : ConvertOptions} {t₀ t₁ : ValueType}
    (h₀ : stringAt p t₀.type = "samples") (h₁ : stringAt p t₁.type = opts.eventType)
    (hunit : stringAt p t₁.unit = opts.eventUnit) :
    ((timeAxis p [(t₀, 0), (t₁, 1)]).getD ⟨0, .count "units", none, false⟩).idx =
      if isTimeSampleType opts.eventType ∧ opts.eventUnit ∈ timeUnits then 1 else 0 := by
  have hcount : knownUnit p t₀ = none := by
    rw [knownUnit, h₀]
    exact if_neg fun h => absurd h.1 (by decide)
  rw [timeAxis_cons, hcount, timeAxis_cons, knownUnit, h₁, hunit]
  by_cases hknown : isTimeSampleType opts.eventType ∧ opts.eventUnit ∈ timeUnits
  · rw [if_pos hknown, if_pos hknown]
    rfl
  · rw [if_neg hknown, if_neg hknown]
    rfl

/-- The periods are added up if the event is known, and the samples are counted if it is not. -/
theorem valueAxis_event {p : Profile} {opts : ConvertOptions}
    (h : typeTexts p = [("samples", "count"), (opts.eventType, opts.eventUnit)]) :
    (valueAxis p).idx = (if EventKnown opts then 1 else 0) ∧ (valueAxis p).secondaryIdx = none ∧
      (valueAxis p).isHeap =
        decide (opts.eventType ∈ spaceNames ∨ opts.eventType ∈ objectNames) := by
  have hfind : ∀ names : List String, "samples" ∉ names →
      p.sampleType.findIdx? (fun st => decide (stringAt p st.type ∈ names)) =
        if opts.eventType ∈ names then some 1 else none := by
    intro names hno
    rw [findIdx?_typeTexts, h]
    simp [List.findIdx?_cons, hno]
  have hspace := hfind spaceNames (by decide)
  have hobjects := hfind objectNames (by decide)
  rw [valueAxis_eq, hspace, hobjects]
  by_cases hs : opts.eventType ∈ spaceNames
  · have hno : opts.eventType ∉ objectNames := by
      simp only [spaceNames, List.mem_cons, List.not_mem_nil, or_false] at hs
      rcases hs with hs | hs | hs <;> rw [hs] <;> decide
    simp [hs, hno, EventKnown]
  · by_cases ho : opts.eventType ∈ objectNames
    · simp [hs, ho, EventKnown]
    · obtain ⟨t₀, t₁, htypes, h₀, h₁, hunit⟩ : ∃ t₀ t₁, p.sampleType = [t₀, t₁] ∧
          stringAt p t₀.type = "samples" ∧ stringAt p t₁.type = opts.eventType ∧
          stringAt p t₁.unit = opts.eventUnit := by
        rw [typeTexts] at h
        obtain ⟨t₀, l, hl, heq₀, hrest⟩ := List.map_eq_cons_iff.mp h
        obtain ⟨t₁, l', rfl, heq₁, hnil⟩ := List.map_eq_cons_iff.mp hrest
        rw [List.map_eq_nil_iff.mp hnil] at hl
        obtain ⟨h₀, -⟩ := Prod.mk.inj heq₀
        obtain ⟨h₁, hunit⟩ := Prod.mk.inj heq₁
        exact ⟨t₀, t₁, hl, h₀, h₁, hunit⟩
      obtain ⟨-, hsecondary, hheap⟩ := timeAxis_spec (p := p) p.sampleType.zipIdx
      have hidx := timeAxis_event h₀ h₁ hunit
      rw [if_neg hs, if_neg ho]
      refine ⟨?_, hsecondary, by simpa [hs, ho] using hheap⟩
      rw [htypes]
      exact hidx.trans (if_congr (by simp [EventKnown, hs, ho]) rfl rfl)

/-! ### The reading -/

theorem readLocation_of_readMapped {p : Profile} {id : Nat} {x : String × String × String}
    (h : p.readMapped id = some x) : ∃ frame, p.readLocation id = some frame ∧ frame.name = x.1 := by
  rw [Profile.readMapped] at h
  simp only [Option.bind_eq_bind, Option.bind_eq_some_iff, Option.some.injEq] at h
  obtain ⟨-, -, -, -, -, -, frame, hframe, rfl⟩ := h
  exact ⟨frame, hframe, rfl⟩

theorem readNames_of_readMapped {p : Profile} {s : Proto.Sample}
    {xs : List (String × String × String)} (h : s.locationId.mapM p.readMapped = some xs) :
    p.readNames s = some (xs.map Prod.fst) := by
  have hmapped := forall₂_of_mapM h
  rw [Profile.readNames, Profile.readStack]
  generalize s.locationId = ids at hmapped
  clear h
  induction hmapped with
  | nil => rfl
  | cons hid _ ih =>
    obtain ⟨frame, hframe, hname⟩ := readLocation_of_readMapped hid
    obtain ⟨frames, hframes, hnames⟩ := Option.map_eq_some_iff.mp ih
    rw [List.mapM_cons, hframe, hframes, List.map_cons, ← hname, ← hnames]
    rfl

/-- The symbols of a sample, as they are displayed. -/
def Sample.names (shown : String → String) (s : Sample) : List String :=
  s.stack.map fun f => shown f.symbol

theorem map_fst_displayed (shown : String → String) (s : Sample) :
    (displayed shown s.stack).map Prod.fst = s.names shown := by
  rw [displayed, Sample.names, List.map_map]
  rfl

/-- Each displayed stack by its symbols, with its samples and its periods. -/
def stackRows (shown : String → String) (samples : List Sample) : List (List String × List Int) :=
  (stackKeys shown samples).dedup.map fun stack => (stack.map Prod.fst,
    [((stackKeys shown samples).count stack : Int), (periodOf shown samples stack : Int)])

section

variable {decode : String → String} {opts : ConvertOptions}
  {it : IterOrder (Sigma fun _ : List Nat => Int × Int)} {samples : List Sample}

theorem reads_encode (compile : String → Option (String → Bool)) (hlen : samples.length < 2 ^ 63)
    (hperiod : (samples.map Sample.period).sum < 2 ^ 63) :
    ∃ r : Reading, Reads compile (encode decode opts it samples) r ∧
      r.axis.idx = (if EventKnown opts then 1 else 0) ∧ r.drop = none ∧
      r.rows = stackRows (display decode opts) samples := by
  obtain ⟨hidx, -, -⟩ := valueAxis_event (sampleTypes_encode decode opts it samples)
  obtain ⟨hlinked, hread⟩ := @convert_sample decode opts it samples hlen hperiod
  generalize hp : encode decode opts it samples = p at hidx hlinked hread ⊢
  have hdrop : p.dropFrames = 0 := by
    rw [← hp]
    rfl
  refine ⟨⟨valueAxis p, none, stackRows (display decode opts) samples⟩,
    ⟨hlinked, rfl, ?_, ?_⟩, hidx, rfl, rfl⟩
  · rw [dropRe, hdrop, if_neg (lt_irrefl 0)]
  · have hnames := hread.map fun row => (row.1.map (List.map Prod.fst), row.2)
    rw [List.map_map, List.map_map] at hnames
    refine (List.Perm.of_eq (List.map_congr_left fun s hs => ?_)).trans
      (hnames.trans (List.Perm.of_eq ?_))
    · obtain ⟨stack, -, hstack⟩ := List.mem_map.mp (hread.subset (List.mem_map_of_mem hs))
      have hmapped := (congrArg Prod.fst hstack).symm
      rw [Function.comp_apply, readNames_of_readMapped hmapped, hmapped]
      rfl
    · rw [stackRows, List.map_map]
      refine List.map_congr_left fun stack _ => ?_
      rw [Function.comp_apply, Function.comp_apply, Option.map_some, List.map_map]
      rfl

/-- The sums over the rows are sums over the samples with a stack. -/
theorem sumRows_stackRows {r : Reading} (hidx : r.axis.idx = if EventKnown opts then 1 else 0)
    (hrows : r.rows = stackRows (display decode opts) samples) (P : List String → Bool) :
    sumRows P r.value r.rows = ((((stacked samples).filter fun s =>
      P (s.names (display decode opts))).map fun s => weight opts s.period).sum : Nat) := by
  set shown := display decode opts
  have hvalue : ∀ stack : List (String × String), r.value (stack.map Prod.fst,
      [((stackKeys shown samples).count stack : Int), (periodOf shown samples stack : Int)]) =
      sumAt ((stacked samples).map fun s =>
        (displayed shown s.stack, (weight opts s.period : Int))) stack := by
    intro stack
    rw [Reading.value, hidx, sumAt_map]
    by_cases hknown : EventKnown opts
    · simp only [weight, if_pos hknown]
      rw [periodOf, Nat.cast_list_sum, List.map_map]
      rfl
    · simp only [weight, if_neg hknown]
      rw [List.map_const', List.sum_replicate, ← List.countP_eq_length_filter, stackKeys,
        List.count_eq_countP, List.countP_map]
      simp [Function.comp_def, beq_eq_decide]
  have hmem : ∀ s ∈ stacked samples, P ((displayed shown s.stack).map Prod.fst) →
      displayed shown s.stack ∈ (stackKeys shown samples).dedup :=
    fun s hs _ => List.mem_dedup.mpr (List.mem_map_of_mem hs)
  rw [hrows, stackRows, sumRows_groups (List.nodup_dedup _) P hmem hvalue, Nat.cast_list_sum,
    List.map_map]
  simp only [map_fst_displayed]
  rfl

theorem sum_weight_lt (hlen : samples.length < 2 ^ 63)
    (hperiod : (samples.map Sample.period).sum < 2 ^ 63) {xs : List Sample}
    (h : xs.Sublist samples) : (xs.map fun s => weight opts s.period).sum < 2 ^ 63 := by
  by_cases hknown : EventKnown opts
  · simp only [weight, if_pos hknown]
    exact (sum_period_le h).trans_lt hperiod
  · simp only [weight, if_neg hknown, List.map_const', List.sum_replicate, nsmul_eq_mul, mul_one,
      Nat.cast_id]
    exact h.length_le.trans_lt hlen

end

theorem leafName_none (stack : List String) : leafName none stack = stack.head?.getD "(unknown)" := by
  cases stack with
  | nil => rfl
  | cons name stack => rfl

/-- The functions of the rows are the symbols of the samples. -/
theorem exists_row_iff (shown : String → String) (samples : List Sample) (f : String) :
    (∃ row ∈ stackRows shown samples, f = leafName none row.1 ∨ f ∈ row.1) ↔
      ∃ s ∈ samples, f ∈ s.names shown := by
  constructor
  · rintro ⟨row, hrow, hf⟩
    obtain ⟨stack, hstack, rfl⟩ := List.mem_map.mp hrow
    obtain ⟨s, hs, rfl⟩ := List.mem_map.mp (List.mem_dedup.mp hstack)
    obtain ⟨hmem, hne⟩ := List.mem_filter.mp hs
    rw [map_fst_displayed] at hf
    refine ⟨s, hmem, hf.elim (fun hleaf => ?_) id⟩
    obtain ⟨frame, frames, hframes⟩ := List.exists_cons_of_ne_nil (show s.stack ≠ [] by simpa using hne)
    rw [hleaf, leafName_none, Sample.names, hframes]
    exact List.mem_cons_self
  · rintro ⟨s, hs, hf⟩
    have hstacked : s ∈ stacked samples := by
      refine List.mem_filter.mpr ⟨hs, ?_⟩
      obtain ⟨frame, hframe, -⟩ := List.mem_map.mp hf
      simpa using List.ne_nil_of_mem hframe
    refine ⟨_, List.mem_map_of_mem (List.mem_dedup.mpr (List.mem_map_of_mem hstacked)), Or.inr ?_⟩
    rwa [map_fst_displayed]

/-! ### The numbers -/

/-- The symbols of a printed sample, as they are displayed. -/
def PrintedSample.names (shown : String → String) (s : PrintedSample) : List String :=
  s.frames.map fun f => shown (String.ofList f.sym)

/-- What the printed samples count for whose symbols satisfy `P`. -/
def printedWeight (decode : String → String) (opts : ConvertOptions) (P : List String → Bool)
    (printed : List PrintedSample) : Nat :=
  (((withFrames printed).filter fun s => P (s.names (display decode opts))).map fun s =>
    weight opts (s.period.getD 1)).sum

theorem names_sample (shown : String → String) (s : PrintedSample) :
    s.sample.names shown = s.names shown := by
  rw [Sample.names, PrintedSample.sample, List.map_map]
  rfl

theorem printedWeight_eq (decode : String → String) (opts : ConvertOptions) (P : List String → Bool)
    (printed : List PrintedSample) :
    (((stacked (printed.map PrintedSample.sample)).filter fun s =>
      P (s.names (display decode opts))).map fun s => weight opts s.period).sum =
      printedWeight decode opts P printed := by
  rw [stacked_sample, List.filter_map, List.map_map, printedWeight]
  have hfilter : (withFrames printed).filter ((fun s => P (s.names (display decode opts))) ∘
      PrintedSample.sample) =
      (withFrames printed).filter fun s => P (s.names (display decode opts)) :=
    List.filter_congr fun s _ => by rw [Function.comp_apply, names_sample]
  rw [hfilter]
  rfl

/-- Predicates that agree on stacks with a frame select the same samples. -/
theorem printedWeight_congr {decode : String → String} {opts : ConvertOptions}
    {P Q : List String → Bool} (h : ∀ name stack, P (name :: stack) = Q (name :: stack))
    (printed : List PrintedSample) :
    printedWeight decode opts P printed = printedWeight decode opts Q printed := by
  rw [printedWeight, printedWeight]
  refine congrArg (fun l => (List.map _ l).sum) (List.filter_congr fun s hs => ?_)
  have hframes : s.frames ≠ [] := by simpa using (List.mem_filter.mp hs).2
  obtain ⟨f, frames, hf⟩ := List.exists_cons_of_ne_nil hframes
  rw [PrintedSample.names, hf, List.map_cons]
  exact h _ _

end Perf
