/-
What a converted perf capture says.

`readMapped` reads a location through the location, function, mapping and string
tables.

* `readMapped_of_pairAt` — a location reads as its symbol and its binary;
* `encode_aggregates` — one sample for each distinct displayed stack, with the
  number of its samples and the sum of their periods.
-/
import MoonPprof.PerfTables
import Mathlib.Algebra.BigOperators.Ring.Finset
import Mathlib.Algebra.Order.BigOperators.Group.List

open MachineInt Proto

namespace Proto

/-- A location of one line: its function, its file and the file of its mapping. -/
def Profile.readMapped (p : Profile) (id : Nat) : Option (String × String × String) := do
  let loc ← p.location.find? (·.id == id)
  let m ← p.mapping.find? (·.id == loc.mappingId)
  let mapped ← getString p.stringTable m.filename
  let frame ← p.readLocation id
  some (frame.name, frame.filename, mapped)

end Proto

namespace Perf

/-- The symbols as they are displayed. -/
def display (decode : String → String) (opts : ConvertOptions) (raw : String) : String :=
  if opts.noDemangle then raw else decode raw

theorem readMapped_of_pairAt {p : Profile} (ht : p.tables.Closed)
    (hm : CountsFrom1 Mapping.id p.mapping) {id : Nat} {key : String × String}
    (h : PairAt p.tables p.mapping id key) : p.readMapped id = some (key.1, key.2, key.2) := by
  obtain ⟨i, loc, fid, raw, rfl, hget, hline, hfunction, j, m, hmid, hmget, hfile⟩ := h
  have hat : p.tables.LocationAt (i + 1) ⟨key.1, raw, key.2, 0⟩ :=
    ⟨i, loc, ⟨fid, 0, 0⟩, rfl, hget, hline, rfl, hfunction⟩
  have hloc : p.location.find? (·.id == i + 1) = some loc := find?_id ht.locationIds hget
  have hmapping : p.mapping.find? (·.id == j + 1) = some m := find?_id hm hmget
  rw [Profile.readMapped, hloc]
  simp only [Option.bind_eq_bind, Option.bind_some]
  rw [hmid, hmapping, Option.bind_some, show p.stringTable = p.tables.strings from rfl,
    hfile, readLocation_of_locationAt ht.functionIds ht.locationIds hat]
  rfl

/-- The displayed stacks of the samples that have one. -/
def stackKeys (display : String → String) (samples : List Sample) : List (List (String × String)) :=
  (stacked samples).map fun s => displayed display s.stack

/-- The sum of the periods of the samples with a displayed stack. -/
def periodOf (display : String → String) (samples : List Sample)
    (stack : List (String × String)) : Nat :=
  (((stacked samples).filter fun s => displayed display s.stack = stack).map Sample.period).sum

theorem sum_period_le {xs samples : List Sample} (h : xs.Sublist samples) :
    (xs.map Sample.period).sum ≤ (samples.map Sample.period).sum :=
  (h.map Sample.period).sum_le_sum fun _ _ => Nat.zero_le _

theorem periodOf_le (display : String → String) (samples : List Sample)
    (stack : List (String × String)) :
    periodOf display samples stack ≤ (samples.map Sample.period).sum :=
  sum_period_le (List.filter_sublist.trans List.filter_sublist)

/-- Ids under which the keys are found. -/
theorem eq_map_of_lookup {locationId : HashMap (String × String) Nat} {ids : List Nat}
    {keys : List (String × String)}
    (h : List.Forall₂ (fun id key => locationId.lookup key = some id) ids keys) :
    ids = keys.map (fun key => (locationId.lookup key).getD 0) ∧
      ∀ key ∈ keys, locationId.lookup key = some ((locationId.lookup key).getD 0) := by
  induction h with
  | nil => exact ⟨rfl, nofun⟩
  | cons hid _ ih =>
    obtain ⟨hids, hkeys⟩ := ih
    refine ⟨by rw [List.map_cons, hid, ← hids, Option.getD_some], fun k hk => ?_⟩
    rcases List.mem_cons.mp hk with rfl | hk
    · rw [hid, Option.getD_some]
    · exact hkeys k hk

/-- The sums of a displayed stack, in machine integers. -/
theorem sums_of_period {display : String → String} {samples : List Sample}
    (hlen : samples.length < 2 ^ 63) (hperiod : (samples.map Sample.period).sum < 2 ^ 63)
    (stack : List (String × String)) :
    wrap 64 (sumAt ((stacked samples).map fun s => (displayed display s.stack, (1 : Int))) stack) =
        ((stackKeys display samples).count stack : Int) ∧
      wrap 64 (sumAt ((stacked samples).map fun s =>
        (displayed display s.stack, wrap 64 (s.period : Int))) stack) =
        periodOf display samples stack := by
  have hrange : ∀ n : Nat, n < 2 ^ 63 → wrap 64 (n : Int) = n := by
    intro n hn
    exact wrap_of_inRange (by omega) ⟨by omega, by omega⟩
  -- neither the counts nor the periods wrap
  constructor
  · rw [sumAt_map, List.map_const', List.sum_replicate, nsmul_eq_mul, mul_one,
      ← List.countP_eq_length_filter]
    have hcount : (stacked samples).countP (fun s => decide (displayed display s.stack = stack)) =
        (stackKeys display samples).count stack := by
      rw [stackKeys, List.count_eq_countP, List.countP_map]
      refine List.countP_congr fun s _ => ?_
      rw [Function.comp_apply, decide_eq_true_eq, beq_iff_eq]
    rw [hcount]
    refine hrange _ (Nat.lt_of_le_of_lt (List.count_le_length.trans ?_) hlen)
    rw [stackKeys, List.length_map]
    exact List.length_filter_le _ _
  · have hwrap : ∀ s ∈ (stacked samples).filter fun s => decide (displayed display s.stack = stack),
        wrap 64 (s.period : Int) = (s.period : Int) := by
      intro s hs
      have hmem : s ∈ samples := List.mem_of_mem_filter (List.mem_of_mem_filter hs)
      have hle : s.period ≤ (samples.map Sample.period).sum :=
        List.single_le_sum (fun _ _ => Nat.zero_le _) _ (List.mem_map_of_mem hmem)
      exact hrange _ (Nat.lt_of_le_of_lt hle hperiod)
    have hcast : ∀ xs : List Sample, (xs.map fun s => (s.period : Int)).sum =
        ((xs.map Sample.period).sum : Nat) := by
      intro xs
      rw [Nat.cast_list_sum, List.map_map]
      rfl
    rw [sumAt_map, List.map_congr_left hwrap, hcast]
    exact hrange _ (Nat.lt_of_le_of_lt (periodOf_le display samples stack) hperiod)

/-- The ids of the stacks, from the location each pair has in the end. -/
theorem charges_eq {display : String → String} {locationId : HashMap (String × String) Nat}
    {charges : List (List Nat × Int)} {samples : List Sample}
    (h : List.Forall₂ (fun c s => c.2 = wrap 64 (s.period : Int) ∧ List.Forall₂
      (fun id key => locationId.lookup key = some id) c.1 (displayed display s.stack)) charges
      samples) :
    charges = samples.map (fun s => ((displayed display s.stack).map
        fun key => (locationId.lookup key).getD 0, wrap 64 (s.period : Int))) ∧
      ∀ s ∈ samples, ∀ key ∈ displayed display s.stack,
        locationId.lookup key = some ((locationId.lookup key).getD 0) := by
  induction h with
  | nil => exact ⟨rfl, nofun⟩
  | @cons c s charges samples hc _ ih =>
    obtain ⟨hcharges, hkeys⟩ := ih
    obtain ⟨hperiod, hids⟩ := hc
    obtain ⟨hids, hfound⟩ := eq_map_of_lookup hids
    refine ⟨?_, fun x hx => ?_⟩
    · rw [List.map_cons, ← hcharges, ← hids, ← hperiod]
    · rcases List.mem_cons.mp hx with rfl | hx
      · exact hfound
      · exact hkeys x hx

/-- The entries of the aggregate read as the displayed stacks with their sums. -/
theorem entries_read {shown : String → String} {st : State} (h : st.Inv shown) {p : Profile}
    (hp : p.tables = st.tables) (hm : p.mapping = st.mappings) {samples : List Sample}
    (hlen : samples.length < 2 ^ 63) (hperiod : (samples.map Sample.period).sum < 2 ^ 63)
    {charges : List (List Nat × Int)}
    (hcharges : List.Forall₂ (fun c s => c.2 = wrap 64 (s.period : Int) ∧ List.Forall₂
      (fun id key => st.locationId.lookup key = some id) c.1 (displayed shown s.stack)) charges
      (stacked samples))
    (it : IterOrder (Sigma fun _ : List Nat => Int × Int)) :
    ((it.order (agg charges).entries).map fun e =>
        (e.1.mapM p.readMapped, [e.2.1, e.2.2])).Perm
      ((stackKeys shown samples).dedup.map fun stack =>
        (some (stack.map fun f => (f.1, f.2, f.2)),
          [((stackKeys shown samples).count stack : Int), (periodOf shown samples stack : Int)])) := by
  set idOf : String × String → Nat := fun key => (st.locationId.lookup key).getD 0
  obtain ⟨hids, hfound⟩ := charges_eq hcharges
  -- a stack of ids stands for one stack of pairs only
  have hstack : ∀ s ∈ stacked samples,
      List.Forall₂ (fun id key => st.locationId.lookup key = some id)
        ((displayed shown s.stack).map idOf) (displayed shown s.stack) := by
    intro s hs
    rw [List.forall₂_map_left_iff, List.forall₂_same]
    exact hfound s hs
  have hinj : ∀ s ∈ stacked samples, ∀ s' ∈ stacked samples,
      (displayed shown s.stack).map idOf = (displayed shown s'.stack).map idOf →
      displayed shown s.stack = displayed shown s'.stack := by
    intro s hs s' hs' heq
    have hs'' := hstack s' hs'
    rw [← heq] at hs''
    exact List.right_unique_forall₂' (fun id key key' hkey hkey' => h.inj key key' id hkey hkey')
      (hstack s hs) hs''
  -- so the aggregate of the ids is the aggregate of the stacks
  have hperm : (agg charges).entries.Perm ((stackKeys shown samples).dedup.map fun stack =>
      ⟨stack.map idOf, ((stackKeys shown samples).count stack : Int),
        (periodOf shown samples stack : Int)⟩) := by
    have hgroup := entries_groupSums_map (fun _ : Sample => 1) (fun s => wrap 64 (s.period : Int))
      hinj
    have hagg : agg charges = groupSums (fun s => (displayed shown s.stack).map idOf)
        (fun _ => 1) (fun s => wrap 64 (s.period : Int)) (stacked samples) := by
      rw [agg, hids, groupSums_map]
    rw [hagg]
    refine hgroup.trans (List.Perm.of_eq (List.map_congr_left fun stack _ => ?_))
    obtain ⟨hcount, hsum⟩ := @sums_of_period shown samples hlen hperiod stack
    rw [hcount, hsum]
  refine (((it.perm _).trans hperm).map _).trans (List.Perm.of_eq ?_)
  rw [List.map_map]
  refine List.map_congr_left fun stack hstack => ?_
  obtain ⟨s, hs, rfl⟩ := List.mem_map.mp (List.mem_dedup.mp hstack)
  have hread : ((displayed shown s.stack).map idOf).mapM p.readMapped =
      some ((displayed shown s.stack).map fun f => (f.1, f.2, f.2)) := by
    refine mapM_eq_some_of_forall₂ ?_
    rw [List.forall₂_map_left_iff, List.forall₂_map_right_iff, List.forall₂_same]
    intro key hkey
    have hat := h.locationId key _ (hfound s hs key hkey)
    rw [← hp, ← hm] at hat
    exact readMapped_of_pairAt (hp ▸ h.tables) (hm ▸ h.mappingIds) hat
  simp only [Function.comp_apply, hread]

/-- The ids of an entry are in the table. -/
theorem validId_of_entry {shown : String → String} {st : State} (h : st.Inv shown)
    {samples : List Sample} {charges : List (List Nat × Int)}
    (hcharges : List.Forall₂ (fun c s => c.2 = wrap 64 (s.period : Int) ∧ List.Forall₂
      (fun id key => st.locationId.lookup key = some id) c.1 (displayed shown s.stack)) charges
      samples)
    {e : Sigma fun _ : List Nat => Int × Int} (he : e ∈ (agg charges).entries) {id : Nat}
    (hid : id ∈ e.1) : ValidId st.locations id := by
  obtain ⟨ids, hids, rfl⟩ := List.mem_map.mp ((entries_groupSums _ _ _ _).mem_iff.mp he)
  obtain ⟨c, hc, rfl⟩ := List.mem_map.mp (List.mem_dedup.mp hids)
  obtain ⟨s, -, -, hkeys⟩ := exists_of_forall₂ hcharges hc
  obtain ⟨key, -, hlookup⟩ := exists_of_forall₂ hkeys hid
  obtain ⟨i, loc, -, -, rfl, hget, -⟩ := h.locationId key id hlookup
  exact validId_of_getElem? hget

/-- The strings of the header, which are interned first. -/
theorem inv_header (shown : String → String) (eventType eventUnit : String) :
    let st₁ := (State.new.intern "samples").2
    let st₂ := (st₁.intern "count").2
    let st₃ := (st₂.intern eventType).2
    let st₄ := (st₃.intern eventUnit).2
    st₄.Inv shown ∧
      ValidString st₄.strings.items (State.new.intern "samples").1 ∧
      ValidString st₄.strings.items (st₁.intern "count").1 ∧
      ValidString st₄.strings.items (st₂.intern eventType).1 ∧
      ValidString st₄.strings.items (st₃.intern eventUnit).1 := by
  intro st₁ st₂ st₃ st₄
  obtain ⟨h₁, -, hsamples⟩ := (inv_new : State.new.Inv shown).intern "samples"
  obtain ⟨h₂, hkeep₂, hcount⟩ := h₁.intern "count"
  obtain ⟨h₃, hkeep₃, hevent⟩ := h₂.intern eventType
  obtain ⟨h₄, hkeep₄, hunit⟩ := h₃.intern eventUnit
  have hext₃ : st₃.strings.items <+: st₄.strings.items := hkeep₄.rows.strings
  have hext₂ : st₂.strings.items <+: st₄.strings.items := hkeep₃.rows.strings.trans hext₃
  have hext₁ : st₁.strings.items <+: st₄.strings.items := hkeep₂.rows.strings.trans hext₂
  exact ⟨h₄, ⟨_, getString_of_isPrefix hext₁ hsamples⟩, ⟨_, getString_of_isPrefix hext₂ hcount⟩,
    ⟨_, getString_of_isPrefix hext₃ hevent⟩, ⟨_, hunit⟩⟩

/-- Converting samples (a `Vec` holds fewer than 2^63 of them) whose periods add up to less than
2^63, with or without demangling and whatever order the hash map yields its entries in: each
distinct displayed stack gives exactly one sample, which reads leaf first as its symbols, their
binaries and the binaries of their mappings, with the number of its samples and the sum of their
periods. No two samples have the same locations, the ids of each table count from 1, and every
reference leads to exactly one entry. -/
theorem encode_aggregates (decode : String → String) (opts : ConvertOptions)
    (it : IterOrder (Sigma fun _ : List Nat => Int × Int)) {samples : List Sample}
    (hlen : samples.length < 2 ^ 63) (hperiod : (samples.map Sample.period).sum < 2 ^ 63) :
    let p := encode decode opts it samples
    (p.sample.map fun s => (s.locationId.mapM p.readMapped, s.value)).Perm
        ((stackKeys (display decode opts) samples).dedup.map fun stack =>
          (some (stack.map fun f => (f.1, f.2, f.2)),
            [((stackKeys (display decode opts) samples).count stack : Int),
              (periodOf (display decode opts) samples stack : Int)])) ∧
      (p.sample.map Proto.Sample.locationId).Nodup ∧
      CountsFrom1 Function.id p.function ∧ CountsFrom1 Location.id p.location ∧
      CountsFrom1 Mapping.id p.mapping ∧ p.Closed ∧ p.stringTable.Nodup := by
  intro p
  set shown := display decode opts with hshow
  have hdisplay : ∀ raw, shown raw = if opts.noDemangle then raw else decode raw := fun _ => rfl
  obtain ⟨h₄, hsamplesStr, hcountStr, heventStr, hunitStr⟩ :=
    inv_header shown opts.eventType opts.eventUnit
  set st₁ := (State.new.intern "samples").2
  set st₂ := (st₁.intern "count").2
  set st₃ := (st₂.intern opts.eventType).2
  set st₄ := (st₃.intern opts.eventUnit).2
  obtain ⟨h, hgrows, hcharges⟩ := locStacks_spec hdisplay h₄ samples
  set st := (st₄.locStacks decode opts samples).2
  have hread := entries_read h (show p.tables = st.tables from rfl)
    (show p.mapping = st.mappings from rfl) hlen hperiod hcharges it
  have hsample : p.sample = ((it.order (agg (st₄.locStacks decode opts samples).1).entries).map
      fun e => (⟨e.1, [e.2.1, e.2.2], []⟩ : Proto.Sample)) := rfl
  have hnodup : (p.sample.map Proto.Sample.locationId).Nodup := by
    rw [hsample, List.map_map]
    exact ((it.perm _).map Sigma.fst).nodup_iff.mpr (AList.keys_nodup _)
  refine ⟨?_, hnodup, h.tables.functionIds, h.tables.locationIds, h.mappingIds, ?_,
    st.strings.nodup⟩
  · rw [hsample, List.map_map]
    exact hread
  -- what is left is that every reference of the profile leads somewhere
  have hstrings : st₄.strings.items <+: st.strings.items := hgrows.rows.strings
  have hzero : ValidString st.strings.items 0 := ⟨"", (getString_natCast _ 0).trans h.empty⟩
  refine Profile.closed_of_tables h.tables (fun s hs => ?_) (fun t ht => ?_) h.mappingStrings
    (fun idx hidx => ?_) (fun s hs id hid => ?_) fun loc hloc _ =>
      oneRow_of_validId h.mappingIds (h.locationMappings loc hloc)
  · obtain ⟨e, -, rfl⟩ := List.mem_map.mp (hsample ▸ hs)
    rfl
  · have hmem : t = ⟨(State.new.intern "samples").1, (st₁.intern "count").1⟩ ∨
        t = ⟨(st₂.intern opts.eventType).1, (st₃.intern opts.eventUnit).1⟩ := by
      rcases List.mem_append.mp ht with ht | ht
      · rcases List.mem_cons.mp ht with rfl | ht
        · exact Or.inl rfl
        · exact Or.inr (List.mem_singleton.mp ht)
      · exact Or.inr (List.mem_singleton.mp ht)
    rcases hmem with rfl | rfl
    · exact ⟨hsamplesStr.of_isPrefix hstrings, hcountStr.of_isPrefix hstrings⟩
    · exact ⟨heventStr.of_isPrefix hstrings, hunitStr.of_isPrefix hstrings⟩
  · have hmem : idx ∈ [0, 0, (st₂.intern opts.eventType).1, 0] ++ [] := hidx
    simp only [List.append_nil, List.mem_cons, List.not_mem_nil, or_false] at hmem
    rcases hmem with rfl | rfl | rfl | rfl
    · exact hzero
    · exact hzero
    · exact heventStr.of_isPrefix hstrings
    · exact hzero
  · obtain ⟨e, he, rfl⟩ := List.mem_map.mp (hsample ▸ hs)
    exact validId_of_entry h hcharges ((it.perm _).mem_iff.mp he) hid

theorem encode_aggregates_sample :
    let samples : List Sample := [⟨[⟨"_M0FP1a1f", "a.so"⟩], 3⟩, ⟨[], 7⟩,
      ⟨[⟨"_M0FP1a1f", "a.so"⟩], 4⟩]
    let p := encode (fun _ => "f") ⟨"cycles", "count", false⟩ ⟨id, .refl⟩ samples
    (p.sample.map fun s => (s.locationId.mapM p.readMapped, s.value)).Perm
      [(some [("f", "a.so", "a.so")], [2, 7])] ∧ p.Closed := by
  intro samples p
  have hlen : samples.length < 2 ^ 63 := by decide
  have hperiod : (samples.map Sample.period).sum < 2 ^ 63 := by decide
  obtain ⟨hread, -, -, -, -, hclosed, -⟩ := encode_aggregates (fun _ => "f")
    ⟨"cycles", "count", false⟩ ⟨id, .refl⟩ hlen hperiod
  exact ⟨hread, hclosed⟩

end Perf
