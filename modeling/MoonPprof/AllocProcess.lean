/-
A process under the allocation hook, up to its end.

Any number of threads allocate; each hook call has two critical sections, the
sampling decision and the append of the record, between which it takes its
backtrace.  The process may end at any moment, also by a signal in the middle of
an append, of which the file then has a part.

* `Inv.run` — the file and the threads inside a hook call, in every run;
* `alloc_profile_exact` — what the profile of the file shows.
-/
import MoonPprof.LabelledRun
import MoonPprof.NativeProfile

open LabelledRun MachineInt NativeHook NativeProfile RawStream RawStreamRoundTrip RetainedHeap

namespace AllocProcess

/-- Where a thread is in a call of the hook: before its first critical section, and before its
second. -/
inductive Pc where
  | outside
  | entered (size : UInt64) (stack : List Frame)
  | sampling (size : UInt64) (stack : List Frame)

/-- The hook and the threads.  `decided` counts the sampling decisions, and `recorded` are the
allocations behind their second critical section; `file` is what a process that has ended has
written. -/
structure Proc (T : Type) where
  hook : HookState
  pc : T → Pc
  decided : Nat
  recorded : List (UInt64 × List Frame)
  file : Option Bytes

/-- `mpprof_init` with an output path, at a rate. -/
def Proc.start (T : Type) (rate : UInt32) : Proc T where
  hook := { out := some [], counter := 0, rate := rate.toUInt64, retained := false }
  pc := fun _ => .outside
  decided := 0
  recorded := []
  file := none

inductive Event (T : Type) where
  | enter (t : T) (size : UInt64) (stack : List Frame)
  | decide (t : T)
  | emit (t : T) (junk : Buffer)
  /-- `mpprof_finalize_once`, if it interrupts an append after that many bytes of it. -/
  | finish (cut : Option (T × Buffer × Nat))

variable {T : Type}

/-- The part of a record that is already written when the append of a thread is interrupted. -/
def Proc.cutRecord (s : Proc T) : Option (T × Buffer × Nat) → Option Bytes
  | none => some []
  | some (t, junk, n) =>
    match s.pc t with
    | .sampling size stack =>
      if (stack.take maxFrames).isEmpty then none
      else (allocRecord junk size (stack.take maxFrames)).bind fun record =>
        if n < record.length then some (record.take n) else none
    | _ => none

def Proc.step [DecidableEq T] (s : Proc T) (e : Event T) : Option (Proc T) :=
  if s.file.isSome then none
  else match e with
    | .enter t size stack =>
      match s.pc t with
      | .outside =>
        if s.hook.out.isNone then some s
        else some { s with pc := Function.update s.pc t (.entered size stack) }
      | _ => none
    | .decide t =>
      match s.pc t with
      | .entered size stack => some { s with
          hook := s.hook.sampleDecision.2
          decided := s.decided + 1
          pc := Function.update s.pc t
            (if s.hook.sampleDecision.1 then .sampling size stack else .outside) }
      | _ => none
    | .emit t junk =>
      match s.pc t with
      | .sampling size stack => (s.hook.emit stack (allocRecord junk size)).map fun hook => { s with
          hook := hook
          recorded := s.recorded ++ [(size, stack)]
          pc := Function.update s.pc t .outside }
      | _ => none
    | .finish cut =>
      match s.hook.out, s.cutRecord cut with
      | some out, some part => some { s with
          hook := { s.hook with out := none }
          file := some (out ++ part) }
      | _, _ => none

/-! ### The records of the file -/

/-- The allocations that have a record, with the names in it. -/
def records (recorded : List (UInt64 × List Frame)) : List (UInt64 × List Bytes) :=
  (recorded.filter fun a => !(a.2.take maxFrames).isEmpty).map fun a =>
    (a.1, recordedNames 9 (a.2.take maxFrames))

def encodeAlloc (a : UInt64 × List Bytes) : Bytes := encodeRecord (leBytes 8 a.1.toNat) a.2

/-- The allocations as the parser reads them. -/
def parsed (recorded : List (UInt64 × List Frame)) : List (UInt64 × List Bytes) :=
  recorded.map fun a => (a.1, (recordedNames 9 (a.2.take maxFrames)).map fromUtf8Lossy)

theorem encodable_of_mem_records {recorded : List (UInt64 × List Frame)} {a : UInt64 × List Bytes}
    (ha : a ∈ records recorded) : Encodable a.2 := by
  obtain ⟨x, -, rfl⟩ := List.mem_map.mp ha
  refine encodable_recordedNames ?_
  rw [List.length_take]
  exact Nat.min_le_left _ _

def stream (recorded : List (UInt64 × List Frame)) : Bytes :=
  (records recorded).flatMap encodeAlloc

theorem stream_concat (recorded : List (UInt64 × List Frame)) (size : UInt64) (stack : List Frame) :
    stream (recorded ++ [(size, stack)]) = stream recorded ++
      if (stack.take maxFrames).isEmpty then []
      else encodeAlloc (size, recordedNames 9 (stack.take maxFrames)) := by
  rw [stream, records, List.filter_append, List.map_append, List.flatMap_append, ← records,
    ← stream]
  cases h : (stack.take maxFrames).isEmpty with
  | true => simp [h]
  | false => simp [h]

/-- Reading the records, and a part of one behind them. -/
theorem parseRawFrom_stream (scale : Int) (recorded : List (UInt64 × List Frame)) {part : Bytes}
    (hpart : readRecord 8 part = none) :
    parseRawFrom scale ∅ (stream recorded ++ part) =
      (records recorded).foldl (fun m a => addSample scale m a.1 (a.2.map fromUtf8Lossy)) ∅ := by
  have hrecords : ∀ a ∈ records recorded, Encodable a.2 := fun a => encodable_of_mem_records
  rw [stream]
  generalize records recorded = as at hrecords
  generalize (∅ : SampleMap) = m
  induction as generalizing m with
  | nil => exact parseRawFrom_of_none hpart
  | cons a as ih =>
    rw [List.flatMap_cons, List.append_assoc, encodeAlloc,
      parseRawFrom_encode (hrecords a List.mem_cons_self), List.foldl_cons]
    exact ih (fun b hb => hrecords b (List.mem_cons_of_mem _ hb)) _

/-- What is credited to the stacks. -/
theorem lookup_parsed (scale : Int) (recorded : List (UInt64 × List Frame)) (key : List Bytes) :
    ((records recorded).foldl (fun m a => addSample scale m a.1 (a.2.map fromUtf8Lossy)) ∅).lookup key =
      credited scale (parsed recorded) key := by
  have hmap : ∀ m : SampleMap, (records recorded).foldl
      (fun m a => addSample scale m a.1 (a.2.map fromUtf8Lossy)) m =
        ((records recorded).map fun a => (a.1, a.2.map fromUtf8Lossy)).foldl
          (fun m a => addSample scale m a.1 a.2) m := fun m => by rw [List.foldl_map]
  rw [hmap, lookup_foldl_addSample, ← credited_filter, ← credited_filter scale (parsed recorded)]
  -- an allocation without a record has no frame
  have hsame : ((records recorded).map fun a => (a.1, a.2.map fromUtf8Lossy)).filter
      (fun a => !(userFrames a.2).isEmpty) =
        (parsed recorded).filter fun a => !(userFrames a.2).isEmpty := by
    rw [records, parsed, List.map_map, List.filter_map, List.filter_map, List.filter_filter]
    refine congrArg (List.map _) (List.filter_congr fun a _ => ?_)
    cases hempty : (a.2.take maxFrames).isEmpty with
    | false => simp
    | true => simp [List.isEmpty_iff.mp hempty, recordedNames, userFrames]
  rw [hsame]

/-! ### The sampling decisions -/

/-- One allocation in so many is sampled. -/
def period (rate : UInt32) : Nat := max rate.toNat 1

theorem period_pos (rate : UInt32) : 0 < period rate := Nat.lt_of_lt_of_le Nat.one_pos (Nat.le_max_right _ _)

/-- The number of decisions for a sample among so many. -/
def selected (rate : UInt32) (decided : Nat) : Nat := (decided + period rate - 1) / period rate

theorem isSampled_eq (rate : UInt32) {k : Nat} (hk : k < 2 ^ 64) :
    isSampled rate.toUInt64 (UInt64.ofNat k) = decide (k % period rate = 0) := by
  have hnat : (UInt64.ofNat k).toNat = k := UInt64.toNat_ofNat_of_lt' hk
  have hrate : rate.toUInt64.toNat = rate.toNat := UInt32.toNat_toUInt64 rate
  rw [isSampled, period]
  by_cases hone : rate.toNat ≤ 1
  · have hle : rate.toUInt64 ≤ 1 := UInt64.le_iff_toNat_le.mpr (hrate ▸ hone)
    rw [Nat.max_eq_right hone, Nat.mod_one, decide_eq_true hle]
    rfl
  · have hle : ¬rate.toUInt64 ≤ 1 := fun h => hone (hrate ▸ UInt64.le_iff_toNat_le.mp h)
    rw [Nat.max_eq_left (by omega), decide_eq_false hle, Bool.false_or, Bool.eq_iff_iff, beq_iff_eq,
      decide_eq_true_eq, ← UInt64.toNat_inj, UInt64.toNat_mod, hnat, hrate]
    rfl

theorem selected_succ (rate : UInt32) (k : Nat) :
    selected rate (k + 1) = selected rate k + if k % period rate = 0 then 1 else 0 := by
  have hpos := period_pos rate
  have hnext : k + 1 + period rate - 1 = k + period rate - 1 + 1 := by omega
  have hdvd : period rate ∣ k + period rate - 1 + 1 ↔ k % period rate = 0 := by
    rw [show k + period rate - 1 + 1 = k + period rate by omega, Nat.dvd_add_self_right,
      Nat.dvd_iff_mod_eq_zero]
  rw [selected, selected, hnext, Nat.succ_div, if_congr hdvd rfl rfl]

/-- As often as it takes to count past all decisions. -/
theorem selected_bounds (rate : UInt32) (k : Nat) :
    k ≤ period rate * selected rate k ∧ period rate * selected rate k < k + period rate := by
  have hpos := period_pos rate
  have hdiv := Nat.div_add_mod (k + period rate - 1) (period rate)
  have hmod := Nat.mod_lt (k + period rate - 1) hpos
  rw [selected]
  omega

/-! ### The invariant -/

def Pc.IsSampling : Pc → Prop
  | .sampling _ _ => True
  | _ => False

/-- The file, and the threads between their critical sections. -/
structure Inv (rate : UInt32) (s : Proc T) (inFlight : List T) : Prop where
  hookRate : s.hook.rate = rate.toUInt64
  counter : s.hook.counter = UInt64.ofNat s.decided
  running : s.file = none → s.hook.out = some (stream s.recorded)
  ended : ∀ file, s.file = some file → ∃ part, file = stream s.recorded ++ part ∧
    readRecord 8 part = none
  nodup : inFlight.Nodup
  mem_iff : ∀ t, t ∈ inFlight ↔ (s.pc t).IsSampling
  count : s.decided ≤ 2 ^ 64 → s.recorded.length + inFlight.length = selected rate s.decided

theorem inv_start (T : Type) (rate : UInt32) : Inv rate (Proc.start T rate) [] where
  hookRate := rfl
  counter := rfl
  running := fun _ => rfl
  ended := nofun
  nodup := List.nodup_nil
  mem_iff := fun t => iff_of_false List.not_mem_nil id
  count := fun _ => by
    have hpos := period_pos rate
    show 0 = (0 + period rate - 1) / period rate
    exact (Nat.div_eq_of_lt (by omega)).symm

/-- What is cut off from a record is not read. -/
theorem readRecord_cutRecord {s : Proc T} {cut : Option (T × Buffer × Nat)} {part : Bytes}
    (h : s.cutRecord cut = some part) : readRecord 8 part = none := by
  rcases cut with _ | ⟨t, junk, n⟩
  · rw [Proc.cutRecord, Option.some.injEq] at h
    subst h
    rfl
  · rw [Proc.cutRecord] at h
    cases hpc : s.pc t with
    | sampling size stack =>
      simp only [hpc] at h
      split at h
      · cases h
      · rw [allocRecord_eq, Option.bind_some] at h
        split at h
        · rename_i hlt
          cases h
          have henc : Encodable (recordedNames 9 (stack.take maxFrames)) :=
            encodable_recordedNames (by rw [List.length_take]; exact Nat.min_le_left _ _)
          have hne : (encodeRecord (leBytes 8 size.toNat)
              (recordedNames 9 (stack.take maxFrames))).take n ≠ encodeRecord (leBytes 8 size.toNat)
                (recordedNames 9 (stack.take maxFrames)) := by
            intro heq
            have hlen := congrArg List.length heq
            rw [List.length_take] at hlen
            omega
          have hcut := readRecord_of_cut henc (List.take_prefix n _) hne
          rwa [leBytes_length] at hcut
        · cases h
    | _ =>
      simp only [hpc] at h
      cases h

section

variable [DecidableEq T] {rate : UInt32} {s s' : Proc T} {inFlight : List T}

/-- No thread runs in a process that has ended. -/
theorem file_eq_none {e : Event T} (hstep : s.step e = some s') : s.file = none := by
  cases hfile : s.file with
  | none => rfl
  | some file =>
    rw [Proc.step.eq_def, hfile] at hstep
    cases hstep

/-- A thread that is not sampling, and will not. -/
theorem mem_update_of_not {pc : T → Pc} {t : T} {p : Pc} (h : ∀ u, u ∈ inFlight ↔ (pc u).IsSampling)
    (hold : ¬(pc t).IsSampling) (hnew : ¬p.IsSampling) (u : T) :
    u ∈ inFlight ↔ (Function.update pc t p u).IsSampling := by
  rw [h]
  by_cases hu : u = t
  · subst hu
    rw [Function.update_self]
    exact iff_of_false hold hnew
  · rw [Function.update_of_ne hu]

theorem mem_update_cons {pc : T → Pc} {t : T} {p : Pc} (h : ∀ u, u ∈ inFlight ↔ (pc u).IsSampling)
    (hnew : p.IsSampling) (u : T) :
    u ∈ t :: inFlight ↔ (Function.update pc t p u).IsSampling := by
  rw [List.mem_cons, h]
  by_cases hu : u = t
  · subst hu
    rw [Function.update_self]
    exact iff_of_true (.inl rfl) hnew
  · rw [Function.update_of_ne hu, or_iff_right hu]

theorem mem_update_erase {pc : T → Pc} {t : T} {p : Pc} (hnodup : inFlight.Nodup)
    (h : ∀ u, u ∈ inFlight ↔ (pc u).IsSampling) (hnew : ¬p.IsSampling) (u : T) :
    u ∈ inFlight.erase t ↔ (Function.update pc t p u).IsSampling := by
  rw [hnodup.mem_erase_iff, h]
  by_cases hu : u = t
  · subst hu
    rw [Function.update_self]
    exact iff_of_false (fun hand => hand.1 rfl) hnew
  · rw [Function.update_of_ne hu, and_iff_right hu]

/-- A decision. -/
theorem Inv.decision {t : T} {size : UInt64} {stack : List Frame} (h : Inv rate s inFlight)
    (hpc : s.pc t = .entered size stack) :
    ∃ inFlight', Inv rate { s with
      hook := s.hook.sampleDecision.2
      decided := s.decided + 1
      pc := Function.update s.pc t
        (if s.hook.sampleDecision.1 then .sampling size stack else .outside) } inFlight' := by
  have hold : ¬(s.pc t).IsSampling := by
    rw [hpc]
    exact id
  have hcounter : s.hook.counter + 1 = UInt64.ofNat (s.decided + 1) := by
    rw [h.counter]
    simp
  have hsampled : s.decided + 1 ≤ 2 ^ 64 →
      s.hook.sampleDecision.1 = decide (s.decided % period rate = 0) := by
    intro hle
    rw [sampleDecision_eq, h.hookRate, h.counter, isSampled_eq rate (by omega)]
  have hfile' : ∀ file, s.file = some file → ∃ part, file = stream s.recorded ++ part ∧
      readRecord 8 part = none := h.ended
  cases hdo : s.hook.sampleDecision.1 with
  | true =>
    refine ⟨t :: inFlight, h.hookRate, hcounter, h.running, hfile', ?_, ?_, fun hle => ?_⟩
    · exact List.nodup_cons.mpr ⟨fun ht => hold ((h.mem_iff t).mp ht), h.nodup⟩
    · exact mem_update_cons h.mem_iff trivial
    · have hmod : s.decided % period rate = 0 := of_decide_eq_true ((hsampled hle).symm.trans hdo)
      rw [selected_succ, if_pos hmod, ← h.count (Nat.le_of_succ_le hle), List.length_cons,
        Nat.add_assoc]
  | false =>
    refine ⟨inFlight, h.hookRate, hcounter, h.running, hfile', h.nodup, ?_, fun hle => ?_⟩
    · exact mem_update_of_not h.mem_iff hold id
    · have hmod : ¬s.decided % period rate = 0 := of_decide_eq_false ((hsampled hle).symm.trans hdo)
      rw [selected_succ, if_neg hmod, Nat.add_zero]
      exact h.count (Nat.le_of_succ_le hle)

/-- The second critical section. -/
theorem Inv.emit {t : T} {size : UInt64} {stack : List Frame} {junk : Buffer} {hook : HookState}
    (h : Inv rate s inFlight) (hpc : s.pc t = .sampling size stack) (hfile : s.file = none)
    (hemit : s.hook.emit stack (allocRecord junk size) = some hook) :
    Inv rate { s with
      hook := hook
      recorded := s.recorded ++ [(size, stack)]
      pc := Function.update s.pc t .outside } (inFlight.erase t) := by
  have hmem : t ∈ inFlight := by
    rw [h.mem_iff, hpc]
    trivial
  have hhook : hook.rate = s.hook.rate ∧ hook.counter = s.hook.counter ∧
      hook.out = some (stream (s.recorded ++ [(size, stack)])) := by
    rw [HookState.emit] at hemit
    rw [stream_concat]
    split at hemit
    · rename_i hempty
      cases hemit
      rw [if_pos hempty, List.append_nil]
      exact ⟨rfl, rfl, h.running hfile⟩
    · rename_i hempty
      rw [allocRecord_eq, Option.map_some, Option.some.injEq] at hemit
      subst hemit
      rw [if_neg hempty]
      refine ⟨rfl, rfl, ?_⟩
      rw [HookState.append, h.running hfile]
      rfl
  refine ⟨hhook.1.trans h.hookRate, hhook.2.1.trans h.counter, fun _ => hhook.2.2,
    fun file hsome => (Option.some_ne_none file (hsome.symm.trans hfile)).elim, h.nodup.erase t,
    mem_update_erase h.nodup h.mem_iff id, fun hle => ?_⟩
  rw [← h.count hle, List.length_append, List.length_singleton, List.length_erase_of_mem hmem]
  have hpos := List.length_pos_of_mem hmem
  omega

/-- One step of a thread, or the end of the process. -/
theorem Inv.step {e : Event T} (h : Inv rate s inFlight) (hstep : s.step e = some s') :
    ∃ inFlight', Inv rate s' inFlight' := by
  have hfile := file_eq_none hstep
  have hrunning : ¬s.file.isSome = true := by
    rw [hfile]
    exact Bool.false_ne_true
  rw [Proc.step.eq_def, if_neg hrunning] at hstep
  cases e with
  | enter t size stack =>
    cases hpc : s.pc t with
    | outside =>
      simp only [hpc, h.running hfile] at hstep
      cases hstep
      refine ⟨inFlight, h.hookRate, h.counter, h.running, h.ended, h.nodup, ?_, h.count⟩
      refine mem_update_of_not h.mem_iff ?_ id
      rw [hpc]
      exact id
    | _ =>
      simp only [hpc] at hstep
      cases hstep
  | decide t =>
    cases hpc : s.pc t with
    | entered size stack =>
      simp only [hpc] at hstep
      cases hstep
      exact h.decision hpc
    | _ =>
      simp only [hpc] at hstep
      cases hstep
  | emit t junk =>
    cases hpc : s.pc t with
    | sampling size stack =>
      simp only [hpc] at hstep
      obtain ⟨hook, hemit, rfl⟩ := Option.map_eq_some_iff.mp hstep
      exact ⟨_, h.emit hpc hfile hemit⟩
    | _ =>
      simp only [hpc] at hstep
      cases hstep
  | finish cut =>
    cases hcut : s.cutRecord cut with
    | none =>
      simp only [hcut, h.running hfile] at hstep
      cases hstep
    | some part =>
      simp only [hcut, h.running hfile] at hstep
      cases hstep
      refine ⟨inFlight, h.hookRate, h.counter, nofun, fun file hsome => ?_, h.nodup, h.mem_iff,
        h.count⟩
      obtain rfl := Option.some.inj hsome
      exact ⟨part, rfl, readRecord_cutRecord hcut⟩

theorem Inv.run {es : List (Event T)} (h : Inv rate s inFlight)
    (hrun : LabelledRun.run Proc.step s es = some s') : ∃ inFlight', Inv rate s' inFlight' := by
  induction es generalizing s inFlight with
  | nil =>
    obtain rfl := Option.some.inj hrun
    exact ⟨inFlight, h⟩
  | cons e es ih =>
    rw [run_cons] at hrun
    obtain ⟨s₁, hstep, hrest⟩ := Option.bind_eq_some_iff.mp hrun
    obtain ⟨inFlight₁, h₁⟩ := h.step hstep
    exact ih h₁ hrest

end

/-! ### Main result -/

theorem scaleOf_eq (rate : UInt32) : scaleOf rate = period rate := by
  rw [scaleOf, period, Nat.cast_max]
  rfl

/-- A process with any number of threads, in every interleaving of their critical sections, that
ends at any moment, also in the middle of an append: its file parses, and the profile is closed and
shows of each displayed stack the number and the total size of the allocations that have been
recorded there, times the sampling rate.  The recorded allocations and those that a thread is still
recording are together a sample of all, one in so many. -/
theorem alloc_profile_exact [DecidableEq T]
    (it : IterOrder (Sigma fun _ : List Bytes => SampleAgg)) (decode : String → String)
    (noDemangle : Bool) (rate : UInt32) {es : List (Event T)} {s : Proc T} {file : Bytes}
    (hrun : run Proc.step (Proc.start T rate) es = some s) (hfile : s.file = some file)
    (hdecided : s.decided ≤ 2 ^ 64) (hfits : Fits (scaleOf rate) (parsed s.recorded)) :
    (∃ samples, parseRawStream file rate = .ok samples ∧
      let p := encodePprof decode noDemangle it samples .alloc
      p.Closed ∧
        p.sampleTypes = [(some "alloc_objects", some "count"), (some "alloc_space", some "bytes")] ∧
        ∀ stack, stack ≠ [] →
          let alike := shownAs decode noDemangle stack (parsed s.recorded)
          p.valueOf stack 0 = scaleOf rate * alike.length ∧
            p.valueOf stack 1 = scaleOf rate * (alike.map fun a => (a.1.toNat : Int)).sum) ∧
      ∃ inFlight : List T, inFlight.Nodup ∧ (∀ t, t ∈ inFlight ↔ (s.pc t).IsSampling) ∧
        s.decided ≤ period rate * (s.recorded.length + inFlight.length) ∧
        period rate * (s.recorded.length + inFlight.length) < s.decided + period rate := by
  obtain ⟨inFlight, h⟩ := (inv_start T rate).run hrun
  obtain ⟨part, rfl, hpart⟩ := h.ended file hfile
  have hscale : 0 ≤ scaleOf rate := scaleOf_eq rate ▸ Int.natCast_nonneg _
  refine ⟨⟨_, congrArg Except.ok (parseRawFrom_stream (scaleOf rate) s.recorded hpart), ?_⟩,
    inFlight, h.nodup, h.mem_iff, ?_⟩
  · obtain ⟨hclosed, htypes, -⟩ := encodePprof_reads decode noDemangle it
      ((records s.recorded).foldl
        (fun m a => addSample (scaleOf rate) m a.1 (a.2.map fromUtf8Lossy)) ∅) .alloc
    exact ⟨hclosed, htypes, fun stack hstack => valueOf_of_credited hscale hfits
      (lookup_parsed (scaleOf rate) s.recorded) decode noDemangle it .alloc hstack⟩
  · rw [h.count hdecided]
    exact selected_bounds rate s.decided

/-- Two threads, of which one is stopped in its append. -/
theorem alloc_profile_exact_cut :
    ∃ (es : List (Event Bool)) (s : Proc Bool) (file : Bytes) (samples : SampleMap),
      run Proc.step (Proc.start Bool 1) es = some s ∧ s.file = some file ∧ s.decided = 2 ∧
      parseRawStream file 1 = .ok samples ∧
      let p := encodePprof id false ⟨id, fun _ => .refl _⟩ samples .alloc
      p.valueOf ["main"] 0 = 1 ∧ p.valueOf ["main"] 1 = 24 := by
  have hemit : ∀ (hook : HookState) (size : UInt64),
      hook.emit mainStack (allocRecord zeroBuffer size) = some (hook.append
        (encodeRecord (leBytes 8 size.toNat) (recordedNames 9 (mainStack.take maxFrames)))) :=
    fun hook size => by simp [HookState.emit, allocRecord_eq, mainStack, maxFrames]
  have hcut : ∀ s : Proc Bool, s.pc false = .sampling 8 mainStack →
      s.cutRecord (some (false, zeroBuffer, 5)) = some [8, 0, 0, 0, 0] := by
    intro s hpc
    rw [Proc.cutRecord, hpc]
    simp only [allocRecord_eq]
    decide +kernel
  have hstep : ∀ (s : Proc Bool) (hook : HookState), s.file = none →
      s.pc true = .sampling 24 mainStack →
      s.hook.emit mainStack (allocRecord zeroBuffer 24) = some hook →
      s.step (.emit true zeroBuffer) = some { s with
        hook := hook
        recorded := s.recorded ++ [(24, mainStack)]
        pc := Function.update s.pc true .outside } := by
    intro s hook hfile hpc hemit
    rw [Proc.step.eq_def, if_neg (by rw [hfile]; exact Bool.false_ne_true)]
    simp only [hpc, hemit, Option.map_some]
  have hfinish : ∀ (s : Proc Bool) (out : Bytes), s.file = none → s.hook.out = some out →
      s.pc false = .sampling 8 mainStack → s.step (.finish (some (false, zeroBuffer, 5))) = some { s with
        hook := { s.hook with out := none }
        file := some (out ++ [8, 0, 0, 0, 0]) } := by
    intro s out hfile hout hpc
    rw [Proc.step.eq_def, if_neg (by rw [hfile]; exact Bool.false_ne_true)]
    simp only [hout, hcut s hpc]
  have h₁ : run Proc.step (Proc.start Bool 1) [.enter true 24 mainStack, .enter false 8 mainStack,
      .decide true, .decide false] = some _ := rfl
  have h₂ := run_trans h₁ (run_step (hstep _ _ rfl rfl (hemit _ _)) (run_nil _))
  have h₃ := run_trans h₂ (run_step (hfinish _ _ rfl rfl rfl) (run_nil _))
  obtain ⟨⟨samples, hparse, -, -, hvalue⟩, -⟩ := alloc_profile_exact ⟨id, fun _ => .refl _⟩ id false 1
    h₃ rfl (by decide) ⟨by decide +kernel, by decide +kernel⟩
  obtain ⟨hcount, hbytes⟩ := hvalue ["main"] (List.cons_ne_nil _ _)
  exact ⟨_, _, _, samples, h₃, rfl, rfl, hparse, hcount.trans (by decide +kernel),
    hbytes.trans (by decide +kernel)⟩

end AllocProcess
