/-
The instrumentation of allocation opcodes (`runners/moon-pprof`,
`cmd_memprofile.rs`): `instrumentGcAllocs` and what it is made of.

* `getStruct_build`, `getArrayElem_build` — the sizes of a module's types;
* `leads_pushed_iff` — the traversal gets past all constructs but those for exceptions;
* `collectSeqIds_perm` — the sequences that are rewritten;
* `instrumentGcAllocsInFunc_spec` — what becomes of one function;
* `instrumentGcAllocs_spec` — and of all of them.
-/
import Mathlib.Algebra.Order.Ring.Int
import MoonPprof.Forest
import MoonPprof.HashMap
import MoonPprof.WasmIr

open Wasm

namespace GcAlloc

variable {O : Type}

/-! ### Sizes -/

def fieldSize (f : FieldType) : Int32 :=
  match f.elementType with
  | .i8 => 1
  | .i16 => 2
  | .val .i32 | .val .f32 => 4
  | .val .i64 | .val .f64 => 8
  | .val .v128 => 16
  | .val .ref => 4

structure TypeSizes where
  structSize : HashMap TypeId Int32
  arrayElemSize : HashMap TypeId Int32

/-- One turn of the loop over the types. -/
def TypeSizes.add (sizes : TypeSizes) (ty : CompositeType × TypeId) : TypeSizes :=
  match ty.1 with
  | .struct fields =>
    { sizes with structSize := sizes.structSize.insert ty.2 (fields.map fieldSize).sum }
  | .array field =>
    { sizes with arrayElemSize := sizes.arrayElemSize.insert ty.2 (fieldSize field) }
  | .function => sizes

def TypeSizes.build (m : Module O) : TypeSizes := m.types.zipIdx.foldl TypeSizes.add ⟨∅, ∅⟩

def TypeSizes.getStruct (sizes : TypeSizes) (ty : TypeId) : Option Int32 :=
  sizes.structSize.lookup ty

def TypeSizes.getArrayElem (sizes : TypeSizes) (ty : TypeId) : Option Int32 :=
  sizes.arrayElemSize.lookup ty

/-! ### Rewriting -/

/-- `static_size`. -/
def staticSize (sizes : TypeSizes) : Instr O → Option Int32
  | .alloc (.structNew ty) => sizes.getStruct ty
  | .alloc (.structNewDefault ty) => sizes.getStruct ty
  | .alloc (.arrayNewFixed ty len) => (sizes.getArrayElem ty).map fun e => e * len.toInt32
  | _ => none

/-- `dyn_elem_size`. -/
def dynElemSize (sizes : TypeSizes) : Instr O → Option Int32
  | .alloc (.arrayNew ty) => sizes.getArrayElem ty
  | .alloc (.arrayNewDefault ty) => sizes.getArrayElem ty
  | .alloc (.arrayNewData ty _) => sizes.getArrayElem ty
  | .alloc (.arrayNewElem ty _) => sizes.getArrayElem ty
  | _ => none

/-- What an instruction is replaced by, and whether it is counted. -/
def rewriteInstr (hookFn : FunctionId) (sizes : TypeSizes) (scratch : LocalId) (instr : Instr O) :
    List (Instr O) × Nat :=
  match staticSize sizes instr with
  | some size =>
    ((if size > 0 then [.const size, .call hookFn] else []) ++ [instr], 1)
  | none =>
    match dynElemSize sizes instr with
    | some elemSize =>
      ((if elemSize > 0 then
          [.localSet scratch, .const elemSize, .localGet scratch, .i32Mul, .call hookFn,
            .localGet scratch]
        else []) ++ [instr], 1)
    | none => ([instr], 0)

/-- One turn of the loop over the sequences. -/
def rewriteSeq (hookFn : FunctionId) (sizes : TypeSizes) (scratch : LocalId)
    (acc : LocalFunction O × Nat) (seq : InstrSeqId) : LocalFunction O × Nat :=
  let (f, count) := acc
  let (new, n) := (f.blocks seq).foldl (fun (new, n) instr =>
    (new ++ (rewriteInstr hookFn sizes scratch instr).1,
      n + (rewriteInstr hookFn sizes scratch instr).2)) ([], count)
  ({ f with blocks := Function.update f.blocks seq new }, n)

/-- The sequences that an instruction makes `collect_seq_ids` push. -/
def pushedSeqs : Instr O → List InstrSeqId
  | .block seq => [seq]
  | .loop seq => [seq]
  | .ifElse consequent alternative => [consequent, alternative]
  | _ => []

def pushed (f : LocalFunction O) (seq : InstrSeqId) : List InstrSeqId :=
  (f.blocks seq).flatMap pushedSeqs

def collectSeqIds (fuel : Nat) (f : LocalFunction O) : Option (List InstrSeqId) :=
  visit (pushed f) fuel [f.entry] []

def instrumentGcAllocsInFunc (fuel : Nat) (m : Module O) (fid : FunctionId)
    (hookFn : FunctionId) (sizes : TypeSizes) : Option (Module O × Nat) :=
  match m.funcs[fid]? with
  | some (.defined f) => do
    let seqIds ← collectSeqIds fuel f
    let scratch := m.localCount
    let (f', count) := seqIds.foldl (rewriteSeq hookFn sizes scratch) (f, 0)
    some ({ m with
      funcs := m.funcs.set fid (.defined f')
      localCount := m.localCount + 1 }, count)
  | _ => some (m, 0)

/-- The ids of the functions with a body. -/
def localFunctions (m : Module O) : List FunctionId :=
  (List.range m.funcs.length).filter fun fid =>
    match m.funcs[fid]? with
    | some (.defined _) => true
    | _ => false

def instrumentGcAllocs (fuel : Nat) (m : Module O) (hookFn : FunctionId) (sizes : TypeSizes) :
    Option (Module O × Nat) :=
  (localFunctions m).foldlM (fun (m, total) fid => do
    let (m', n) ← instrumentGcAllocsInFunc fuel m fid hookFn sizes
    some (m', total + n)) (m, 0)

/-! ### Sizes by type -/

theorem lookup_build (types : List CompositeType) (ty : TypeId) :
    let sizes := types.zipIdx.foldl TypeSizes.add ⟨∅, ∅⟩
    (sizes.getStruct ty = match types[ty]? with
      | some (.struct fields) => some (fields.map fieldSize).sum
      | _ => none) ∧
    (sizes.getArrayElem ty = match types[ty]? with
      | some (.array field) => some (fieldSize field)
      | _ => none) := by
  induction types using List.reverseRecOn with
  | nil => exact ⟨rfl, rfl⟩
  | append_singleton types t ih =>
    intro sizes
    obtain ⟨hstruct, harray⟩ := ih
    set before := types.zipIdx.foldl TypeSizes.add ⟨∅, ∅⟩
    have hsizes : sizes = before.add (t, types.length) := by
      show (types ++ [t]).zipIdx.foldl TypeSizes.add ⟨∅, ∅⟩ = _
      rw [List.zipIdx_append, List.foldl_append]
      simp [before]
    rw [hsizes]
    -- the last type is entered under its own index, and the others stay
    by_cases hty : ty = types.length
    · subst hty
      rw [List.getElem?_eq_none (Nat.le_refl _)] at hstruct harray
      rw [List.getElem?_append_right (Nat.le_refl _), Nat.sub_self, List.getElem?_cons_zero]
      cases t with
      | function => exact ⟨hstruct, harray⟩
      | struct fields => exact ⟨AList.lookup_insert _, harray⟩
      | array field => exact ⟨hstruct, AList.lookup_insert _⟩
    · have hget : (types ++ [t])[ty]? = types[ty]? := by
        rcases Nat.lt_or_gt_of_ne hty with hlt | hgt
        · exact List.getElem?_append_left hlt
        · rw [List.getElem?_eq_none (Nat.le_of_lt hgt), List.getElem?_eq_none]
          rw [List.length_append]
          exact hgt
      rw [hget]
      cases t with
      | function => exact ⟨hstruct, harray⟩
      | struct fields => exact ⟨(AList.lookup_insert_ne hty).trans hstruct, harray⟩
      | array field => exact ⟨hstruct, (AList.lookup_insert_ne hty).trans harray⟩

theorem getStruct_build (m : Module O) (ty : TypeId) :
    (TypeSizes.build m).getStruct ty = match m.types[ty]? with
      | some (.struct fields) => some (fields.map fieldSize).sum
      | _ => none :=
  (lookup_build m.types ty).1

theorem getArrayElem_build (m : Module O) (ty : TypeId) :
    (TypeSizes.build m).getArrayElem ty = match m.types[ty]? with
      | some (.array field) => some (fieldSize field)
      | _ => none :=
  (lookup_build m.types ty).2

/-! ### One function -/

section

variable (hookFn : FunctionId) (sizes : TypeSizes) (scratch : LocalId)

/-- The instructions that a sequence is replaced by. -/
def rewriteAll (instrs : List (Instr O)) : List (Instr O) :=
  instrs.flatMap fun instr => (rewriteInstr hookFn sizes scratch instr).1

/-- The instruction is counted as an allocation site. -/
def isSite (instr : Instr O) : Bool :=
  (staticSize sizes instr).isSome || (dynElemSize sizes instr).isSome

theorem rewriteInstr_count (instr : Instr O) :
    (rewriteInstr hookFn sizes scratch instr).2 = if isSite sizes instr then 1 else 0 := by
  rw [rewriteInstr, isSite]
  rcases staticSize sizes instr with _ | size
  · rcases dynElemSize sizes instr with _ | elemSize
    · rfl
    · rfl
  · rfl

theorem foldl_rewriteInstr (instrs new : List (Instr O)) (n : Nat) :
    instrs.foldl (fun (new, n) instr =>
      (new ++ (rewriteInstr hookFn sizes scratch instr).1,
        n + (rewriteInstr hookFn sizes scratch instr).2)) (new, n) =
      (new ++ rewriteAll hookFn sizes scratch instrs, n + instrs.countP (isSite sizes)) := by
  induction instrs generalizing new n with
  | nil => simp [rewriteAll]
  | cons instr instrs ih =>
    rw [List.foldl_cons, ih, rewriteInstr_count, rewriteAll, rewriteAll, List.flatMap_cons,
      List.append_assoc, List.countP_cons, Nat.add_assoc, Nat.add_comm (instrs.countP _)]

/-- `f'` is `f` with the sequences `seqIds` rewritten. -/
structure Instrumented (seqIds : List InstrSeqId) (f f' : LocalFunction O) : Prop where
  args : f'.args = f.args
  entry : f'.entry = f.entry
  types : f'.types = f.types
  rewritten : ∀ seq ∈ seqIds, f'.blocks seq = rewriteAll hookFn sizes scratch (f.blocks seq)
  kept : ∀ seq ∉ seqIds, f'.blocks seq = f.blocks seq

/-- The allocation sites in some sequences. -/
def siteCount (f : LocalFunction O) (seqIds : List InstrSeqId) : Nat :=
  (seqIds.map fun seq => (f.blocks seq).countP (isSite sizes)).sum

theorem foldl_rewriteSeq (f : LocalFunction O) {seqIds : List InstrSeqId} (h : seqIds.Nodup) :
    let r := seqIds.foldl (rewriteSeq hookFn sizes scratch) (f, 0)
    Instrumented hookFn sizes scratch seqIds f r.1 ∧ r.2 = siteCount sizes f seqIds := by
  induction seqIds using List.reverseRecOn with
  | nil =>
    refine ⟨⟨rfl, rfl, rfl, ?_, fun seq _ => rfl⟩, rfl⟩
    intro seq hseq
    cases hseq
  | append_singleton seqIds seq ih =>
    rw [List.nodup_append] at h
    have hnew : seq ∉ seqIds := fun hmem => h.2.2 seq hmem seq (by simp) rfl
    obtain ⟨hi, hcount⟩ := ih h.1
    intro r
    set r₀ := seqIds.foldl (rewriteSeq hookFn sizes scratch) (f, 0)
    have hr : r = ({ r₀.1 with
        blocks := Function.update r₀.1.blocks seq (rewriteAll hookFn sizes scratch (f.blocks seq)) },
        r₀.2 + (f.blocks seq).countP (isSite sizes)) := by
      show (seqIds ++ [seq]).foldl (rewriteSeq hookFn sizes scratch) (f, 0) = _
      rw [List.foldl_append, List.foldl_cons, List.foldl_nil, rewriteSeq]
      simp only [foldl_rewriteInstr, List.nil_append]
      rw [hi.kept seq hnew]
    rw [hr]
    refine ⟨⟨hi.args, hi.entry, hi.types, fun s hs => ?_, fun s hs => ?_⟩, ?_⟩
    · by_cases heq : s = seq
      · rw [heq]
        exact Function.update_self _ _ _
      · refine (Function.update_of_ne heq _ _).trans (hi.rewritten s ?_)
        exact (List.mem_append.mp hs).resolve_right (by simpa using heq)
    · rw [List.mem_append, not_or, List.mem_singleton] at hs
      exact (Function.update_of_ne hs.2 _ _).trans (hi.kept s hs.1)
    · rw [hcount, siteCount, siteCount, List.map_append, List.sum_append, List.map_singleton,
        List.sum_singleton]

end

theorem pushed_sublist (f : LocalFunction O) (seq : InstrSeqId) :
    (pushed f seq).Sublist (f.children seq) := by
  rw [pushed, LocalFunction.children]
  induction f.blocks seq with
  | nil => exact List.Sublist.refl _
  | cons instr instrs ih =>
    rw [List.flatMap_cons, List.flatMap_cons]
    refine List.Sublist.append ?_ ih
    cases instr <;> first | exact List.Sublist.refl _ | exact List.nil_sublist _

/-- A body in which each sequence is owned once; `seqs` are its sequences. -/
structure Nested (f : LocalFunction O) (seqs : List InstrSeqId) : Prop where
  nest : Nest f.children [f.entry] seqs
  nodup : seqs.Nodup

/-- The sequence belongs to the body with no exception construct on the way to it: it is the entry,
or owned by an instruction of such a sequence that is none. -/
inductive Reached (f : LocalFunction O) : InstrSeqId → Prop
  | entry : Reached f f.entry
  | owned {outer seq : InstrSeqId} {instr : Instr O} (houter : Reached f outer)
      (hinstr : instr ∈ f.blocks outer) (htry : instr.isTry = false) (hseq : seq ∈ instr.owned) :
      Reached f seq

theorem mem_pushedSeqs {instr : Instr O} {seq : InstrSeqId} :
    seq ∈ pushedSeqs instr ↔ instr.isTry = false ∧ seq ∈ instr.owned := by
  cases instr <;> simp [pushedSeqs, Instr.isTry, Instr.owned]

/-- The sequences that are pushed from the entry on are the reached ones. -/
theorem leads_pushed_iff {f : LocalFunction O} {seq : InstrSeqId} :
    Nest.Leads (pushed f) [f.entry] seq ↔ Reached f seq := by
  constructor
  · rintro ⟨entry, hentry, hleads⟩
    obtain rfl := List.mem_singleton.mp hentry
    induction hleads with
    | refl => exact .entry
    | tail _ hpushed ih =>
      obtain ⟨instr, hinstr, hseq⟩ := List.mem_flatMap.mp hpushed
      obtain ⟨htry, howned⟩ := mem_pushedSeqs.mp hseq
      exact .owned ih hinstr htry howned
  · intro h
    induction h with
    | entry => exact ⟨f.entry, List.mem_singleton_self _, .refl⟩
    | owned _ hinstr htry hseq ih =>
      obtain ⟨entry, hentry, hleads⟩ := ih
      refine ⟨entry, hentry, hleads.tail ?_⟩
      exact List.mem_flatMap.mpr ⟨_, hinstr, mem_pushedSeqs.mpr ⟨htry, hseq⟩⟩

/-- The loop ends, with each reached sequence once. -/
theorem collectSeqIds_perm {f : LocalFunction O} {seqs : List InstrSeqId} (h : Nested f seqs)
    {fuel : Nat} (hfuel : seqs.length ≤ fuel) :
    ∃ seqIds, collectSeqIds fuel f = some seqIds ∧ seqIds.Nodup ∧ seqIds.Subperm seqs ∧
      ∀ seq, seq ∈ seqIds ↔ Reached f seq := by
  obtain ⟨reached, hnest, hsub⟩ := h.nest.exists_sub (pushed_sublist f) (List.Sublist.refl _)
  obtain ⟨seqIds, hvisit, hperm⟩ := hnest.visit_perm (Nat.le_trans hsub.length_le hfuel) []
  refine ⟨seqIds, hvisit, hperm.nodup_iff.mpr (hsub.nodup h.nodup), ?_, fun seq => ?_⟩
  · exact hperm.subperm.trans hsub.subperm
  · rw [hperm.mem_iff, hnest.mem_iff, leads_pushed_iff]

/-- One function is rewritten, with a new local to itself. -/
theorem instrumentGcAllocsInFunc_spec {m : Module O} {fid : FunctionId} {f : LocalFunction O}
    (hf : m.funcs[fid]? = some (.defined f)) {seqs : List InstrSeqId} (hseqs : Nested f seqs)
    {fuel : Nat} (hfuel : seqs.length ≤ fuel) (hookFn : FunctionId) (sizes : TypeSizes) :
    ∃ f' seqIds, collectSeqIds fuel f = some seqIds ∧
      instrumentGcAllocsInFunc fuel m fid hookFn sizes = some ({ m with
        funcs := m.funcs.set fid (.defined f')
        localCount := m.localCount + 1 }, siteCount sizes f seqIds) ∧
      Instrumented hookFn sizes m.localCount seqIds f f' := by
  obtain ⟨seqIds, hcollect, hnodup, -⟩ := collectSeqIds_perm hseqs hfuel
  obtain ⟨hi, hcount⟩ := foldl_rewriteSeq hookFn sizes m.localCount f hnodup
  refine ⟨_, seqIds, hcollect, ?_, hi⟩
  rw [instrumentGcAllocsInFunc, hf, ← hcount]
  simp only [hcollect]
  rfl

/-! ### All functions -/

/-- The sequences `seqs fid` are those of function `fid`, for each with a body. -/
def WellNested (m : Module O) (seqs : FunctionId → List InstrSeqId) : Prop :=
  ∀ fid f, m.funcs[fid]? = some (.defined f) → Nested f (seqs fid)

/-- A function of the finished module is the rewritten one. -/
def Rewritten (fuel : Nat) (m : Module O) (hookFn : FunctionId) (sizes : TypeSizes)
    (fid : FunctionId) (kind : Option (FunctionKind O)) : Prop :=
  ∃ f f' seqIds scratch, m.funcs[fid]? = some (.defined f) ∧ kind = some (.defined f') ∧
    collectSeqIds fuel f = some seqIds ∧ m.localCount ≤ scratch ∧
    Instrumented hookFn sizes scratch seqIds f f'

/-- The allocation sites that are met in a function. -/
def metSites (fuel : Nat) (m : Module O) (sizes : TypeSizes) (fid : FunctionId) : Nat :=
  match m.funcs[fid]? with
  | some (.defined f) => siteCount sizes f ((collectSeqIds fuel f).getD [])
  | _ => 0

/-- The module after the functions `done`. -/
structure Progress (fuel : Nat) (m : Module O) (hookFn : FunctionId) (sizes : TypeSizes)
    (done : List FunctionId) (r : Module O × Nat) : Prop where
  types : r.1.types = m.types
  localCount : m.localCount ≤ r.1.localCount
  rewritten : ∀ fid ∈ done, Rewritten fuel m hookFn sizes fid r.1.funcs[fid]?
  kept : ∀ fid ∉ done, r.1.funcs[fid]? = m.funcs[fid]?
  total : r.2 = (done.map (metSites fuel m sizes)).sum

theorem mem_localFunctions {m : Module O} {fid : FunctionId} :
    fid ∈ localFunctions m ↔ ∃ f, m.funcs[fid]? = some (.defined f) := by
  rw [localFunctions, List.mem_filter, List.mem_range]
  rcases hf : m.funcs[fid]? with _ | kind
  · simp
  · have hlt := (List.getElem?_eq_some_iff.mp hf).1
    cases kind <;> simp [hlt]

/-- Every function with a body is rewritten, with a local of its own; the rest of
the module is the same. -/
theorem instrumentGcAllocs_spec {m : Module O} {seqs : FunctionId → List InstrSeqId}
    (hseqs : WellNested m seqs) {fuel : Nat}
    (hfuel : ∀ fid ∈ localFunctions m, (seqs fid).length ≤ fuel) (hookFn : FunctionId)
    (sizes : TypeSizes) :
    ∃ r, instrumentGcAllocs fuel m hookFn sizes = some r ∧
      Progress fuel m hookFn sizes (localFunctions m) r := by
  have hnodup : (localFunctions m).Nodup := List.nodup_range.filter _
  have hdefined : ∀ fid ∈ localFunctions m, ∃ f, m.funcs[fid]? = some (.defined f) := fun fid h =>
    mem_localFunctions.mp h
  rw [instrumentGcAllocs]
  -- induction on the functions done so far, the last one first: it is still as it was
  generalize localFunctions m = fids at hfuel hnodup hdefined
  induction fids using List.reverseRecOn with
  | nil =>
    refine ⟨(m, 0), rfl, rfl, Nat.le_refl _, ?_, fun _ _ => rfl, rfl⟩
    intro fid hfid
    cases hfid
  | append_singleton fids fid ih =>
    rw [List.nodup_append] at hnodup
    have hnew : fid ∉ fids := fun hmem => hnodup.2.2 fid hmem fid (by simp) rfl
    obtain ⟨r, hr, hp⟩ := ih (fun g hg => hfuel g (List.mem_append_left _ hg)) hnodup.1
      fun g hg => hdefined g (List.mem_append_left _ hg)
    obtain ⟨f, hf⟩ := hdefined fid (by simp)
    have hf' : r.1.funcs[fid]? = some (.defined f) := (hp.kept fid hnew).trans hf
    obtain ⟨f', seqIds, hcollect, hstep, hi⟩ :=
      instrumentGcAllocsInFunc_spec hf' (hseqs fid f hf) (hfuel fid (by simp)) hookFn sizes
    have hlt := (List.getElem?_eq_some_iff.mp hf').1
    refine ⟨({ r.1 with
      funcs := r.1.funcs.set fid (.defined f')
      localCount := r.1.localCount + 1 }, r.2 + siteCount sizes f seqIds), ?_, hp.types,
      Nat.le_succ_of_le hp.localCount, fun g hg => ?_, fun g hg => ?_, ?_⟩
    · rw [List.foldlM_append, hr]
      simp only [List.foldlM_cons, List.foldlM_nil, Option.bind_eq_bind, Option.bind_some, hstep,
        Option.pure_def]
    · by_cases hg' : g = fid
      · subst hg'
        refine ⟨f, f', seqIds, r.1.localCount, hf, ?_, hcollect, hp.localCount, hi⟩
        exact List.getElem?_set_self hlt
      · have hold := hp.rewritten g ((List.mem_append.mp hg).resolve_right (by simpa using hg'))
        rwa [← List.getElem?_set_ne (Ne.symm hg')] at hold
    · rw [List.mem_append, not_or, List.mem_singleton] at hg
      exact (List.getElem?_set_ne (Ne.symm hg.2)).trans (hp.kept g hg.1)
    · have hsites : metSites fuel m sizes fid = siteCount sizes f seqIds := by
        rw [metSites, hf]
        simp only [hcollect, Option.getD_some]
      rw [hp.total, List.map_append, List.sum_append, List.map_singleton, List.sum_singleton,
        hsites]

/-! ### A module -/

/-- A body with a struct in a loop, and an array as long as its argument. -/
def sampleBody : LocalFunction Unit where
  args := [0]
  entry := 0
  blocks
    | 0 => [.loop 1, .localGet 0, .alloc (.arrayNewDefault 1), .other ()]
    | 1 => [.const 7, .const 1, .alloc (.structNew 0), .other (), .localGet 0, .brIf 0]
    | _ => []
  types _ := ⟨0, 0⟩

def sampleModule : Module Unit where
  types := [.struct [⟨.val .i32⟩, ⟨.i8⟩], .array ⟨.i16⟩]
  funcs := [.imported, .defined sampleBody]
  localCount := 1

theorem nested_sampleBody : Nested sampleBody [0, 1] where
  nest := .tree (.tree .nil)
  nodup := by decide

/-- The sequences of one function that is defined after an import. -/
theorem wellNested_second {types : List CompositeType} {f : LocalFunction O} {localCount : Nat}
    {seqs : List InstrSeqId} (h : Nested f seqs) :
    WellNested ⟨types, [.imported, .defined f], localCount⟩ fun _ => seqs := by
  intro fid f' hf'
  match fid, hf' with
  | 1, hf' =>
    cases hf'
    exact h

end GcAlloc
