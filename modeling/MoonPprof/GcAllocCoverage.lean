/-
Which allocations the instrumentation reports.

`Complete` is what the instrumentation is for: every allocation of a positive size
has a hook call right before it, and the count is that of the allocation opcodes.

* `count_eq_iff` — the count leaves out what the traversal does not get to;
* `covers_rewriteAll` — a rewritten sequence reports its allocations;
* `instrumentGcAllocs_complete_iff` — the modules that are completely instrumented;
* `instrumentGcAllocs_misses_try_table` — one that is not.
-/
import Mathlib.Algebra.Order.Ring.Nat
import MoonPprof.GcAllocSizes

open Wasm

/-! ### Sums and counts -/

theorem sum_map_eq_iff {α : Type*} {l : List α} {f g : α → Nat} (h : ∀ x ∈ l, f x ≤ g x) :
    (l.map f).sum = (l.map g).sum ↔ ∀ x ∈ l, f x = g x := by
  constructor
  · intro heq x hx
    refine Nat.le_antisymm (h x hx) (Nat.not_lt.mp fun hlt => ?_)
    exact absurd heq (Nat.ne_of_lt (List.sum_lt_sum f g h ⟨x, hx, hlt⟩))
  · intro heq
    rw [List.map_congr_left heq]

theorem countP_eq_iff {α : Type*} {l : List α} {p q : α → Bool} (h : ∀ x, p x → q x) :
    l.countP p = l.countP q ↔ ∀ x ∈ l, q x → p x := by
  induction l with
  | nil => simp
  | cons x l ih =>
    have hle := List.countP_mono_left (l := l) fun x _ => h x
    rw [List.forall_mem_cons, ← ih, List.countP_cons, List.countP_cons]
    cases hp : p x with
    | true => simp [h x hp]
    | false =>
      cases hq : q x with
      | true =>
        simp
        omega
      | false => simp

theorem sum_map_filter {α : Type*} (l : List α) (p : α → Bool) (f : α → Nat) :
    ((l.filter p).map f).sum = (l.map fun x => if p x then f x else 0).sum := by
  induction l with
  | nil => rfl
  | cons x l ih => cases hp : p x <;> simp [hp, ih]

namespace GcAlloc

variable {O : Type}

/-! ### Allocation opcodes -/

def isAlloc : Instr O → Bool
  | .alloc _ => true
  | _ => false

/-- The type is of the kind that the opcode allocates. -/
def Typed (types : List CompositeType) (a : Alloc) : Prop :=
  (logicalSize types a).isSome ∨ (elemSize types a).isSome

instance (types : List CompositeType) (a : Alloc) : Decidable (Typed types a) :=
  inferInstanceAs (Decidable (_ ∨ _))

/-- The number of allocation opcodes in a function. -/
def allocOpcodes (m : Module O) (seqs : FunctionId → List InstrSeqId) (fid : FunctionId) : Nat :=
  match m.funcs[fid]? with
  | some (.defined f) => ((seqs fid).map fun seq => (f.blocks seq).countP isAlloc).sum
  | _ => 0

theorem isSite_alloc (m : Module O) (a : Alloc) :
    isSite (TypeSizes.build m) (.alloc a : Instr O) = true ↔ Typed m.types a := by
  rw [isSite, staticSize_alloc, dynElemSize_alloc, Typed, Bool.or_eq_true, Option.isSome_map]

theorem isAlloc_of_isSite {sizes : TypeSizes} {i : Instr O} (h : isSite sizes i) :
    isAlloc i = true := by
  cases i <;> first | rfl | cases h

theorem countP_isSite_eq_iff (m : Module O) (is : List (Instr O)) :
    is.countP (isSite (TypeSizes.build m)) = is.countP isAlloc ↔
      ∀ a, .alloc a ∈ is → Typed m.types a := by
  rw [countP_eq_iff fun _ => isAlloc_of_isSite]
  constructor
  · intro h a ha
    exact (isSite_alloc m a).mp (h _ ha rfl)
  · intro h i hi halloc
    cases i with
    | alloc a => exact (isSite_alloc m a).mpr (h a hi)
    | _ => cases halloc

/-! ### The count -/

/-- The count of a function is that of its allocation opcodes if the traversal gets to
each of them. -/
theorem siteCount_eq_iff {m : Module O} {f : LocalFunction O} {seqs seqIds : List InstrSeqId}
    (hseqs : seqs.Nodup) (hseqIds : seqIds.Nodup) (hsub : seqIds ⊆ seqs) :
    let opcodes := (seqs.map fun seq => (f.blocks seq).countP isAlloc).sum
    siteCount (TypeSizes.build m) f seqIds ≤ opcodes ∧
      (siteCount (TypeSizes.build m) f seqIds = opcodes ↔
        ∀ seq ∈ seqs, ∀ a, .alloc a ∈ f.blocks seq → seq ∈ seqIds ∧ Typed m.types a) := by
  intro opcodes
  set sites := fun seq =>
    if seq ∈ seqIds then (f.blocks seq).countP (isSite (TypeSizes.build m)) else 0
  have hperm : seqIds.Perm (seqs.filter (· ∈ seqIds)) := by
    refine (List.perm_ext_iff_of_nodup hseqIds (hseqs.filter _)).mpr fun seq => ?_
    rw [List.mem_filter, decide_eq_true_eq]
    exact ⟨fun h => ⟨hsub h, h⟩, And.right⟩
  have hcount : siteCount (TypeSizes.build m) f seqIds = (seqs.map sites).sum := by
    rw [siteCount, (hperm.map _).sum_eq, sum_map_filter]
    simp only [decide_eq_true_eq, sites]
  -- no block has more sites than allocations, so the sums agree when every block does
  have hle : ∀ seq ∈ seqs, sites seq ≤ (f.blocks seq).countP isAlloc := by
    intro seq _
    show (if _ then _ else _) ≤ _
    split
    · exact List.countP_mono_left fun _ _ => isAlloc_of_isSite
    · exact Nat.zero_le _
  rw [hcount]
  refine ⟨List.sum_le_sum hle, (sum_map_eq_iff hle).trans (forall₂_congr fun seq _ => ?_)⟩
  show (if _ then _ else _) = _ ↔ _
  split
  case isTrue hmem =>
    rw [countP_isSite_eq_iff]
    exact forall₂_congr fun a _ => (and_iff_right hmem).symm
  case isFalse hmem =>
    rw [eq_comm, List.countP_eq_zero]
    constructor
    · exact fun h a ha => absurd rfl (h _ ha)
    · intro h i hi halloc
      cases i with
      | alloc a => exact hmem (h a hi).1
      | _ => cases halloc

/-- The count of the module is that of its allocation opcodes if the traversal gets to
each of them. -/
theorem count_eq_iff {m : Module O} {seqs : FunctionId → List InstrSeqId}
    (hseqs : WellNested m seqs) {fuel : Nat}
    (hfuel : ∀ fid ∈ localFunctions m, (seqs fid).length ≤ fuel) :
    ((localFunctions m).map (metSites fuel m (TypeSizes.build m))).sum =
        ((localFunctions m).map (allocOpcodes m seqs)).sum ↔
      ∀ fid f, m.funcs[fid]? = some (.defined f) → ∀ seq ∈ seqs fid, ∀ a,
        .alloc a ∈ f.blocks seq → Reached f seq ∧ Typed m.types a := by
  have hfunc : ∀ fid f, m.funcs[fid]? = some (.defined f) →
      metSites fuel m (TypeSizes.build m) fid ≤ allocOpcodes m seqs fid ∧
        (metSites fuel m (TypeSizes.build m) fid = allocOpcodes m seqs fid ↔
          ∀ seq ∈ seqs fid, ∀ a, .alloc a ∈ f.blocks seq → Reached f seq ∧ Typed m.types a) := by
    intro fid f hf
    have hlocal := mem_localFunctions.mpr ⟨f, hf⟩
    obtain ⟨seqIds, hcollect, hnodup, hsub, hreached⟩ :=
      collectSeqIds_perm (hseqs fid f hf) (hfuel fid hlocal)
    rw [metSites, allocOpcodes, hf]
    simp only [hcollect, Option.getD_some, ← hreached]
    exact siteCount_eq_iff (hseqs fid f hf).nodup hnodup hsub.subset
  rw [sum_map_eq_iff fun fid hfid => (mem_localFunctions.mp hfid).elim fun f hf =>
    (hfunc fid f hf).1]
  constructor
  · intro h fid f hf
    exact (hfunc fid f hf).2.mp (h fid (mem_localFunctions.mpr ⟨f, hf⟩))
  · intro h fid hfid
    obtain ⟨f, hf⟩ := mem_localFunctions.mp hfid
    exact (hfunc fid f hf).2.mpr (h fid f hf)

/-! ### Hook calls -/

/-- The instructions call the hook with the logical size of `a`. -/
inductive HookCall (types : List CompositeType) (hookFn : FunctionId) (a : Alloc) :
    List (Instr O) → Prop
  | static {size : Int} {value : Int32} : logicalSize types a = some size → value.toInt = size →
      HookCall types hookFn a [.const value, .call hookFn]
  | dynamic {e : Int32} (scratch : LocalId) : elemSize types a = some e →
      HookCall types hookFn a [.localSet scratch, .const e, .localGet scratch, .i32Mul,
        .call hookFn, .localGet scratch]

/-- The logical size of `a` is positive. -/
def Due (types : List CompositeType) (a : Alloc) : Prop :=
  (∃ size, logicalSize types a = some size ∧ 0 < size) ∨ ∃ e, elemSize types a = some e ∧ 0 < e

/-- In `is'` the allocations of `is` have their hook calls right before them. -/
def Covers (types : List CompositeType) (hookFn : FunctionId) (is is' : List (Instr O)) : Prop :=
  ∀ pre a post, is = pre ++ .alloc a :: post → Due types a →
    ∃ pre' post', is' = pre' ++ .alloc a :: post' ∧ pre'.countP isAlloc = pre.countP isAlloc ∧
      ∃ call, HookCall types hookFn a call ∧ call <:+ pre'

/-- Every allocation of a positive size has its hook call, and the count is that of the
allocation opcodes. -/
structure Complete (m : Module O) (seqs : FunctionId → List InstrSeqId) (hookFn : FunctionId)
    (r : Module O × Nat) : Prop where
  covers : ∀ fid f, m.funcs[fid]? = some (.defined f) → ∃ f',
    r.1.funcs[fid]? = some (.defined f') ∧
      ∀ seq ∈ seqs fid, Covers m.types hookFn (f.blocks seq) (f'.blocks seq)
  count : r.2 = ((localFunctions m).map (allocOpcodes m seqs)).sum

section

variable {hookFn : FunctionId} {scratch : LocalId}

theorem countP_inserted (types : List CompositeType) (a : Alloc) :
    (inserted types hookFn scratch a : List (Instr O)).countP isAlloc = 0 := by
  rw [inserted]
  split
  · split <;> rfl
  · split <;> rfl

theorem countP_rewriteAll (m : Module O) (is : List (Instr O)) :
    (rewriteAll hookFn (TypeSizes.build m) scratch is).countP isAlloc = is.countP isAlloc := by
  induction is with
  | nil => rfl
  | cons i is ih =>
    rw [rewriteAll, List.flatMap_cons, List.countP_append, ← rewriteAll, ih,
      ← List.singleton_append,
      List.countP_append]
    congr 1
    cases i with
    | alloc a => rw [rewriteInstr_alloc, List.countP_append, countP_inserted, Nat.zero_add]
    | _ => rfl

/-- A size below `2 ^ 31` is reported. -/
theorem hookCall_inserted {types : List CompositeType} {a : Alloc} (hdue : Due types a)
    (hlt : ∀ size, logicalSize types a = some size → size < 2 ^ 31) :
    HookCall types hookFn a (inserted types hookFn scratch a : List (Instr O)) := by
  rcases hdue with ⟨size, hsize, hpos⟩ | ⟨e, he, -⟩
  · have hval : (Int32.ofInt size).toInt = size :=
      Int32.toInt_ofInt_of_le (by omega) (hlt size hsize)
    have hpos' : 0 < Int32.ofInt size := by
      rw [Int32.lt_iff_toInt_lt, hval]
      exact hpos
    rw [inserted, hsize]
    simp only [if_pos hpos']
    exact .static hsize hval
  · rw [inserted, logicalSize_of_elemSize he, he]
    exact .dynamic scratch he

/-- A rewritten sequence has the hook calls of its allocations. -/
theorem covers_rewriteAll {m : Module O} {is : List (Instr O)}
    (hlt : ∀ a, .alloc a ∈ is → ∀ size, logicalSize m.types a = some size → size < 2 ^ 31) :
    Covers m.types hookFn is (rewriteAll hookFn (TypeSizes.build m) scratch is) := by
  rintro pre a post rfl hdue
  refine ⟨rewriteAll hookFn (TypeSizes.build m) scratch pre ++ inserted m.types hookFn scratch a,
    rewriteAll hookFn (TypeSizes.build m) scratch post, ?_, ?_, _,
    hookCall_inserted hdue (hlt a (by simp)), List.suffix_append _ _⟩
  · rw [rewriteAll, List.flatMap_append, List.flatMap_cons, rewriteInstr_alloc]
    simp only [rewriteAll, List.append_assoc, List.singleton_append]
  · rw [List.countP_append, countP_rewriteAll, countP_inserted, Nat.add_zero]

/-- Where an allocation is covered its size is below `2 ^ 31`. -/
theorem Covers.size_lt {types : List CompositeType} {is is' : List (Instr O)}
    (h : Covers types hookFn is is') {a : Alloc} (ha : .alloc a ∈ is) {size : Int}
    (hsize : logicalSize types a = some size) : size < 2 ^ 31 := by
  rcases Int.lt_or_le 0 size with hpos | hle
  · obtain ⟨pre, post, his⟩ := List.append_of_mem ha
    obtain ⟨pre', post', -, -, call, hcall, -⟩ := h pre a post his (.inl ⟨size, hsize, hpos⟩)
    cases hcall with
    | static hsize' hval =>
      obtain rfl := Option.some.inj (hsize.symm.trans hsize')
      rw [← hval]
      exact Int32.toInt_lt _
    | dynamic scratch he =>
      rw [logicalSize_of_elemSize he] at hsize
      cases hsize
  · omega

end

/-! ### Main results -/

/-- The module is completely instrumented if and only if each allocation opcode is in no
exception construct, names a type of its kind, and has no static size of `2 ^ 31` or
more. -/
theorem instrumentGcAllocs_complete_iff {m : Module O} {seqs : FunctionId → List InstrSeqId}
    (hseqs : WellNested m seqs) {fuel : Nat}
    (hfuel : ∀ fid ∈ localFunctions m, (seqs fid).length ≤ fuel) (hookFn : FunctionId) :
    ∃ r, instrumentGcAllocs fuel m hookFn (TypeSizes.build m) = some r ∧
      (Complete m seqs hookFn r ↔
        ∀ fid f, m.funcs[fid]? = some (.defined f) → ∀ seq ∈ seqs fid, ∀ a,
          .alloc a ∈ f.blocks seq → Reached f seq ∧ Typed m.types a ∧
            ∀ size, logicalSize m.types a = some size → size < 2 ^ 31) := by
  obtain ⟨r, hrun, hp⟩ := instrumentGcAllocs_spec hseqs hfuel hookFn (TypeSizes.build m)
  refine ⟨r, hrun, fun h fid f hf seq hseq a ha => ?_, fun h => ⟨fun fid f hf => ?_, ?_⟩⟩
  · obtain ⟨hreached, htyped⟩ :=
      (count_eq_iff hseqs hfuel).mp (hp.total.symm.trans h.count) fid f hf seq hseq a ha
    obtain ⟨f', -, hcovers⟩ := h.covers fid f hf
    exact ⟨hreached, htyped, fun size hsize => (hcovers seq hseq).size_lt ha hsize⟩
  · have hlocal := mem_localFunctions.mpr ⟨f, hf⟩
    obtain ⟨f₀, f', seqIds, scratch, hf₀, hf', hcollect, -, hi⟩ := hp.rewritten fid hlocal
    cases hf.symm.trans hf₀
    obtain ⟨seqIds', hcollect', -, -, hreached⟩ :=
      collectSeqIds_perm (hseqs fid f hf) (hfuel fid hlocal)
    obtain rfl := Option.some.inj (hcollect.symm.trans hcollect')
    refine ⟨f', hf', fun seq hseq => ?_⟩
    by_cases hmem : seq ∈ seqIds
    · rw [hi.rewritten seq hmem]
      exact covers_rewriteAll fun a ha => (h fid f hf seq hseq a ha).2.2
    · -- a block that is not rewritten has no allocation
      rintro pre a post his -
      have ha : .alloc a ∈ f.blocks seq := by
        rw [his]
        simp
      exact absurd ((hreached seq).mpr (h fid f hf seq hseq a ha).1) hmem
  · rw [hp.total, count_eq_iff hseqs hfuel]
    intro fid f hf seq hseq a ha
    obtain ⟨hreached, htyped, -⟩ := h fid f hf seq hseq a ha
    exact ⟨hreached, htyped⟩

/-- The struct in the loop and the array behind it both have their hook calls. -/
theorem instrumentGcAllocs_complete_iff_sample :
    ∃ r, instrumentGcAllocs 2 sampleModule 0 (TypeSizes.build sampleModule) = some r ∧ r.2 = 2 ∧
      Complete sampleModule (fun _ => [0, 1]) 0 r := by
  obtain ⟨r, hrun, hiff⟩ := instrumentGcAllocs_complete_iff (m := sampleModule)
    (wellNested_second nested_sampleBody) (fun _ _ => Nat.le_refl 2) 0
  have hcount : (instrumentGcAllocs 2 sampleModule 0 (TypeSizes.build sampleModule)).map Prod.snd =
      some 2 := by
    decide
  replace hcount := (congrArg (Option.map Prod.snd) hrun).symm.trans hcount
  refine ⟨r, hrun, Option.some.inj hcount, hiff.mpr fun fid f hf seq hseq a ha => ?_⟩
  obtain rfl : f = sampleBody := by
    rcases fid with _ | _ | fid
    · cases hf
    · exact (FunctionKind.defined.inj (Option.some.inj hf)).symm
    · cases hf
  -- the loop is in the entry
  have hloop : Instr.loop 1 ∈ sampleBody.blocks sampleBody.entry := List.mem_cons_self
  simp only [List.mem_cons, List.not_mem_nil, or_false] at hseq
  rcases hseq with rfl | rfl
  · obtain rfl : a = .arrayNewDefault 1 := by simpa [sampleBody] using ha
    exact ⟨.entry, by decide, by simp [logicalSize]⟩
  · obtain rfl : a = .structNew 0 := by simpa [sampleBody] using ha
    refine ⟨.owned .entry hloop rfl List.mem_cons_self, by decide, fun size hsize => ?_⟩
    obtain rfl : (5 : Int) = size := Option.some.inj hsize
    decide

/-- A struct that is allocated in a `try_table`. -/
def tryBody : LocalFunction Unit where
  args := []
  entry := 0
  blocks
    | 0 => [.tryTable 1, .other ()]
    | 1 => [.alloc (.structNewDefault 0)]
    | _ => []
  types
    | 0 => ⟨0, 0⟩
    | _ => ⟨0, 1⟩

def tryModule : Module Unit where
  types := [.struct [⟨.val .i32⟩]]
  funcs := [.imported, .defined tryBody]
  localCount := 0

theorem nested_tryBody : Nested tryBody [0, 1] where
  nest := .tree (.tree .nil)
  nodup := by decide

theorem instrumentGcAllocs_misses_try_table :
    WellNested tryModule (fun _ => [0, 1]) ∧
      ∃ r, instrumentGcAllocs 2 tryModule 0 (TypeSizes.build tryModule) = some r ∧
        r.2 = 0 ∧ ¬ Complete tryModule (fun _ => [0, 1]) 0 r := by
  refine ⟨wellNested_second nested_tryBody, _, rfl, rfl, fun h => ?_⟩
  have hcount := h.count
  revert hcount
  decide

end GcAlloc
