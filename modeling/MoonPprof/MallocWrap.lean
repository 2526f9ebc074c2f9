/-
The whole instrumentation of a module (`instrument` of `cmd_memprofile.rs`).

The hook is imported under a new function id.  `moonbit.malloc`, when the module
has a function of that name, calls it with its first argument before anything
else; the allocation opcodes of every body are rewritten after that.

`Module.tracedEnv` is the module as it was, with an event for every call of the
traced function.

* `wrapped_env` — the wrapped module runs as the traced one;
* `instrument_simulates` — what the instrumented module does, and when there is
  nothing to instrument.
-/
import MoonPprof.GcAllocCoverage
import MoonPprof.GcAllocSimulation
import MoonPprof.WasmCongr

open Wasm

namespace GcAlloc

variable {O V S : Type}

/-! ### The pass -/

/-- A module with the names of its functions, in the order of their ids. -/
structure NamedModule (O : Type) where
  module : Module O
  names : List (Option String)

structure InstrumentReport where
  moonbitMallocWrapped : Bool
  gcAllocSites : Nat
deriving DecidableEq

/-- `types.add` and `add_import_func`; `known` says that the module has the type of the hook
already, which is then not added again. -/
def addHook (known : Bool) (m : NamedModule O) : NamedModule O × FunctionId :=
  (⟨{ m.module with
      types := if known then m.module.types else m.module.types ++ [.function]
      funcs := m.module.funcs ++ [.imported] }, m.names ++ [none]⟩, m.module.funcs.length)

def findFuncByName (m : NamedModule O) (name : String) : Option FunctionId :=
  m.names.findIdx? (· = some name)

/-- The entry block of a function, behind a call of the hook. -/
def wrapBody (f : LocalFunction O) (sizeArg : LocalId) (hookFn : FunctionId) : LocalFunction O :=
  { f with blocks :=
      Function.update f.blocks f.entry (.localGet sizeArg :: .call hookFn :: f.blocks f.entry) }

/-- A function without a body, or one without arguments, is a panic. -/
def wrapMoonbitMalloc (m : Module O) (target hookFn : FunctionId) : Option (Module O) :=
  match m.funcs[target]? with
  | some (.defined f) =>
    match f.args with
    | sizeArg :: _ =>
      some { m with funcs := m.funcs.set target (.defined (wrapBody f sizeArg hookFn)) }
    | [] => none
  | _ => none

/-- The module and the report; `none` is a panic, or too little fuel to walk the bodies. -/
def instrument (fuel : Nat) (known : Bool) (m : NamedModule O) :
    Option (Except String (Module O × InstrumentReport)) := do
  let (m, hookFn) := addHook known m
  let target := findFuncByName m "moonbit.malloc"
  let module ←
    match target with
    | some fid => wrapMoonbitMalloc m.module fid hookFn
    | none => some m.module
  let (module, sites) ← instrumentGcAllocs fuel module hookFn (TypeSizes.build module)
  if target.isNone ∧ sites = 0 then
    some (.error "no instrumentation sites found in this wasm — not a MoonBit binary?")
  else some (.ok (module, ⟨target.isSome, sites⟩))

/-! ### Tracing a function -/

/-- What the hook sees of a value. -/
def argEvents : Val V → List Event
  | .i32 n => [.hook n]
  | .other _ => []

/-- The events of calling `func` with arguments on the stack; there are none where the body does
not begin for want of fuel.  The first argument is the deepest of the operands. -/
def callEvents (traced : Option FunctionId) (func : FunctionId) (fuel : Nat)
    (args : List LocalId) (stack : List (Val V)) : List Event :=
  if traced = some func ∧ fuel ≠ 0 then (stack[args.length - 1]?).elim [] argEvents else []

/-- The module as it is, with an event for each call of the function `traced`. -/
def tracedEnv (ops : Opcodes O V S) (host : Env V S) (zero : LocalId → Val V) (m : Module O)
    (traced : Option FunctionId) : Nat → Env V S
  | 0 => fun _ _ _ => ([], .outOfFuel)
  | fuel + 1 => fun func stack store =>
    match m.funcs[func]? with
    | none => ([], .stuck)
    | some .imported => host func stack store
    | some (.defined f) =>
      if stack.length < f.args.length then ([], .stuck)
      else
        let r := exec ops (tracedEnv ops host zero m traced fuel) f fuel (f.blocks f.entry)
          ⟨[], bindArgs zero f.args (stack.take f.args.length), store⟩
        (callEvents traced func fuel f.args stack ++ r.1,
          r.2.returned f (stack.drop f.args.length))

/-! ### The wrapped function -/

/-- The calls of a body stay below `n`. -/
def CallsBelow (n : Nat) (f : LocalFunction O) (seqs : List InstrSeqId) : Prop :=
  ∀ seq ∈ seqs, ∀ i ∈ f.blocks seq, ∀ func, i = .call func → func < n

/-- `m'` is `m` with the hook imported, and the function `target` wrapped. -/
structure Wraps (m m' : Module O) (target : Option FunctionId) : Prop where
  length : m'.funcs.length = m.funcs.length + 1
  hook : m'.funcs[m.funcs.length]? = some .imported
  kept : ∀ func < m.funcs.length, target ≠ some func → m'.funcs[func]? = m.funcs[func]?
  wrapped : ∀ func, target = some func → ∃ f sizeArg args,
    m.funcs[func]? = some (.defined f) ∧ f.args = sizeArg :: args ∧
      m'.funcs[func]? = some (.defined (wrapBody f sizeArg m.funcs.length))

/-- The first argument is in the first local. -/
theorem bindArgs_head (zero : LocalId → Val V) (a : LocalId) (args : List LocalId)
    {operands : List (Val V)} (h : operands.length = args.length + 1) :
    operands[args.length]? = some (bindArgs zero (a :: args) operands a) := by
  obtain ⟨init, v, rfl⟩ : ∃ init v, operands = init ++ [v] := by
    rcases List.eq_nil_or_concat operands with rfl | ⟨init, v, rfl⟩
    · cases h
    · exact ⟨init, v, List.concat_eq_append⟩
  have hlen : args.reverse.length = init.length := by
    rw [List.length_append, List.length_singleton] at h
    rw [List.length_reverse]
    omega
  rw [bindArgs, List.reverse_cons, List.zip_append hlen, List.foldl_append]
  have hargs : args.length = init.length := by rw [← hlen, List.length_reverse]
  rw [hargs, List.getElem?_append_right (Nat.le_refl _), Nat.sub_self]
  exact congrArg some (Function.update_self (β := fun _ => Val V) a v _).symm

section

variable {ops : Opcodes O V S} {m : Module O} {seqs : List InstrSeqId} {f : LocalFunction O}

/-- A body is within its own sequences, and the functions of its module. -/
theorem within_of_nested (h : Nested f seqs) (hcalls : CallsBelow m.funcs.length f seqs)
    {seq : InstrSeqId} (hseq : seq ∈ seqs) :
    ∀ i ∈ f.blocks seq, i.Within (· ∈ seqs) (· < m.funcs.length) := by
  intro i hi
  refine ⟨fun seq' hseq' => ?_, hcalls seq hseq i hi⟩
  exact h.nest.children_subset hseq (List.mem_flatMap.mpr ⟨i, hi, hseq'⟩)

/-- No instruction enters the entry block. -/
theorem within_ne_entry (h : Nested f seqs) (hcalls : CallsBelow m.funcs.length f seqs)
    {seq : InstrSeqId} (hseq : seq ∈ seqs) :
    ∀ i ∈ f.blocks seq,
      i.Within (fun seq => seq ∈ seqs ∧ seq ≠ f.entry) (· < m.funcs.length) := by
  intro i hi
  obtain ⟨howned, hcalled⟩ := within_of_nested h hcalls hseq i hi
  refine ⟨fun seq' hseq' => ⟨howned seq' hseq', ?_⟩, hcalled⟩
  rintro rfl
  exact h.nest.root_not_mem_children h.nodup hseq (List.mem_flatMap.mpr ⟨i, hi, hseq'⟩)

variable {env env' : Env V S}

/-- A body where the functions of the module do the same. -/
theorem exec_body_congr (h : Nested f seqs) (hcalls : CallsBelow m.funcs.length f seqs)
    (hcallee : ∀ o stack store func stack', ops.callee o stack store = some (func, stack') →
      func < m.funcs.length)
    (henv : ∀ func < m.funcs.length, env' func = env func) (fuel : Nat) :
    exec ops env' f fuel (f.blocks f.entry) = exec ops env f fuel (f.blocks f.entry) :=
  exec_congr ⟨rfl, fun _ _ => rfl, fun _ hseq => within_of_nested h hcalls hseq, henv, hcallee⟩ fuel
    (within_of_nested h hcalls (h.nest.roots_subset List.mem_cons_self))

/-- The instructions before a wrapped body leave the state as it was. -/
theorem execSeq_reportArg {rec : List (Instr O) → State V S → Result V S} {hookFn : FunctionId}
    (hhook : ∀ v stack store, env hookFn (v :: stack) store = (argEvents v, .done stack store))
    (sizeArg : LocalId) (is : List (Instr O)) (st : State V S) :
    let r := execSeq ops env f rec is st
    execSeq ops env f rec (.localGet sizeArg :: .call hookFn :: is) st =
      (argEvents (st.locals sizeArg) ++ r.1, r.2) := by
  intro r
  simp only [execSeq, execInstr, callFunction, hhook, Result.andThen, Step.outcome,
    List.nil_append]
  rfl

/-- A wrapped body calls the hook with the argument and goes on as the body itself. -/
theorem exec_wrapBody (h : Nested f seqs) (hcalls : CallsBelow m.funcs.length f seqs)
    (hcallee : ∀ o stack store func stack', ops.callee o stack store = some (func, stack') →
      func < m.funcs.length)
    (henv : ∀ func < m.funcs.length, env' func = env func)
    (hhook : ∀ v stack store,
      env' m.funcs.length (v :: stack) store = (argEvents v, .done stack store))
    (sizeArg : LocalId) (fuel : Nat) (st : State V S) :
    let f' := wrapBody f sizeArg m.funcs.length
    let r := exec ops env f (fuel + 1) (f.blocks f.entry) st
    exec ops env' f' (fuel + 1) (f'.blocks f'.entry) st =
      (argEvents (st.locals sizeArg) ++ r.1, r.2) := by
  intro f' r
  have hentry : f.entry ∈ seqs := h.nest.roots_subset List.mem_cons_self
  -- behind the call, nothing leads into the entry block again
  have hagree : AgreeOn ops (fun seq => seq ∈ seqs ∧ seq ≠ f.entry) (· < m.funcs.length)
      env env' f f' :=
    ⟨rfl, fun _ hseq => Function.update_of_ne hseq.2 _ _,
      fun _ hseq => within_ne_entry h hcalls hseq.1, henv, hcallee⟩
  have hrest : exec ops env' f' (fuel + 1) (f.blocks f.entry) st = r :=
    congrFun (exec_congr hagree _ (within_ne_entry h hcalls hentry)) st
  have hblocks : f'.blocks f'.entry =
      .localGet sizeArg :: .call m.funcs.length :: f.blocks f.entry := Function.update_self _ _ _
  rw [hblocks, exec, execSeq_reportArg hhook, ← hrest, exec]

end

/-! ### The wrapped module -/

section

variable {ops : Opcodes O V S} {host : Env V S} {zero : LocalId → Val V} {m m' : Module O}
  {target : Option FunctionId} {func : FunctionId} (fuel : Nat) (stack : List (Val V)) (store : S)

theorem tracedEnv_missing (h : m.funcs[func]? = none) :
    tracedEnv ops host zero m target (fuel + 1) func stack store = ([], .stuck) := by
  simp only [tracedEnv, h]

theorem tracedEnv_imported (h : m.funcs[func]? = some .imported) :
    tracedEnv ops host zero m target (fuel + 1) func stack store = host func stack store := by
  simp only [tracedEnv, h]

theorem tracedEnv_defined {f : LocalFunction O} (h : m.funcs[func]? = some (.defined f)) :
    tracedEnv ops host zero m target (fuel + 1) func stack store =
      if stack.length < f.args.length then ([], .stuck)
      else
        let r := exec ops (tracedEnv ops host zero m target fuel) f fuel (f.blocks f.entry)
          ⟨[], bindArgs zero f.args (stack.take f.args.length), store⟩
        (callEvents target func fuel f.args stack ++ r.1,
          r.2.returned f (stack.drop f.args.length)) := by
  simp only [tracedEnv, h]

theorem callEvents_of_ne (h : target ≠ some func) (args : List LocalId) :
    callEvents target func fuel args stack = [] :=
  if_neg fun h' => h h'.1

/-- The event of a call is what the hook sees of the first local. -/
theorem callEvents_self (h : target = some func) {a : LocalId} {args : List LocalId}
    (hlen : args.length + 1 ≤ stack.length) :
    callEvents target func (fuel + 1) (a :: args) stack =
      argEvents (bindArgs zero (a :: args) (stack.take (args.length + 1)) a) := by
  have harg := bindArgs_head zero a args (List.length_take_of_le hlen)
  rw [List.getElem?_take_of_lt (Nat.lt_succ_self _)] at harg
  rw [callEvents, if_pos ⟨h, Nat.succ_ne_zero _⟩, List.length_cons, Nat.add_sub_cancel, harg]
  rfl

end

/-- The wrapped module runs as the module itself, with the calls of the target traced. -/
theorem wrapped_env (ops : Opcodes O V S) {host : Env V S} (zero : LocalId → Val V)
    {m m' : Module O} {target : Option FunctionId} (hwraps : Wraps m m' target)
    {seqs : FunctionId → List InstrSeqId} (hseqs : WellNested m seqs)
    (hcalls : ∀ fid f, m.funcs[fid]? = some (.defined f) →
      CallsBelow m.funcs.length f (seqs fid))
    (hcallee : ∀ o stack store func stack', ops.callee o stack store = some (func, stack') →
      func < m.funcs.length)
    (hhook : ∀ v stack store,
      host m.funcs.length (v :: stack) store = (argEvents v, .done stack store))
    (fuel : Nat) {func : FunctionId} (hfunc : func < m.funcs.length) :
    m'.env ops host zero fuel func = tracedEnv ops host zero m target fuel func := by
  -- induction on the depth of the calls
  induction fuel generalizing func with
  | zero => rfl
  | succ fuel ih =>
    funext stack store
    by_cases htarget : target = some func
    · obtain ⟨f, sizeArg, args, hf, hargs, hf'⟩ := hwraps.wrapped func htarget
      have hargs' : (wrapBody f sizeArg m.funcs.length).args = f.args := rfl
      rw [Module.env_defined fuel stack store hf', tracedEnv_defined fuel stack store hf, hargs']
      split
      · rfl
      · rename_i hlen
        rw [hargs, List.length_cons, Nat.not_lt] at hlen
        cases fuel with
        | zero => rw [callEvents, if_neg fun h => h.2 rfl]; rfl
        | succ fuel =>
          have himport : ∀ v stack store, m'.env ops host zero (fuel + 1) m.funcs.length
              (v :: stack) store = (argEvents v, .done stack store) := fun v stack store =>
            (Module.env_imported fuel _ store hwraps.hook).trans (hhook v stack store)
          rw [exec_wrapBody (hseqs func f hf) (hcalls func f hf) hcallee (fun _ h => ih h) himport,
            hargs, callEvents_self fuel stack htarget hlen]
          rfl
    · have hkept := hwraps.kept func hfunc htarget
      rcases hf : m.funcs[func]? with _ | _ | f
      · rw [Module.env_missing fuel stack store (hkept.trans hf),
          tracedEnv_missing fuel stack store hf]
      · rw [Module.env_imported fuel stack store (hkept.trans hf),
          tracedEnv_imported fuel stack store hf]
      · rw [Module.env_defined fuel stack store (hkept.trans hf),
          tracedEnv_defined fuel stack store hf, callEvents_of_ne fuel stack htarget,
          exec_body_congr (hseqs func f hf) (hcalls func f hf) hcallee (fun _ h => ih h) fuel]
        rfl

/-! ### The whole pass -/

section

variable {m : Module O}

theorem getElem?_append_function (types : List CompositeType) (ty : TypeId) :
    (types ++ [.function])[ty]? = types[ty]? ∨
      (types ++ [.function])[ty]? = some .function ∧ types[ty]? = none := by
  rcases Nat.lt_trichotomy ty types.length with h | rfl | h
  · exact .inl (List.getElem?_append_left h)
  · refine .inr ⟨?_, List.getElem?_eq_none (Nat.le_refl _)⟩
    rw [List.getElem?_append_right (Nat.le_refl _), Nat.sub_self]
    rfl
  · left
    rw [List.getElem?_eq_none (Nat.le_of_lt h), List.getElem?_eq_none]
    rwa [List.length_append]

/-- One more function type changes no size. -/
theorem sizes_append_function (types : List CompositeType) (a : Alloc) :
    logicalSize (types ++ [.function]) a = logicalSize types a ∧
      elemSize (types ++ [.function]) a = elemSize types a := by
  have hget := getElem?_append_function types
  cases a with
  | structNew ty | structNewDefault ty | arrayNew ty | arrayNewDefault ty | arrayNewFixed ty len
  | arrayNewData ty data | arrayNewElem ty elem =>
    rcases hget ty with h | ⟨h, h'⟩
    · simp only [logicalSize, elemSize, h, and_self]
    · simp only [logicalSize, elemSize, h, h', and_self]

theorem expand_append_function (types : List CompositeType) :
    expand (types ++ [.function]) = expand types := by
  funext e
  cases e with
  | hook size => rfl
  | alloc a len =>
    obtain ⟨hsize, helem⟩ := sizes_append_function types a
    rw [expand, expand, hookArg, hookArg, hsize, helem]

/-- The allocation sites of all bodies. -/
def gcAllocSites (fuel : Nat) (m : Module O) : Nat :=
  ((localFunctions m).map (metSites fuel m (TypeSizes.build m))).sum

/-- The types of two modules give every allocation the same size. -/
def SameSizes (m m' : Module O) : Prop :=
  ∀ a, logicalSize m'.types a = logicalSize m.types a ∧ elemSize m'.types a = elemSize m.types a

variable {m' : Module O} {target : Option FunctionId}

theorem isSite_eq (h : SameSizes m m') (i : Instr O) :
    isSite (TypeSizes.build m') i = isSite (TypeSizes.build m) i := by
  cases i with
  | alloc a =>
    obtain ⟨hsize, helem⟩ := h a
    rw [Bool.eq_iff_iff, isSite_alloc, isSite_alloc, Typed, Typed, hsize, helem]
  | _ => rfl

theorem children_wrapBody (f : LocalFunction O) (sizeArg : LocalId) (hookFn : FunctionId)
    {β : Type} (g : Instr O → List β) (hget : g (.localGet sizeArg) = [])
    (hcall : g (.call hookFn) = []) (seq : InstrSeqId) :
    ((wrapBody f sizeArg hookFn).blocks seq).flatMap g = (f.blocks seq).flatMap g := by
  rw [wrapBody]
  by_cases hseq : seq = f.entry
  · subst hseq
    show (Function.update f.blocks f.entry _ f.entry).flatMap g = _
    rw [Function.update_self, List.flatMap_cons, List.flatMap_cons, hget, hcall]
    rfl
  · show (Function.update f.blocks f.entry _ seq).flatMap g = _
    rw [Function.update_of_ne hseq]

/-- The two instructions before a wrapped body own no sequence. -/
theorem nested_wrapBody {f : LocalFunction O} {seqs : List InstrSeqId} (h : Nested f seqs)
    (sizeArg : LocalId) (hookFn : FunctionId) : Nested (wrapBody f sizeArg hookFn) seqs := by
  refine ⟨?_, h.nodup⟩
  have hchildren : (wrapBody f sizeArg hookFn).children = f.children :=
    funext (children_wrapBody f sizeArg hookFn Instr.owned rfl rfl)
  rw [hchildren]
  exact h.nest

theorem collectSeqIds_wrapBody (fuel : Nat) (f : LocalFunction O) (sizeArg : LocalId)
    (hookFn : FunctionId) :
    collectSeqIds fuel (wrapBody f sizeArg hookFn) = collectSeqIds fuel f := by
  have hpushed : pushed (wrapBody f sizeArg hookFn) = pushed f :=
    funext (children_wrapBody f sizeArg hookFn pushedSeqs rfl rfl)
  rw [collectSeqIds, collectSeqIds, hpushed]
  rfl

/-- Nor are they allocations. -/
theorem siteCount_wrapBody (h : SameSizes m m') (f : LocalFunction O) (sizeArg : LocalId)
    (hookFn : FunctionId) (seqIds : List InstrSeqId) :
    siteCount (TypeSizes.build m') (wrapBody f sizeArg hookFn) seqIds =
      siteCount (TypeSizes.build m) f seqIds := by
  rw [siteCount, siteCount, (funext (isSite_eq h) : isSite _ = isSite (TypeSizes.build m))]
  refine congrArg List.sum (List.map_congr_left fun seq _ => ?_)
  rw [wrapBody]
  by_cases hseq : seq = f.entry
  · subst hseq
    show (Function.update f.blocks f.entry _ f.entry).countP _ = _
    rw [Function.update_self]
    rfl
  · show (Function.update f.blocks f.entry _ seq).countP _ = _
    rw [Function.update_of_ne hseq]

/-- What has become of a function with a body. -/
theorem Wraps.defined (hw : Wraps m m' target) {func : FunctionId} {f : LocalFunction O}
    (hf : m.funcs[func]? = some (.defined f)) :
    ∃ f', m'.funcs[func]? = some (.defined f') ∧
      (f' = f ∨ ∃ sizeArg ∈ f.args, f' = wrapBody f sizeArg m.funcs.length) := by
  by_cases htarget : target = some func
  · obtain ⟨f₀, sizeArg, args, hf₀, hargs, hf'⟩ := hw.wrapped func htarget
    cases hf.symm.trans hf₀
    exact ⟨_, hf', .inr ⟨sizeArg, hargs ▸ List.mem_cons_self, rfl⟩⟩
  · have hlt := (List.getElem?_eq_some_iff.mp hf).1
    exact ⟨f, (hw.kept func hlt htarget).trans hf, .inl rfl⟩

/-- The functions with a body are those that had one. -/
theorem Wraps.defined_iff (hw : Wraps m m' target) (func : FunctionId) :
    (∃ f, m'.funcs[func]? = some (.defined f)) ↔ ∃ f, m.funcs[func]? = some (.defined f) := by
  constructor
  · rintro ⟨f, hf⟩
    by_cases htarget : target = some func
    · obtain ⟨f₀, _, _, hf₀, -, -⟩ := hw.wrapped func htarget
      exact ⟨f₀, hf₀⟩
    · rcases Nat.lt_or_ge func m.funcs.length with hlt | hge
      · exact ⟨f, (hw.kept func hlt htarget).symm.trans hf⟩
      · have hlt := (List.getElem?_eq_some_iff.mp hf).1
        rw [hw.length] at hlt
        obtain rfl : func = m.funcs.length := Nat.le_antisymm (Nat.lt_succ_iff.mp hlt) hge
        rw [hw.hook] at hf
        cases hf
  · rintro ⟨f, hf⟩
    obtain ⟨f', hf', -⟩ := hw.defined hf
    exact ⟨f', hf'⟩

theorem Wraps.localFunctions_eq (hw : Wraps m m' target) : localFunctions m' = localFunctions m := by
  rw [localFunctions, localFunctions, hw.length, List.range_succ, List.filter_append,
    List.filter_singleton, hw.hook]
  -- the import is the last function, and has no body
  refine (List.append_nil _).trans (List.filter_congr fun func hfunc => ?_)
  by_cases htarget : target = some func
  · obtain ⟨f, _, _, hf, -, hf'⟩ := hw.wrapped func htarget
    rw [hf, hf']
  · rw [hw.kept func (List.mem_range.mp hfunc) htarget]

theorem metSites_eq (hw : Wraps m m' target) (h : SameSizes m m') (fuel : Nat)
    {func : FunctionId} (hfunc : func ∈ localFunctions m) :
    metSites fuel m' (TypeSizes.build m') func = metSites fuel m (TypeSizes.build m) func := by
  obtain ⟨f, hf⟩ := mem_localFunctions.mp hfunc
  obtain ⟨f', hf', hwrap⟩ := hw.defined hf
  rw [metSites, metSites, hf, hf']
  rcases hwrap with rfl | ⟨sizeArg, -, rfl⟩
  · dsimp only
    rw [siteCount, siteCount, (funext (isSite_eq h) : isSite _ = isSite (TypeSizes.build m))]
  · dsimp only
    rw [collectSeqIds_wrapBody, siteCount_wrapBody h]

theorem gcAllocSites_eq (hw : Wraps m m' target) (h : SameSizes m m') (fuel : Nat) :
    gcAllocSites fuel m' = gcAllocSites fuel m := by
  rw [gcAllocSites, gcAllocSites, hw.localFunctions_eq]
  exact congrArg List.sum (List.map_congr_left fun func hfunc => metSites_eq hw h fuel hfunc)

end

/-- What a module satisfies that has been validated, and whose allocator is a function with a
body and an argument. -/
structure WellFormed (m : NamedModule O) (seqs : FunctionId → List InstrSeqId) : Prop where
  nested : WellNested m.module seqs
  plain (fid : FunctionId) (f : LocalFunction O) :
    m.module.funcs[fid]? = some (.defined f) → Plain m.module.localCount f (seqs fid)
  calls (fid : FunctionId) (f : LocalFunction O) :
    m.module.funcs[fid]? = some (.defined f) → CallsBelow m.module.funcs.length f (seqs fid)
  args (fid : FunctionId) (f : LocalFunction O) :
    m.module.funcs[fid]? = some (.defined f) → ∀ a ∈ f.args, a < m.module.localCount
  malloc (fid : FunctionId) : findFuncByName m "moonbit.malloc" = some fid →
    ∃ f : LocalFunction O, m.module.funcs[fid]? = some (.defined f) ∧ f.args ≠ []

/-- The module before the allocation opcodes are rewritten. -/
structure Prepared (m : NamedModule O) (m' : Module O) : Prop where
  wraps : Wraps m.module m' (findFuncByName m "moonbit.malloc")
  sizes : SameSizes m.module m'
  expand : expand m'.types = GcAlloc.expand m.module.types
  localCount : m'.localCount = m.module.localCount

theorem findFuncByName_addHook (known : Bool) (m : NamedModule O) (name : String) :
    findFuncByName (addHook known m).1 name = findFuncByName m name := by
  show (m.names ++ [none]).findIdx? _ = m.names.findIdx? _
  rw [List.findIdx?_append]
  exact Option.or_none

theorem prepared_addHook (known : Bool) (m : NamedModule O) :
    SameSizes m.module (addHook known m).1.module ∧
      expand (addHook known m).1.module.types = expand m.module.types := by
  cases known with
  | true => exact ⟨fun _ => ⟨rfl, rfl⟩, rfl⟩
  | false => exact ⟨sizes_append_function _, expand_append_function _⟩

/-- The import, and the wrapping of the allocator if there is one. -/
theorem exists_prepared {m : NamedModule O} {seqs : FunctionId → List InstrSeqId}
    (h : WellFormed m seqs) (known : Bool) :
    ∃ m', (match findFuncByName m "moonbit.malloc" with
        | some fid => wrapMoonbitMalloc (addHook known m).1.module fid m.module.funcs.length
        | none => some (addHook known m).1.module) = some m' ∧ Prepared m m' := by
  obtain ⟨hsizes, hexpand⟩ := prepared_addHook known m
  have hfuncs : (addHook known m).1.module.funcs = m.module.funcs ++ [.imported] := rfl
  have hhook : (m.module.funcs ++ [.imported])[m.module.funcs.length]? = some .imported := by
    rw [List.getElem?_append_right (Nat.le_refl _), Nat.sub_self]
    rfl
  rcases htarget : findFuncByName m "moonbit.malloc" with _ | fid
  · refine ⟨_, rfl, ⟨?_, hhook, fun func hfunc _ => ?_, ?_⟩, hsizes, hexpand, rfl⟩
    · exact List.length_append
    · exact List.getElem?_append_left hfunc
    · rw [htarget]
      exact nofun
  · obtain ⟨f, hf, hargs⟩ := h.malloc fid htarget
    have hlt := (List.getElem?_eq_some_iff.mp hf).1
    have hf' : (m.module.funcs ++ [.imported])[fid]? = some (.defined f) :=
      (List.getElem?_append_left hlt).trans hf
    obtain ⟨sizeArg, args, hcons⟩ := List.exists_cons_of_ne_nil hargs
    refine ⟨{ (addHook known m).1.module with
      funcs := (m.module.funcs ++ [FunctionKind.imported]).set fid
        (.defined (wrapBody f sizeArg m.module.funcs.length)) }, ?_, ⟨?_, ?_, ?_, ?_⟩, hsizes,
      hexpand, rfl⟩
    · simp only [wrapMoonbitMalloc, hfuncs, hf', hcons]
    · exact (List.length_set).trans List.length_append
    · exact (List.getElem?_set_ne (Nat.ne_of_lt hlt)).trans hhook
    · intro func hfunc hne
      rw [htarget, ne_eq, Option.some.injEq] at hne
      exact (List.getElem?_set_ne hne).trans (List.getElem?_append_left hfunc)
    · rw [htarget]
      intro func heq
      cases heq
      refine ⟨f, sizeArg, args, hf, hcons, List.getElem?_set_self ?_⟩
      rw [List.length_append]
      exact Nat.lt_add_right _ hlt

theorem instrument_eq {fuel : Nat} {known : Bool} {m : NamedModule O} {m₁ m' : Module O}
    {sites : Nat}
    (hwrap : (match findFuncByName m "moonbit.malloc" with
      | some fid => wrapMoonbitMalloc (addHook known m).1.module fid m.module.funcs.length
      | none => some (addHook known m).1.module) = some m₁)
    (hrun : instrumentGcAllocs fuel m₁ m.module.funcs.length (TypeSizes.build m₁) =
      some (m', sites)) :
    instrument fuel known m = some
      (if (findFuncByName m "moonbit.malloc").isNone ∧ sites = 0 then
        .error "no instrumentation sites found in this wasm — not a MoonBit binary?"
      else .ok (m', ⟨(findFuncByName m "moonbit.malloc").isSome, sites⟩)) := by
  have hfn : (addHook known m).2 = m.module.funcs.length := rfl
  rw [apply_ite some]
  simp only [instrument, findFuncByName_addHook, hfn]
  rcases htarget : findFuncByName m "moonbit.malloc" with _ | fid
  · rw [htarget] at hwrap
    simp only [Option.bind_eq_bind, hwrap, Option.bind_some, hrun]
  · rw [htarget] at hwrap
    simp only [Option.bind_eq_bind, hwrap, Option.bind_some, hrun]

/-- What is asked of a module still holds behind the wrapping. -/
theorem Prepared.wellNested {m : NamedModule O} {m' : Module O} (hp : Prepared m m')
    {seqs : FunctionId → List InstrSeqId} (h : WellFormed m seqs) : WellNested m' seqs := by
  intro fid f' hf'
  obtain ⟨f, hf⟩ := (hp.wraps.defined_iff fid).mp ⟨f', hf'⟩
  obtain ⟨f₁, hf₁, hwrap⟩ := hp.wraps.defined hf
  cases hf'.symm.trans hf₁
  rcases hwrap with rfl | ⟨sizeArg, -, rfl⟩
  · exact h.nested fid _ hf
  · exact nested_wrapBody (h.nested fid f hf) _ _

theorem Prepared.plain {m : NamedModule O} {m' : Module O} (hp : Prepared m m')
    {seqs : FunctionId → List InstrSeqId} (h : WellFormed m seqs) {fid : FunctionId}
    {f' : LocalFunction O} (hf' : m'.funcs[fid]? = some (.defined f')) :
    Plain m'.localCount f' (seqs fid) := by
  obtain ⟨f, hf⟩ := (hp.wraps.defined_iff fid).mp ⟨f', hf'⟩
  obtain ⟨f₁, hf₁, hwrap⟩ := hp.wraps.defined hf
  cases hf'.symm.trans hf₁
  rw [hp.localCount]
  rcases hwrap with rfl | ⟨sizeArg, harg, rfl⟩
  · exact h.plain fid _ hf
  · intro seq hseq i hi
    by_cases heq : seq = f.entry
    · subst heq
      have hblocks : (wrapBody f sizeArg m.module.funcs.length).blocks f.entry =
          .localGet sizeArg :: .call m.module.funcs.length :: f.blocks f.entry :=
        Function.update_self _ _ _
      have hi' := hblocks ▸ hi
      rcases List.mem_cons.mp hi' with rfl | hi'
      · exact ⟨rfl, fun l hl => List.mem_singleton.mp hl ▸ h.args fid f hf sizeArg harg⟩
      · rcases List.mem_cons.mp hi' with rfl | hi'
        · exact ⟨rfl, nofun⟩
        · exact h.plain fid f hf _ hseq i hi'
    · have hblocks : (wrapBody f sizeArg m.module.funcs.length).blocks seq = f.blocks seq :=
        Function.update_of_ne heq _ _
      exact h.plain fid f hf seq hseq i (hblocks ▸ hi)

/-! ### Main result -/

/-- The instrumentation of a module fails exactly when it has neither an allocator to wrap nor an
allocation site.  Otherwise every call of every function of the module ends as before, whatever
the opcodes do and to any depth; the hook has then been called with its first argument by each
call of the allocator, before its body, and before each allocation that is due a call, and not
at any other point. -/
theorem instrument_simulates (ops : Opcodes O V S) {host : Env V S} (zero : LocalId → Val V)
    {m : NamedModule O} {seqs : FunctionId → List InstrSeqId} (h : WellFormed m seqs)
    (hcallee : ∀ o stack store func stack', ops.callee o stack store = some (func, stack') →
      func < m.module.funcs.length)
    (hhook : ∀ v stack store,
      host m.module.funcs.length (v :: stack) store = (argEvents v, .done stack store))
    (hhost : ∀ func stack store, (host func stack store).1.flatMap (expand m.module.types) =
      (host func stack store).1)
    {fuel : Nat} (hfuel : ∀ fid ∈ localFunctions m.module, (seqs fid).length ≤ fuel)
    (known : Bool) :
    let target := findFuncByName m "moonbit.malloc"
    let sites := gcAllocSites fuel m.module
    ∃ m', instrument fuel known m = some
        (if target.isNone ∧ sites = 0 then
          .error "no instrumentation sites found in this wasm — not a MoonBit binary?"
        else .ok (m', ⟨target.isSome, sites⟩)) ∧
      ∀ n, ∀ func < m.module.funcs.length, ∀ stack store,
        let r := tracedEnv ops host zero m.module target n func stack store
        m'.env ops host zero n func stack store = (r.1.flatMap (expand m.module.types), r.2) := by
  intro target sites
  obtain ⟨m₁, hwrap, hp⟩ := exists_prepared h known
  have hlocal := hp.wraps.localFunctions_eq
  have hseqs := hp.wellNested h
  have hfuel₁ : ∀ fid ∈ localFunctions m₁, (seqs fid).length ≤ fuel :=
    fun fid hfid => hfuel fid (hlocal ▸ hfid)
  obtain ⟨m', count, hrun, henv⟩ := @instrumented_module_simulates _ _ _ ops host zero _ _ hseqs
    (fun _ _ hf => hp.plain h hf) _ hp.wraps.hook (fun n stack store => hhook (.i32 n) stack store)
    (fun func stack store => hp.expand ▸ hhost func stack store) _ hfuel₁
  -- the count is that of the sites of the module as it was
  obtain ⟨r, hrun', hr⟩ :=
    instrumentGcAllocs_spec hseqs hfuel₁ m.module.funcs.length (TypeSizes.build m₁)
  have hcount : count = sites := by
    rw [show sites = gcAllocSites fuel m₁ from (gcAllocSites_eq hp.wraps hp.sizes fuel).symm,
      gcAllocSites, ← hr.total]
    exact congrArg Prod.snd (Option.some.inj (hrun.symm.trans hrun'))
  refine ⟨m', ?_, fun n func hfunc stack store => ?_⟩
  · exact hcount ▸ instrument_eq hwrap hrun
  · rw [henv, hp.expand, wrapped_env ops zero hp.wraps h.nested h.calls hcallee hhook n hfunc]

/-- The allocator, and a function that allocates once with it and once by an opcode. -/
def allocatorBody : LocalFunction Unit where
  args := [0]
  entry := 0
  blocks
    | 0 => [.localGet 0]
    | _ => []
  types _ := ⟨0, 1⟩

def allocatingBody : LocalFunction Unit where
  args := [1]
  entry := 0
  blocks
    | 0 => [.const 16, .call 0, .other (), .localGet 1, .alloc (.arrayNewDefault 1), .other ()]
    | _ => []
  types _ := ⟨0, 0⟩

def allocatorModule : NamedModule Unit where
  module := ⟨sampleModule.types, [.defined allocatorBody, .defined allocatingBody], 2⟩
  names := [some "moonbit.malloc", none]

def allocatorHost : Env Unit Unit := fun func stack store =>
  match func, stack with
  | 2, v :: stack => (argEvents v, .done stack store)
  | _, _ => ([], .done stack store)

theorem allocatorModule_funcs {fid : FunctionId} {f : LocalFunction Unit}
    (h : allocatorModule.module.funcs[fid]? = some (.defined f)) :
    f = allocatorBody ∨ f = allocatingBody := by
  match fid, h with
  | 0, h => cases h; exact .inl rfl
  | 1, h => cases h; exact .inr rfl

theorem wellFormed_allocatorModule : WellFormed allocatorModule fun _ => [0] where
  nested fid f h := by
    rcases allocatorModule_funcs h with rfl | rfl
    · exact ⟨.tree .nil, List.nodup_singleton _⟩
    · exact ⟨.tree .nil, List.nodup_singleton _⟩
  plain fid f h := by
    rcases allocatorModule_funcs h with rfl | rfl
    · simp [Plain, allocatorBody, allocatorModule, Instr.isTry, Instr.locals]
    · simp [Plain, allocatingBody, allocatorModule, Instr.isTry, Instr.locals]
  calls fid f h := by
    rcases allocatorModule_funcs h with rfl | rfl
    · simp [CallsBelow, allocatorBody]
    · simp [CallsBelow, allocatingBody, allocatorModule]
  args fid f h := by
    rcases allocatorModule_funcs h with rfl | rfl
    · exact List.forall_mem_singleton.mpr (by decide)
    · exact List.forall_mem_singleton.mpr (by decide)
  malloc fid h := by
    cases h
    exact ⟨allocatorBody, rfl, List.cons_ne_nil _ _⟩

theorem instrument_simulates_allocator :
    ∃ m', instrument 1 false allocatorModule = some (.ok (m', ⟨true, 1⟩)) ∧
      ∀ n, ∀ func < 2, ∀ stack store,
        m'.env sampleOps allocatorHost (fun _ => .i32 0) n func stack store =
          let r := tracedEnv sampleOps allocatorHost (fun _ => .i32 0) allocatorModule.module
            (some 0) n func stack store
          (r.1.flatMap (expand sampleModule.types), r.2) := by
  refine instrument_simulates sampleOps (fun _ => .i32 0) wellFormed_allocatorModule nofun
    (fun _ _ _ => rfl) ?_ (fun _ _ => Nat.le_refl _) false
  intro func stack store
  rw [allocatorHost.eq_def]
  split
  · rename_i v _
    cases v with
    | i32 n => rfl
    | other x => rfl
  · rfl

end GcAlloc
