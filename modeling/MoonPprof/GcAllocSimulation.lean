/-
The instrumentation keeps the meaning of a body.

The instrumented body runs as the original one does, but for its scratch local,
and calls the hook where `expand` says: before each allocation that is due one.

* `execSeq_static`, `execSeq_dynamic` — the inserted instructions leave the state
  as it was;
* `execInstr_simulates` — every other instruction does the same in both;
* `exec_simulates` — so does every sequence, to any depth;
* `instrumented_body_simulates` — the body that the instrumentation produces;
* `instrumented_module_simulates` — the calls of the instrumented module.
-/
import MoonPprof.GcAllocSizes

open Wasm

namespace GcAlloc

variable {O V S : Type}

/-! ### Hook calls -/

/-- The argument of the hook call that is due before an allocation. -/
def hookArg (types : List CompositeType) (a : Alloc) (len : Option Int32) : Option Int32 :=
  match logicalSize types a with
  | some size => if 0 < Int32.ofInt size then some (Int32.ofInt size) else none
  | none => (elemSize types a).bind fun e => len.map fun len => e * len

/-- An event with the hook call that is due before it. -/
def expand (types : List CompositeType) : Event → List Event
  | .hook size => [.hook size]
  | .alloc a len => (hookArg types a len).toList.map .hook ++ [.alloc a len]

/-! ### Results that agree -/

/-- The states differ in the scratch local at most. -/
structure Agree (scratch : LocalId) (st st' : State V S) : Prop where
  stack : st'.stack = st.stack
  store : st'.store = st.store
  locals : ∀ l ≠ scratch, st'.locals l = st.locals l

inductive OutcomeAgree (scratch : LocalId) : Outcome V S → Outcome V S → Prop
  | done {st st' : State V S} : Agree scratch st st' → OutcomeAgree scratch (.done st) (.done st')
  | br {st st' : State V S} (target : InstrSeqId) :
      Agree scratch st st' → OutcomeAgree scratch (.br target st) (.br target st')
  | return {st st' : State V S} :
      Agree scratch st st' → OutcomeAgree scratch (.return st) (.return st')
  | trap (store : S) : OutcomeAgree scratch (.trap store) (.trap store)
  | stuck : OutcomeAgree scratch .stuck .stuck
  | outOfFuel : OutcomeAgree scratch .outOfFuel .outOfFuel

/-- `r'` ends as `r` does, and has made the hook calls that are due. -/
structure Simulates (types : List CompositeType) (scratch : LocalId) (r r' : Result V S) :
    Prop where
  events : r'.1 = r.1.flatMap (expand types)
  outcome : OutcomeAgree scratch r.2 r'.2

section

variable {types : List CompositeType} {scratch : LocalId}

theorem Agree.refl (st : State V S) : Agree scratch st st := ⟨rfl, rfl, fun _ _ => rfl⟩

/-- A step that sees the stack and the store only. -/
theorem Step.outcomeAgree {st st' : State V S} (h : Agree scratch st st') (step : Step V S) :
    OutcomeAgree scratch (step.outcome st) (step.outcome st') := by
  cases step with
  | done stack store => exact .done ⟨rfl, rfl, h.locals⟩
  | br target stack store => exact .br target ⟨rfl, rfl, h.locals⟩
  | trap store => exact .trap store
  | stuck => exact .stuck
  | outOfFuel => exact .outOfFuel

/-- An allocation that is due no hook call. -/
theorem Simulates.undue {a : Alloc} {len : Option Int32} {st st' : State V S}
    (h : Agree scratch st st') (step : Step V S) (hdue : hookArg types a len = none) :
    Simulates types scratch ([.alloc a len], step.outcome st) ([.alloc a len], step.outcome st') := by
  refine ⟨?_, Step.outcomeAgree h step⟩
  rw [List.flatMap_singleton, expand, hdue]
  rfl

/-- An allocation with the hook call that it is due. -/
theorem Simulates.due {a : Alloc} {len : Option Int32} {st st' : State V S}
    (h : Agree scratch st st') (step : Step V S) {size : Int32}
    (hdue : hookArg types a len = some size) :
    Simulates types scratch ([.alloc a len], step.outcome st)
      ([.hook size, .alloc a len], step.outcome st') := by
  refine ⟨?_, Step.outcomeAgree h step⟩
  rw [List.flatMap_singleton, expand, hdue]
  rfl

theorem Simulates.silent {o o' : Outcome V S} (h : OutcomeAgree scratch o o') :
    Simulates types scratch ([], o) ([], o') := ⟨rfl, h⟩

/-- Going on after results that agree. -/
theorem Simulates.andThen {r r' : Result V S} (h : Simulates types scratch r r')
    {k k' : State V S → Result V S}
    (hk : ∀ st st', Agree scratch st st' → Simulates types scratch (k st) (k' st')) :
    Simulates types scratch (Result.andThen r k) (Result.andThen r' k') := by
  obtain ⟨events, o⟩ := r
  obtain ⟨events', o'⟩ := r'
  obtain ⟨hevents, houtcome⟩ := h
  change events' = events.flatMap (expand types) at hevents
  cases houtcome with
  | done hst =>
    obtain ⟨hkevents, hkoutcome⟩ := hk _ _ hst
    refine ⟨?_, hkoutcome⟩
    show events' ++ _ = (events ++ _).flatMap _
    rw [hevents, hkevents, List.flatMap_append]
  | br target hst => exact ⟨hevents, .br target hst⟩
  | «return» hst => exact ⟨hevents, .return hst⟩
  | trap store => exact ⟨hevents, .trap store⟩
  | stuck => exact ⟨hevents, .stuck⟩
  | outOfFuel => exact ⟨hevents, .outOfFuel⟩

/-- Events before results that agree. -/
theorem Simulates.prepend {r r' : Result V S} (h : Simulates types scratch r r')
    {events events' : List Event} (hevents : events' = events.flatMap (expand types)) :
    Simulates types scratch (events ++ r.1, r.2) (events' ++ r'.1, r'.2) :=
  ⟨by rw [hevents, h.events, List.flatMap_append], h.outcome⟩

/-! ### Instructions -/

/-- `env'` is `env`, with the hook calls that are due, and the hook. -/
structure Hooked (types : List CompositeType) (hookFn : FunctionId) (env env' : Env V S) :
    Prop where
  hook : ∀ n stack store, env' hookFn (.i32 n :: stack) store = ([.hook n], .done stack store)
  calls : ∀ func stack store, env' func stack store =
    ((env func stack store).1.flatMap (expand types), (env func stack store).2)

/-- An instruction that leaves the scratch local alone, and whose sequences are rewritten. -/
structure Rewritable (scratch : LocalId) (seqIds : List InstrSeqId) (i : Instr O) : Prop where
  locals : scratch ∉ i.locals
  owned : ∀ seq ∈ i.owned, seq ∈ seqIds

variable {ops : Opcodes O V S} {env env' : Env V S} {f f' : LocalFunction O}
  {rec rec' : List (Instr O) → State V S → Result V S} {hookFn : FunctionId}

/-- The instructions before an allocation whose size is known. -/
theorem execSeq_static (henv : Hooked types hookFn env env') (size : Int32) (st : State V S) :
    execSeq ops env' f' rec' [.const size, .call hookFn] st = ([.hook size], .done st) := by
  simp only [execSeq, execInstr, callFunction, henv.hook, Result.andThen, Step.outcome,
    List.nil_append, List.append_nil]

/-- The instructions before an array allocation; the length is on top again. -/
theorem execSeq_dynamic (henv : Hooked types hookFn env env') (e len : Int32)
    {stack : List (Val V)} {st : State V S} (hstack : st.stack = .i32 len :: stack) :
    execSeq ops env' f' rec' [.localSet scratch, .const e, .localGet scratch, .i32Mul,
      .call hookFn, .localGet scratch] st =
      ([.hook (e * len)],
        .done { st with locals := Function.update st.locals scratch (.i32 len) }) := by
  simp only [execSeq, execInstr, callFunction, henv.hook, Result.andThen, Step.outcome, hstack,
    Function.update_self, List.nil_append, List.append_nil]

/-- Without a length on top there is no allocation either. -/
theorem execSeq_dynamic_stuck (e : Int32) {st : State V S}
    (hstack : ∀ len stack, st.stack ≠ .i32 len :: stack) :
    execSeq ops env' f' rec' [.localSet scratch, .const e, .localGet scratch, .i32Mul,
      .call hookFn, .localGet scratch] st = ([], .stuck) := by
  rcases hst : st.stack with _ | ⟨n | v, stack⟩
  · simp only [execSeq, execInstr, Result.andThen, hst]
  · exact absurd hst (hstack n stack)
  · simp only [execSeq, execInstr, Result.andThen, hst, Function.update_self, List.nil_append]

/-- An allocation of a size that is known, and what it is replaced by. -/
theorem static_simulates (henv : Hooked types hookFn env env') {a : Alloc} {size : Int}
    (hsize : logicalSize types a = some size) {st st' : State V S} (h : Agree scratch st st') :
    Simulates types scratch (execInstr ops env f rec (.alloc a) st)
      (execSeq ops env' f' rec' (inserted types hookFn scratch a ++ [.alloc a]) st') := by
  have hlen := takesLength_of_logicalSize hsize
  have hdue : hookArg types a none =
      if 0 < Int32.ofInt size then some (Int32.ofInt size) else none := by
    rw [hookArg, hsize]
  rw [inserted, hsize]
  by_cases hpos : 0 < Int32.ofInt size
  · rw [if_pos hpos] at hdue
    simp only [if_pos hpos, execSeq_append, execSeq_static henv, Result.andThen,
      execSeq_singleton, execInstr_alloc hlen, h.stack, h.store]
    exact .due h _ hdue
  · rw [if_neg hpos] at hdue
    simp only [if_neg hpos, List.nil_append, execSeq_singleton, execInstr_alloc hlen, h.stack,
      h.store]
    exact .undue h _ hdue

/-- An array allocation as long as the top operand says, and what it is replaced by. -/
theorem dynamic_simulates (henv : Hooked types hookFn env env') {a : Alloc} {e : Int32}
    (he : elemSize types a = some e) {st st' : State V S} (h : Agree scratch st st') :
    Simulates types scratch (execInstr ops env f rec (.alloc a) st)
      (execSeq ops env' f' rec' (inserted types hookFn scratch a ++ [.alloc a]) st') := by
  have hlen := takesLength_of_elemSize he
  have hsize := logicalSize_of_elemSize he
  rw [execSeq_append, inserted, hsize, he]
  by_cases hstack : ∃ len stack, st.stack = .i32 len :: stack
  · obtain ⟨len, stack, hstack⟩ := hstack
    -- the scratch local holds the length, and nobody else reads it
    have hscratch : Agree scratch st
        { st' with locals := Function.update st'.locals scratch (.i32 len) } :=
      ⟨h.stack, h.store, fun l hl => (Function.update_of_ne hl _ _).trans (h.locals l hl)⟩
    have hdue : hookArg types a (some len) = some (e * len) := by
      rw [hookArg, hsize, he]
      rfl
    simp only [execSeq_dynamic henv e len (h.stack.trans hstack), Result.andThen, execSeq_singleton,
      execInstr_alloc_length hlen hstack]
    rw [execInstr_alloc_length hlen (hscratch.stack.trans hstack), hscratch.stack, hscratch.store]
    exact .due hscratch _ hdue
  · push Not at hstack
    have hstack' : ∀ len stack, st'.stack ≠ .i32 len :: stack := h.stack.symm ▸ hstack
    simp only [execSeq_dynamic_stuck e hstack', Result.andThen, execInstr_alloc_stuck hlen hstack]
    exact .silent .stuck

/-- An allocation, and what it is replaced by. -/
theorem alloc_simulates (henv : Hooked types hookFn env env') (a : Alloc) {st st' : State V S}
    (h : Agree scratch st st') :
    Simulates types scratch (execInstr ops env f rec (.alloc a) st)
      (execSeq ops env' f' rec' (inserted types hookFn scratch a ++ [.alloc a]) st') := by
  rcases hsize : logicalSize types a with _ | size
  · rcases he : elemSize types a with _ | e
    · have hdue : ∀ len, hookArg types a len = none := by
        intro len
        rw [hookArg, hsize, he]
        rfl
      rw [inserted, hsize, he]
      simp only [List.nil_append, execSeq_singleton]
      by_cases hlen : a.takesLength
      · by_cases hstack : ∃ len stack, st.stack = .i32 len :: stack
        · obtain ⟨len, stack, hstack⟩ := hstack
          rw [execInstr_alloc_length hlen hstack,
            execInstr_alloc_length hlen (h.stack.trans hstack), h.stack, h.store]
          exact .undue h _ (hdue _)
        · push Not at hstack
          rw [execInstr_alloc_stuck hlen hstack, execInstr_alloc_stuck hlen (h.stack ▸ hstack)]
          exact .silent .stuck
      · rw [execInstr_alloc (Bool.eq_false_iff.mpr hlen),
          execInstr_alloc (Bool.eq_false_iff.mpr hlen), h.stack, h.store]
        exact .undue h _ (hdue _)
    · exact dynamic_simulates henv he h
  · exact static_simulates henv hsize h

/-! ### Bodies -/

section

variable {sizes : TypeSizes} {seqIds : List InstrSeqId}

/-- Sequences to a depth, and the rewritten ones. -/
def RecSimulates (types : List CompositeType) (hookFn : FunctionId) (sizes : TypeSizes)
    (scratch : LocalId) (seqIds : List InstrSeqId)
    (rec rec' : List (Instr O) → State V S → Result V S) : Prop :=
  ∀ is, (∀ i ∈ is, Rewritable scratch seqIds i) → ∀ st st', Agree scratch st st' →
    Simulates types scratch (rec is st) (rec' (rewriteAll hookFn sizes scratch is) st')

theorem Agree.stack_update {st st' : State V S} (h : Agree scratch st st')
    (stack : List (Val V)) : Agree scratch { st with stack } { st' with stack } :=
  ⟨rfl, h.store, h.locals⟩

/-- Entering a rewritten sequence. -/
theorem enter_simulates (hi : Instrumented hookFn sizes scratch seqIds f f')
    (hok : ∀ seq ∈ seqIds, ∀ i ∈ f.blocks seq, Rewritable scratch seqIds i)
    (hrec : RecSimulates types hookFn sizes scratch seqIds rec rec') {seq : InstrSeqId}
    (hseq : seq ∈ seqIds) {onBranch onBranch' : State V S → Result V S}
    (hbranch : ∀ st st', Agree scratch st st' →
      Simulates types scratch (onBranch st) (onBranch' st'))
    {st st' : State V S} (h : Agree scratch st st') :
    Simulates types scratch (enter f rec seq onBranch st) (enter f' rec' seq onBranch' st') := by
  rw [enter, enter, hi.types, hi.rewritten seq hseq, h.stack]
  split
  · exact .silent .stuck
  · have hbody := hrec (f.blocks seq) (hok seq hseq) _ _
      (h.stack_update (st.stack.take (f.types seq).params))
    revert hbody
    generalize rec (f.blocks seq) _ = r
    generalize rec' _ _ = r'
    intro hbody
    obtain ⟨events, o⟩ := r
    obtain ⟨events', o'⟩ := r'
    obtain ⟨hevents, houtcome⟩ := hbody
    -- only a branch to this very block goes on in it
    cases houtcome with
    | done hst =>
      refine ⟨hevents, .done ?_⟩
      rw [hst.stack]
      exact hst.stack_update _
    | br target hst =>
      dsimp only
      split
      · refine Simulates.andThen ((hbranch _ _ hst).prepend hevents) fun st₁ st₁' h₁ => ?_
        rw [h₁.stack]
        exact .silent (.done (h₁.stack_update _))
      · exact ⟨hevents, .br target hst⟩
    | «return» hst => exact ⟨hevents, .return hst⟩
    | trap store => exact ⟨hevents, .trap store⟩
    | stuck => exact ⟨hevents, .stuck⟩
    | outOfFuel => exact ⟨hevents, .outOfFuel⟩

theorem leave_simulates (htypes : f'.types = f.types) (seq : InstrSeqId) {st st' : State V S}
    (h : Agree scratch st st') :
    Simulates types scratch (leave f seq st) (leave f' seq st') := by
  rw [leave, leave, htypes, h.stack]
  exact .silent (.done (h.stack_update _))

theorem restart_simulates (htypes : f'.types = f.types)
    (hrec : RecSimulates types hookFn sizes scratch seqIds rec rec') {seq : InstrSeqId}
    (hseq : seq ∈ seqIds) {st st' : State V S} (h : Agree scratch st st') :
    Simulates types scratch (restart f rec seq st) (restart f' rec' seq st') := by
  rw [restart, restart, htypes, h.stack]
  refine hrec [.loop seq] (fun i hi => ?_) _ _ (h.stack_update _)
  obtain rfl := List.mem_singleton.mp hi
  refine ⟨List.not_mem_nil, fun seq' hseq' => ?_⟩
  rwa [List.mem_singleton.mp hseq']

theorem call_simulates (henv : Hooked types hookFn env env') (func : FunctionId)
    (stack : List (Val V)) {st st' : State V S} (h : Agree scratch st st') :
    Simulates types scratch (callFunction env func stack st) (callFunction env' func stack st') := by
  rw [callFunction, callFunction, h.store, henv.calls]
  exact ⟨rfl, Step.outcomeAgree h _⟩

theorem Agree.update {st st' : State V S} (h : Agree scratch st st') (l : LocalId) (v : Val V) :
    Agree scratch { st with locals := Function.update st.locals l v }
      { st' with locals := Function.update st'.locals l v } := by
  refine ⟨h.stack, h.store, fun l' hl' => ?_⟩
  by_cases heq : l' = l
  · rw [heq]
    simp only [Function.update_self]
  · exact (Function.update_of_ne heq _ _).trans
      ((h.locals l' hl').trans (Function.update_of_ne heq _ _).symm)

/-- The instructions that stay as they are. -/
theorem execInstr_simulates (henv : Hooked types hookFn env env')
    (hi : Instrumented hookFn sizes scratch seqIds f f')
    (hok : ∀ seq ∈ seqIds, ∀ i ∈ f.blocks seq, Rewritable scratch seqIds i)
    (hrec : RecSimulates types hookFn sizes scratch seqIds rec rec') {i : Instr O}
    (hinstr : Rewritable scratch seqIds i) (halloc : ∀ a, i ≠ .alloc a) {st st' : State V S}
    (h : Agree scratch st st') :
    Simulates types scratch (execInstr ops env f rec i st) (execInstr ops env' f' rec' i st') := by
  cases i with
  -- a block is left or started again at the same depth, so what runs inside decides
  | block seq =>
    exact enter_simulates hi hok hrec (hinstr.owned seq (by simp [Instr.owned]))
      (fun _ _ hst => leave_simulates hi.types seq hst) h
  | loop seq =>
    have hseq : seq ∈ seqIds := hinstr.owned seq (by simp [Instr.owned])
    exact enter_simulates hi hok hrec hseq
      (fun _ _ hst => restart_simulates hi.types hrec hseq hst) h
  | ifElse consequent alternative =>
    rw [execInstr, execInstr, h.stack]
    split
    · refine enter_simulates hi hok hrec (hinstr.owned _ ?_)
        (fun _ _ hst => leave_simulates hi.types _ hst) (h.stack_update _)
      split <;> simp [Instr.owned]
    · exact .silent .stuck
  | tryTable seq | «try» seq handlers => exact .silent .stuck
  | br target => exact .silent (.br target h)
  | brIf target =>
    rw [execInstr, execInstr, h.stack]
    split
    · refine .silent ?_
      split
      · exact .br target (h.stack_update _)
      · exact .done (h.stack_update _)
    · exact .silent .stuck
  | brTable targets default =>
    rw [execInstr, execInstr, h.stack]
    split
    · exact .silent (.br _ (h.stack_update _))
    · exact .silent .stuck
  | «return» => exact .silent (.return h)
  | const value =>
    rw [execInstr, execInstr, h.stack]
    exact .silent (.done (h.stack_update _))
  | i32Mul =>
    rw [execInstr, execInstr, h.stack]
    split
    · exact .silent (.done (h.stack_update _))
    · exact .silent .stuck
  -- a guest local is never the scratch local, which alone may differ
  | localGet l =>
    have hl : l ≠ scratch := by
      rintro rfl
      exact hinstr.locals (by simp [Instr.locals])
    rw [execInstr, execInstr, h.stack, h.locals l hl]
    exact .silent (.done (h.stack_update _))
  | localSet l =>
    rw [execInstr, execInstr, h.stack]
    split
    · exact .silent (.done ((h.stack_update _).update l _))
    · exact .silent .stuck
  | localTee l =>
    rw [execInstr, execInstr, h.stack]
    split
    · exact .silent (.done ⟨rfl, h.store, (h.update l _).locals⟩)
    · exact .silent .stuck
  | call func =>
    rw [execInstr, execInstr, h.stack]
    exact call_simulates henv func st.stack h
  | callRef o =>
    rw [execInstr, execInstr, h.stack, h.store]
    split
    · exact call_simulates henv _ _ h
    · exact .silent (.trap _)
  | alloc a => exact absurd rfl (halloc a)
  | other o =>
    rw [execInstr, execInstr, h.stack, h.store]
    exact .silent (Step.outcomeAgree h _)

theorem rewriteAll_cons (i : Instr O) (is : List (Instr O)) :
    rewriteAll hookFn sizes scratch (i :: is) =
      (rewriteInstr hookFn sizes scratch i).1 ++ rewriteAll hookFn sizes scratch is :=
  List.flatMap_cons

end

section

variable {m : Module O} {seqIds : List InstrSeqId}

/-- One instruction, and what it is replaced by. -/
theorem rewriteInstr_simulates (henv : Hooked m.types hookFn env env')
    (hi : Instrumented hookFn (TypeSizes.build m) scratch seqIds f f')
    (hok : ∀ seq ∈ seqIds, ∀ i ∈ f.blocks seq, Rewritable scratch seqIds i)
    (hrec : RecSimulates m.types hookFn (TypeSizes.build m) scratch seqIds rec rec') {i : Instr O}
    (hinstr : Rewritable scratch seqIds i) {st st' : State V S} (h : Agree scratch st st') :
    Simulates m.types scratch (execInstr ops env f rec i st)
      (execSeq ops env' f' rec' (rewriteInstr hookFn (TypeSizes.build m) scratch i).1 st') := by
  by_cases halloc : ∃ a, i = .alloc a
  · obtain ⟨a, rfl⟩ := halloc
    rw [rewriteInstr_alloc]
    exact alloc_simulates henv a h
  · push Not at halloc
    rw [rewriteInstr_of_not_alloc hookFn _ scratch halloc, execSeq_singleton]
    exact execInstr_simulates henv hi hok hrec hinstr halloc h

/-- Sequences of instructions to a depth of `fuel`. -/
theorem exec_simulates (henv : Hooked m.types hookFn env env')
    (hi : Instrumented hookFn (TypeSizes.build m) scratch seqIds f f')
    (hok : ∀ seq ∈ seqIds, ∀ i ∈ f.blocks seq, Rewritable scratch seqIds i) (fuel : Nat) :
    RecSimulates m.types hookFn (TypeSizes.build m) scratch seqIds (exec ops env f fuel)
      (exec ops env' f' fuel) := by
  induction fuel with
  | zero => exact fun is _ st st' _ => .silent .outOfFuel
  | succ fuel ih =>
    intro is his st st' h
    rw [exec, exec]
    induction is generalizing st st' with
    | nil => exact .silent (.done h)
    | cons i is ihs =>
      obtain ⟨hinstr, his⟩ := List.forall_mem_cons.mp his
      rw [rewriteAll_cons, execSeq_append, execSeq]
      exact (rewriteInstr_simulates henv hi hok ih hinstr h).andThen fun st₁ st₁' h₁ =>
        ihs his st₁ st₁' h₁

end

/-! ### The instrumented body -/

/-- The body has no exception constructs, and names locals of the module only. -/
def Plain (localCount : Nat) (f : LocalFunction O) (seqs : List InstrSeqId) : Prop :=
  ∀ seq ∈ seqs, ∀ i ∈ f.blocks seq, i.isTry = false ∧ ∀ l ∈ i.locals, l < localCount

/-- In a plain body the traversal gets to every sequence that an instruction owns. -/
theorem rewritable_of_plain {f : LocalFunction O} {seqs seqIds : List InstrSeqId}
    {localCount : Nat} (hplain : Plain localCount f seqs) (hsub : seqIds ⊆ seqs)
    (hreached : ∀ seq, seq ∈ seqIds ↔ Reached f seq) (hscratch : localCount ≤ scratch) :
    ∀ seq ∈ seqIds, ∀ i ∈ f.blocks seq, Rewritable scratch seqIds i := by
  intro seq hseq i hi
  obtain ⟨htry, hlocals⟩ := hplain seq (hsub hseq) i hi
  refine ⟨fun h => absurd (hlocals _ h) (Nat.not_lt.mpr hscratch), fun seq' hseq' => ?_⟩
  exact (hreached seq').mpr (.owned ((hreached seq).mp hseq) hi htry hseq')

/-- A function with a rewritten body. -/
theorem instrumented_simulates {m : Module O} {f f' : LocalFunction O}
    {seqs seqIds : List InstrSeqId} (hseqs : Nested f seqs) (hplain : Plain m.localCount f seqs)
    {fuel : Nat} (hfuel : seqs.length ≤ fuel) (hcollect : collectSeqIds fuel f = some seqIds)
    (hscratch : m.localCount ≤ scratch)
    (hi : Instrumented hookFn (TypeSizes.build m) scratch seqIds f f')
    (henv : Hooked m.types hookFn env env') (n : Nat) {st st' : State V S}
    (h : Agree scratch st st') :
    Simulates m.types scratch (exec ops env f n (f.blocks f.entry) st)
      (exec ops env' f' n (f'.blocks f'.entry) st') := by
  obtain ⟨seqIds', hcollect', -, hsub, hreached⟩ := collectSeqIds_perm hseqs hfuel
  obtain rfl := Option.some.inj (hcollect.symm.trans hcollect')
  have hok := rewritable_of_plain hplain hsub.subset hreached hscratch
  have hentry : f.entry ∈ seqIds := (hreached _).mpr .entry
  rw [hi.entry, hi.rewritten _ hentry]
  exact exec_simulates henv hi hok n _ (hok _ hentry) _ _ h

/-! ### The arguments of the hook -/

/-- The argument of the hook call before an allocation whose size is known. -/
theorem hookArg_static {a : Alloc} {size : Int} (h : logicalSize types a = some size)
    (hlt : size < 2 ^ 31) (len : Option Int32) :
    (hookArg types a len).map Int32.toInt = if 0 < size then some size else none := by
  have hval : (Int32.ofInt size).toInt = size :=
    Int32.toInt_ofInt_of_le (by have := logicalSize_nonneg h; omega) hlt
  have hpos : 0 < Int32.ofInt size ↔ 0 < size := by
    rw [Int32.lt_iff_toInt_lt, hval]
    rfl
  rw [hookArg, h]
  by_cases hsize : 0 < size
  · simp only [if_pos hsize, if_pos (hpos.mpr hsize), Option.map_some, hval]
  · simp only [if_neg hsize, if_neg (mt hpos.mp hsize), Option.map_none]

/-- The argument of the hook call before an array of `len` elements. -/
theorem hookArg_dynamic {a : Alloc} {e : Int32} (h : elemSize types a = some e) (len : Int32) :
    (hookArg types a (some len)).map (fun v => v.toUInt32.toNat) =
      some (e.toUInt32.toNat * len.toUInt32.toNat % 2 ^ 32) := by
  rw [hookArg, logicalSize_of_elemSize h, h]
  rfl

/-! ### Main results -/

/-- The argument of the hook call before an allocation is its logical size. -/
structure ReportsSizes (types : List CompositeType) : Prop where
  static : ∀ a size, logicalSize types a = some size → size < 2 ^ 31 → ∀ len,
    (hookArg types a len).map Int32.toInt = if 0 < size then some size else none
  dynamic : ∀ a e, elemSize types a = some e → ∀ len, 0 < e ∧
    (hookArg types a (some len)).map (fun v => v.toUInt32.toNat) =
      some (e.toUInt32.toNat * len.toUInt32.toNat % 2 ^ 32)

theorem reportsSizes (types : List CompositeType) : ReportsSizes types :=
  ⟨fun _ _ h hlt len => hookArg_static h hlt len,
    fun _ _ h len => ⟨elemSize_pos h, hookArg_dynamic h len⟩⟩

/-- The instrumented body of a function, from a state that differs in the scratch local
at most, ends as the original one, and calls the hook once before each allocation
that is due a call. -/
theorem instrumented_body_simulates (ops : Opcodes O V S) {m : Module O} {fid : FunctionId}
    {f : LocalFunction O} (hf : m.funcs[fid]? = some (.defined f)) {seqs : List InstrSeqId}
    (hseqs : Nested f seqs) (hplain : Plain m.localCount f seqs) {fuel : Nat}
    (hfuel : seqs.length ≤ fuel) {hookFn : FunctionId} {env env' : Env V S}
    (henv : Hooked m.types hookFn env env') :
    ∃ m' count f', instrumentGcAllocsInFunc fuel m fid hookFn (TypeSizes.build m) =
        some (m', count) ∧
      m'.funcs[fid]? = some (.defined f') ∧ f'.args = f.args ∧ f'.types = f.types ∧
      (∀ n st st', Agree m.localCount st st' → Simulates m.types m.localCount
        (exec ops env f n (f.blocks f.entry) st) (exec ops env' f' n (f'.blocks f'.entry) st')) ∧
      ReportsSizes m.types := by
  obtain ⟨f', seqIds, hcollect, hrun, hi⟩ :=
    instrumentGcAllocsInFunc_spec hf hseqs hfuel hookFn (TypeSizes.build m)
  have hlt := (List.getElem?_eq_some_iff.mp hf).1
  refine ⟨_, _, f', hrun, List.getElem?_set_self hlt, hi.args, hi.types, fun n st st' h => ?_,
    reportsSizes m.types⟩
  exact instrumented_simulates hseqs hplain hfuel hcollect (Nat.le_refl _) hi henv n h

def sampleOps : Opcodes Unit Unit Unit where
  other _ stack store := .done stack.tail store
  alloc a stack store := .done (.other () :: stack.drop (if a.takesLength then 1 else 2)) store
  callee _ _ _ := none

def sampleHost : Env Unit Unit := fun func stack store =>
  match func, stack with
  | 0, .i32 n :: stack => ([.hook n], .done stack store)
  | _, _ => ([], .done stack store)

theorem plain_sampleBody : Plain 1 sampleBody [0, 1] := by
  simp [Plain, sampleBody, Instr.isTry, Instr.locals]

theorem hooked_sampleHost (types : List CompositeType) :
    Hooked types 0 sampleHost sampleHost := by
  refine ⟨fun n stack store => rfl, fun func stack store => ?_⟩
  rw [sampleHost.eq_def]
  split
  · rfl
  · rfl

theorem instrumented_body_simulates_sample :
    ∃ m' count f', instrumentGcAllocsInFunc 2 sampleModule 1 0 (TypeSizes.build sampleModule) =
        some (m', count) ∧
      m'.funcs[1]? = some (.defined f') ∧ f'.args = [0] ∧ f'.types = sampleBody.types ∧
      (∀ n st st', Agree 1 st st' → Simulates sampleModule.types 1
        (exec sampleOps sampleHost sampleBody n (sampleBody.blocks 0) st)
        (exec sampleOps sampleHost f' n (f'.blocks f'.entry) st')) ∧
      ReportsSizes sampleModule.types :=
  instrumented_body_simulates sampleOps rfl nested_sampleBody plain_sampleBody (Nat.le_refl _)
    (hooked_sampleHost _)

/-- Calls end alike when their bodies do. -/
theorem OutcomeAgree.returned {o o' : Outcome V S} (h : OutcomeAgree scratch o o')
    (htypes : f'.types = f.types) (hentry : f'.entry = f.entry) (below : List (Val V)) :
    o'.returned f' below = o.returned f below := by
  cases h with
  | done hst => rw [Outcome.returned, Outcome.returned, hst.stack, hst.store]
  | br target hst =>
    rw [Outcome.returned, Outcome.returned, htypes, hentry, hst.stack, hst.store]
  | «return» hst => rw [Outcome.returned, Outcome.returned, htypes, hentry, hst.stack, hst.store]
  | trap store | stuck | outOfFuel => rfl

/-- The calls of a module with every function instrumented. -/
theorem instrumented_module_simulates (ops : Opcodes O V S) {host : Env V S}
    {zero : LocalId → Val V} {m : Module O} {seqs : FunctionId → List InstrSeqId}
    (hseqs : WellNested m seqs)
    (hplain : ∀ fid f, m.funcs[fid]? = some (.defined f) → Plain m.localCount f (seqs fid))
    {hookFn : FunctionId} (himport : m.funcs[hookFn]? = some .imported)
    (hhook : ∀ n stack store, host hookFn (.i32 n :: stack) store = ([.hook n], .done stack store))
    (hhost : ∀ func stack store, (host func stack store).1.flatMap (expand m.types) =
      (host func stack store).1)
    {fuel : Nat} (hfuel : ∀ fid ∈ localFunctions m, (seqs fid).length ≤ fuel) :
    ∃ m' count, instrumentGcAllocs fuel m hookFn (TypeSizes.build m) = some (m', count) ∧
      ∀ n func stack store, m'.env ops host zero n func stack store =
        ((m.env ops host zero n func stack store).1.flatMap (expand m.types),
          (m.env ops host zero n func stack store).2) := by
  obtain ⟨⟨m', count⟩, hrun, hp⟩ :=
    instrumentGcAllocs_spec hseqs hfuel hookFn (TypeSizes.build m)
  have hhookLocal : hookFn ∉ localFunctions m := by
    rw [mem_localFunctions, himport]
    rintro ⟨f, hf⟩
    cases hf
  refine ⟨m', count, hrun, fun n => ?_⟩
  -- induction on the depth of the calls: a body runs its calls with one less
  induction n with
  | zero => exact fun _ _ _ => rfl
  | succ n ih =>
    intro func stack store
    by_cases hlocal : func ∈ localFunctions m
    · obtain ⟨f, f', seqIds, scratch, hf, hf', hcollect, hscratch, hi⟩ := hp.rewritten func hlocal
      rw [Module.env_defined n stack store hf, Module.env_defined n stack store hf', hi.args]
      split
      · rfl
      · have hbody : Simulates m.types scratch
            (exec ops (m.env ops host zero n) f n (f.blocks f.entry)
              ⟨[], bindArgs zero f.args (stack.take f.args.length), store⟩)
            (exec ops (m'.env ops host zero n) f' n (f'.blocks f'.entry)
              ⟨[], bindArgs zero f.args (stack.take f.args.length), store⟩) := by
          cases n with
          | zero => exact .silent .outOfFuel
          | succ n =>
            refine instrumented_simulates (hseqs func f hf) (hplain func f hf)
              (hfuel func hlocal) hcollect hscratch hi ⟨fun v below s => ?_, ih⟩ _ (.refl _)
            have himport' := (hp.kept hookFn hhookLocal).trans himport
            rw [Module.env_imported n _ s himport']
            exact hhook v below s
        exact Prod.ext hbody.events (hbody.outcome.returned hi.types hi.entry _)
    · have hkept : m'.funcs[func]? = m.funcs[func]? := hp.kept func hlocal
      rcases hfunc : m.funcs[func]? with _ | _ | f
      · rw [Module.env_missing n stack store hfunc,
          Module.env_missing n stack store (hkept.trans hfunc)]
        rfl
      · rw [Module.env_imported n stack store hfunc,
          Module.env_imported n stack store (hkept.trans hfunc), hhost]
      · exact absurd (mem_localFunctions.mpr ⟨f, hfunc⟩) hlocal

end

end GcAlloc
