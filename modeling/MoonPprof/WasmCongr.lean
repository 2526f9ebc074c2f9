/-
What a run of a body depends on.

A run looks at the sequences that its instructions own, and at the functions
that they call: `exec_congr`.  Two bodies that agree on these run alike, whatever
else their arenas hold.
-/
import MoonPprof.WasmIr

namespace Wasm

variable {O V S : Type}

/-- The sequences that an instruction owns are in `Q`, and the function it calls is in `P`. -/
structure Instr.Within (Q : InstrSeqId → Prop) (P : FunctionId → Prop) (i : Instr O) : Prop where
  owned : ∀ seq ∈ i.owned, Q seq
  called : ∀ func, i = .call func → P func

/-- `f'` in `env'` is `f` in `env`, as far as `Q` and `P` go; nothing leads out of these. -/
structure AgreeOn (ops : Opcodes O V S) (Q : InstrSeqId → Prop) (P : FunctionId → Prop)
    (env env' : Env V S) (f f' : LocalFunction O) : Prop where
  types : f'.types = f.types
  blocks : ∀ seq, Q seq → f'.blocks seq = f.blocks seq
  within : ∀ seq, Q seq → ∀ i ∈ f.blocks seq, i.Within Q P
  calls : ∀ func, P func → env' func = env func
  callees : ∀ o stack store func stack', ops.callee o stack store = some (func, stack') → P func

section

variable {ops : Opcodes O V S} {Q : InstrSeqId → Prop} {P : FunctionId → Prop}
  {env env' : Env V S} {f f' : LocalFunction O}
  {rec rec' : List (Instr O) → State V S → Result V S}

theorem enter_congr (h : AgreeOn ops Q P env env' f f')
    (hrec : ∀ is : List (Instr O), (∀ i ∈ is, i.Within Q P) → rec' is = rec is)
    {seq : InstrSeqId} (hseq : Q seq) {onBranch onBranch' : State V S → Result V S}
    (hbranch : onBranch' = onBranch) :
    enter f' rec' seq onBranch' = enter f rec seq onBranch := by
  funext st
  rw [enter, enter, h.types, h.blocks seq hseq, hrec _ (h.within seq hseq), hbranch]

theorem leave_congr (h : AgreeOn ops Q P env env' f f') (seq : InstrSeqId) :
    (leave f' seq : State V S → Result V S) = leave f seq := by
  funext st
  rw [leave, leave, h.types]

theorem restart_congr (h : AgreeOn ops Q P env env' f f')
    (hrec : ∀ is : List (Instr O), (∀ i ∈ is, i.Within Q P) → rec' is = rec is)
    {seq : InstrSeqId} (hseq : Q seq) : restart f' rec' seq = restart f rec seq := by
  have hloop : ∀ i ∈ [(.loop seq : Instr O)], i.Within Q P := by
    intro i hi
    rw [List.mem_singleton] at hi
    subst hi
    refine ⟨fun seq' hseq' => ?_, nofun⟩
    rwa [List.mem_singleton.mp hseq']
  funext st
  rw [restart, restart, h.types, hrec _ hloop]

/-- One instruction; only the structured ones and the calls look beyond the state. -/
theorem execInstr_congr (h : AgreeOn ops Q P env env' f f')
    (hrec : ∀ is : List (Instr O), (∀ i ∈ is, i.Within Q P) → rec' is = rec is)
    {i : Instr O} (hi : i.Within Q P) :
    execInstr ops env' f' rec' i = execInstr ops env f rec i := by
  funext st
  cases i with
  | block seq =>
    rw [execInstr, execInstr]
    rw [enter_congr h hrec (hi.owned seq List.mem_cons_self) (leave_congr h seq)]
  | loop seq =>
    have hseq : Q seq := hi.owned seq List.mem_cons_self
    rw [execInstr, execInstr, enter_congr h hrec hseq (restart_congr h hrec hseq)]
  | ifElse consequent alternative =>
    rw [execInstr, execInstr]
    split
    · refine congrFun (enter_congr h hrec (hi.owned _ ?_) (leave_congr h _)) _
      split <;> simp [Instr.owned]
    · rfl
  | call func => rw [execInstr, execInstr, callFunction, callFunction, h.calls func (hi.called _ rfl)]
  | callRef o =>
    rw [execInstr, execInstr]
    split
    · rename_i func stack hcallee
      rw [callFunction, callFunction, h.calls func (h.callees _ _ _ _ _ hcallee)]
    · rfl
  | tryTable seq | «try» seq handlers | br target | brIf target | brTable targets default
  | «return» | const value | i32Mul | localGet l | localSet l | localTee l | alloc a | other o =>
    rfl

/-- To any depth. -/
theorem exec_congr (h : AgreeOn ops Q P env env' f f') (fuel : Nat) {is : List (Instr O)}
    (his : ∀ i ∈ is, i.Within Q P) : exec ops env' f' fuel is = exec ops env f fuel is := by
  induction fuel generalizing is with
  | zero => rfl
  | succ fuel ih =>
    funext st
    rw [exec, exec]
    induction is generalizing st with
    | nil => rfl
    | cons i is ihs =>
      obtain ⟨hi, his⟩ := List.forall_mem_cons.mp his
      rw [execSeq, execSeq, execInstr_congr h (fun is his => ih his) hi]
      congr 1
      funext st'
      exact ihs his st'

end

end Wasm
