/-
Function bodies as `walrus` holds them, and what running one means.

A body is an arena of instruction sequences.  `Block`, `Loop`, `IfElse` and the
exception constructs own sequences, and a branch names the sequence that it
leaves.  `O` are the opcodes that the program does not look at; they see the
operand stack and the store, and not the locals.

`exec` runs a sequence within a depth of `fuel`.  It returns the events of the
run: the calls of the hook, and the allocations.
-/
import Mathlib.Logic.Function.Basic
import Mathlib.Tactic.Common

namespace Wasm

/-! ### Types -/

inductive ValType where
  | i32
  | i64
  | f32
  | f64
  | v128
  | ref
deriving DecidableEq

inductive StorageType where
  | val (v : ValType)
  | i8
  | i16
deriving DecidableEq

structure FieldType where
  elementType : StorageType
deriving DecidableEq

inductive CompositeType where
  | function
  | struct (fields : List FieldType)
  | array (field : FieldType)
deriving DecidableEq

abbrev TypeId := Nat
abbrev FunctionId := Nat
abbrev LocalId := Nat
abbrev InstrSeqId := Nat

/-! ### Instructions -/

/-- The allocation opcodes. -/
inductive Alloc where
  | structNew (ty : TypeId)
  | structNewDefault (ty : TypeId)
  | arrayNew (ty : TypeId)
  | arrayNewDefault (ty : TypeId)
  | arrayNewFixed (ty : TypeId) (len : UInt32)
  | arrayNewData (ty : TypeId) (data : Nat)
  | arrayNewElem (ty : TypeId) (elem : Nat)
deriving DecidableEq

/-- The top operand is the number of elements. -/
def Alloc.takesLength : Alloc → Bool
  | .arrayNew _ | .arrayNewDefault _ | .arrayNewData _ _ | .arrayNewElem _ _ => true
  | _ => false

inductive Instr (O : Type) where
  | block (seq : InstrSeqId)
  | loop (seq : InstrSeqId)
  | ifElse (consequent alternative : InstrSeqId)
  | tryTable (seq : InstrSeqId)
  | try (seq : InstrSeqId) (handlers : List InstrSeqId)
  | br (target : InstrSeqId)
  | brIf (target : InstrSeqId)
  | brTable (targets : List InstrSeqId) (default : InstrSeqId)
  | return
  | const (value : Int32)
  | i32Mul
  | localGet (l : LocalId)
  | localSet (l : LocalId)
  | localTee (l : LocalId)
  | call (func : FunctionId)
  | callRef (o : O)
  | alloc (a : Alloc)
  | other (o : O)
deriving DecidableEq

structure SeqType where
  params : Nat
  results : Nat

structure LocalFunction (O : Type) where
  args : List LocalId
  entry : InstrSeqId
  blocks : InstrSeqId → List (Instr O)
  types : InstrSeqId → SeqType

inductive FunctionKind (O : Type) where
  | imported
  | defined (f : LocalFunction O)

/-- A module; types, functions and locals are numbered in the order they were added. -/
structure Module (O : Type) where
  types : List CompositeType
  funcs : List (FunctionKind O)
  localCount : Nat

/-- The sequences that an instruction owns. -/
def Instr.owned {O : Type} : Instr O → List InstrSeqId
  | .block seq | .loop seq | .tryTable seq => [seq]
  | .ifElse consequent alternative => [consequent, alternative]
  | .try seq handlers => seq :: handlers
  | _ => []

/-- The locals that an instruction names. -/
def Instr.locals {O : Type} : Instr O → List LocalId
  | .localGet l | .localSet l | .localTee l => [l]
  | _ => []

/-- The exception constructs. -/
def Instr.isTry {O : Type} : Instr O → Bool
  | .tryTable _ | .try _ _ => true
  | _ => false

def LocalFunction.children {O : Type} (f : LocalFunction O) (seq : InstrSeqId) :
    List InstrSeqId :=
  (f.blocks seq).flatMap Instr.owned

/-! ### States -/

inductive Val (V : Type) where
  | i32 (n : Int32)
  | other (v : V)

structure State (V S : Type) where
  stack : List (Val V)
  locals : LocalId → Val V
  store : S

inductive Event where
  | hook (size : Int32)
  | alloc (a : Alloc) (len : Option Int32)
deriving DecidableEq

/-- How an opcode or a call ends, given the operand stack and the store. -/
inductive Step (V S : Type) where
  | done (stack : List (Val V)) (store : S)
  | br (target : InstrSeqId) (stack : List (Val V)) (store : S)
  | trap (store : S)
  | stuck
  | outOfFuel

inductive Outcome (V S : Type) where
  | done (st : State V S)
  | br (target : InstrSeqId) (st : State V S)
  | return (st : State V S)
  | trap (store : S)
  | stuck
  | outOfFuel

abbrev Result (V S : Type) := List Event × Outcome V S

/-- What the opcodes do. -/
structure Opcodes (O V S : Type) where
  other : O → List (Val V) → S → Step V S
  alloc : Alloc → List (Val V) → S → Step V S
  /-- The function that an indirect call finds, and the stack it is called on. -/
  callee : O → List (Val V) → S → Option (FunctionId × List (Val V))

/-- What calling a function does. -/
abbrev Env (V S : Type) := FunctionId → List (Val V) → S → List Event × Step V S

variable {O V S : Type}

/-- Go on where the run fell through. -/
def Result.andThen (r : Result V S) (k : State V S → Result V S) : Result V S :=
  match r.2 with
  | .done st => (r.1 ++ (k st).1, (k st).2)
  | o => (r.1, o)

/-- The state after a step that saw the operand stack and the store. -/
def Step.outcome (st : State V S) : Step V S → Outcome V S
  | .done stack store => .done { st with stack, store }
  | .br target stack store => .br target { st with stack, store }
  | .trap store => .trap store
  | .stuck => .stuck
  | .outOfFuel => .outOfFuel

/-! ### Running -/

section

variable (ops : Opcodes O V S) (env : Env V S) (f : LocalFunction O)
  (rec : List (Instr O) → State V S → Result V S)

/-- Enter a sequence that takes its parameters off the stack; `onBranch` is what a
branch to it does. -/
def enter (seq : InstrSeqId) (onBranch : State V S → Result V S) (st : State V S) :
    Result V S :=
  let below := st.stack.drop (f.types seq).params
  if st.stack.length < (f.types seq).params then ([], .stuck)
  else
    let r := rec (f.blocks seq) { st with stack := st.stack.take (f.types seq).params }
    match r.2 with
    | .done st' => (r.1, .done { st' with stack := st'.stack ++ below })
    | .br target st' =>
      if target = seq then
        Result.andThen (r.1 ++ (onBranch st').1, (onBranch st').2) fun st'' =>
          ([], .done { st'' with stack := st''.stack ++ below })
      else r
    | _ => r

/-- A branch to a block leaves it with its results. -/
def leave (seq : InstrSeqId) (st : State V S) : Result V S :=
  ([], .done { st with stack := st.stack.take (f.types seq).results })

/-- A branch to a loop starts it again with its parameters. -/
def restart (seq : InstrSeqId) (st : State V S) : Result V S :=
  rec [.loop seq] { st with stack := st.stack.take (f.types seq).params }

def callFunction (func : FunctionId) (stack : List (Val V)) (st : State V S) : Result V S :=
  let r := env func stack st.store
  (r.1, r.2.outcome st)

def execInstr (i : Instr O) (st : State V S) : Result V S :=
  match i with
  | .block seq => enter f rec seq (leave f seq) st
  | .loop seq => enter f rec seq (restart f rec seq) st
  | .ifElse consequent alternative =>
    match st.stack with
    | .i32 n :: stack =>
      let seq := if n ≠ 0 then consequent else alternative
      enter f rec seq (leave f seq) { st with stack }
    | _ => ([], .stuck)
  | .tryTable _ | .try _ _ => ([], .stuck)
  | .br target => ([], .br target st)
  | .brIf target =>
    match st.stack with
    | .i32 n :: stack =>
      ([], if n ≠ 0 then .br target { st with stack } else .done { st with stack })
    | _ => ([], .stuck)
  | .brTable targets default =>
    match st.stack with
    | .i32 n :: stack =>
      ([], .br (targets[n.toUInt32.toNat]?.getD default) { st with stack })
    | _ => ([], .stuck)
  | .return => ([], .return st)
  | .const value => ([], .done { st with stack := .i32 value :: st.stack })
  | .i32Mul =>
    match st.stack with
    | .i32 y :: .i32 x :: stack => ([], .done { st with stack := .i32 (x * y) :: stack })
    | _ => ([], .stuck)
  | .localGet l => ([], .done { st with stack := st.locals l :: st.stack })
  | .localSet l =>
    match st.stack with
    | v :: stack => ([], .done { st with stack, locals := Function.update st.locals l v })
    | [] => ([], .stuck)
  | .localTee l =>
    match st.stack with
    | v :: _ => ([], .done { st with locals := Function.update st.locals l v })
    | [] => ([], .stuck)
  | .call func => callFunction env func st.stack st
  | .callRef o =>
    match ops.callee o st.stack st.store with
    | some (func, stack) => callFunction env func stack st
    | none => ([], .trap st.store)
  | .alloc a =>
    if a.takesLength then
      match st.stack with
      | .i32 len :: _ =>
        ([.alloc a (some len)], (ops.alloc a st.stack st.store).outcome st)
      | _ => ([], .stuck)
    else ([.alloc a none], (ops.alloc a st.stack st.store).outcome st)
  | .other o => ([], (ops.other o st.stack st.store).outcome st)

def execSeq : List (Instr O) → State V S → Result V S
  | [], st => ([], .done st)
  | i :: is, st => (execInstr ops env f rec i st).andThen (execSeq is)

end

def exec (ops : Opcodes O V S) (env : Env V S) (f : LocalFunction O) :
    Nat → List (Instr O) → State V S → Result V S
  | 0, _, _ => ([], .outOfFuel)
  | fuel + 1, is, st => execSeq ops env f (exec ops env f fuel) is st

/-! ### Sequences of instructions -/

section

variable {ops : Opcodes O V S} {env : Env V S} {f : LocalFunction O}
  {rec : List (Instr O) → State V S → Result V S}

theorem Result.andThen_assoc (r : Result V S) (k k' : State V S → Result V S) :
    Result.andThen (Result.andThen r k) k' =
      Result.andThen r fun st => Result.andThen (k st) k' := by
  obtain ⟨events, o⟩ := r
  cases o with
  | done st =>
    rcases hk : k st with ⟨kevents, ko⟩
    cases ko <;> simp [Result.andThen, hk]
  | br target st | «return» st | trap store | stuck | outOfFuel => rfl

theorem Result.andThen_nil (r : Result V S) : Result.andThen r (fun st => ([], .done st)) = r := by
  obtain ⟨events, o⟩ := r
  cases o with
  | done st => exact congrArg (·, Outcome.done st) (List.append_nil events)
  | br target st | «return» st | trap store | stuck | outOfFuel => rfl

theorem execSeq_append (is js : List (Instr O)) (st : State V S) :
    execSeq ops env f rec (is ++ js) st =
      Result.andThen (execSeq ops env f rec is st) (execSeq ops env f rec js) := by
  induction is generalizing st with
  | nil => exact (congrArg (·, _) (List.nil_append _)).symm
  | cons i is ih =>
    rw [List.cons_append, execSeq, execSeq, Result.andThen_assoc]
    congr 1
    funext st'
    exact ih st'

theorem execSeq_singleton (i : Instr O) (st : State V S) :
    execSeq ops env f rec [i] st = execInstr ops env f rec i st := by
  rw [execSeq]
  exact Result.andThen_nil _

/-! ### Allocations -/

variable {a : Alloc} {st : State V S}

theorem execInstr_alloc (h : a.takesLength = false) :
    execInstr ops env f rec (.alloc a) st =
      ([.alloc a none], (ops.alloc a st.stack st.store).outcome st) := by
  rw [execInstr, h]
  rfl

theorem execInstr_alloc_length (h : a.takesLength = true) {len : Int32} {stack : List (Val V)}
    (hstack : st.stack = .i32 len :: stack) :
    execInstr ops env f rec (.alloc a) st =
      ([.alloc a (some len)], (ops.alloc a st.stack st.store).outcome st) := by
  rw [execInstr, h, hstack]
  rfl

theorem execInstr_alloc_stuck (h : a.takesLength = true)
    (hstack : ∀ len stack, st.stack ≠ .i32 len :: stack) :
    execInstr ops env f rec (.alloc a) st = ([], .stuck) := by
  rw [execInstr, h]
  rcases hst : st.stack with _ | ⟨n | v, stack⟩
  · rfl
  · exact absurd hst (hstack n stack)
  · rfl

end

/-! ### Calls -/

/-- Arguments in their locals, the last one from the top of the stack. -/
def bindArgs (zero : LocalId → Val V) (args : List LocalId) (operands : List (Val V)) :
    LocalId → Val V :=
  (args.reverse.zip operands).foldl (fun locals x => Function.update locals x.1 x.2) zero

/-- How a call ends when its body ends so. -/
def Outcome.returned (f : LocalFunction O) (below : List (Val V)) : Outcome V S → Step V S
  | .done st => .done (st.stack ++ below) st.store
  | .return st => .done (st.stack.take (f.types f.entry).results ++ below) st.store
  | .br target st =>
    if target = f.entry then .done (st.stack.take (f.types f.entry).results ++ below) st.store
    else .stuck
  | .trap store => .trap store
  | .stuck => .stuck
  | .outOfFuel => .outOfFuel

/-- The functions of a module, `host` being the imported ones. -/
def Module.env (ops : Opcodes O V S) (host : Env V S) (zero : LocalId → Val V) (m : Module O) :
    Nat → Env V S
  | 0 => fun _ _ _ => ([], .outOfFuel)
  | fuel + 1 => fun func stack store =>
    match m.funcs[func]? with
    | none => ([], .stuck)
    | some .imported => host func stack store
    | some (.defined f) =>
      if stack.length < f.args.length then ([], .stuck)
      else
        let r := exec ops (m.env ops host zero fuel) f fuel (f.blocks f.entry)
          ⟨[], bindArgs zero f.args (stack.take f.args.length), store⟩
        (r.1, r.2.returned f (stack.drop f.args.length))

section

variable {ops : Opcodes O V S} {host : Env V S} {zero : LocalId → Val V} {m : Module O}
  {func : FunctionId} (fuel : Nat) (stack : List (Val V)) (store : S)

theorem Module.env_missing (h : m.funcs[func]? = none) :
    m.env ops host zero (fuel + 1) func stack store = ([], .stuck) := by
  simp only [Module.env, h]

theorem Module.env_imported (h : m.funcs[func]? = some .imported) :
    m.env ops host zero (fuel + 1) func stack store = host func stack store := by
  simp only [Module.env, h]

theorem Module.env_defined {f : LocalFunction O} (h : m.funcs[func]? = some (.defined f)) :
    m.env ops host zero (fuel + 1) func stack store =
      if stack.length < f.args.length then ([], .stuck)
      else
        let r := exec ops (m.env ops host zero fuel) f fuel (f.blocks f.entry)
          ⟨[], bindArgs zero f.args (stack.take f.args.length), store⟩
        (r.1, r.2.returned f (stack.drop f.args.length)) := by
  simp only [Module.env, h]

end

end Wasm
