/-
The logical sizes of allocations, and the instructions that report them.

* `staticSize_alloc`, `dynElemSize_alloc` — the sizes that the instrumentation uses;
* `rewriteInstr_alloc`, `rewriteInstr_of_not_alloc` — what it makes of an instruction.
-/
import Mathlib.Algebra.Order.BigOperators.Group.List
import MoonPprof.GcAllocInstrument

open Wasm

namespace GcAlloc

variable {O : Type}

/-! ### Logical sizes -/

/-- The size of an allocation that does not depend on operands: the field sizes of
a struct added up, or the element size of an array times its length. -/
def logicalSize (types : List CompositeType) : Alloc → Option Int
  | .structNew ty | .structNewDefault ty =>
    match types[ty]? with
    | some (.struct fields) => some (fields.map fun field => (fieldSize field).toInt).sum
    | _ => none
  | .arrayNewFixed ty len =>
    match types[ty]? with
    | some (.array field) => some ((fieldSize field).toInt * len.toNat)
    | _ => none
  | _ => none

/-- The element size of an array that is as long as its top operand says. -/
def elemSize (types : List CompositeType) : Alloc → Option Int32
  | .arrayNew ty | .arrayNewDefault ty | .arrayNewData ty _ | .arrayNewElem ty _ =>
    match types[ty]? with
    | some (.array field) => some (fieldSize field)
    | _ => none
  | _ => none

theorem fieldSize_pos (f : FieldType) : 0 < fieldSize f := by
  rw [fieldSize]
  split <;> decide

theorem ofInt_sum (fields : List FieldType) :
    Int32.ofInt (fields.map fun field => (fieldSize field).toInt).sum =
      (fields.map fieldSize).sum := by
  induction fields with
  | nil => rfl
  | cons field fields ih =>
    rw [List.map_cons, List.sum_cons, Int32.ofInt_add, Int32.ofInt_toInt, ih, List.map_cons,
      List.sum_cons]

theorem toInt32_eq (len : UInt32) : len.toInt32 = Int32.ofInt len.toNat := by
  apply Int32.toBitVec.inj
  simp

theorem staticSize_alloc (m : Module O) (a : Alloc) :
    staticSize (TypeSizes.build m) (.alloc a : Instr O) =
      (logicalSize m.types a).map Int32.ofInt := by
  cases a with
  | structNew ty | structNewDefault ty =>
    rw [staticSize, getStruct_build, logicalSize]
    rcases m.types[ty]? with _ | _ | fields | field
    · rfl
    · rfl
    · exact congrArg some (ofInt_sum fields).symm
    · rfl
  | arrayNewFixed ty len =>
    rw [staticSize, getArrayElem_build, logicalSize]
    rcases m.types[ty]? with _ | _ | fields | field
    · rfl
    · rfl
    · rfl
    · rw [Option.map_some, Option.map_some, Int32.ofInt_mul, Int32.ofInt_toInt, toInt32_eq]
  | arrayNew ty | arrayNewDefault ty | arrayNewData ty data | arrayNewElem ty elem => rfl

theorem dynElemSize_alloc (m : Module O) (a : Alloc) :
    dynElemSize (TypeSizes.build m) (.alloc a : Instr O) = elemSize m.types a := by
  cases a with
  | structNew ty | structNewDefault ty | arrayNewFixed ty len => rfl
  | arrayNew ty | arrayNewDefault ty | arrayNewData ty data | arrayNewElem ty elem =>
    exact getArrayElem_build m ty

theorem elemSize_pos {types : List CompositeType} {a : Alloc} {e : Int32}
    (h : elemSize types a = some e) : 0 < e := by
  cases a with
  | structNew ty | structNewDefault ty | arrayNewFixed ty len => cases h
  | arrayNew ty | arrayNewDefault ty | arrayNewData ty data | arrayNewElem ty elem =>
    rw [elemSize] at h
    split at h
    · cases h
      exact fieldSize_pos _
    · cases h

section

variable {types : List CompositeType}

theorem logicalSize_nonneg {a : Alloc} {size : Int} (h : logicalSize types a = some size) :
    0 ≤ size := by
  have hfield : ∀ field, 0 ≤ (fieldSize field).toInt := fun field =>
    Int.le_of_lt (Int32.lt_iff_toInt_lt.mp (fieldSize_pos field))
  cases a with
  | structNew ty | structNewDefault ty =>
    rw [logicalSize] at h
    split at h
    · cases h
      refine List.sum_nonneg fun x hx => ?_
      obtain ⟨field, -, rfl⟩ := List.mem_map.mp hx
      exact hfield field
    · cases h
  | arrayNewFixed ty len =>
    rw [logicalSize] at h
    split at h
    · cases h
      exact Int.mul_nonneg (hfield _) (Int.natCast_nonneg _)
    · cases h
  | arrayNew ty | arrayNewDefault ty | arrayNewData ty data | arrayNewElem ty elem => cases h

theorem takesLength_of_logicalSize {a : Alloc} {size : Int} (h : logicalSize types a = some size) :
    a.takesLength = false := by
  cases a with
  | structNew ty | structNewDefault ty | arrayNewFixed ty len => rfl
  | arrayNew ty | arrayNewDefault ty | arrayNewData ty data | arrayNewElem ty elem => cases h

theorem takesLength_of_elemSize {a : Alloc} {e : Int32} (h : elemSize types a = some e) :
    a.takesLength = true := by
  cases a with
  | structNew ty | structNewDefault ty | arrayNewFixed ty len => cases h
  | arrayNew ty | arrayNewDefault ty | arrayNewData ty data | arrayNewElem ty elem => rfl

theorem logicalSize_of_elemSize {a : Alloc} {e : Int32} (h : elemSize types a = some e) :
    logicalSize types a = none := by
  cases a with
  | structNew ty | structNewDefault ty | arrayNewFixed ty len => cases h
  | arrayNew ty | arrayNewDefault ty | arrayNewData ty data | arrayNewElem ty elem => rfl

end

/-! ### Inserted instructions -/

/-- The instructions that are put before an allocation. -/
def inserted (types : List CompositeType) (hookFn : FunctionId) (scratch : LocalId) (a : Alloc) :
    List (Instr O) :=
  match logicalSize types a with
  | some size =>
    if 0 < Int32.ofInt size then [.const (Int32.ofInt size), .call hookFn] else []
  | none =>
    match elemSize types a with
    | some e =>
      [.localSet scratch, .const e, .localGet scratch, .i32Mul, .call hookFn, .localGet scratch]
    | none => []

theorem rewriteInstr_alloc (m : Module O) (hookFn : FunctionId) (scratch : LocalId) (a : Alloc) :
    (rewriteInstr hookFn (TypeSizes.build m) scratch (.alloc a : Instr O)).1 =
      inserted m.types hookFn scratch a ++ [.alloc a] := by
  rw [rewriteInstr, staticSize_alloc, dynElemSize_alloc, inserted]
  rcases logicalSize m.types a with _ | size
  · rcases he : elemSize m.types a with _ | e
    · rfl
    · have hpos : e > 0 := elemSize_pos he
      show (if e > 0 then _ else _) ++ _ = _
      rw [if_pos hpos]
  · rfl

theorem rewriteInstr_of_not_alloc (hookFn : FunctionId) (sizes : TypeSizes) (scratch : LocalId)
    {i : Instr O} (h : ∀ a, i ≠ .alloc a) : (rewriteInstr hookFn sizes scratch i).1 = [i] := by
  cases i <;> first | rfl | exact absurd rfl (h _)

end GcAlloc
