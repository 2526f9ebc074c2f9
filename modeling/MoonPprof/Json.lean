/-
JSON values and their decoding into records (`serde_json`).

`toStringPretty` prints a value, given how numbers are printed; a parser is a
parameter where the program calls one.  The decoders follow what `#[derive(Deserialize)]` does on a
JSON value: a missing field takes its default when it has one, `Option` fields
read `null` as absent, and fields that a record does not name are ignored.
-/
import MoonPprof.Float64
import MoonPprof.Lists
import MoonPprof.MachineInt

open MachineInt

/-- `serde_json::Value`. -/
inductive Value where
  | null
  | bool (b : Bool)
  | int (n : Int)
  | float (x : F64)
  | string (s : String)
  | array (vs : List Value)
  | object (fields : List (String × Value))

/-- An `anyhow` error: its contexts, outermost first. -/
abbrev Error := List String

/-- `with_context`. -/
def Except.context {α : Type} (c : String) : Except Error α → Except Error α
  | .ok a => .ok a
  | .error e => .error (c :: e)

namespace Value

/-- `value.get(name)`. -/
def get (v : Value) (name : String) : Option Value :=
  match v with
  | object fields => fields.lookup name
  | _ => none

/-- `value.as_i64()`. -/
def asI64 : Value → Option Int
  | int n => if InRange 64 n then some n else none
  | _ => none

/-- `value.as_u64()`. -/
def asU64 : Value → Option Int
  | int n => if 0 ≤ n ∧ n < 2 ^ 64 then some n else none
  | _ => none

/-- `value.as_f64()`. -/
def asF64 : Value → Option F64
  | int n => some (F64.ofInt n)
  | float x => some x
  | _ => none

/-! ### Printing -/

/-- A character inside a JSON string. -/
def escapeChar (c : Char) : String :=
  match c.toNat with
  | 0x22 => "\\\""
  | 0x5c => "\\\\"
  | 0x08 => "\\b"
  | 0x09 => "\\t"
  | 0x0a => "\\n"
  | 0x0c => "\\f"
  | 0x0d => "\\r"
  | n =>
    if n < 0x20 then
      "\\u00" ++ String.ofList [Nat.digitChar (n / 16), Nat.digitChar (n % 16)]
    else String.singleton c

def quote (s : String) : String := "\"" ++ String.join (s.toList.map escapeChar) ++ "\""

/-- The items of an array or object on lines of their own. -/
def block (indent : Nat) (opening closing : String) (items : List String) : String :=
  let line (n : Nat) : String := "\n" ++ String.ofList (List.replicate (2 * n) ' ')
  if items.isEmpty then opening ++ closing
  else opening ++ line (indent + 1) ++ ("," ++ line (indent + 1)).intercalate items ++
    line indent ++ closing

section

-- `showFloat` prints a finite number.
variable (showFloat : F64 → String)

mutual

def pretty (indent : Nat) : Value → String
  | null => "null"
  | bool b => toString b
  | int n => toString n
  | float x => if x.isFinite then showFloat x else "null"
  | string s => quote s
  | array vs => block indent "[" "]" (prettyItems (indent + 1) vs)
  | object fields => block indent "\x7b" "\x7d" (prettyFields (indent + 1) fields)

def prettyItems (indent : Nat) : List Value → List String
  | [] => []
  | v :: vs => pretty indent v :: prettyItems indent vs

def prettyFields (indent : Nat) : List (String × Value) → List String
  | [] => []
  | (name, v) :: fields => (quote name ++ ": " ++ pretty indent v) :: prettyFields indent fields

end

/-- `serde_json::to_string_pretty`. -/
def toStringPretty (v : Value) : String := pretty showFloat 0 v

end

/-- The values that survive being printed and parsed: integers of 64 bits,
finite numbers, no key twice. -/
inductive Plain : Value → Prop
  | null : Plain null
  | bool (b : Bool) : Plain (bool b)
  | int {n : Int} (_ : InRange 64 n) : Plain (int n)
  | float {x : F64} (_ : x.isFinite = true) : Plain (float x)
  | string (s : String) : Plain (string s)
  | array {vs : List Value} (_ : ∀ v ∈ vs, Plain v) : Plain (array vs)
  | object {fields : List (String × Value)} (_ : (fields.map Prod.fst).Nodup)
      (_ : ∀ e ∈ fields, Plain e.2) : Plain (object fields)

/-! ### Decoders -/

def decodeInt (w : Nat) : Value → Option Int
  | int n => if InRange w n then some n else none
  | _ => none

def decodeString : Value → Option String
  | string s => some s
  | _ => none

def decodeVec {α : Type} (decode : Value → Option α) : Value → Option (List α)
  | array vs => vs.mapM decode
  | _ => none

variable {α : Type}

/-- A field without a default. -/
def field (v : Value) (name : String) (decode : Value → Option α) : Option α :=
  (v.get name).bind decode

/-- A field with a default. -/
def fieldOr (v : Value) (name : String) (dflt : α) (decode : Value → Option α) : Option α :=
  match v.get name with
  | none => some dflt
  | some x => decode x

/-- A field of type `Option`. -/
def fieldOpt (v : Value) (name : String) (decode : Value → Option α) : Option (Option α) :=
  match v.get name with
  | none => some none
  | some null => some none
  | some x => (decode x).map some

/-- The value is a JSON object. -/
def isObject : Value → Bool
  | object _ => true
  | _ => false

/-! ### What a JSON value says -/

/-- The field `name` says `a`, or is left out when `a` is the default `dflt`. -/
def Says (v : Value) (name : String) (encode : α → Value) (a dflt : α) : Prop :=
  v.get name = some (encode a) ∨ v.get name = none ∧ a = dflt

def ints (xs : List Int) : Value := array (xs.map int)

theorem ints_injective {xs ys : List Int} (h : ints xs = ints ys) : xs = ys :=
  List.map_injective_iff.mpr (fun _ _ hx => int.inj hx) (array.inj h)

theorem plain_ints {xs : List Int} (h : ∀ x ∈ xs, InRange 64 x) : Plain (ints xs) := by
  refine Plain.array fun v hv => ?_
  obtain ⟨x, hx, rfl⟩ := List.mem_map.mp hv
  exact Plain.int (h x hx)

theorem fieldOr_of_says {v : Value} {name : String} {encode : α → Value} {a dflt : α}
    {decode : Value → Option α} (h : v.Says name encode a dflt)
    (hdec : decode (encode a) = some a) : v.fieldOr name dflt decode = some a := by
  rw [fieldOr]
  rcases h with h | ⟨h, rfl⟩
  · rw [h]
    exact hdec
  · rw [h]

theorem decodeInt_int {w : Nat} {n : Int} (h : InRange w n) : decodeInt w (int n) = some n :=
  if_pos h

theorem decodeVec_array {decode : Value → Option α} {vs : List Value} {as : List α}
    (h : List.Forall₂ (fun v a => decode v = some a) vs as) :
    decodeVec decode (array vs) = some as :=
  mapM_eq_some_of_forall₂ h

theorem decodeVec_ints {xs : List Int} (h : ∀ x ∈ xs, InRange 64 x) :
    decodeVec (decodeInt 64) (ints xs) = some xs := by
  refine decodeVec_array ?_
  rw [List.forall₂_map_left_iff]
  exact List.forall₂_same.mpr fun x hx => decodeInt_int (h x hx)

end Value
