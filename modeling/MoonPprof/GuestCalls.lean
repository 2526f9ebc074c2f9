/-
All the `__moonbit_fs_unstable` imports of a guest (`crates/moonbit-wasm-host`),
and runs of them.

A reference leads to an object on the host.  Three imports change one, the writer
or reader they are called with, and every other object stays as it is.

* `call_frame`, `call_advances` — what one call can change;
* `references_independent` — in a run of calls each reference is written or read
  as if it were the only one;
* `guest_reads_args` — the command line, as a guest reads it.
-/
import Mathlib.Data.List.TakeWhile
import MoonPprof.GuestEnv

open HostStrings

namespace GuestEnv

/-! ### String arrays -/

/-- `FFI_END_OF_STRING_ARRAY`. -/
def ffiEndOfStringArray : String := "ffi_end_of_/string_array"

def readStringArray (st : Store) (h : Handle) : Except String (List String) := do
  match ← st.hostValue h with
  | .stringArray values => .ok values
  | _ => .error "expected MoonBit string array handle"

def beginReadStringArray (st : Store) (h : Handle) : Except String (Handle × Store) := do
  let values ← readStringArray st h
  .ok (st.new (.stringArrayReader values 0))

def stringArrayReadString (st : Store) (h : Handle) : Except String (Handle × Store) := do
  match ← st.hostValue h with
  | .stringArrayReader values pos =>
    match values[pos]? with
    -- behind the last string every read gives the end marker
    | none => .ok (st.new (.string ffiEndOfStringArray))
    | some s => .ok ((st.update h (.stringArrayReader values (pos + 1))).new (.string s))
  | _ => .error "string_array_read_string: wrong handle type"

/-! ### The imports -/

inductive Import where
  | beginCreateString
  | stringAppendChar (h : Handle) (ch : Int)
  | finishCreateString (h : Handle)
  | beginReadString (h : Handle)
  | stringReadChar (h : Handle)
  | finishReadString (h : Handle)
  | beginReadStringArray (h : Handle)
  | stringArrayReadString (h : Handle)
  | finishReadStringArray (h : Handle)
  | argsGet
  | currentDir
  | getEnvVar (key : Handle)
  | getEnvVarExists (key : Handle)
  | getEnvVars
  | setEnvVar (key value : Handle)
  | unsetEnvVar (key : Handle)
deriving DecidableEq

inductive Answer where
  | reference (h : Handle)
  | code (n : Int)
  | nothing

/-- A call that makes a reference. -/
def Caller.refer (c : Caller) (r : Handle × Store) : Answer × Caller :=
  (.reference r.1, { c with store := r.2 })

/-- One call, of a guest that was given the arguments `args`; an error is a trap. -/
def call (args : List String) (cwd : String) (c : Caller) :
    Import → Except String (Answer × Caller)
  | .beginCreateString => .ok (c.refer (HostStrings.beginCreateString c.store))
  | .stringAppendChar h ch => do
    let st ← HostStrings.stringAppendChar c.store h ch
    .ok (.nothing, { c with store := st })
  | .finishCreateString h => do .ok (c.refer (← HostStrings.finishCreateString c.store h))
  | .beginReadString h => do .ok (c.refer (← HostStrings.beginReadString c.store h))
  | .stringReadChar h => do
    let (ch, st) ← HostStrings.stringReadChar c.store h
    .ok (.code ch, { c with store := st })
  | .beginReadStringArray h => do .ok (c.refer (← GuestEnv.beginReadStringArray c.store h))
  | .stringArrayReadString h => do .ok (c.refer (← GuestEnv.stringArrayReadString c.store h))
  | .finishReadString _ | .finishReadStringArray _ => .ok (.nothing, c)
  | .argsGet => .ok (c.refer (c.store.new (.stringArray args)))
  | .currentDir => .ok (c.refer (c.store.new (.string cwd)))
  | .getEnvVar key => do
    let (h, c) ← GuestEnv.getEnvVar c key
    .ok (.reference h, c)
  | .getEnvVarExists key => do .ok (.code (← GuestEnv.getEnvVarExists c key), c)
  | .getEnvVars =>
    let (h, c) := GuestEnv.getEnvVars c
    .ok (.reference h, c)
  | .setEnvVar key value => do .ok (.nothing, ← GuestEnv.setEnvVar c key value)
  | .unsetEnvVar key => do .ok (.nothing, ← GuestEnv.unsetEnvVar c key)

/-- The answers to the calls, if none traps. -/
def calls (args : List String) (cwd : String) (c : Caller) :
    List Import → Except String (List Answer × Caller)
  | [] => .ok ([], c)
  | i :: is => do
    let (a, c) ← call args cwd c i
    let (as, c) ← calls args cwd c is
    .ok (a :: as, c)

/-- The reference whose object a call changes. -/
def Import.advances : Import → Handle
  | .stringAppendChar h _ | .stringReadChar h | .stringArrayReadString h => h
  | _ => none

/-! ### One call -/

/-- The object that a reference leads to. -/
theorem of_hostValue {st : Store} {h : Handle} {v : MoonbitHostValue} (hv : st.hostValue h = .ok v) :
    ∃ id, h = some id ∧ st[id]? = some (.host v) := by
  cases h with
  | none => cases hv
  | some id =>
    refine ⟨id, rfl, ?_⟩
    simp only [Store.hostValue, Store.data] at hv
    rcases hget : st[id]? with _ | (s | v' | _)
    · rw [hget] at hv
      cases hv
    · rw [hget] at hv
      cases hv
    · rw [hget] at hv
      cases hv
      rfl
    · rw [hget] at hv
      cases hv

theorem set_self {α : Type} {xs : List α} {n : Nat} {x : α} (h : xs[n]? = some x) :
    xs.set n x = xs := by
  obtain ⟨hlt, rfl⟩ := List.getElem?_eq_some_iff.mp h
  exact List.set_getElem_self hlt

section

variable {st st' : Store} {h h' : Handle} {ch : Int}

theorem stringAppendChar_ok (hok : HostStrings.stringAppendChar st h ch = .ok st') :
    ∃ id w, h = some id ∧ st[id]? = some (.host (.stringWriter w)) ∧
      st' = st.set id (.host (.stringWriter (w.push (unitChar (ch % 0x10000).toNat)))) := by
  obtain ⟨v, hv, hok⟩ := bind_eq_ok.mp hok
  obtain ⟨id, rfl, hget⟩ := of_hostValue hv
  cases v with
  | stringWriter w =>
    cases hok
    exact ⟨id, w, rfl, hget, rfl⟩
  | _ => cases hok

/-- A read gives the next unit, or -1, and leaves the others. -/
theorem stringReadChar_ok (hok : HostStrings.stringReadChar st h = .ok (ch, st')) :
    ∃ id chars pos pos', h = some id ∧ st[id]? = some (.host (.stringReader chars pos)) ∧
      ch = (asI32 (chars.drop pos)).headD (-1) ∧ chars.drop pos' = (chars.drop pos).tail ∧
      st' = st.set id (.host (.stringReader chars pos')) := by
  obtain ⟨v, hv, hok⟩ := bind_eq_ok.mp hok
  obtain ⟨id, rfl, hget⟩ := of_hostValue hv
  cases v with
  | stringReader chars pos =>
    refine ⟨id, chars, pos, ?_⟩
    rcases hchar : chars[pos]? with _ | u
    · simp only [hchar] at hok
      cases hok
      have hdrop : chars.drop pos = [] :=
        List.drop_eq_nil_of_le (List.getElem?_eq_none_iff.mp hchar)
      refine ⟨pos, rfl, hget, ?_, ?_, (set_self hget).symm⟩
      · rw [hdrop]
        rfl
      · rw [hdrop]
        rfl
    · simp only [hchar] at hok
      cases hok
      obtain ⟨hlt, rfl⟩ := List.getElem?_eq_some_iff.mp hchar
      refine ⟨pos + 1, rfl, hget, ?_, ?_, rfl⟩
      · rw [List.drop_eq_getElem_cons hlt]
        rfl
      · rw [List.tail_drop]
  | _ => cases hok

/-- A read makes a string of the next value, or of the end marker. -/
theorem stringArrayReadString_ok (hok : stringArrayReadString st h = .ok (h', st')) :
    ∃ id values pos pos', h = some id ∧ st[id]? = some (.host (.stringArrayReader values pos)) ∧
      values.drop pos' = (values.drop pos).tail ∧ h' = some st.length ∧
      st' = st.set id (.host (.stringArrayReader values pos')) ++
        [.host (.string ((values.drop pos).headD ffiEndOfStringArray))] := by
  obtain ⟨v, hv, hok⟩ := bind_eq_ok.mp hok
  obtain ⟨id, rfl, hget⟩ := of_hostValue hv
  cases v with
  | stringArrayReader values pos =>
    refine ⟨id, values, pos, ?_⟩
    rcases hvalue : values[pos]? with _ | s
    · simp only [hvalue] at hok
      cases hok
      have hdrop : values.drop pos = [] :=
        List.drop_eq_nil_of_le (List.getElem?_eq_none_iff.mp hvalue)
      refine ⟨pos, rfl, hget, ?_, rfl, ?_⟩
      · rw [hdrop]
        rfl
      · rw [hdrop, set_self hget]
        rfl
    · simp only [hvalue] at hok
      cases hok
      obtain ⟨hlt, rfl⟩ := List.getElem?_eq_some_iff.mp hvalue
      refine ⟨pos + 1, rfl, hget, ?_, ?_, ?_⟩
      · rw [List.tail_drop]
      · exact congrArg some List.length_set
      · rw [List.drop_eq_getElem_cons hlt]
        rfl
  | _ => cases hok

end

section

variable {args : List String} {cwd : String} {c c' : Caller} {i : Import} {a : Answer}

/-- What a call does to the references: it makes new ones, and it changes the object of the one
that it advances. -/
theorem call_store (h : call args cwd c i = .ok (a, c')) :
    (i.advances = none ∧ c.store <+: c'.store) ∨
      ∃ id v new, i.advances = some id ∧ c'.store = c.store.set id (.host v) ++ new := by
  cases i with
  | stringAppendChar h ch =>
    obtain ⟨st, hst, heq⟩ := bind_eq_ok.mp h
    cases heq
    obtain ⟨id, w, rfl, hget, hst'⟩ := stringAppendChar_ok hst
    exact .inr ⟨id, _, [], rfl, hst'.trans (List.append_nil _).symm⟩
  | stringReadChar h =>
    obtain ⟨⟨ch, st⟩, hst, heq⟩ := bind_eq_ok.mp h
    cases heq
    obtain ⟨id, chars, pos, pos', rfl, hget, -, -, hst'⟩ := stringReadChar_ok hst
    exact .inr ⟨id, _, [], rfl, hst'.trans (List.append_nil _).symm⟩
  | stringArrayReadString h =>
    obtain ⟨⟨h', st⟩, hst, heq⟩ := bind_eq_ok.mp h
    cases heq
    obtain ⟨id, values, pos, pos', rfl, hget, -, -, hst'⟩ := stringArrayReadString_ok hst
    exact .inr ⟨id, _, _, rfl, hst'⟩
  | beginCreateString | argsGet | currentDir | getEnvVars =>
    cases h
    exact .inl ⟨rfl, List.prefix_append _ _⟩
  | finishReadString h | finishReadStringArray h =>
    cases h
    exact .inl ⟨rfl, List.prefix_rfl⟩
  | finishCreateString h | beginReadString h | beginReadStringArray h =>
    obtain ⟨r, hr, heq⟩ := bind_eq_ok.mp h
    cases heq
    obtain ⟨s, -, heq⟩ := bind_eq_ok.mp hr
    cases heq
    exact .inl ⟨rfl, List.prefix_append _ _⟩
  | getEnvVar key =>
    obtain ⟨r, hr, heq⟩ := bind_eq_ok.mp h
    cases heq
    obtain ⟨s, -, heq⟩ := bind_eq_ok.mp hr
    cases heq
    exact .inl ⟨rfl, List.prefix_append _ _⟩
  | getEnvVarExists key =>
    obtain ⟨r, -, heq⟩ := bind_eq_ok.mp h
    cases heq
    exact .inl ⟨rfl, List.prefix_rfl⟩
  | setEnvVar key value =>
    obtain ⟨r, hr, heq⟩ := bind_eq_ok.mp h
    cases heq
    obtain ⟨s, -, hr⟩ := bind_eq_ok.mp hr
    obtain ⟨t, -, heq⟩ := bind_eq_ok.mp hr
    cases heq
    exact .inl ⟨rfl, List.prefix_rfl⟩
  | unsetEnvVar key =>
    obtain ⟨r, hr, heq⟩ := bind_eq_ok.mp h
    cases heq
    obtain ⟨s, -, heq⟩ := bind_eq_ok.mp hr
    cases heq
    exact .inl ⟨rfl, List.prefix_rfl⟩

/-- A call leaves every other object as it is. -/
theorem call_frame (h : call args cwd c i = .ok (a, c')) {id : Nat} {d : ExternData}
    (hd : c.store[id]? = some d) (hne : i.advances ≠ some id) : c'.store[id]? = some d := by
  rcases call_store h with ⟨-, hprefix⟩ | ⟨id', v, new, hid, hstore⟩
  · obtain ⟨new, hnew⟩ := hprefix
    rw [← hnew, List.getElem?_append_left (List.getElem?_eq_some_iff.mp hd).1, hd]
  · have hlt : id < (c.store.set id' (.host v)).length := by
      rw [List.length_set]
      exact (List.getElem?_eq_some_iff.mp hd).1
    have hne' : id' ≠ id := fun heq => hne (heq ▸ hid)
    rw [hstore, List.getElem?_append_left hlt, List.getElem?_set_ne hne', hd]

/-- The object that a call changes is the writer or the reader that it is for. -/
theorem call_advances (h : call args cwd c i = .ok (a, c')) {id : Nat}
    (hid : i.advances = some id) :
    (∃ ch w, i = .stringAppendChar (some id) ch ∧
        c.store[id]? = some (.host (.stringWriter w))) ∨
      (∃ chars pos, i = .stringReadChar (some id) ∧
        c.store[id]? = some (.host (.stringReader chars pos))) ∨
      ∃ values pos, i = .stringArrayReadString (some id) ∧
        c.store[id]? = some (.host (.stringArrayReader values pos)) := by
  cases i with
  | stringAppendChar h' ch =>
    obtain ⟨st, hst, -⟩ := bind_eq_ok.mp h
    obtain ⟨id', w, rfl, hget, -⟩ := stringAppendChar_ok hst
    cases hid
    exact .inl ⟨ch, w, rfl, hget⟩
  | stringReadChar h' =>
    obtain ⟨⟨ch, st⟩, hst, -⟩ := bind_eq_ok.mp h
    obtain ⟨id', chars, pos, -, rfl, hget, -⟩ := stringReadChar_ok hst
    cases hid
    exact .inr (.inl ⟨chars, pos, rfl, hget⟩)
  | stringArrayReadString h' =>
    obtain ⟨⟨h'', st⟩, hst, -⟩ := bind_eq_ok.mp h
    obtain ⟨id', values, pos, -, rfl, hget, -⟩ := stringArrayReadString_ok hst
    cases hid
    exact .inr (.inr ⟨values, pos, rfl, hget⟩)
  | _ => cases hid

/-- A string or an array of strings. -/
def IsConstant (v : MoonbitHostValue) : Prop :=
  (∃ s, v = .string s) ∨ ∃ values, v = .stringArray values

/-- These never change. -/
theorem call_immutable (h : call args cwd c i = .ok (a, c')) {id : Nat} {v : MoonbitHostValue}
    (hv : c.store[id]? = some (.host v)) (hconst : IsConstant v) :
    c'.store[id]? = some (.host v) := by
  refine call_frame h hv fun hid => ?_
  rcases call_advances h hid with ⟨ch, w, -, hget⟩ | ⟨chars, pos, -, hget⟩ | ⟨values, pos, -, hget⟩
  all_goals
    cases hv.symm.trans hget
    rcases hconst with ⟨s, hs⟩ | ⟨values, hvalues⟩
    · cases hs
    · cases hvalues

/-! ### Runs -/

/-- The answers to the calls `i`. -/
def answersTo (i : Import) (is : List Import) (as : List Answer) : List Answer :=
  ((is.zip as).filter (·.1 = i)).map Prod.snd

theorem calls_cons {is : List Import} {as : List Answer}
    (h : calls args cwd c (i :: is) = .ok (as, c')) :
    ∃ a c₁ as', call args cwd c i = .ok (a, c₁) ∧ calls args cwd c₁ is = .ok (as', c') ∧
      as = a :: as' := by
  obtain ⟨⟨a, c₁⟩, hcall, h⟩ := bind_eq_ok.mp h
  obtain ⟨⟨as', c₂⟩, hcalls, heq⟩ := bind_eq_ok.mp h
  cases heq
  exact ⟨a, c₁, as', hcall, hcalls, rfl⟩

theorem calls_immutable {is : List Import} {as : List Answer}
    (h : calls args cwd c is = .ok (as, c')) {id : Nat} {v : MoonbitHostValue}
    (hv : c.store[id]? = some (.host v)) (hconst : IsConstant v) :
    c'.store[id]? = some (.host v) := by
  induction is generalizing c as with
  | nil =>
    cases h
    exact hv
  | cons i is ih =>
    obtain ⟨a, c₁, as', hcall, hcalls, -⟩ := calls_cons h
    exact ih hcalls (call_immutable hcall hv hconst)

theorem answersTo_cons (j : Import) (is : List Import) (as : List Answer) :
    answersTo j (i :: is) (a :: as) =
      if i = j then a :: answersTo j is as else answersTo j is as := by
  rw [answersTo, List.zip_cons_cons, List.filter_cons]
  by_cases hij : i = j
  · rw [if_pos (decide_eq_true hij), if_pos hij]
    rfl
  · rw [if_neg (by simpa using hij), if_neg hij]
    rfl

/-- `n` reads of what is left, and then of an end marker. -/
def reads {β : Type} (last : β) : List β → Nat → List β
  | _, 0 => []
  | rest, n + 1 => rest.headD last :: reads last rest.tail n

theorem reads_eq {β : Type} (last : β) (rest : List β) (n : Nat) :
    reads last rest n = (rest ++ List.replicate n last).take n := by
  induction n generalizing rest with
  | zero => rfl
  | succ n ih =>
    rw [reads, ih]
    cases rest with
    | nil => rfl
    | cons x rest =>
      have hlen : n ≤ (rest ++ List.replicate n last).length := by
        rw [List.length_append, List.length_replicate]
        exact Nat.le_add_left _ _
      rw [List.cons_append, List.take_succ_cons, List.headD_cons, List.tail_cons,
        List.replicate_succ', ← List.append_assoc, List.take_append_of_le_length hlen]

/-- A reader, of which only the calls `j` read, gives in every run what is left in it one by one.
`At` says what is left, and `Shows` what an answer stands for. -/
theorem calls_reads {β : Type} {last : β} {j : Import} {At : Store → List β → Prop}
    (Shows : Store → Answer → β → Prop)
    (hread : ∀ {c a c' rest}, call args cwd c j = .ok (a, c') → At c.store rest →
      Shows c'.store a (rest.headD last) ∧ At c'.store rest.tail)
    (hother : ∀ {c i a c' rest}, call args cwd c i = .ok (a, c') → i ≠ j → At c.store rest →
      At c'.store rest)
    (hkeep : ∀ {c c' : Caller} {is as b x}, calls args cwd c is = .ok (as, c') →
      Shows c.store b x → Shows c'.store b x)
    {is : List Import} {as : List Answer} (h : calls args cwd c is = .ok (as, c'))
    {rest : List β} (hat : At c.store rest) :
    List.Forall₂ (Shows c'.store) (answersTo j is as)
      (reads last rest (answersTo j is as).length) := by
  induction is generalizing c as rest with
  | nil =>
    cases h
    exact .nil
  | cons i is ih =>
    obtain ⟨a, c₁, as', hcall, hcalls, rfl⟩ := calls_cons h
    rw [answersTo_cons]
    by_cases hij : i = j
    · subst hij
      obtain ⟨hshows, hat₁⟩ := hread hcall hat
      rw [if_pos rfl]
      exact .cons (hkeep hcalls hshows) (ih hcalls hat₁)
    · rw [if_neg hij]
      exact ih hcalls (hother hcall hij hat)

/-! ### Readers and writers -/

/-- What is left in the reader at `id`. -/
def CharsAt (id : Nat) (st : Store) (rest : List Int) : Prop :=
  ∃ chars pos, st[id]? = some (.host (.stringReader chars pos)) ∧ rest = asI32 (chars.drop pos)

def StringsAt (id : Nat) (st : Store) (rest : List String) : Prop :=
  ∃ values pos, st[id]? = some (.host (.stringArrayReader values pos)) ∧ rest = values.drop pos

/-- The answer is a reference to the string. -/
def RefersTo (st : Store) (a : Answer) (s : String) : Prop :=
  ∃ id, a = .reference (some id) ∧ st[id]? = some (.host (.string s))

theorem charsAt_other {id : Nat} {rest : List Int} (h : call args cwd c i = .ok (a, c'))
    (hne : i ≠ .stringReadChar (some id)) (hat : CharsAt id c.store rest) :
    CharsAt id c'.store rest := by
  obtain ⟨chars, pos, hget, hrest⟩ := hat
  refine ⟨chars, pos, call_frame h hget fun hid => ?_, hrest⟩
  rcases call_advances h hid with ⟨ch, w, -, hget'⟩ | ⟨-, -, heq, -⟩ | ⟨values, pos, -, hget'⟩
  · cases hget.symm.trans hget'
  · exact hne heq
  · cases hget.symm.trans hget'

theorem stringsAt_other {id : Nat} {rest : List String} (h : call args cwd c i = .ok (a, c'))
    (hne : i ≠ .stringArrayReadString (some id)) (hat : StringsAt id c.store rest) :
    StringsAt id c'.store rest := by
  obtain ⟨values, pos, hget, hrest⟩ := hat
  refine ⟨values, pos, call_frame h hget fun hid => ?_, hrest⟩
  rcases call_advances h hid with ⟨ch, w, -, hget'⟩ | ⟨chars, pos, -, hget'⟩ | ⟨-, -, heq, -⟩
  · cases hget.symm.trans hget'
  · cases hget.symm.trans hget'
  · exact hne heq

theorem getElem?_set_of_some {α : Type} {xs : List α} {n : Nat} {x y : α}
    (h : xs[n]? = some x) : (xs.set n y)[n]? = some y :=
  List.getElem?_set_self (List.getElem?_eq_some_iff.mp h).1

/-- In every run, whatever else the guest calls in between, the reads of a reader give the code
units that are left in it, and then -1. -/
theorem calls_reader {is : List Import} {as : List Answer}
    (h : calls args cwd c is = .ok (as, c')) {id : Nat} {rest : List Int}
    (hat : CharsAt id c.store rest) :
    let codes := answersTo (.stringReadChar (some id)) is as
    codes = (reads (-1) rest codes.length).map .code := by
  have hread : ∀ {c : Caller} {a c' rest},
      call args cwd c (.stringReadChar (some id)) = .ok (a, c') → CharsAt id c.store rest →
      a = .code (rest.headD (-1)) ∧ CharsAt id c'.store rest.tail := by
    rintro c a c' _ hcall ⟨chars, pos, hget, rfl⟩
    obtain ⟨⟨ch, st⟩, hst, heq⟩ := bind_eq_ok.mp hcall
    cases heq
    obtain ⟨id', chars', pos₁, pos', hid, hget', hch, hdrop, hst'⟩ := stringReadChar_ok hst
    cases hid
    cases hget.symm.trans hget'
    refine ⟨congrArg Answer.code hch, chars, pos', ?_, ?_⟩
    · exact (congrArg (·[id]?) hst').trans (getElem?_set_of_some hget)
    · rw [hdrop, asI32, asI32, List.map_tail]
  intro codes
  rw [← List.forall₂_eq_eq_eq, List.forall₂_map_right_iff]
  exact calls_reads (fun _ a x => a = .code x) hread
    (fun hcall hne hat => charsAt_other hcall hne hat) (fun _ hshows => hshows) h hat

/-- The reads of an array give references to the strings that are left in it, and then to the end
marker. -/
theorem calls_arrayReader {is : List Import} {as : List Answer}
    (h : calls args cwd c is = .ok (as, c')) {id : Nat} {rest : List String}
    (hat : StringsAt id c.store rest) :
    let strings := answersTo (.stringArrayReadString (some id)) is as
    List.Forall₂ (RefersTo c'.store) strings
      (reads ffiEndOfStringArray rest strings.length) := by
  have hread : ∀ {c : Caller} {a c' rest},
      call args cwd c (.stringArrayReadString (some id)) = .ok (a, c') →
      StringsAt id c.store rest →
      RefersTo c'.store a (rest.headD ffiEndOfStringArray) ∧ StringsAt id c'.store rest.tail := by
    rintro c a c' _ hcall ⟨values, pos, hget, rfl⟩
    obtain ⟨⟨h', st⟩, hst, heq⟩ := bind_eq_ok.mp hcall
    cases heq
    obtain ⟨id', values', pos₁, pos', hid, hget', hdrop, rfl, hst'⟩ := stringArrayReadString_ok hst
    cases hid
    cases hget.symm.trans hget'
    have hset := getElem?_set_of_some (y := .host (.stringArrayReader values pos')) hget
    refine ⟨⟨_, rfl, ?_⟩, values, pos', ?_, hdrop.symm⟩
    · refine (congrArg (·[c.store.length]?) hst').trans ?_
      show (_ ++ [_])[_]? = _
      rw [List.getElem?_append_right (Nat.le_of_eq List.length_set), List.length_set, Nat.sub_self]
      rfl
    · refine (congrArg (·[id]?) hst').trans ?_
      show (_ ++ [_])[_]? = _
      rw [List.getElem?_append_left (List.getElem?_eq_some_iff.mp hset).1, hset]
  refine calls_reads RefersTo hread (fun hcall hne hat => stringsAt_other hcall hne hat) ?_ h hat
  rintro c c' is as a s hcalls ⟨id', rfl, hget⟩
  exact ⟨id', rfl, calls_immutable hcalls hget (.inl ⟨s, rfl⟩)⟩

/-- What a call appends to the writer at `id`. -/
def Import.appends (id : Nat) : Import → Option Char
  | .stringAppendChar h ch => if h = some id then some (unitChar (ch % 0x10000).toNat) else none
  | _ => none

/-- A writer holds what the calls on it have appended. -/
theorem calls_writer {is : List Import} {as : List Answer}
    (h : calls args cwd c is = .ok (as, c')) {id : Nat} {w : String}
    (hget : c.store[id]? = some (.host (.stringWriter w))) :
    c'.store[id]? =
      some (.host (.stringWriter ((is.filterMap (Import.appends id)).foldl String.push w))) := by
  induction is generalizing c as w with
  | nil =>
    cases h
    exact hget
  | cons i is ih =>
    obtain ⟨a, c₁, as', hcall, hcalls, rfl⟩ := calls_cons h
    rw [List.filterMap_cons]
    by_cases hid : i.advances = some id
    · rcases call_advances hcall hid with ⟨ch, w', rfl, -⟩ | ⟨chars, pos, -, hget'⟩ |
        ⟨values, pos, -, hget'⟩
      · obtain ⟨st, hst, heq⟩ := bind_eq_ok.mp hcall
        cases heq
        obtain ⟨id', w', hid', hget', rfl⟩ := stringAppendChar_ok hst
        cases hid'
        cases hget.symm.trans hget'
        simp only [Import.appends, if_pos]
        exact ih hcalls (getElem?_set_of_some hget)
      · cases hget.symm.trans hget'
      · cases hget.symm.trans hget'
    · have hnone : i.appends id = none := by
        cases i with
        | stringAppendChar h' ch => exact if_neg hid
        | _ => rfl
      rw [hnone]
      exact ih hcalls (call_frame hcall hget hid)

/-- Reading to the end marker. -/
theorem takeWhile_reads {e : String} {texts : List String} {n : Nat}
    (h : texts = (args ++ List.replicate n e).take n) (he : e ∈ texts) :
    texts.takeWhile (· ≠ e) = args.takeWhile (· ≠ e) := by
  have hstops : ∀ xs ys : List String, e ∈ xs →
      (xs ++ ys).takeWhile (· ≠ e) = xs.takeWhile (· ≠ e) := by
    intro xs ys hmem
    rw [List.takeWhile_append, if_neg]
    intro hlen
    have hall := List.takeWhile_eq_self_iff.mp ((List.takeWhile_prefix _).eq_of_length hlen)
    exact of_decide_eq_true (hall e hmem) rfl
  have hwhole : (args ++ List.replicate n e).takeWhile (· ≠ e) = args.takeWhile (· ≠ e) := by
    rw [List.takeWhile_append]
    split
    case isTrue hlen =>
      have hself := (List.takeWhile_prefix (· ≠ e)).eq_of_length hlen
      rw [hself, List.takeWhile_replicate, if_neg (by simp), List.append_nil]
    case isFalse => rfl
  rw [← hwhole, ← List.take_append_drop n (args ++ List.replicate n e), ← h, hstops _ _ he]

/-! ### Main results -/

/-- In every run of imports that does not trap, whatever references they are called with: a writer
holds what was appended to it and nothing else; the reads of a string give its code units in order,
and then -1; the reads of an array give references to its strings in order, and then to the end
marker; strings and arrays stay as they are. -/
theorem references_independent {is : List Import} {as : List Answer}
    (h : calls args cwd c is = .ok (as, c')) (id : Nat) :
    (∀ w, c.store[id]? = some (.host (.stringWriter w)) → c'.store[id]? =
        some (.host (.stringWriter ((is.filterMap (Import.appends id)).foldl String.push w)))) ∧
      (∀ chars pos, c.store[id]? = some (.host (.stringReader chars pos)) →
        let codes := answersTo (.stringReadChar (some id)) is as
        codes = (reads (-1) (asI32 (chars.drop pos)) codes.length).map .code) ∧
      (∀ values pos, c.store[id]? = some (.host (.stringArrayReader values pos)) →
        let strings := answersTo (.stringArrayReadString (some id)) is as
        List.Forall₂ (RefersTo c'.store) strings
          (reads ffiEndOfStringArray (values.drop pos) strings.length)) ∧
      ∀ v, IsConstant v → c.store[id]? = some (.host v) → c'.store[id]? = some (.host v) :=
  ⟨fun _ hget => calls_writer h hget,
    fun chars pos hget => calls_reader h ⟨chars, pos, hget, rfl⟩,
    fun values pos hget => calls_arrayReader h ⟨values, pos, hget, rfl⟩,
    fun _ hconst hget => calls_immutable h hget hconst⟩

/-- A guest without arguments or environment. -/
def idleCaller (store : Store) : Caller := .start ⟨[], fun _ => none⟩ store

/-- Two writers at once. -/
theorem references_independent_two_writers : ∃ as c',
    calls [] "/" (idleCaller [.host (.stringWriter ""), .host (.stringWriter "x")])
        [.stringAppendChar (some 0) 97, .stringAppendChar (some 1) 98,
          .stringAppendChar (some 0) 99] = .ok (as, c') ∧
      c'.store[0]? = some (.host (.stringWriter "ac")) := by
  have h : calls [] "/" (idleCaller [.host (.stringWriter ""), .host (.stringWriter "x")])
      [.stringAppendChar (some 0) 97, .stringAppendChar (some 1) 98,
        .stringAppendChar (some 0) 99] = .ok (_, _) := rfl
  exact ⟨_, _, h, (references_independent h 0).1 "" rfl⟩

/-- A guest asks for its arguments and reads them through an array reader, with any other calls
before, between and after the reads.  It reads the arguments and then the end marker for ever; a
guest that stops at the first end marker has them all exactly when no argument is the marker
itself, and else those before the first that is. -/
theorem guest_reads_args {c₁ c₂ c₃ : Caller} {array reader : Handle} {mid is : List Import}
    {as₂ as : List Answer} (hargs : call args cwd c .argsGet = .ok (.reference array, c₁))
    (hmid : calls args cwd c₁ mid = .ok (as₂, c₂))
    (hbegin : call args cwd c₂ (.beginReadStringArray array) = .ok (.reference reader, c₃))
    (hreads : calls args cwd c₃ is = .ok (as, c')) :
    let strings := answersTo (.stringArrayReadString reader) is as
    let n := strings.length
    ∃ texts, List.Forall₂ (RefersTo c'.store) strings texts ∧
      texts = (args ++ List.replicate n ffiEndOfStringArray).take n ∧
      (ffiEndOfStringArray ∈ texts →
        let seen := texts.takeWhile (· ≠ ffiEndOfStringArray)
        seen = args.takeWhile (· ≠ ffiEndOfStringArray) ∧
          (seen = args ↔ ffiEndOfStringArray ∉ args)) := by
  intro strings n
  -- the array is still there when the reader is made
  cases hargs
  have harray : c₂.store[c.store.length]? = some (.host (.stringArray args)) := by
    refine calls_immutable hmid ?_ (.inr ⟨args, rfl⟩)
    show (c.store ++ [_])[_]? = _
    rw [List.getElem?_append_right (Nat.le_refl _), Nat.sub_self]
    rfl
  obtain ⟨r, hr, heq⟩ := bind_eq_ok.mp hbegin
  cases heq
  obtain ⟨values, hvalues, heq⟩ := bind_eq_ok.mp hr
  cases heq
  have hargs : values = args := by
    obtain ⟨v, hv, hvalues⟩ := bind_eq_ok.mp hvalues
    obtain ⟨id, hid, hget⟩ := of_hostValue hv
    cases hid
    cases harray.symm.trans hget
    cases hvalues
    rfl
  subst hargs
  have hat : StringsAt c₂.store.length (c₂.store ++ [.host (.stringArrayReader values 0)]) values := by
    refine ⟨values, 0, ?_, rfl⟩
    rw [List.getElem?_append_right (Nat.le_refl _), Nat.sub_self]
    rfl
  have htexts := calls_arrayReader hreads hat
  dsimp only at htexts
  rw [reads_eq] at htexts
  refine ⟨_, htexts, rfl, fun hmem => ?_⟩
  have hseen := takeWhile_reads rfl hmem
  refine ⟨hseen, ?_⟩
  rw [hseen, List.takeWhile_eq_self_iff]
  constructor
  · exact fun hall hin => of_decide_eq_true (hall _ hin) rfl
  · exact fun hnot x hx => decide_eq_true fun heq => hnot (heq ▸ hx)

/-- One argument, with the directory asked for in between. -/
theorem guest_reads_args_one :
    let array := ExternData.host (.stringArray ["x"])
    let cwd := ExternData.host (.string "/")
    let c₃ := idleCaller [array, cwd, .host (.stringArrayReader ["x"] 0)]
    ∃ as c', calls ["x"] "/" c₃ [.stringArrayReadString (some 2), .currentDir,
        .stringArrayReadString (some 2)] = .ok (as, c') ∧
      ∃ texts, texts = ["x", ffiEndOfStringArray] ∧
        texts.takeWhile (· ≠ ffiEndOfStringArray) = ["x"] := by
  intro array cwd c₃
  have hargs : call ["x"] "/" (idleCaller []) .argsGet =
      .ok (.reference (some 0), idleCaller [array]) := rfl
  have hmid : calls ["x"] "/" (idleCaller [array]) [.currentDir] =
      .ok ([.reference (some 1)], idleCaller [array, cwd]) := rfl
  have hbegin : call ["x"] "/" (idleCaller [array, cwd]) (.beginReadStringArray (some 0)) =
      .ok (.reference (some 2), c₃) := rfl
  have hreads : calls ["x"] "/" c₃ [.stringArrayReadString (some 2), .currentDir,
      .stringArrayReadString (some 2)] = .ok (_, _) := rfl
  obtain ⟨texts, -, heq, hseen⟩ := guest_reads_args hargs hmid hbegin hreads
  have htexts : texts = ["x", ffiEndOfStringArray] := heq
  obtain ⟨hseen, -⟩ := hseen (htexts ▸ by decide)
  exact ⟨_, _, hreads, texts, htexts, hseen⟩

end

end GuestEnv
