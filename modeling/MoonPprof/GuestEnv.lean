/-
The environment as a guest sees it (the environment imports of
`crates/moonbit-wasm-host`).

What the guest sets and unsets is laid over the environment of the process.  A
single name is looked up in both, and the list of all names merges the two.  The
process is asked for a single name (`getenv`) in another way than for all of them
(`vars`).

* `over_run` — after any calls, a name stands for what the last call on it says;
* `lookup_mergedEnv` — the merged environment is that of all names with the overrides;
* `guestEnv_agrees` — the imports agree after any calls, on names that were set or
  unset or for which the process answers as it lists.
-/
import MoonPprof.Delimited
import MoonPprof.HostStrings
import MoonPprof.Overlay
import Mathlib.Data.String.Basic

open HostStrings

namespace GuestEnv

/-- The environment of the process, as `std::env::vars()` lists it, and `std::env::var(key).ok()`. -/
structure ProcessEnv where
  vars : List (String × String)
  getenv : String → Option String

/-- The last value that the list has for a name. -/
def ProcessEnv.listed (env : ProcessEnv) (key : String) : Option String :=
  env.vars.reverse.lookup key

/-- The name is without an equals sign, and listed once at most. -/
def ProcessEnv.Plain (env : ProcessEnv) (key : String) : Prop :=
  '=' ∉ key.toList ∧ (env.vars.map Prod.fst).count key ≤ 1

instance (env : ProcessEnv) (key : String) : Decidable (env.Plain key) :=
  inferInstanceAs (Decidable (_ ∧ _))

/-- What a call of an import can see: the process around it, the values that references of the
guest lead to, and the names that have been set (`some`) or unset (`none`). -/
structure Caller where
  environ : ProcessEnv
  store : Store
  envOverrides : HashMap String (Option String)

/-- Before the first call. -/
def Caller.start (environ : ProcessEnv) (store : Store) : Caller := ⟨environ, store, ∅⟩

/-! ### The imports -/

def guestEnvVar (c : Caller) (key : String) : Option String :=
  match c.envOverrides.lookup key with
  | some (some value) => some value
  | some none => none
  | none => c.environ.getenv key

/-- The environment of the process with the overrides merged into it. -/
def mergedEnv (c : Caller) : HashMap String String :=
  c.envOverrides.inOrder.foldl
    (fun env e =>
      match e.2 with
      | some value => env.insert e.1 value
      | none => env.erase e.1)
    (HashMap.collect c.environ.vars)

/-- `flat_map(|(key, value)| [key, value])`. -/
def flatten (pairs : List (String × String)) : List String := pairs.flatMap fun kv => [kv.1, kv.2]

def guestEnvVars (c : Caller) : List String :=
  flatten ((mergedEnv c).inOrder.map fun e => (e.1, e.2))

/-- A new reference for the guest. -/
def Caller.new (c : Caller) (v : MoonbitHostValue) : Handle × Caller :=
  ((c.store.new v).1, { c with store := (c.store.new v).2 })

def getEnvVar (c : Caller) (key : Handle) : Except String (Handle × Caller) := do
  let key ← readString c.store key
  .ok (c.new (.string ((guestEnvVar c key).getD "")))

def getEnvVarExists (c : Caller) (key : Handle) : Except String Int := do
  let key ← readString c.store key
  .ok (if (guestEnvVar c key).isSome then 1 else 0)

def getEnvVars (c : Caller) : Handle × Caller := c.new (.stringArray (guestEnvVars c))

def setEnvVar (c : Caller) (key value : Handle) : Except String Caller := do
  let key ← readString c.store key
  let value ← readString c.store value
  .ok { c with envOverrides := c.envOverrides.insert key (some value) }

def unsetEnvVar (c : Caller) (key : Handle) : Except String Caller := do
  let key ← readString c.store key
  .ok { c with envOverrides := c.envOverrides.insert key none }

/-! ### Runs -/

/-- What a guest does: it sets or unsets a name, or calls other imports, which change what its
references lead to. -/
inductive Call where
  | setEnvVar (key value : Handle)
  | unsetEnvVar (key : Handle)
  | other (store : Store)

/-- The state after a call; one that traps leaves everything as it is. -/
def Caller.step (c : Caller) : Call → Caller
  | .setEnvVar key value => (GuestEnv.setEnvVar c key value).toOption.getD c
  | .unsetEnvVar key => (GuestEnv.unsetEnvVar c key).toOption.getD c
  | .other store => { c with store := store }

def Caller.run (c : Caller) (calls : List Call) : Caller := calls.foldl Caller.step c

/-- The string that a reference leads to. -/
def stringAt (st : Store) : Handle → Option String
  | none => none
  | some id =>
    match st[id]? with
    | some (.plain s) | some (.host (.string s)) | some (.host (.stringWriter s)) => some s
    | _ => none

/-- The name that a call changes, and what it stands for from then on; a call with a reference
that leads to no string changes none. -/
def Call.change (st : Store) : Call → Option (String × Option String)
  | .setEnvVar key value => do
    let key ← stringAt st key
    let value ← stringAt st value
    some (key, some value)
  | .unsetEnvVar key => do
    let key ← stringAt st key
    some (key, none)
  | .other _ => none

/-- The references after a call. -/
def Call.after (st : Store) : Call → Store
  | .other store => store
  | _ => st

/-- The changes of all calls. -/
def changesOf (st : Store) : List Call → List (String × Option String)
  | [] => []
  | call :: calls => (call.change st).toList ++ changesOf (call.after st) calls

/-! ### What the names stand for -/

theorem readString_toOption (st : Store) (h : Handle) :
    (readString st h).toOption = stringAt st h := by
  cases h with
  | none => rfl
  | some id =>
    rw [readString, Store.data, stringAt]
    rcases st[id]? with _ | _ | v | _
    · rfl
    · rfl
    · cases v <;> rfl
    · rfl

theorem readString_eq_ok {st : Store} {h : Handle} {s : String} (hs : stringAt st h = some s) :
    readString st h = .ok s := by
  rw [← readString_toOption] at hs
  cases hread : readString st h with
  | error e =>
    rw [hread] at hs
    cases hs
  | ok s' =>
    rw [hread] at hs
    cases hs
    rfl

theorem readString_error {st : Store} {h : Handle} (hs : stringAt st h = none) :
    ∃ e, readString st h = .error e := by
  rw [← readString_toOption] at hs
  cases hread : readString st h with
  | error e => exact ⟨e, rfl⟩
  | ok s =>
    rw [hread] at hs
    cases hs

/-- The overrides of a guest over an environment. -/
def Caller.over (c : Caller) (base : String → Option String) (key : String) : Option String :=
  (c.envOverrides.lookup key).getD (base key)

theorem guestEnvVar_eq (c : Caller) : guestEnvVar c = c.over c.environ.getenv := by
  funext key
  rw [guestEnvVar, Caller.over]
  rcases c.envOverrides.lookup key with _ | _ | value
  · rfl
  · rfl
  · rfl

theorem over_start (environ : ProcessEnv) (store : Store) (base : String → Option String) :
    (Caller.start environ store).over base = base := by
  funext key
  rw [Caller.over, Caller.start, AList.lookup_empty, Option.getD_none]

/-- All that a call does: the process keeps its environment, and the name that the call changes is
recorded. -/
theorem step_spec (c : Caller) (call : Call) :
    (c.step call).environ = c.environ ∧ (c.step call).store = call.after c.store ∧
      (c.step call).envOverrides =
        (call.change c.store).elim c.envOverrides fun kv => c.envOverrides.insert kv.1 kv.2 := by
  cases call with
  | setEnvVar key value =>
    rw [Caller.step, setEnvVar, Call.change, ← readString_toOption, ← readString_toOption]
    -- both references are read before anything is recorded
    cases readString c.store key with
    | error e => exact ⟨rfl, rfl, rfl⟩
    | ok key =>
      cases readString c.store value with
      | error e => exact ⟨rfl, rfl, rfl⟩
      | ok value => exact ⟨rfl, rfl, rfl⟩
  | unsetEnvVar key =>
    rw [Caller.step, unsetEnvVar, Call.change, ← readString_toOption]
    cases readString c.store key with
    | error e => exact ⟨rfl, rfl, rfl⟩
    | ok key => exact ⟨rfl, rfl, rfl⟩
  | other store => exact ⟨rfl, rfl, rfl⟩

/-- A call changes what one name stands for, or nothing. -/
theorem over_step (c : Caller) (call : Call) (base : String → Option String) :
    (c.step call).over base = updated (c.over base) (call.change c.store).toList := by
  obtain ⟨-, -, hoverrides⟩ := step_spec c call
  funext key
  rw [Caller.over, hoverrides]
  cases call.change c.store with
  | none => rfl
  | some kv =>
    show ((c.envOverrides.insert kv.1 kv.2).lookup key).getD _ =
      Function.update (c.over base) kv.1 kv.2 key
    by_cases hkey : key = kv.1
    · rw [hkey, Function.update_self, AList.lookup_insert, Option.getD_some]
    · rw [Function.update_of_ne hkey, AList.lookup_insert_ne hkey, Caller.over]

/-- After any calls the names stand for what they did before, with the changes made in order. -/
theorem over_run (c : Caller) (calls : List Call) (base : String → Option String) :
    (c.run calls).over base = updated (c.over base) (changesOf c.store calls) := by
  induction calls generalizing c with
  | nil => rfl
  | cons call calls ih =>
    rw [Caller.run, List.foldl_cons, ← Caller.run, ih, over_step, changesOf, updated_append,
      (step_spec c call).2.1]

/-- No call changes the environment of the process. -/
theorem environ_run (c : Caller) (calls : List Call) : (c.run calls).environ = c.environ := by
  induction calls generalizing c with
  | nil => rfl
  | cons call calls ih =>
    rw [Caller.run, List.foldl_cons, ← Caller.run, ih]
    exact (step_spec c call).1

/-! ### The views -/

theorem mergedEnv_eq (c : Caller) :
    mergedEnv c = (HashMap.collect c.environ.vars).overlay c.envOverrides.inOrder := by
  rw [mergedEnv, HashMap.overlay]
  congr 1
  funext env e
  cases e.2 with
  | none => rfl
  | some value => rfl

/-- The merge holds the overrides over the names that the process lists. -/
theorem lookup_mergedEnv (c : Caller) :
    (mergedEnv c).lookup = c.over c.environ.listed := by
  funext key
  have hperm : c.envOverrides.inOrder.Perm c.envOverrides.entries := sortByKey_perm _ _
  have hkeys : c.envOverrides.inOrder.NodupKeys :=
    (List.perm_nodupKeys hperm).mpr c.envOverrides.nodupKeys
  -- every override is one change, since each name is overridden once
  rw [mergedEnv_eq, HashMap.lookup_overlay hkeys, HashMap.lookup_collect,
    List.perm_dlookup key hkeys hperm]
  rfl

theorem readString_new (c : Caller) (s : String) :
    stringAt (c.new (.string s)).2.store (c.new (.string s)).1 = some s := by
  show stringAt (c.store ++ [.host (.string s)]) (some c.store.length) = _
  rw [stringAt, List.getElem?_append_right (Nat.le_refl _), Nat.sub_self]
  rfl

/-- Whether there is a value, and which, is the value if any. -/
theorem option_eq_iff {o o' : Option String} :
    (if o.isSome then (1 : Int) else 0) = (if o'.isSome then 1 else 0) ∧ o.getD "" = o'.getD "" ↔
      o = o' := by
  cases o <;> cases o' <;> simp

/-- What the two imports for a name answer. -/
theorem getEnvVar_ok {c : Caller} {h : Handle} {key : String} (hkey : stringAt c.store h = some key) :
    getEnvVarExists c h = .ok (if (guestEnvVar c key).isSome then 1 else 0) ∧
      ∃ r, getEnvVar c h = .ok r ∧ stringAt r.2.store r.1 = some ((guestEnvVar c key).getD "") := by
  have hread := readString_eq_ok hkey
  refine ⟨?_, _, ?_, readString_new c _⟩
  · rw [getEnvVarExists, hread]
    rfl
  · rw [getEnvVar, hread]
    rfl

/-- The imports tell of a name what a list of pairs has of it. -/
def Tells (c : Caller) (pairs : List (String × String)) (h : Handle) (key : String) : Prop :=
  getEnvVarExists c h = .ok (if key ∈ pairs.map Prod.fst then 1 else 0) ∧
    ∃ r, getEnvVar c h = .ok r ∧ stringAt r.2.store r.1 = some ((pairs.lookup key).getD "")

theorem tells_iff {c : Caller} {env : String → Option String} {pairs : List (String × String)}
    (hpairs : IsListing env pairs) {h : Handle} {key : String}
    (hkey : stringAt c.store h = some key) :
    Tells c pairs h key ↔ guestEnvVar c key = env key := by
  obtain ⟨hexists, r, hget, hvalue⟩ := getEnvVar_ok hkey
  rw [Tells, hexists, hget, ← option_eq_iff, hpairs.lookup]
  simp only [hpairs.mem_keys, Except.ok.injEq, exists_eq_left', hvalue, Option.some.injEq]

/-- After any calls that set and unset names, with anything else between them: the environment of
the process is as it was; the list of all variables is that environment, updated by the calls in
their order, each name once and sorted; and through a reference to a name that was set or unset, or
is without an equals sign and listed by the process once at most, the name exists exactly when it is
in this list, with its value there, the empty string when it is not.  For any other name the same
holds exactly when the process answers for it as it lists; and a reference to no string traps. -/
theorem guestEnv_agrees (environ : ProcessEnv)
    (hgetenv : ∀ key, environ.Plain key → environ.getenv key = environ.listed key)
    (store : Store) (calls : List Call) :
    let c := (Caller.start environ store).run calls
    let changes := changesOf store calls
    let env := updated environ.listed changes
    c.environ = environ ∧
      ∃ pairs, IsListing env pairs ∧
        (getEnvVars c).2.store.data (getEnvVars c).1 =
          .ok (.host (.stringArray (flatten pairs))) ∧
        (∀ h key, stringAt c.store h = some key →
          ((key ∈ changes.map Prod.fst ∨ environ.Plain key) → Tells c pairs h key) ∧
          (Tells c pairs h key ↔ key ∈ changes.map Prod.fst ∨
            environ.getenv key = environ.listed key)) ∧
        ∀ h, stringAt c.store h = none →
          (∃ e, getEnvVarExists c h = .error e) ∧ ∃ e, getEnvVar c h = .error e := by
  intro c changes env
  have hc : c.environ = environ := environ_run _ _
  have hover : ∀ base, c.over base = updated base changes := by
    intro base
    rw [over_run, over_start]
    rfl
  let pairs := (mergedEnv c).inOrder.map fun e => (e.1, e.2)
  have hlisting : IsListing env pairs := by
    have hlookup : (mergedEnv c).lookup = env := by
      rw [lookup_mergedEnv, hc, hover]
    exact hlookup ▸ HashMap.isListing_inOrder _
  -- both views are updated by the same changes, so only the other names can differ
  have htells : ∀ h key, stringAt c.store h = some key →
      (Tells c pairs h key ↔ key ∈ changes.map Prod.fst ∨
        environ.getenv key = environ.listed key) := by
    intro h key hkey
    rw [tells_iff hlisting hkey, guestEnvVar_eq, hc, hover, updated_eq_iff]
  refine ⟨hc, pairs, hlisting, data_last _ _, fun h key hkey => ⟨fun hname => ?_, htells h key hkey⟩,
    fun h hnone => ?_⟩
  · exact (htells h key hkey).mpr (hname.imp_right (hgetenv key))
  · obtain ⟨e, he⟩ := readString_error hnone
    refine ⟨⟨e, ?_⟩, e, ?_⟩
    · rw [getEnvVarExists, he]
      rfl
    · rw [getEnvVar, he]
      rfl

/-! ### The C library -/

/-- `getenv`: of the entries `name=value` the first one that begins with the key and an equals
sign. -/
def getenv (vars : List (String × String)) (key : String) : Option String :=
  if key = "" then none
  else vars.findSome? fun kv =>
    let entry := kv.1.toList ++ '=' :: kv.2.toList
    if key.toList ++ ['='] <+: entry then some (String.ofList (entry.drop (key.length + 1)))
    else none

/-- Where the names have no equals signs, a key without one is looked up in the list. -/
theorem getenv_eq_lookup {vars : List (String × String)}
    (hvars : ∀ kv ∈ vars, kv.1 ≠ "" ∧ '=' ∉ kv.1.toList) {key : String} (hkey : '=' ∉ key.toList) :
    getenv vars key = vars.lookup key := by
  rw [getenv]
  split
  · rename_i hempty
    refine (List.lookup_eq_none_iff.mpr fun kv hkv => ?_).symm
    exact bne_iff_ne.mpr fun heq => (hvars kv hkv).1 (heq.symm.trans hempty)
  · induction vars with
    | nil => rfl
    | cons kv vars ih =>
      obtain ⟨⟨-, hname⟩, hrest⟩ := List.forall_mem_cons.mp hvars
      rw [List.findSome?_cons, List.lookup_cons]
      by_cases hk : key = kv.1
      · subst hk
        have hlength : (kv.1.toList ++ ['=']).length = kv.1.length + 1 := by
          rw [List.length_append, String.length_toList, List.length_singleton]
        rw [if_pos ⟨kv.2.toList, by simp⟩, beq_self_eq_true, List.append_cons,
          List.drop_left' hlength, String.ofList_toList]
      · have hnot : ¬ key.toList ++ ['='] <+: kv.1.toList ++ '=' :: kv.2.toList := by
          rintro ⟨rest, hrest⟩
          rw [List.append_assoc, List.singleton_append] at hrest
          exact hk (String.toList_inj.mp (Delimited.append_cons_inj hkey hname hrest).1)
        rw [if_neg hnot, beq_false_of_ne hk]
        exact ih hrest

/-- And where it comes once at most, that is what the process lists. -/
theorem getenv_eq_listed {vars : List (String × String)}
    (hvars : ∀ kv ∈ vars, kv.1 ≠ "" ∧ '=' ∉ kv.1.toList) {key : String}
    (hkey : (ProcessEnv.mk vars (getenv vars)).Plain key) :
    getenv vars key = (ProcessEnv.mk vars (getenv vars)).listed key := by
  rw [getenv_eq_lookup hvars hkey.1, ProcessEnv.listed, HashMap.lookup_reverse hkey.2]

/-- A guest of a process with these variables, with a reference to a name. -/
def withEnviron (vars : List (String × String)) (name : String) : Caller :=
  .start ⟨vars, getenv vars⟩ [.plain name]

/-- A name is set, one that is listed twice is unset, and a third left alone. -/
theorem guestEnv_agrees_home :
    let vars := [("A", "B=C"), ("HOME", "/root"), ("A", "D")]
    let environ : ProcessEnv := ⟨vars, getenv vars⟩
    let store : Store := [.plain "PATH", .host (.string "/bin"), .plain "A", .plain "HOME"]
    let c := (Caller.start environ store).run
      [.setEnvVar (some 0) (some 1), .unsetEnvVar (some 2)]
    ∃ pairs, IsListing (updated environ.listed [("PATH", some "/bin"), ("A", none)]) pairs ∧
      Tells c pairs (some 0) "PATH" ∧ Tells c pairs (some 2) "A" ∧
        Tells c pairs (some 3) "HOME" := by
  intro vars environ store c
  obtain ⟨-, pairs, hlisting, -, htells, -⟩ := guestEnv_agrees environ
    (fun key hkey => getenv_eq_listed (by decide) hkey) store
    [.setEnvVar (some 0) (some 1), .unsetEnvVar (some 2)]
  exact ⟨pairs, hlisting, (htells (some 0) "PATH" rfl).1 (by decide),
    (htells (some 2) "A" rfl).1 (by decide), (htells (some 3) "HOME" rfl).1 (by decide)⟩

/-- The entry `A=B=C` has a value for the key `A=B`, which is no name of the list; and of two
entries with one name the single key has the first and the list the second. -/
theorem guestEnv_disagrees :
    (getEnvVarExists (withEnviron [("A", "B=C")] "A=B") (some 0) = .ok 1 ∧
      guestEnvVars (withEnviron [("A", "B=C")] "A=B") = ["A", "B=C"]) ∧
    ((getEnvVar (withEnviron [("A", "1"), ("A", "2")] "A") (some 0)).toOption.bind
        (fun r => stringAt r.2.store r.1) = some "1" ∧
      guestEnvVars (withEnviron [("A", "1"), ("A", "2")] "A") = ["A", "2"]) := by
  refine ⟨⟨rfl, ?_⟩, ?_, ?_⟩ <;> decide +kernel

end GuestEnv
