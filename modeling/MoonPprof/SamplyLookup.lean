/-
What the sidecar of samply says of an address.

* `lt_countP_iff` — in a sorted list, the elements below a bound come first;
* `entryAt_spec` — the search finds the last symbol that starts at or before an
  address, where there is one;
* `lookup_samply` — of disjoint symbols, in any order, the one that covers the
  address is resolved, and an address that none covers is not.
-/
import MoonPprof.FirefoxResolvers

/-- The elements of a sorted list that are below a bound are its first ones. -/
theorem lt_countP_iff {keys : List Nat} (h : keys.Pairwise (· ≤ ·)) {i k : Nat} (bound : Nat)
    (hi : keys[i]? = some k) : i < keys.countP (· < bound) ↔ k < bound := by
  induction keys generalizing i with
  | nil => cases hi
  | cons key keys ih =>
    obtain ⟨hle, hkeys⟩ := List.pairwise_cons.mp h
    rw [List.countP_cons]
    rcases i with _ | i
    · obtain rfl : key = k := Option.some.inj hi
      by_cases hlt : key < bound
      · simp [hlt]
      · -- nothing after it is below the bound either
        have hnone : keys.countP (· < bound) = 0 := by
          rw [List.countP_eq_zero]
          intro x hx
          have := hle x hx
          simp only [decide_eq_true_eq]
          omega
        simp [hlt, hnone]
    · have hrest := ih hkeys hi
      by_cases hlt : key < bound
      · simp [hlt, hrest]
      · have := hle k (List.mem_of_getElem? hi)
        have hnot : ¬i < keys.countP (· < bound) := by
          rw [hrest]
          omega
        simp only [hlt, decide_false, Bool.false_eq_true, if_false]
        omega

namespace Firefox

/-- The address lies in the range of the symbol. -/
def SymEntry.Covers (e : SymEntry) (rva : Nat) : Prop := e.rva ≤ rva ∧ rva < e.rva + e.size

/-- Each library has a name of its own, and disjoint symbols that are not empty and
end in 64 bits. -/
structure SamplySyms.WellFormed (syms : SamplySyms) : Prop where
  names : (syms.data.map LibSyms.debugName).Nodup
  sizes : ∀ lib ∈ syms.data, ∀ e ∈ lib.symbolTable, 0 < e.size ∧ e.rva + e.size < 2 ^ 64
  disjoint : ∀ lib ∈ syms.data,
    lib.symbolTable.Pairwise fun a b => ∀ rva, ¬(a.Covers rva ∧ b.Covers rva)

/-- The text with an index (`as usize`); a negative one, or one behind the table, has none. -/
def SamplySyms.text (syms : SamplySyms) : Int → String
  | .ofNat i => syms.stringTable[i % 2 ^ 64]?.getD ""
  | .negSucc _ => ""

/-- The frame of a call that was inlined into a symbol: without a name it has the symbol's. -/
def SamplySyms.inlinedFrame (syms : SamplySyms) (e : SymEntry) (rva : Nat) (f : SymFrame) :
    ResolvedFrame where
  name := if syms.text f.function = "" then syms.text e.symbol else syms.text f.function
  file := (f.file.map syms.text).getD ""
  line := f.line.getD 0
  mappingIndex := 0
  address := rva

/-- The symbol that the search for an address arrives at. -/
def entryAt (table : List SymEntry) (rva : Nat) : Option SymEntry := do
  let idx ←
    match binarySearch (table.map SymEntry.rva) rva with
    | .ok i => some i
    | .error 0 => none
    | .error (i + 1) => some i
  table[idx]?

theorem lookup_eq (r : SamplySymsResolver) (debugName : String) (rva : Nat) :
    r.lookup debugName rva = (r.libs.lookup debugName).bind fun lib =>
      (entryAt lib.symbolTable rva).bind fun sym =>
        if rva ≥ (sym.rva + sym.size) % 2 ^ 64 then none else some (r.symFrames sym rva) := by
  rw [SamplySymsResolver.lookup]
  rcases r.libs.lookup debugName with _ | lib
  · rfl
  · simp only [entryAt, Option.bind_eq_bind, Option.bind_some]
    rcases binarySearch (lib.symbolTable.map SymEntry.rva) rva with (_ | i) | i <;> rfl

/-- The last symbol that starts at or before the address. -/
theorem entryAt_spec {table : List SymEntry}
    (h : table.Pairwise fun a b => a.rva ≤ b.rva) (rva : Nat) :
    (entryAt table rva = none ∧ ∀ e ∈ table, rva < e.rva) ∨
      ∃ e ∈ table, entryAt table rva = some e ∧ e.rva ≤ rva ∧
        ∀ e' ∈ table, e'.rva ≤ rva → e'.rva ≤ e.rva := by
  have hsorted : (table.map SymEntry.rva).Pairwise (· ≤ ·) := List.pairwise_map.mpr h
  have hkey : ∀ {i : Nat} {e : SymEntry}, table[i]? = some e →
      (table.map SymEntry.rva)[i]? = some e.rva := by
    intro i e he
    rw [List.getElem?_map, he, Option.map_some]
  rw [entryAt, binarySearch]
  rcases hfound : (table.map SymEntry.rva).idxOf? rva with _ | i
  · have hne : ∀ e ∈ table, e.rva ≠ rva := fun e he heq =>
      List.idxOf?_eq_none_iff.mp hfound (heq ▸ List.mem_map_of_mem he)
    rcases hn : (table.map SymEntry.rva).countP (· < rva) with _ | i
    · -- every symbol starts behind the address
      refine Or.inl ⟨rfl, fun e he => ?_⟩
      have hnot := List.countP_eq_zero.mp hn e.rva (List.mem_map_of_mem he)
      have := hne e he
      simp only [decide_eq_true_eq] at hnot
      omega
    · -- `i + 1` symbols start before the address, and `i` is the last of them
      have hle := List.countP_le_length (p := (· < rva)) (l := table.map SymEntry.rva)
      rw [hn, List.length_map] at hle
      have hget : table[i]? = some table[i] := List.getElem?_eq_getElem hle
      have hlt := (lt_countP_iff hsorted rva (hkey hget)).mp (by omega)
      refine Or.inr ⟨table[i], List.getElem_mem hle, hget, by omega, fun e' he' hle' => ?_⟩
      obtain ⟨j, hj, rfl⟩ := List.getElem_of_mem he'
      have hlt' : table[j].rva < rva := by
        have := hne _ he'
        omega
      have hji := (lt_countP_iff hsorted rva (hkey (List.getElem?_eq_getElem hj))).mpr hlt'
      rcases Nat.lt_or_ge j i with hlt | hge
      · exact List.pairwise_iff_getElem.mp h j i hj hle hlt
      · obtain rfl : j = i := by omega
        exact le_refl _
  · obtain ⟨hlt, hget, -⟩ := List.idxOf?_eq_some_iff.mp hfound
    rw [List.length_map] at hlt
    rw [List.getElem_map] at hget
    exact Or.inr ⟨table[i], List.getElem_mem hlt, List.getElem?_eq_getElem hlt, by omega,
      fun e' _ hle => by omega⟩

/-- Of disjoint symbols that are not empty the search arrives at the one that covers
the address. -/
theorem entryAt_of_covers {table : List SymEntry} (hpos : ∀ e ∈ table, 0 < e.size)
    (hdisjoint : table.Pairwise fun a b => ∀ rva, ¬(a.Covers rva ∧ b.Covers rva)) {rva : Nat}
    {e : SymEntry} (he : e ∈ table) (hcovers : e.Covers rva) :
    entryAt (sortByKey SymEntry.rva table) rva = some e := by
  have hmem : ∀ {x}, x ∈ sortByKey SymEntry.rva table ↔ x ∈ table :=
    (sortByKey_perm SymEntry.rva table).mem_iff
  rcases entryAt_spec (pairwise_sortByKey SymEntry.rva table) rva with ⟨-, hnone⟩ | hsome
  · have hlt := hnone e (hmem.mpr he)
    exact absurd hcovers.1 (by omega)
  · obtain ⟨last, hlast, hentry, hle, hmax⟩ := hsome
    have hstart := hmax e (hmem.mpr he) hcovers.1
    have hlastpos := hpos last (hmem.mp hlast)
    -- both cover the address at which the last one starts
    have heq : e = last := by
      by_contra hne
      have hsymm : Std.Symm fun a b : SymEntry => ∀ rva, ¬(a.Covers rva ∧ b.Covers rva) :=
        ⟨fun a b hab rva hba => hab rva hba.symm⟩
      have hrange := hcovers.2
      exact hdisjoint.forall he (hmem.mp hlast) hne last.rva
        ⟨⟨hstart, by omega⟩, ⟨le_refl _, by omega⟩⟩
    rw [hentry, heq]

variable {syms : SamplySyms}

theorem lookup_libs (h : syms.WellFormed) {lib : LibSyms} (hlib : lib ∈ syms.data) :
    syms.load.intoResolver.libs.lookup lib.debugName =
      some { lib with symbolTable := sortByKey SymEntry.rva lib.symbolTable } := by
  have hnames : (syms.load.data.map LibSyms.debugName).Nodup := by
    have hmap : syms.load.data.map LibSyms.debugName = syms.data.map LibSyms.debugName := by
      rw [SamplySyms.load, List.map_map]
      rfl
    rw [hmap]
    exact h.names
  exact HashMap.indexBy_of_mem hnames (List.mem_map_of_mem hlib)

/-- What the search arrives at, if it covers the address. -/
theorem lookup_eq_entryAt (h : syms.WellFormed) {lib : LibSyms} (hlib : lib ∈ syms.data)
    (rva : Nat) :
    syms.load.intoResolver.lookup lib.debugName rva =
      (entryAt (sortByKey SymEntry.rva lib.symbolTable) rva).bind fun sym =>
        if rva ≥ (sym.rva + sym.size) % 2 ^ 64 then none
        else some (syms.load.intoResolver.symFrames sym rva) := by
  rw [lookup_eq, lookup_libs h hlib, Option.bind_some]

theorem lookup_of_covers (h : syms.WellFormed) {lib : LibSyms} (hlib : lib ∈ syms.data)
    {rva : Nat} {e : SymEntry} (he : e ∈ lib.symbolTable) (hcovers : e.Covers rva) :
    syms.load.intoResolver.lookup lib.debugName rva =
      some (syms.load.intoResolver.symFrames e rva) := by
  have hentry := entryAt_of_covers (fun e he => (h.sizes lib hlib e he).1)
    (h.disjoint lib hlib) he hcovers
  rw [lookup_eq_entryAt h hlib, hentry, Option.bind_some,
    Nat.mod_eq_of_lt (h.sizes lib hlib e he).2, if_neg (Nat.not_le_of_lt hcovers.2)]

theorem lookup_of_not_covers (h : syms.WellFormed) {lib : LibSyms} (hlib : lib ∈ syms.data)
    {rva : Nat} (hno : ∀ e ∈ lib.symbolTable, ¬e.Covers rva) :
    syms.load.intoResolver.lookup lib.debugName rva = none := by
  rw [lookup_eq_entryAt h hlib]
  rcases entryAt_spec (pairwise_sortByKey SymEntry.rva lib.symbolTable) rva with
    ⟨hnone, -⟩ | ⟨e, he, hentry, hle, -⟩
  · rw [hnone, Option.bind_none]
  · replace he : e ∈ lib.symbolTable := (sortByKey_perm SymEntry.rva _).mem_iff.mp he
    have hend : e.rva + e.size ≤ rva := Nat.le_of_not_lt fun hlt => hno e he ⟨hle, hlt⟩
    rw [hentry, Option.bind_some, Nat.mod_eq_of_lt (h.sizes lib hlib e he).2, if_pos hend]

/-- The resolver reads the texts of the sidecar. -/
theorem st_intoResolver (syms : SamplySyms) (i : Int) :
    syms.load.intoResolver.st i = syms.text i := by
  cases i with
  | ofNat n =>
    rw [SamplySymsResolver.st, if_neg (by simp), toUsize]
    rfl
  | negSucc n => exact if_pos (Int.negSucc_lt_zero n)

theorem symFrames_reverse (syms : SamplySyms) {e : SymEntry} (h : e.frames ≠ []) (rva : Nat) :
    syms.load.intoResolver.symFrames e rva =
      (e.frames.map (syms.inlinedFrame e rva)).reverse := by
  rw [SamplySymsResolver.symFrames, if_neg (by simpa using h), ← List.map_reverse]
  refine List.map_congr_left fun f _ => ?_
  have hst : syms.load.intoResolver.st = syms.text := funext (st_intoResolver syms)
  simp only [hst, SamplySyms.inlinedFrame, String.isEmpty_iff]

/-- An address is resolved exactly when a symbol of its library covers it, and to the
frames of that symbol: its own one, or those inlined into it in reverse order. -/
theorem lookup_samply (h : syms.WellFormed) :
    let r := syms.load.intoResolver
    (∀ lib ∈ syms.data, ∀ rva,
      (r.lookup lib.debugName rva = none ↔ ∀ e ∈ lib.symbolTable, ¬e.Covers rva) ∧
      ∀ e ∈ lib.symbolTable, e.Covers rva →
        ∃ frames, r.lookup lib.debugName rva = some frames ∧
          (e.frames = [] → frames = [⟨syms.text e.symbol, "", 0, 0, rva⟩]) ∧
          (e.frames ≠ [] → frames = (e.frames.map (syms.inlinedFrame e rva)).reverse)) ∧
    ∀ name, (∀ lib ∈ syms.data, lib.debugName ≠ name) → ∀ rva, r.lookup name rva = none := by
  intro r
  refine ⟨fun lib hlib rva => ⟨⟨fun hnone e he hcovers => ?_, lookup_of_not_covers h hlib⟩,
    fun e he hcovers => ⟨_, lookup_of_covers h hlib he hcovers, fun hnil => ?_,
      fun hne => symFrames_reverse syms hne rva⟩⟩, fun name hname rva => ?_⟩
  · have hsome := lookup_of_covers h hlib he hcovers
    rw [show syms.load.intoResolver.lookup lib.debugName rva = none from hnone] at hsome
    cases hsome
  · rw [SamplySymsResolver.symFrames, if_pos (by simp [hnil]), st_intoResolver]
  · rcases hlib : r.libs.lookup name with _ | lib
    · rw [lookup_eq, hlib, Option.bind_none]
    · obtain ⟨hmem, heq⟩ := HashMap.lookup_indexBy hlib
      obtain ⟨lib', hlib', rfl⟩ := List.mem_map.mp hmem
      exact absurd heq (hname lib' hlib')

/-- A library with two symbols, of which the first in memory has two inlined calls, one of them
without a name. -/
def mainSyms : SamplySyms where
  data := [⟨"main.exe",
    [⟨8192, 128, 1, []⟩, ⟨4096, 64, 2, [⟨1, some 3, some 7⟩, ⟨-1, none, none⟩]⟩]⟩]
  stringTable := ["", "outer_fn", "with_inline", "outer.mbt"]

/-- Addresses in each of the symbols, and one behind both. -/
theorem lookup_samply_main :
    mainSyms.load.intoResolver.lookup "main.exe" 4100 =
        some [⟨"with_inline", "", 0, 0, 4100⟩, ⟨"outer_fn", "outer.mbt", 7, 0, 4100⟩] ∧
      mainSyms.load.intoResolver.lookup "main.exe" 8192 = some [⟨"outer_fn", "", 0, 0, 8192⟩] ∧
      mainSyms.load.intoResolver.lookup "main.exe" 12288 = none := by
  have h : mainSyms.WellFormed := by
    refine ⟨by simp [mainSyms], by simp [mainSyms], ?_⟩
    simp only [mainSyms, List.forall_mem_singleton, List.pairwise_pair, SymEntry.Covers]
    omega
  have hmain := (lookup_samply h).1 _ (List.mem_singleton_self _)
  refine ⟨?_, ?_, (hmain 12288).1.mpr fun e he hcovers => ?_⟩
  · obtain ⟨frames, hlookup, -, hinlined⟩ :=
      (hmain 4100).2 _ (List.mem_cons_of_mem _ (List.mem_singleton_self _)) ⟨by decide, by decide⟩
    rw [hlookup, hinlined (by simp)]
    decide
  · obtain ⟨frames, hlookup, hown, -⟩ :=
      (hmain 8192).2 _ List.mem_cons_self ⟨by decide, by decide⟩
    rw [hlookup, hown rfl]
    decide
  · have hend := hcovers.2
    rcases List.mem_pair.mp he with rfl | rfl
    · exact absurd hend (by decide)
    · exact absurd hend (by decide)

end Firefox
