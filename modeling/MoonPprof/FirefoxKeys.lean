/-
What the keys of the Firefox converter tell apart.

The keys are texts with U+001F between fields and U+001E between frames; what
they say of a chain is its content without the source files.

* `canonicalKey_inj`, `funcKey_inj` — where the names contain no separator;
* `headMapping_of_canonicalKey` — the mapping of the head, whatever they contain.
-/
import MoonPprof.Delimited
import MoonPprof.Firefox
import MoonPprof.FloatText

namespace Firefox

/-- Neither separator occurs in the text. -/
def SepFree (s : String) : Prop := '\u001e' ∉ s.toList ∧ '\u001f' ∉ s.toList

instance (s : String) : Decidable (SepFree s) := inferInstanceAs (Decidable (_ ∧ _))

/-- What the canonical key says of a frame. -/
def keyed (f : ResolvedFrame) : Nat × Nat × String × Int :=
  (f.mappingIndex, f.address, f.name, f.line)

theorem toList_frameKey (f : ResolvedFrame) :
    (frameKey f).toList = (toString (f.mappingIndex : Int)).toList ++ '\u001f' ::
      ((toString (f.address : Int)).toList ++ '\u001f' :: (f.name.toList ++ '\u001f' ::
        (toString f.line).toList)) := by
  have hsep : ("\u001f" : String).toList = ['\u001f'] := by decide
  simp only [frameKey, String.toList_append, hsep, List.append_assoc, List.cons_append,
    List.nil_append]

/-- A printed integer contains no separator. -/
theorem not_mem_toString {c : Char} (hdigit : c.isDigit = false) (hminus : c ≠ '-') (n : Int) :
    c ∉ (toString n).toList := by
  intro hc
  rcases Text.isDigit_or_minus hc with h | h
  · rw [hdigit] at h
    cases h
  · exact hminus h

theorem natCast_of_toString {m n : Nat}
    (h : (toString (m : Int)).toList = (toString (n : Int)).toList) :
    m = n :=
  Int.ofNat.inj (Text.toString_inj (String.toList_inj.mp h))

theorem mappingIndex_of_frameKey {f g : ResolvedFrame} {r r' : List Char}
    (h : (frameKey f).toList ++ r = (frameKey g).toList ++ r') :
    f.mappingIndex = g.mappingIndex := by
  rw [toList_frameKey, toList_frameKey, List.append_assoc, List.append_assoc, List.cons_append,
    List.cons_append] at h
  exact natCast_of_toString (Delimited.append_cons_inj (not_mem_toString (by decide) (by decide) _)
    (not_mem_toString (by decide) (by decide) _) h).1

theorem frameKey_inj {f g : ResolvedFrame} (hf : SepFree f.name) (hg : SepFree g.name)
    (h : (frameKey f).toList = (frameKey g).toList) : keyed f = keyed g := by
  rw [toList_frameKey, toList_frameKey] at h
  obtain ⟨hmapping, h⟩ := Delimited.append_cons_inj (not_mem_toString (by decide) (by decide) _)
    (not_mem_toString (by decide) (by decide) _) h
  obtain ⟨haddress, h⟩ := Delimited.append_cons_inj (not_mem_toString (by decide) (by decide) _)
    (not_mem_toString (by decide) (by decide) _) h
  obtain ⟨hname, hline⟩ := Delimited.append_cons_inj hf.2 hg.2 h
  rw [keyed, keyed, natCast_of_toString hmapping, natCast_of_toString haddress,
    String.toList_inj.mp hname, Text.toString_inj (String.toList_inj.mp hline)]

theorem not_mem_frameKey {f : ResolvedFrame} (h : SepFree f.name) :
    '\u001e' ∉ (frameKey f).toList := by
  have hnum := not_mem_toString (c := '\u001e') (by decide) (by decide)
  rw [toList_frameKey]
  simp only [List.mem_append, List.mem_cons, not_or]
  exact ⟨hnum _, by decide, hnum _, by decide, h.1, by decide, hnum _⟩

theorem frameKey_ne_nil (f : ResolvedFrame) : (frameKey f).toList ≠ [] := by
  rw [toList_frameKey]
  simp

theorem toList_canonicalKey (chain : List ResolvedFrame) :
    (canonicalKey chain).toList =
      ['\u001e'].intercalate (chain.map fun f => (frameKey f).toList) := by
  have hsep : ("\u001e" : String).toList = ['\u001e'] := by decide
  rw [canonicalKey, String.toList_intercalate, hsep, List.map_map]
  rfl

/-- Equal keys belong to chains that agree on all but the files. -/
theorem canonicalKey_inj {chain chain' : List ResolvedFrame} (h : ∀ f ∈ chain, SepFree f.name)
    (h' : ∀ f ∈ chain', SepFree f.name) (hkey : canonicalKey chain = canonicalKey chain') :
    chain.map keyed = chain'.map keyed := by
  have hfields : ∀ {c : List ResolvedFrame}, (∀ f ∈ c, SepFree f.name) →
      ∀ x ∈ c.map fun f => (frameKey f).toList, '\u001e' ∉ x ∧ x ≠ [] := by
    intro c hc x hx
    obtain ⟨f, hf, rfl⟩ := List.mem_map.mp hx
    exact ⟨not_mem_frameKey (hc f hf), frameKey_ne_nil f⟩
  have hlist := congrArg String.toList hkey
  rw [toList_canonicalKey, toList_canonicalKey] at hlist
  have hmap := Delimited.intercalate_inj (hfields h) (hfields h') hlist
  clear hkey hlist
  induction chain generalizing chain' with
  | nil =>
    rw [List.map_nil, eq_comm, List.map_eq_nil_iff] at hmap
    rw [hmap]
  | cons f chain ih =>
    rcases chain' with _ | ⟨g, chain'⟩
    · cases hmap
    · obtain ⟨hhead, htail⟩ := List.cons.inj hmap
      have hrest := ih (fun f hf => h f (List.mem_cons_of_mem _ hf))
        (fun f hf => h' f (List.mem_cons_of_mem _ hf)) htail
      rw [List.map_cons, List.map_cons, hrest,
        frameKey_inj (h f List.mem_cons_self) (h' g List.mem_cons_self) hhead]

/-- Chains that agree on all but the files have equal keys. -/
theorem canonicalKey_congr {chain chain' : List ResolvedFrame}
    (h : chain.map keyed = chain'.map keyed) : canonicalKey chain = canonicalKey chain' := by
  have hkeys : ∀ c : List ResolvedFrame, c.map frameKey = (c.map keyed).map fun x =>
      toString (x.1 : Int) ++ "\u001f" ++ toString (x.2.1 : Int) ++ "\u001f" ++ x.2.2.1 ++
        "\u001f" ++ toString x.2.2.2 := by
    intro c
    rw [List.map_map]
    rfl
  rw [canonicalKey, canonicalKey, hkeys, hkeys, h]

theorem funcKey_inj {name file name' file' : String} (h : SepFree name) (h' : SepFree name')
    (hkey : funcKey name file = funcKey name' file') : name = name' ∧ file = file' := by
  have hlist := congrArg String.toList hkey
  have hsep : ("\u001f" : String).toList = ['\u001f'] := by decide
  simp only [funcKey, String.toList_append, hsep, List.append_assoc, List.singleton_append] at hlist
  obtain ⟨hname, hfile⟩ := Delimited.append_cons_inj h.2 h'.2 hlist
  exact ⟨String.toList_inj.mp hname, String.toList_inj.mp hfile⟩

/-- A key starts with the mapping of its head. -/
theorem headMapping_of_canonicalKey {chain chain' : List ResolvedFrame}
    (h : canonicalKey chain = canonicalKey chain') : headMapping chain = headMapping chain' := by
  have hlist := congrArg String.toList h
  rw [toList_canonicalKey, toList_canonicalKey] at hlist
  -- what follows the key of the first frame
  have hcons : ∀ (f : ResolvedFrame) (c : List ResolvedFrame), ∃ r,
      ['\u001e'].intercalate ((f :: c).map fun f => (frameKey f).toList) =
        (frameKey f).toList ++ r := by
    intro f c
    rcases c with _ | ⟨g, c⟩
    · exact ⟨[], by rw [List.map_singleton, List.intercalate_singleton, List.append_nil]⟩
    · rw [List.map_cons, List.map_cons, List.intercalate_cons_cons, List.append_assoc]
      exact ⟨_, rfl⟩
  rcases chain with _ | ⟨f, chain⟩
  · rcases chain' with _ | ⟨g, chain'⟩
    · rfl
    · obtain ⟨r, hr⟩ := hcons g chain'
      rw [hr, eq_comm, List.map_nil, List.intercalate_nil, List.append_eq_nil_iff] at hlist
      exact absurd hlist.1 (frameKey_ne_nil g)
  · rcases chain' with _ | ⟨g, chain'⟩
    · obtain ⟨r, hr⟩ := hcons f chain
      rw [hr, List.map_nil, List.intercalate_nil, List.append_eq_nil_iff] at hlist
      exact absurd hlist.1 (frameKey_ne_nil f)
    · obtain ⟨r, hr⟩ := hcons f chain
      obtain ⟨r', hr'⟩ := hcons g chain'
      rw [hr, hr'] at hlist
      show (f.mappingIndex + 1) % 2 ^ 64 = (g.mappingIndex + 1) % 2 ^ 64
      rw [mappingIndex_of_frameKey hlist]

end Firefox
