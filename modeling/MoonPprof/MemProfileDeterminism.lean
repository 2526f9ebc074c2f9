/-
When the order of the stacks is invisible in a memory profile.

* `interchangeable_of_eq` — if any two orders give one profile, the stacks are
  interchangeable;
* `eq_of_interchangeable` — and if they are, any two orders do;
* `encodePprof_eq_iff` — both.
-/
import MoonPprof.MemProfileOrder

open Proto

namespace MemProfile

/-- The function of the frame at a place of a stack. -/
def funcAt (frames : List FrameKey) (a : Nat) : Option Nat := frames[a]?.map FrameKey.funcIndex

/-- The stacks are as deep and have allocated as much as each other, have the same function at
the same places of one stack and of two different ones, and the same name where a function is
first met. -/
structure Interchangeable (entries : List Entry) : Prop where
  agg : ∀ x ∈ entries, ∀ y ∈ entries, x.2 = y.2
  depth : ∀ x ∈ entries, ∀ y ∈ entries, x.1.length = y.1.length
  within : ∀ x ∈ entries, ∀ y ∈ entries, ∀ a b,
    funcAt x.1 a = funcAt x.1 b → funcAt y.1 a = funcAt y.1 b
  across : ∀ x ∈ entries, ∀ y ∈ entries, ∀ x' ∈ entries, ∀ y' ∈ entries, x ≠ y → x' ≠ y' →
    ∀ a b, funcAt x.1 a = funcAt y.1 b → funcAt x'.1 a = funcAt y'.1 b
  name : ∀ x ∈ entries, ∀ y ∈ entries, ∀ a f g, x.1[a]? = some f → y.1[a]? = some g →
    (∀ b < a, funcAt x.1 b ≠ some f.funcIndex) → f.rawName = g.rawName

/-! ### From the profiles -/

/-- Frames that have been numbered. -/
def Numbered (fs frames : List FrameKey) : Prop :=
  ∀ frame ∈ frames, frame.funcIndex ∈ fs.map FrameKey.funcIndex

theorem numbered_firstFrames {entries : List Entry} {x : Entry} (hx : x ∈ entries) :
    Numbered (firstFrames entries) x.1 := by
  intro frame hframe
  rw [firstFrames, mem_firsts]
  exact List.mem_map_of_mem (List.mem_flatMap.mpr ⟨x, hx, hframe⟩)

theorem getElem?_idsOf (fs frames : List FrameKey) (a : Nat) :
    (idsOf fs frames)[a]? =
      (funcAt frames a).map fun k => (fs.map FrameKey.funcIndex).idxOf k + 1 := by
  rw [idsOf, List.getElem?_map, funcAt, Option.map_map]
  rfl

/-- Equal ids stand for equal functions. -/
theorem idsOf_getElem?_eq_iff {fs frames frames' : List FrameKey} (h : Numbered fs frames)
    (a b : Nat) :
    (idsOf fs frames)[a]? = (idsOf fs frames')[b]? ↔ funcAt frames a = funcAt frames' b := by
  rw [getElem?_idsOf, getElem?_idsOf]
  refine ⟨fun heq => ?_, fun heq => by rw [heq]⟩
  have hmem : ∀ k, funcAt frames a = some k → k ∈ fs.map FrameKey.funcIndex := by
    intro k hk
    obtain ⟨frame, hframe, rfl⟩ := Option.map_eq_some_iff.mp hk
    exact h frame (List.mem_of_getElem? hframe)
  cases hk : funcAt frames a with
  | none =>
    cases hk' : funcAt frames' b with
    | none => rfl
    | some k' =>
      rw [hk, hk'] at heq
      cases heq
  | some k =>
    cases hk' : funcAt frames' b with
    | none =>
      rw [hk, hk'] at heq
      cases heq
    | some k' =>
      rw [hk, hk', Option.map_some, Option.map_some, Option.some.injEq,
        Nat.add_right_cancel_iff] at heq
      rw [(List.idxOf_inj (hmem k hk)).mp heq]

variable {decode : String → String} {noDemangle : Bool}

theorem samplesOf_cons_inj {fs fs' : List FrameKey} {x y : Entry} {l l' : List Entry}
    (hx : x.1 ≠ []) (hy : y.1 ≠ []) (h : samplesOf fs (x :: l) = samplesOf fs' (y :: l')) :
    x.2 = y.2 ∧ idsOf fs x.1 = idsOf fs' y.1 ∧ samplesOf fs l = samplesOf fs' l' := by
  rw [samplesOf, samplesOf, List.filter_cons_of_pos (by simpa using hx),
    List.filter_cons_of_pos (by simpa using hy), List.map_cons, List.map_cons] at h
  obtain ⟨hsample, hrest⟩ := List.cons.inj h
  obtain ⟨hids, hvalue, -⟩ := Sample.mk.inj hsample
  obtain ⟨hcount, hbytes⟩ := List.cons.inj hvalue
  exact ⟨SampleAgg.ext hcount (List.cons.inj hbytes).1, hids, hrest⟩

/-- The first frame of the first stack that runs a function names it. -/
theorem firstFrames_get {x : Entry} {l : List Entry} {a : Nat} {f : FrameKey}
    (hf : x.1[a]? = some f) (hfirst : ∀ b < a, funcAt x.1 b ≠ some f.funcIndex) :
    (firstFrames (x :: l))[number FrameKey.funcIndex (firstFrames (x :: l)) f]? = some f := by
  obtain ⟨ha, hget⟩ := List.getElem?_eq_some_iff.mp hf
  have hsplit : (x :: l).flatMap Sigma.fst =
    x.1.take a ++ f :: (x.1.drop (a + 1) ++ l.flatMap Sigma.fst) := by
    rw [List.flatMap_cons, ← List.cons_append, ← hget, List.getElem_cons_drop, ← List.append_assoc,
      List.take_append_drop]
  rw [firstFrames, hsplit]
  refine firsts_of_split fun hmem => ?_
  obtain ⟨g, hg, hkey⟩ := List.mem_map.mp hmem
  obtain ⟨b, hb, hgb⟩ := List.getElem_of_mem hg
  rw [List.length_take] at hb
  refine hfirst b (by omega) ?_
  rw [funcAt, ← List.getElem?_take_of_lt (show b < a by omega), List.getElem?_eq_getElem (by
    rw [List.length_take]; exact hb), hgb, Option.map_some, hkey]

theorem interchangeable_of_eq {entries : List Entry} (hnonempty : ∀ x ∈ entries, x.1 ≠ [])
    (h : ∀ l l' : List Entry, l.Perm entries → l'.Perm entries →
      encodeEntries decode noDemangle l = encodeEntries decode noDemangle l') :
    Interchangeable entries := by
  -- any entry may come first
  have hhead : ∀ x ∈ entries, ∀ y ∈ entries, ∃ l l' : List Entry,
      (firstFrames (x :: l)).map FrameKey.rawName = (firstFrames (y :: l')).map FrameKey.rawName ∧
        x.2 = y.2 ∧ idsOf (firstFrames (x :: l)) x.1 = idsOf (firstFrames (y :: l')) y.1 := by
    intro x hx y hy
    obtain ⟨hnames, hsamples⟩ := encodeEntries_eq_iff.mp (h (x :: entries.erase x)
      (y :: entries.erase y) (List.perm_cons_erase hx).symm (List.perm_cons_erase hy).symm)
    obtain ⟨hagg, hids, -⟩ := samplesOf_cons_inj (hnonempty x hx) (hnonempty y hy) hsamples
    exact ⟨_, _, hnames, hagg, hids⟩
  -- whichever entry comes first, its ids tell which of its places hold one function
  have hwithin : ∀ x ∈ entries, ∀ y ∈ entries, ∀ a b,
      funcAt x.1 a = funcAt x.1 b → funcAt y.1 a = funcAt y.1 b := by
    intro x hx y hy a b hab
    obtain ⟨l, l', -, -, hids⟩ := hhead x hx y hy
    have hn := numbered_firstFrames (List.mem_cons_self (a := x) (l := l))
    have hn' := numbered_firstFrames (List.mem_cons_self (a := y) (l := l'))
    rw [← idsOf_getElem?_eq_iff hn, hids] at hab
    exact (idsOf_getElem?_eq_iff hn' a b).mp hab
  refine ⟨fun x hx y hy => ?_, fun x hx y hy => ?_, hwithin, ?_, ?_⟩
  · obtain ⟨l, l', -, hagg, -⟩ := hhead x hx y hy
    exact hagg
  · obtain ⟨l, l', -, -, hids⟩ := hhead x hx y hy
    have hlength := congrArg List.length hids
    rwa [idsOf, idsOf, List.length_map, List.length_map] at hlength
  · -- any two entries may come first and second
    intro x hx y hy x' hx' y' hy' hne hne' a b hab
    have hperm : ∀ x ∈ entries, ∀ y ∈ entries, x ≠ y →
        (x :: y :: (entries.erase x).erase y).Perm entries := by
      intro x hx y hy hne
      have hy' : y ∈ entries.erase x := (List.mem_erase_of_ne (Ne.symm hne)).mpr hy
      exact ((List.perm_cons_erase hy').symm.cons x).trans (List.perm_cons_erase hx).symm
    obtain ⟨-, hsamples⟩ := encodeEntries_eq_iff.mp (h _ _ (hperm x hx y hy hne)
      (hperm x' hx' y' hy' hne'))
    obtain ⟨-, hids, hsamples⟩ := samplesOf_cons_inj (hnonempty x hx) (hnonempty x' hx') hsamples
    obtain ⟨-, hids', -⟩ := samplesOf_cons_inj (hnonempty y hy) (hnonempty y' hy') hsamples
    rw [← idsOf_getElem?_eq_iff (numbered_firstFrames List.mem_cons_self), hids, hids'] at hab
    exact (idsOf_getElem?_eq_iff (numbered_firstFrames List.mem_cons_self) a b).mp hab
  · intro x hx y hy a f g hf hg hfirst
    obtain ⟨l, l', hnames, -, hids⟩ := hhead x hx y hy
    -- a place where `x` meets a function for the first time is such a place of `y` too
    have hg' : ∀ b < a, funcAt y.1 b ≠ some g.funcIndex := by
      intro b hb heq
      refine hfirst b hb ?_
      have hya : funcAt y.1 a = some g.funcIndex := by rw [funcAt, hg, Option.map_some]
      have hxa : funcAt x.1 a = some f.funcIndex := by rw [funcAt, hf, Option.map_some]
      rw [← hxa]
      exact hwithin y hy x hx b a (heq.trans hya.symm)
    have hnumber : number FrameKey.funcIndex (firstFrames (x :: l)) f =
        number FrameKey.funcIndex (firstFrames (y :: l')) g := by
      have hat := congrArg (·[a]?) hids
      simp only [idsOf, List.getElem?_map, hf, hg, Option.map_some, Option.some.injEq,
        Nat.add_right_cancel_iff] at hat
      exact hat
    have hxname := congrArg (·[number FrameKey.funcIndex (firstFrames (x :: l)) f]?) hnames
    simp only [List.getElem?_map] at hxname
    rw [firstFrames_get hf hfirst, hnumber, firstFrames_get hg hg', Option.map_some,
      Option.map_some, Option.some.injEq] at hxname
    exact hxname

/-! ### From the stacks -/

/-- The frames at the same places of the stacks of paired entries. -/
def framePairs (ps : List (Entry × Entry)) : List (FrameKey × FrameKey) :=
  ps.flatMap fun p => p.1.1.zip p.2.1

theorem map_fst_framePairs {ps : List (Entry × Entry)} (h : ∀ p ∈ ps, p.1.1.length = p.2.1.length) :
    (framePairs ps).map Prod.fst = (ps.map Prod.fst).flatMap Sigma.fst ∧
      (framePairs ps).map Prod.snd = (ps.map Prod.snd).flatMap Sigma.fst := by
  rw [framePairs, List.map_flatMap, List.map_flatMap, List.flatMap_map, List.flatMap_map]
  constructor
  · exact List.flatMap_congr fun p hp => List.map_fst_zip (le_of_eq (h p hp))
  · exact List.flatMap_congr fun p hp => List.map_snd_zip (ge_of_eq (h p hp))

/-- An element of a list of lists, with those of its own list that come before it. -/
theorem split_of_flatMap {α β : Type} {f : α → List β} {xs : List α} {as bs : List β} {z : β}
    (h : xs.flatMap f = as ++ z :: bs) :
    ∃ x ∈ xs, ∃ us vs, f x = us ++ z :: vs ∧ us ⊆ as := by
  induction xs generalizing as with
  | nil => exact absurd h (by simp)
  | cons x xs ih =>
    rw [List.flatMap_cons, List.append_eq_append_iff] at h
    rcases h with ⟨us, has, hrest⟩ | ⟨us, hx, hrest⟩
    · obtain ⟨y, hy, us', vs, hsplit, hsub⟩ := ih hrest
      refine ⟨y, List.mem_cons_of_mem _ hy, us', vs, hsplit, fun b hb => ?_⟩
      rw [has]
      exact List.mem_append_right _ (hsub hb)
    · cases us with
      | nil =>
        obtain ⟨y, hy, us', vs, hsplit, hsub⟩ := ih
          (show xs.flatMap f = [] ++ z :: bs from hrest.symm)
        exact ⟨y, List.mem_cons_of_mem _ hy, us', vs, hsplit,
          fun b hb => absurd (hsub hb) List.not_mem_nil⟩
      | cons u us =>
        obtain ⟨rfl, -⟩ := List.cons.inj hrest
        exact ⟨x, List.mem_cons_self, as, us, hx, List.Subset.refl _⟩

theorem exists_of_mem_framePairs {ps : List (Entry × Entry)} {z : FrameKey × FrameKey}
    (hz : z ∈ framePairs ps) : ∃ (i : Nat) (p : Entry × Entry) (a : Nat), ps[i]? = some p ∧
      p.1.1[a]? = some z.1 ∧ p.2.1[a]? = some z.2 := by
  obtain ⟨p, hp, hzip⟩ := List.mem_flatMap.mp hz
  obtain ⟨i, hi⟩ := List.mem_iff_getElem?.mp hp
  obtain ⟨a, ha⟩ := List.mem_iff_getElem?.mp hzip
  obtain ⟨hfst, hsnd⟩ := List.getElem?_zip_eq_some.mp ha
  exact ⟨i, p, a, hi, hfst, hsnd⟩

/-- Two orders of interchangeable entries, side by side. -/
structure Reordered (entries : List Entry) (ps : List (Entry × Entry)) : Prop where
  nodup : (ps.map Prod.fst).Nodup
  nodup' : (ps.map Prod.snd).Nodup
  mem : ∀ p ∈ ps, p.1 ∈ entries ∧ p.2 ∈ entries

variable {entries : List Entry} {ps : List (Entry × Entry)}

theorem funcAt_eq {frames : List FrameKey} {a : Nat} {f : FrameKey} (h : frames[a]? = some f) :
    funcAt frames a = some f.funcIndex := by
  rw [funcAt, h, Option.map_some]

/-- Entries at different places of an order are different. -/
theorem ne_of_nodup_map {α β : Type} {g : α → β} {xs : List α} (h : (xs.map g).Nodup) {i j : Nat}
    {x y : α} (hi : xs[i]? = some x) (hj : xs[j]? = some y) (hij : i ≠ j) : g x ≠ g y := by
  intro heq
  have hxi : (xs.map g)[i]? = some (g x) := by rw [List.getElem?_map, hi, Option.map_some]
  have hxj : (xs.map g)[j]? = some (g x) := by rw [List.getElem?_map, hj, Option.map_some, heq]
  obtain ⟨hlti, hgi⟩ := List.getElem?_eq_some_iff.mp hxi
  obtain ⟨hltj, hgj⟩ := List.getElem?_eq_some_iff.mp hxj
  exact hij ((h.getElem_inj_iff).mp (hgi.trans hgj.symm))

theorem coherent_framePairs (h : Interchangeable entries) (hps : Reordered entries ps) :
    Coherent FrameKey.funcIndex (framePairs ps) := by
  intro z hz w hw
  obtain ⟨i, p, a, hi, hz1, hz2⟩ := exists_of_mem_framePairs hz
  obtain ⟨j, q, b, hj, hw1, hw2⟩ := exists_of_mem_framePairs hw
  obtain ⟨hp1, hp2⟩ := hps.mem p (List.mem_of_getElem? hi)
  obtain ⟨hq1, hq2⟩ := hps.mem q (List.mem_of_getElem? hj)
  rw [← Option.some.injEq (z.1.funcIndex), ← funcAt_eq hz1, ← funcAt_eq hw1,
    ← Option.some.injEq (z.2.funcIndex), ← funcAt_eq hz2, ← funcAt_eq hw2]
  -- two places of one pair of stacks, or of two pairs
  by_cases hij : i = j
  · obtain rfl : p = q := Option.some.inj (hi.symm.trans (hij ▸ hj))
    exact ⟨h.within p.1 hp1 p.2 hp2 a b, h.within p.2 hp2 p.1 hp1 a b⟩
  · have hne := ne_of_nodup_map hps.nodup hi hj hij
    have hne' := ne_of_nodup_map hps.nodup' hi hj hij
    exact ⟨h.across p.1 hp1 q.1 hq1 p.2 hp2 q.2 hq2 hne hne' a b,
      h.across p.2 hp2 q.2 hq2 p.1 hp1 q.1 hq1 hne' hne a b⟩

/-- Where a function is first met, both orders give it the same name. -/
theorem rawName_framePairs (h : Interchangeable entries) (hps : Reordered entries ps)
    {as bs : List (FrameKey × FrameKey)} {z : FrameKey × FrameKey}
    (hsplit : framePairs ps = as ++ z :: bs)
    (hnew : z.1.funcIndex ∉ (as.map Prod.fst).map FrameKey.funcIndex) :
    z.1.rawName = z.2.rawName := by
  obtain ⟨p, hp, us, vs, hzip, hsub⟩ := split_of_flatMap hsplit
  obtain ⟨hp1, hp2⟩ := hps.mem p hp
  have hat : (p.1.1.zip p.2.1)[us.length]? = some z := by
    rw [hzip, List.getElem?_append_right (le_refl _), Nat.sub_self, List.getElem?_cons_zero]
  obtain ⟨hz1, hz2⟩ := List.getElem?_zip_eq_some.mp hat
  refine h.name p.1 hp1 p.2 hp2 us.length z.1 z.2 hz1 hz2 fun b hb heq => hnew ?_
  -- an earlier frame of the stack lies in `as`
  have hub : (p.1.1.zip p.2.1)[b]? = some us[b] := by
    rw [hzip, List.getElem?_append_left hb, List.getElem?_eq_getElem hb]
  obtain ⟨hu1, -⟩ := List.getElem?_zip_eq_some.mp hub
  rw [funcAt_eq hu1, Option.some.injEq] at heq
  rw [← heq]
  exact List.mem_map_of_mem (List.mem_map_of_mem (hsub (List.getElem_mem hb)))

/-- Paired entries with equal values and ids give equal samples. -/
theorem samplesOf_congr {fs fs' : List FrameKey} {ps : List (Entry × Entry)}
    (hagg : ∀ p ∈ ps, p.1.2 = p.2.2) (hids : ∀ p ∈ ps, idsOf fs p.1.1 = idsOf fs' p.2.1) :
    samplesOf fs (ps.map Prod.fst) = samplesOf fs' (ps.map Prod.snd) := by
  have hempty : ∀ p ∈ ps, (!p.1.1.isEmpty) = !p.2.1.isEmpty := by
    intro p hp
    have hlength := congrArg List.length (hids p hp)
    rw [idsOf, idsOf, List.length_map, List.length_map] at hlength
    rw [Bool.not_inj_iff, Bool.eq_iff_iff, List.isEmpty_iff_length_eq_zero,
      List.isEmpty_iff_length_eq_zero, hlength]
  rw [samplesOf, samplesOf, List.filter_map, List.filter_map, List.map_map, List.map_map]
  have hfilter : ps.filter ((fun e => !e.1.isEmpty) ∘ Prod.fst) =
      ps.filter ((fun e => !e.1.isEmpty) ∘ Prod.snd) :=
    List.filter_congr hempty
  rw [hfilter]
  refine List.map_congr_left fun p hp => ?_
  have hp := List.mem_of_mem_filter hp
  rw [Function.comp_apply, Function.comp_apply, hids p hp, hagg p hp]

theorem idsOf_framePairs (h : Coherent FrameKey.funcIndex (framePairs ps))
    (hdepth : ∀ p ∈ ps, p.1.1.length = p.2.1.length) {p : Entry × Entry} (hp : p ∈ ps) :
    idsOf (firsts FrameKey.funcIndex ((framePairs ps).map Prod.fst)) p.1.1 =
      idsOf (firsts FrameKey.funcIndex ((framePairs ps).map Prod.snd)) p.2.1 := by
  set zs := p.1.1.zip p.2.1 with hzs
  have hfst : zs.map Prod.fst = p.1.1 := List.map_fst_zip (le_of_eq (hdepth p hp))
  have hsnd : zs.map Prod.snd = p.2.1 := List.map_snd_zip (ge_of_eq (hdepth p hp))
  rw [← hfst, ← hsnd, idsOf, idsOf, List.map_map, List.map_map]
  refine List.map_congr_left fun z hz => ?_
  rw [Function.comp_apply, Function.comp_apply,
    number_of_coherent h (List.mem_flatMap.mpr ⟨p, hp, hz⟩)]

theorem eq_of_interchangeable (h : Interchangeable entries) (hnodup : entries.Nodup)
    {l l' : List Entry} (hl : l.Perm entries) (hl' : l'.Perm entries) :
    encodeEntries decode noDemangle l = encodeEntries decode noDemangle l' := by
  -- the two orders side by side
  set ps := l.zip l' with hzip
  have hlength : l.length = l'.length := hl.length_eq.trans hl'.length_eq.symm
  have hfst : ps.map Prod.fst = l := List.map_fst_zip (le_of_eq hlength)
  have hsnd : ps.map Prod.snd = l' := List.map_snd_zip (ge_of_eq hlength)
  have hps : Reordered entries ps := by
    refine ⟨hfst ▸ hl.nodup_iff.mpr hnodup, hsnd ▸ hl'.nodup_iff.mpr hnodup, fun p hp => ?_⟩
    exact ⟨hl.mem_iff.mp (hfst ▸ List.mem_map_of_mem hp),
      hl'.mem_iff.mp (hsnd ▸ List.mem_map_of_mem hp)⟩
  have hdepth : ∀ p ∈ ps, p.1.1.length = p.2.1.length :=
    fun p hp => h.depth _ (hps.mem p hp).1 _ (hps.mem p hp).2
  obtain ⟨hframes, hframes'⟩ := map_fst_framePairs hdepth
  have hcoherent := coherent_framePairs h hps
  have hfirst : firstFrames l = firsts FrameKey.funcIndex ((framePairs ps).map Prod.fst) := by
    rw [hframes, hfst, firstFrames]
  have hfirst' : firstFrames l' = firsts FrameKey.funcIndex ((framePairs ps).map Prod.snd) := by
    rw [hframes', hsnd, firstFrames]
  refine encodeEntries_eq_iff.mpr ⟨?_, ?_⟩
  · rw [hfirst, hfirst']
    exact map_firsts_of_coherent hcoherent fun as z bs hsplit hnew =>
      rawName_framePairs h hps hsplit hnew
  · rw [hfirst, hfirst', ← hfst, ← hsnd]
    exact samplesOf_congr (fun p hp => h.agg _ (hps.mem p hp).1 _ (hps.mem p hp).2)
      fun p hp => idsOf_framePairs hcoherent hdepth hp

/-- The memory profile does not depend on the order in which the hash map yields the stacks if
and only if the stacks that are not empty are interchangeable. -/
theorem encodePprof_eq_iff (decode : String → String) (noDemangle : Bool) (samples : SampleMap) :
    (∀ it it', encodePprof decode noDemangle it samples =
      encodePprof decode noDemangle it' samples) ↔
      Interchangeable (recorded samples.entries) := by
  have hnonempty : ∀ x ∈ recorded samples.entries, x.1 ≠ [] := by
    intro x hx
    simpa using (List.mem_filter.mp hx).2
  have hnodup : (recorded samples.entries).Nodup := samples.nodupKeys.nodup.filter _
  rw [encodePprof_eq_iff_perm]
  exact ⟨interchangeable_of_eq hnonempty,
    fun h l l' hl hl' => eq_of_interchangeable h hnodup hl hl'⟩

/-- Two functions that allocate different amounts. -/
def twoSites : SampleMap :=
  AList.insert [⟨0, some "f"⟩] ⟨1, 8⟩ (AList.insert [⟨1, some "g"⟩] ⟨2, 32⟩ ∅)

theorem encodePprof_order_matters :
    encodePprof id true ⟨id, fun _ => .refl _⟩ twoSites ≠
      encodePprof id true ⟨List.reverse, List.reverse_perm⟩ twoSites := by
  decide

end MemProfile
