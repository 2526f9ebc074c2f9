/-
When the conversion of a V8 profile ends.

`build` walks up the parents of each sampled node, and nothing bounds the walk.
`ParentLink` is one step of it, read off the node list.

* `up_eq_some_iff` — the two indices of the program take exactly these steps;
* `stackFrom_of_chain`, `chain_of_stackFrom` — the walk ends exactly where the
  links do, with at most one location for each node;
* `build_terminates_iff` — the conversion ends exactly when no sampled node leads
  into a cycle of parents.
-/
import MoonPprof.ChromeTrace
import MoonPprof.LinkChain

open MachineInt Proto

namespace V8

/-! ### Parent links -/

/-- A node `c`, and the id `q` of the last node that lists it as a child. -/
def ParentLink (nodes : List CpuNode) (c q : Int) : Prop :=
  (∃ n ∈ nodes, n.id = c) ∧
    ∃ before n after, nodes = before ++ n :: after ∧ n.id = q ∧ c ∈ n.children ∧
      ∀ m ∈ after, c ∉ m.children

/-- The node that the walk takes after `c`. -/
def up (byId : HashMap Int CpuNode) (parent : HashMap Int Int) (c : Int) : Option Int :=
  (byId.lookup c).bind fun _ => parent.lookup c

theorem exists_nodeById_iff (nodes : List CpuNode) (c : Int) :
    (∃ n, (nodeById nodes).lookup c = some n) ↔ ∃ n ∈ nodes, n.id = c := by
  constructor
  · rintro ⟨n, hn⟩
    obtain ⟨hmem, hid⟩ := nodeById_lookup hn
    exact ⟨n, hmem, hid⟩
  · intro h
    induction nodes using List.reverseRecOn with
    | nil =>
      obtain ⟨n, hn, -⟩ := h
      cases hn
    | append_singleton nodes x ih =>
      rw [nodeById, HashMap.indexBy_concat, ← nodeById]
      by_cases hc : c = x.id
      · subst hc
        exact ⟨x, AList.lookup_insert _⟩
      · rw [AList.lookup_insert_ne hc]
        obtain ⟨n, hn, rfl⟩ := h
        rcases List.mem_append.mp hn with hn | hn
        · exact ih ⟨n, hn, rfl⟩
        · rw [List.mem_singleton.mp hn] at hc
          exact absurd rfl hc

/-- Of the nodes that list a child, the last one is its parent. -/
theorem parentMap_eq_some_iff (nodes : List CpuNode) (c q : Int) :
    (parentMap nodes).lookup c = some q ↔
      ∃ before n after, nodes = before ++ n :: after ∧ n.id = q ∧ c ∈ n.children ∧
        ∀ m ∈ after, c ∉ m.children := by
  induction nodes using List.reverseRecOn with
  | nil =>
    constructor
    · intro h
      cases h
    · rintro ⟨before, n, after, h, -⟩
      simp at h
  | append_singleton nodes x ih =>
    rw [parentMap, List.foldl_append, List.foldl_cons, List.foldl_nil, ← parentMap,
      lookup_foldl_children]
    by_cases hc : c ∈ x.children
    · rw [if_pos hc, Option.some.injEq]
      constructor
      · rintro rfl
        exact ⟨nodes, x, [], rfl, rfl, hc, by simp⟩
      · rintro ⟨before, n, after, heq, rfl, hn, hafter⟩
        -- nothing that lists the child stands behind the node, so it is the last one
        rcases List.eq_nil_or_concat after with rfl | ⟨after, y, rfl⟩
        · rw [(List.append_inj' heq rfl).2 |> List.singleton_inj.mp]
        · rw [List.concat_eq_append, ← List.cons_append, ← List.append_assoc] at heq
          obtain rfl := List.singleton_inj.mp (List.append_inj' heq rfl).2
          exact absurd hc (hafter x (by simp))
    · rw [if_neg hc, ih]
      constructor
      · rintro ⟨before, n, after, rfl, hid, hn, hafter⟩
        refine ⟨before, n, after ++ [x], by simp, hid, hn, fun m hm => ?_⟩
        rcases List.mem_append.mp hm with hm | hm
        · exact hafter m hm
        · rwa [List.mem_singleton.mp hm]
      · rintro ⟨before, n, after, heq, hid, hn, hafter⟩
        rcases List.eq_nil_or_concat after with rfl | ⟨after, y, rfl⟩
        · obtain rfl := List.singleton_inj.mp (List.append_inj' heq rfl).2
          exact absurd hn hc
        · rw [List.concat_eq_append, ← List.cons_append, ← List.append_assoc] at heq
          refine ⟨before, n, after, (List.append_inj' heq rfl).1, hid, hn, fun m hm => ?_⟩
          exact hafter m (by simp [hm])

theorem up_eq_some_iff (nodes : List CpuNode) (c q : Int) :
    up (nodeById nodes) (parentMap nodes) c = some q ↔ ParentLink nodes c q := by
  rw [up, Option.bind_eq_some_iff, ParentLink, ← exists_nodeById_iff, ← parentMap_eq_some_iff]
  exact exists_and_right

theorem linked_up (nodes : List CpuNode) :
    Linked (up (nodeById nodes) (parentMap nodes)) = ParentLink nodes := by
  funext c q
  exact propext (up_eq_some_iff nodes c q)

/-- Every step up leads to a node. -/
theorem mem_of_up {nodes : List CpuNode} {c q : Int}
    (h : up (nodeById nodes) (parentMap nodes) c = some q) : q ∈ nodes.map CpuNode.id := by
  obtain ⟨-, before, n, after, rfl, rfl, -⟩ := (up_eq_some_iff nodes c q).mp h
  exact List.mem_map_of_mem (by simp)

/-! ### The walk -/

section

variable {display : Value → String} {demangle : String → String} {byId : HashMap Int CpuNode}
  {parent : HashMap Int Int}

theorem internFunction_samples (st : State) (call : CallFrame) :
    (st.internFunction display demangle call).2.samples = st.samples := by
  rw [State.internFunction]
  split <;> rfl

theorem internLocation_samples (st : State) (node : CpuNode) :
    (st.internLocation display demangle node).2.samples = st.samples := by
  rw [State.internLocation]
  split
  · rfl
  · exact internFunction_samples st node.callFrame

variable (display demangle) in
/-- Where the links end, so does the walk, with a location for each node it meets. -/
theorem stackFrom_of_chain {a : Int} {xs : List Int} (h : LinkChain (up byId parent) a xs)
    {fuel : Nat} (hfuel : xs.length ≤ fuel) (st : State) (stack : List Nat) :
    ∃ ids st', stackFrom display demangle byId parent fuel (some a) st stack =
        some (stack ++ ids, st') ∧
      ids.length = (xs.filter fun x => (byId.lookup x).isSome).length ∧
      st'.samples = st.samples := by
  induction h generalizing fuel st stack with
  | @last a hnone =>
    obtain ⟨fuel, rfl⟩ : ∃ k, fuel = k + 1 := ⟨fuel - 1, by simp at hfuel; omega⟩
    rw [stackFrom]
    rcases hnode : byId.lookup a with _ | node
    · exact ⟨[], st, by rw [List.append_nil], by simp [hnode], rfl⟩
    · rw [up, hnode, Option.bind_some] at hnone
      refine ⟨[(st.internLocation display demangle node).1],
        (st.internLocation display demangle node).2, ?_, by simp [hnode],
        internLocation_samples st node⟩
      simp only [hnone]
      rw [stackFrom]
  | @link a b xs hsome hrest ih =>
    obtain ⟨fuel, rfl⟩ : ∃ k, fuel = k + 1 := ⟨fuel - 1, by simp at hfuel; omega⟩
    rw [stackFrom]
    rcases hnode : byId.lookup a with _ | node
    · rw [up, hnode] at hsome
      cases hsome
    · rw [up, hnode, Option.bind_some] at hsome
      obtain ⟨ids, st', hrun, hlen, hsamples⟩ := ih (show xs.length ≤ fuel by simpa using hfuel)
        (st.internLocation display demangle node).2
        (stack ++ [(st.internLocation display demangle node).1])
      refine ⟨(st.internLocation display demangle node).1 :: ids, st', ?_, ?_,
        hsamples.trans (internLocation_samples st node)⟩
      · simp only [hsome, hrun, List.append_assoc, List.singleton_append]
      · rw [List.filter_cons_of_pos (by simp [hnode]), List.length_cons, List.length_cons, hlen]

/-- A walk that ends has followed links that end. -/
theorem chain_of_stackFrom {fuel : Nat} {a : Int} {st : State} {stack : List Nat}
    {r : List Nat × State}
    (h : stackFrom display demangle byId parent fuel (some a) st stack = some r) :
    ∃ xs, LinkChain (up byId parent) a xs := by
  induction fuel generalizing a st stack with
  | zero => cases h
  | succ fuel ih =>
    rw [stackFrom] at h
    rcases hnode : byId.lookup a with _ | node
    · exact ⟨[a], .last (by rw [up, hnode]; rfl)⟩
    · have hup : up byId parent a = parent.lookup a := by rw [up, hnode, Option.bind_some]
      rcases hp : parent.lookup a with _ | b
      · exact ⟨[a], .last (hup.trans hp)⟩
      · simp only [hnode, hp] at h
        obtain ⟨xs, hxs⟩ := ih h
        exact ⟨a :: xs, .link (hup.trans hp) hxs⟩

/-- The stack of a node in a profile, if the walk ends: no longer than the node list. -/
theorem stackFrom_length_le {nodes : List CpuNode} {a : Int} {xs : List Int}
    (h : LinkChain (up (nodeById nodes) (parentMap nodes)) a xs) :
    (xs.filter fun x => ((nodeById nodes).lookup x).isSome).length ≤ nodes.length := by
  have hsub : (xs.filter fun x => ((nodeById nodes).lookup x).isSome) ⊆ nodes.map CpuNode.id := by
    intro x hx
    obtain ⟨n, hn⟩ := Option.isSome_iff_exists.mp (List.mem_filter.mp hx).2
    obtain ⟨hmem, rfl⟩ := nodeById_lookup hn
    exact List.mem_map_of_mem hmem
  have hle := ((h.nodup.filter _).subperm hsub).length_le
  rwa [List.length_map] at hle

/-! ### The loop over the counts -/

/-- Every stack in the cache satisfies `P` together with its node. -/
def CacheAll (P : Int → List Nat → Prop) (cache : HashMap Int (List Nat)) : Prop :=
  ∀ k ids, cache.lookup k = some ids → P k ids

theorem CacheAll.insert {P : Int → List Nat → Prop} {cache : HashMap Int (List Nat)}
    (h : CacheAll P cache) {k : Int} {ids : List Nat} (hnew : P k ids) :
    CacheAll P (cache.insert k ids) := by
  intro k' ids' hk
  rcases HashMap.lookup_insert_cases hk with ⟨rfl, rfl⟩ | hold
  · exact hnew
  · exact h k' ids' hold

variable {nodes : List CpuNode}

/-- The links from a node end. -/
def Ends (nodes : List CpuNode) (c : Int) : Prop :=
  ∃ xs, LinkChain (up (nodeById nodes) (parentMap nodes)) c xs

theorem ends_iff (c : Int) : Ends nodes c ↔ ¬ IntoCycle (ParentLink nodes) c := by
  rw [← linked_up]
  exact exists_linkChain_iff (nodes.map CpuNode.id) (fun _ _ => mem_of_up) c

variable (display demangle) in
theorem stackForNode_of_ends {leaf : Int} (h : Ends nodes leaf) {cache : HashMap Int (List Nat)}
    (hcache : CacheAll (fun _ ids => ids.length ≤ nodes.length) cache) (st : State) :
    ∃ ids st' cache', stackForNode display demangle (nodeById nodes) (parentMap nodes)
        (nodes.length + 1) leaf st cache = some (ids, st', cache') ∧
      ids.length ≤ nodes.length ∧
      CacheAll (fun _ ids => ids.length ≤ nodes.length) cache' ∧ st'.samples = st.samples := by
  obtain ⟨xs, hxs⟩ := h
  rw [stackForNode]
  rcases hlookup : cache.lookup leaf with _ | ids
  · have hfuel : xs.length ≤ nodes.length + 1 := by
      simpa using hxs.length_le fun x y => mem_of_up
    obtain ⟨ids, st', hrun, hlen, hsamples⟩ :=
      stackFrom_of_chain display demangle hxs hfuel st []
    have hle : ids.length ≤ nodes.length := hlen ▸ stackFrom_length_le hxs
    exact ⟨ids, st', cache.insert leaf ids, by simp [hrun], hle, hcache.insert hle, hsamples⟩
  · exact ⟨ids, st, cache, rfl, hcache leaf ids hlookup, hcache, rfl⟩

theorem ends_of_stackForNode {fuel : Nat} {leaf : Int} {st : State}
    {cache : HashMap Int (List Nat)} (hcache : CacheAll (fun k _ => Ends nodes k) cache)
    {r : List Nat × State × HashMap Int (List Nat)}
    (h : stackForNode display demangle (nodeById nodes) (parentMap nodes) fuel leaf st cache =
      some r) :
    Ends nodes leaf ∧ CacheAll (fun k _ => Ends nodes k) r.2.2 := by
  rw [stackForNode] at h
  rcases hlookup : cache.lookup leaf with _ | ids
  · simp only [hlookup] at h
    obtain ⟨⟨ids, st'⟩, hrun, hr⟩ := Option.bind_eq_some_iff.mp h
    have hends : Ends nodes leaf := chain_of_stackFrom hrun
    cases hr
    exact ⟨hends, hcache.insert hends⟩
  · simp only [hlookup, Option.some.injEq] at h
    subst h
    exact ⟨hcache leaf ids hlookup, hcache⟩

variable {us : HashMap Int Int} {entries : List (Sigma fun _ : Int => Int)}

variable (display demangle) in
/-- Where all links end, so does the loop, with short stacks. -/
theorem pushSamples_of_ends (h : ∀ e ∈ entries, Ends nodes e.1)
    {acc : State × HashMap Int (List Nat)}
    (hcache : CacheAll (fun _ ids => ids.length ≤ nodes.length) acc.2)
    (hsamples : ∀ s ∈ acc.1.samples, s.locationId.length ≤ nodes.length) :
    ∃ acc', entries.foldlM (pushSample display demangle (nodeById nodes) (parentMap nodes) us
        (nodes.length + 1)) acc = some acc' ∧
      ∀ s ∈ acc'.1.samples, s.locationId.length ≤ nodes.length := by
  induction entries generalizing acc with
  | nil => exact ⟨acc, rfl, hsamples⟩
  | cons e entries ih =>
    obtain ⟨ids, st', cache', hstack, hlen, hcache', hkept⟩ :=
      stackForNode_of_ends display demangle (h e List.mem_cons_self) hcache acc.1
    set s : Sample := ⟨ids, [e.2, wrap 64 ((us.lookup e.1).getD 0 * 1000)], []⟩
    set st₁ : State := { st' with samples := st'.samples ++ [s] }
    have hshort₁ : ∀ s ∈ st₁.samples, s.locationId.length ≤ nodes.length := by
      intro x hx
      rcases List.mem_append.mp hx with hx | hx
      · exact hsamples x (hkept ▸ hx)
      · rwa [List.mem_singleton.mp hx]
    obtain ⟨acc', hrun, hshort⟩ := @ih (fun x hx => h x (List.mem_cons_of_mem _ hx))
      (st₁, cache') hcache' hshort₁
    refine ⟨acc', ?_, hshort⟩
    rw [List.foldlM_cons, pushSample, hstack]
    exact hrun

/-- A loop that ends has followed links that end. -/
theorem ends_of_pushSamples {fuel : Nat} {acc acc' : State × HashMap Int (List Nat)}
    (hcache : CacheAll (fun k _ => Ends nodes k) acc.2)
    (h : entries.foldlM (pushSample display demangle (nodeById nodes) (parentMap nodes) us fuel)
      acc = some acc') :
    ∀ e ∈ entries, Ends nodes e.1 := by
  induction entries generalizing acc with
  | nil => simp
  | cons e entries ih =>
    rw [List.foldlM_cons] at h
    obtain ⟨acc₁, hpush, hrest⟩ := Option.bind_eq_some_iff.mp h
    rw [pushSample] at hpush
    obtain ⟨⟨ids, st₁, cache₁⟩, hstack, hacc₁⟩ := Option.bind_eq_some_iff.mp hpush
    obtain ⟨hends, hcache₁⟩ := ends_of_stackForNode hcache hstack
    cases hacc₁
    intro x hx
    rcases List.mem_cons.mp hx with rfl | hx
    · exact hends
    · refine ih ?_ hrest x hx
      exact hcache₁

end

/-! ### The conversion -/

section

variable {display : Value → String} {demangle : String → String}

theorem mem_entries_countByNode (it : IterOrder (Sigma fun _ : Int => Int)) (p : CpuProfile)
    (id : Int) :
    (∃ e ∈ it.order (countByNode p.charges).entries, e.1 = id) ↔ id ∈ p.samples := by
  have hperm := (it.perm _).trans
    (HashMap.entries_perm_map (List.nodup_dedup _) (lookup_countByNode p))
  constructor
  · rintro ⟨e, he, rfl⟩
    obtain ⟨k, hk, rfl⟩ := List.mem_map.mp (hperm.mem_iff.mp he)
    exact List.mem_dedup.mp hk
  · intro hid
    exact ⟨_, hperm.mem_iff.mpr (List.mem_map_of_mem (List.mem_dedup.mpr hid)), rfl⟩

theorem ends_of_build {mappingFilename : Option String}
    {it : IterOrder (Sigma fun _ : Int => Int)} {fuel : Nat} {p : CpuProfile}
    {r : Profile × Stats} (h : build display demangle mappingFilename it fuel p = some r) :
    ∀ id ∈ p.samples, Ends p.nodes id := by
  rw [build] at h
  obtain ⟨acc, hrun, -⟩ := Option.bind_eq_some_iff.mp h
  intro id hid
  obtain ⟨e, he, rfl⟩ := (mem_entries_countByNode it p id).mpr hid
  exact ends_of_pushSamples (by intro k ids hk; cases hk) hrun e he

/-- The conversion of a V8 profile ends, with no stack longer than the node list,
exactly when no sampled node leads into a cycle of parents. -/
theorem build_terminates_iff (display : Value → String) (demangle : String → String)
    (mappingFilename : Option String) (it : IterOrder (Sigma fun _ : Int => Int))
    (p : CpuProfile) :
    (∃ fuel profile stats,
      build display demangle mappingFilename it fuel p = some (profile, stats) ∧
        ∀ s ∈ profile.sample, s.locationId.length ≤ p.nodes.length) ↔
      ∀ id ∈ p.samples, ¬ IntoCycle (ParentLink p.nodes) id := by
  constructor
  · rintro ⟨fuel, profile, stats, hrun, -⟩ id hid
    exact (ends_iff id).mp (ends_of_build hrun id hid)
  · intro h
    have hends : ∀ e ∈ it.order (countByNode p.charges).entries, Ends p.nodes e.1 :=
      fun e he => (ends_iff e.1).mpr (h e.1 ((mem_entries_countByNode it p e.1).mp ⟨e, he, rfl⟩))
    set st₀ := (State.new.intern (mappingFilename.getD "")).2
    have hcache : CacheAll (fun _ ids => ids.length ≤ p.nodes.length)
        (st₀, (∅ : HashMap Int (List Nat))).2 := by
      intro k ids hk
      cases hk
    have hnone : ∀ s ∈ st₀.samples, s.locationId.length ≤ p.nodes.length := by
      intro s hs
      cases hs
    obtain ⟨⟨st, cache⟩, hrun, hshort⟩ :=
      @pushSamples_of_ends display demangle p.nodes (usByNode p.charges) _ hends _ hcache hnone
    exact ⟨p.nodes.length + 1, _, _, by rw [build]; simp only; rw [hrun]; rfl, hshort⟩

/-- One chunk of a trace with a node that is its own parent. -/
def selfParentStream : ChromeTrace.PartialProfile where
  key := "pid=1/tid=1/id=0x1"
  startTime := none
  endTime := none
  chunks := [⟨0, [⟨1, ⟨"f", "m.wasm", .null, 0, 0⟩, [], some 1⟩], [1], [5]⟩]

/-- The conversion of such a trace never ends. -/
theorem build_selfParent_diverges :
    ∃ e, selfParentStream.intoProfile 1000 = some e ∧ e.profile.samples = [1] ∧
      ∀ fuel, build (fun _ => "0") moonbitDemangle none ⟨id, fun _ => .refl _⟩ fuel e.profile =
        none := by
  refine ⟨_, rfl, rfl, fun fuel => ?_⟩
  rw [Option.eq_none_iff_forall_ne_some]
  intro r hrun
  have hends := ends_of_build hrun 1 (by decide)
  refine (ends_iff 1).mp hends ⟨1, .refl, .single ?_⟩
  rw [← up_eq_some_iff]
  rfl

end

end V8
