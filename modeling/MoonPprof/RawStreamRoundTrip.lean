/-
The hook's stream read back by the profiler.

`Entry` is one record of the retained stream; the stream of the untagged mode
is a list of sizes with their names.  Whatever was recorded is read back record
by record (`readRecord_encodeRecord`), and a stream that breaks off inside a
record is read as far as its complete records go.

* `credited` — what the aggregated samples must hold for a stack;
* `lookup_parseRawFrom`, `lookup_aggregate` — the samples hold exactly that;
* `liveAllocs` — the allocations of a retained stream that no later record
  retires, and `entries_applyAll`, that these are what the parser keeps;
* `hook_stream_parses` — hook calls, the stream they write cut off anywhere,
  and both parsers together.
-/
import MoonPprof.NativeHook
import MoonPprof.RawStream
import MoonPprof.RecordStream

open MachineInt NativeHook RawStream RecordStream

namespace RawStreamRoundTrip

/-! ### One record -/

theorem takeBytes_append {n : Nat} {a r : Bytes} (h : a.length = n) :
    takeBytes n (a ++ r) = some (a, r) := by
  subst h
  rw [takeBytes, if_neg (by simp), List.take_left, List.drop_left]

theorem takeBytes_extend (n : Nat) (s t a r : Bytes) (h : takeBytes n s = some (a, r)) :
    takeBytes n (s ++ t) = some (a, r ++ t) := by
  obtain ⟨rfl, hlen⟩ := takeBytes_eq_some h
  rw [List.append_assoc, takeBytes_append hlen]

theorem readFrames_extend (n : Nat) (s t : Bytes) (frames : List Bytes) (r : Bytes)
    (h : readFrames n s = some (frames, r)) : readFrames n (s ++ t) = some (frames, r ++ t) := by
  induction n generalizing s frames with
  | zero =>
    cases h
    rfl
  | succ n ih =>
    rw [readFrames] at h ⊢
    simp only [Option.bind_eq_bind, Option.bind_eq_some_iff, Prod.exists] at h
    obtain ⟨len, s₁, h₁, name, s₂, h₂, fs, s₃, h₃, heq⟩ := h
    cases heq
    simp only [takeBytes_extend _ _ t _ _ h₁, takeBytes_extend _ _ t _ _ h₂, ih _ _ h₃,
      Option.bind_eq_bind, Option.bind_some]

theorem readRecord_extend (k : Nat) (s t : Bytes) (x : Bytes × List Bytes) (r : Bytes)
    (h : readRecord k s = some (x, r)) : readRecord k (s ++ t) = some (x, r ++ t) := by
  rw [readRecord] at h ⊢
  simp only [Option.bind_eq_bind, Option.bind_eq_some_iff, Prod.exists] at h
  obtain ⟨head, s₁, h₁, fs, s₂, h₂, heq⟩ := h
  cases heq
  simp only [takeBytes_extend _ _ t _ _ h₁, readFrames_extend _ _ t _ _ h₂, Option.bind_eq_bind,
    Option.bind_some]

/-- Names whose count and lengths fit their fields. -/
structure Encodable (names : List Bytes) : Prop where
  count : names.length < 256
  length : ∀ name ∈ names, name.length < 65536

theorem readFrames_encode {names : List Bytes} (h : ∀ name ∈ names, name.length < 65536)
    (rest : Bytes) :
    readFrames names.length (names.flatMap encodeName ++ rest) =
      some (names.map fromUtf8Lossy, rest) := by
  induction names with
  | nil => rfl
  | cons name names ih =>
    have hname : leNat (leBytes 2 name.length) = name.length :=
      leNat_leBytes_of_lt (h name (by simp))
    rw [List.length_cons, readFrames, List.flatMap_cons, encodeName]
    simp only [List.append_assoc, takeBytes_append (leBytes_length 2 _), hname,
      takeBytes_append rfl, ih fun n hn => h n (by simp [hn]), Option.bind_eq_bind,
      Option.bind_some, List.map_cons]

/-- A record is read back, whatever follows it. -/
theorem readRecord_encodeRecord (header : Bytes) {names : List Bytes} (h : Encodable names)
    (rest : Bytes) :
    readRecord header.length (encodeRecord header names ++ rest) =
      some ((header, names.map fromUtf8Lossy), rest) := by
  set count := UInt8.ofNat names.length with hcount
  have htoNat : count.toNat = names.length := by
    rw [hcount, UInt8.toNat_ofNat', Nat.mod_eq_of_lt h.count]
  have hsplit : encodeRecord header names ++ rest =
      (header ++ [count]) ++ (names.flatMap encodeName ++ rest) := by
    simp [encodeRecord, hcount]
  have hlen : (header ++ [count]).length = header.length + 1 := by simp
  rw [readRecord, hsplit, takeBytes_append hlen]
  simp only [Option.bind_eq_bind, Option.bind_some]
  rw [show (header ++ [count])[header.length]? = some count by simp, Option.getD_some, htoNat,
    readFrames_encode h.length, Option.bind_some, List.take_left]

/-- Nothing is read of a record that is cut short. -/
theorem readRecord_of_cut {header : Bytes} {names : List Bytes} (h : Encodable names) {p : Bytes}
    (hp : p <+: encodeRecord header names) (hne : p ≠ encodeRecord header names) :
    readRecord header.length p = none := by
  refine reader_eq_none_of_isPrefix (readRecord_extend header.length)
    (e := encodeRecord header names) (a := (header, names.map fromUtf8Lossy)) ?_ hp hne
  have := readRecord_encodeRecord header h []
  rwa [List.append_nil] at this

theorem u64FromLe_leBytes (x : UInt64) : u64FromLe (leBytes 8 x.toNat) = x := by
  rw [u64FromLe, leNat_leBytes_of_lt x.toNat_lt, UInt64.ofNat_toNat]

/-! ### The samples -/

/-- What the samples hold for the stack `key` when `allocs` were recorded, each
with its size and frames: one count and its size for each allocation with these
user frames, times the sampling rate, in an `i64`. -/
def credited (scale : Int) (allocs : List (UInt64 × List Bytes)) (key : List Bytes) :
    Option SampleAgg :=
  let hits := allocs.filter fun a => userFrames a.2 = key
  if key.isEmpty || hits.isEmpty then none
  else some ⟨wrap 64 (hits.length * scale), wrap 64 (hits.map fun a => a.1.toNat * scale).sum⟩

theorem SampleAgg.foldl_add {α : Type*} (f g : α → Int) (xs : List α) (c b : Int) :
    xs.foldl (fun e x => e.add (f x) (g x)) (⟨wrap 64 c, wrap 64 b⟩ : SampleAgg) =
      ⟨wrap 64 (c + (xs.map f).sum), wrap 64 (b + (xs.map g).sum)⟩ := by
  induction xs generalizing c b with
  | nil => simp
  | cons x xs ih =>
    rw [List.foldl_cons, SampleAgg.add, wrap_add_left, wrap_add_left, ih]
    simp only [List.map_cons, List.sum_cons, add_assoc]

/-- Scaled sizes may be wrapped one by one. -/
theorem wrap_sum_scaledBytes (scale : Int) (sizes : List UInt64) :
    wrap 64 (sizes.map (scaledBytes scale)).sum =
      wrap 64 (sizes.map fun size => size.toNat * scale).sum := by
  induction sizes with
  | nil => rw [List.map_nil, List.map_nil]
  | cons size sizes ih =>
    rw [List.map_cons, List.sum_cons, List.map_cons, List.sum_cons, scaledBytes, wrap_add_left,
      ← wrap_add_right, ih, wrap_add_right, ← wrap_add_left, wrap_mul_left, wrap_add_left]

/-- The entry that `hits`, the allocations under one stack, leave behind. -/
theorem foldl_add_hits (scale : Int) (hits : List (UInt64 × List Bytes)) :
    hits.foldl (fun e a => e.add scale (scaledBytes scale a.1)) (⟨0, 0⟩ : SampleAgg) =
      ⟨wrap 64 (hits.length * scale), wrap 64 (hits.map fun a => a.1.toNat * scale).sum⟩ := by
  have := SampleAgg.foldl_add (fun _ => scale) (fun a => scaledBytes scale a.1) hits 0 0
  simp only [wrap_zero, zero_add] at this
  rw [this, List.map_const', List.sum_replicate, nsmul_eq_mul]
  have hsum := wrap_sum_scaledBytes scale (hits.map Prod.fst)
  simp only [List.map_map, Function.comp_def] at hsum
  rw [hsum]

theorem foldl_addSample (scale : Int) (allocs : List (UInt64 × List Bytes)) (m : SampleMap) :
    allocs.foldl (fun m a => addSample scale m a.1 a.2) m =
      HashMap.groupFold (fun a => userFrames a.2) (fun e a => e.add scale (scaledBytes scale a.1))
        ⟨0, 0⟩ (allocs.filter fun a => !(userFrames a.2).isEmpty) m := by
  induction allocs generalizing m with
  | nil => rfl
  | cons a allocs ih =>
    rw [List.foldl_cons, ih, addSample, List.filter_cons]
    by_cases h : (userFrames a.2).isEmpty
    · simp only [h, if_true, Bool.not_true, Bool.false_eq_true, if_false]
    · simp only [h, Bool.false_eq_true, if_false, Bool.not_false, if_true]
      rfl

/-- Allocations without a user frame are credited to no stack. -/
theorem credited_filter (scale : Int) (allocs : List (UInt64 × List Bytes)) (key : List Bytes) :
    credited scale (allocs.filter fun a => !(userFrames a.2).isEmpty) key =
      credited scale allocs key := by
  rw [credited, credited]
  by_cases hkey : key = []
  · simp only [hkey, List.isEmpty_nil, Bool.true_or, if_true]
  · rw [List.filter_filter]
    have hfilter : allocs.filter (fun a => decide (userFrames a.2 = key) &&
        !(userFrames a.2).isEmpty) = allocs.filter fun a => userFrames a.2 = key := by
      refine List.filter_congr fun a _ => ?_
      by_cases h : userFrames a.2 = key
      · simp [h, hkey]
      · simp [h]
    rw [hfilter]

/-- For allocations that have user frames the empty stack is no special case. -/
theorem credited_of_user {allocs : List (UInt64 × List Bytes)}
    (huser : ∀ a ∈ allocs, userFrames a.2 ≠ []) (scale : Int) (key : List Bytes) :
    credited scale allocs key =
      if (allocs.filter fun a => userFrames a.2 = key).isEmpty then none
      else some ((allocs.filter fun a => userFrames a.2 = key).foldl
        (fun e a => e.add scale (scaledBytes scale a.1)) ⟨0, 0⟩) := by
  rw [credited, foldl_add_hits]
  by_cases hkey : key = []
  · subst hkey
    rw [List.filter_eq_nil_iff.mpr fun a ha => by simpa using huser a ha]
    simp only [List.isEmpty_nil, Bool.or_self, if_true]
  · have : key.isEmpty = false := by simpa using hkey
    simp only [this, Bool.false_or]

/-- The samples after the records `allocs`. -/
theorem lookup_foldl_addSample (scale : Int) (allocs : List (UInt64 × List Bytes))
    (key : List Bytes) :
    (allocs.foldl (fun m a => addSample scale m a.1 a.2) ∅).lookup key =
      credited scale allocs key := by
  rw [foldl_addSample, HashMap.lookup_groupFold, ← credited_filter]
  exact (credited_of_user (fun a ha => by simpa using (List.mem_filter.mp ha).2) _ _).symm

theorem SampleAgg.foldl_add_perm {as bs : List LiveAlloc} (h : as.Perm bs) (e : SampleAgg) :
    as.foldl (fun e a => e.add a.count a.bytes) e =
      bs.foldl (fun e a => e.add a.count a.bytes) e := by
  refine h.foldl_eq' (fun a _ b _ e => ?_) e
  simp only [SampleAgg.add, wrap_add_left]
  rw [add_right_comm, add_right_comm e.bytes]

/-- A live allocation as the parser keeps it. -/
def toLive (scale : Int) (a : UInt64 × List Bytes) : LiveAlloc :=
  ⟨userFrames a.2, scale, scaledBytes scale a.1⟩

/-- The samples made of the live allocations, in whatever order they come. -/
theorem lookup_aggregate {scale : Int} {values : List LiveAlloc}
    {allocs : List (UInt64 × List Bytes)} (hperm : values.Perm (allocs.map (toLive scale)))
    (huser : ∀ a ∈ allocs, userFrames a.2 ≠ []) (key : List Bytes) :
    (HashMap.groupFold LiveAlloc.frames (fun e a => e.add a.count a.bytes) (⟨0, 0⟩ : SampleAgg)
      values ∅).lookup key = credited scale allocs key := by
  have hhits : (values.filter (LiveAlloc.frames · = key)).Perm
      ((allocs.filter fun a => userFrames a.2 = key).map (toLive scale)) := by
    have := hperm.filter (LiveAlloc.frames · = key)
    rwa [List.filter_map] at this
  rw [HashMap.lookup_groupFold, SampleAgg.foldl_add_perm hhits, List.foldl_map,
    hhits.isEmpty_eq, List.isEmpty_map, credited_of_user huser]
  simp only [toLive]

/-! ### The retained stream -/

/-- One record of the retained stream, with the names it holds. -/
inductive Entry where
  | alloc (ptr size : UInt64) (names : List Bytes)
  | free (ptr : UInt64)

def Entry.encode : Entry → Bytes
  | .alloc ptr size names => encodeRecord (allocPtrHeader ptr size) names
  | .free ptr => freeRecord ptr

def Entry.Encodable : Entry → Prop
  | .alloc _ _ names => RawStreamRoundTrip.Encodable names
  | .free _ => True

/-- What the parser does for a complete record. -/
def applyEntry (scale : Int) (live : LiveMap) : Entry → LiveMap
  | .alloc ptr size names => insertLive scale live ptr size (names.map fromUtf8Lossy)
  | .free ptr => live.erase ptr

/-- One turn of the retained loop on a complete record. -/
theorem parseRetainedFrom_encode {e : Entry} (h : e.Encodable) (scale : Int) (live : LiveMap)
    (p : Nat) (rest : Bytes) :
    parseRetainedFrom scale live p (e.encode ++ rest) =
      parseRetainedFrom scale (applyEntry scale live e) (p + e.encode.length) rest := by
  cases e with
  | alloc ptr size names =>
    have hsplit : (Entry.alloc ptr size names).encode ++ rest = 'A'.toUInt8 ::
        (encodeRecord (leBytes 8 ptr.toNat ++ leBytes 8 size.toNat) names ++ rest) := by
      simp [Entry.encode, encodeRecord, allocPtrHeader]
    have hlen : (leBytes 8 ptr.toNat ++ leBytes 8 size.toNat).length = 16 := by simp
    -- the header of the record is the pointer and then the size
    have hread := readRecord_encodeRecord (leBytes 8 ptr.toNat ++ leBytes 8 size.toNat) h rest
    rw [hlen] at hread
    have hptr : (leBytes 8 ptr.toNat ++ leBytes 8 size.toNat).take 8 = leBytes 8 ptr.toNat :=
      List.take_left' (leBytes_length 8 _)
    have hsize : (leBytes 8 ptr.toNat ++ leBytes 8 size.toNat).drop 8 = leBytes 8 size.toNat :=
      List.drop_left' (leBytes_length 8 _)
    have hp : (Entry.alloc ptr size names).encode.length = 1 +
        (encodeRecord (leBytes 8 ptr.toNat ++ leBytes 8 size.toNat) names).length := by
      have := congrArg List.length hsplit
      simp only [List.length_append, List.length_cons] at this
      omega
    rw [hsplit, parseRetainedFrom.eq_def]
    simp only [if_true]
    split
    · rename_i hnone
      rw [hread] at hnone
      cases hnone
    · rename_i head frames rest' hsome
      rw [hread] at hsome
      cases hsome
      rw [hptr, hsize, u64FromLe_leBytes, u64FromLe_leBytes, hp, List.length_append,
        Nat.add_sub_cancel, Nat.add_assoc]
      rfl
  | free ptr =>
    have hread : takeBytes 8 (leBytes 8 ptr.toNat ++ rest) = some (leBytes 8 ptr.toNat, rest) :=
      takeBytes_append (leBytes_length 8 _)
    have hsplit : (Entry.free ptr).encode ++ rest = 'F'.toUInt8 ::
        (leBytes 8 ptr.toNat ++ rest) := rfl
    have hne : ¬ 'F'.toUInt8 = 'A'.toUInt8 := by decide
    rw [hsplit, parseRetainedFrom.eq_def]
    simp only [hne, if_false, if_true]
    split
    · rename_i hnone
      rw [hread] at hnone
      cases hnone
    · rename_i head rest' hsome
      rw [hread] at hsome
      cases hsome
      rw [u64FromLe_leBytes]
      rfl

/-- The retained loop stops at a record that is cut short. -/
theorem parseRetainedFrom_of_cut {e : Entry} (h : e.Encodable) (scale : Int) (live : LiveMap)
    (p : Nat) {cut : Bytes} (hcut : cut <+: e.encode) (hne : cut ≠ e.encode) :
    parseRetainedFrom scale live p cut = .ok live := by
  rcases cut with _ | ⟨tag, cut⟩
  · rw [parseRetainedFrom.eq_def]
  cases e with
  | alloc ptr size names =>
    have hsplit : (Entry.alloc ptr size names).encode = 'A'.toUInt8 ::
        encodeRecord (leBytes 8 ptr.toNat ++ leBytes 8 size.toNat) names := by
      simp [Entry.encode, encodeRecord, allocPtrHeader]
    rw [hsplit] at hcut hne
    obtain ⟨rfl, hcut'⟩ := List.cons_prefix_cons.mp hcut
    have hnone := readRecord_of_cut h hcut' fun heq => hne (by rw [heq])
    rw [show (leBytes 8 ptr.toNat ++ leBytes 8 size.toNat).length = 16 by simp] at hnone
    rw [parseRetainedFrom.eq_def]
    simp only [if_true]
    split
    · rfl
    · rename_i hsome
      rw [hnone] at hsome
      cases hsome
  | free ptr =>
    obtain ⟨rfl, hcut'⟩ := List.cons_prefix_cons.mp hcut
    have hlt : cut.length < 8 := by
      have hle := hcut'.length_le
      rw [leBytes_length] at hle
      refine lt_of_le_of_ne hle fun heq => hne ?_
      rw [hcut'.eq_of_length (by rw [heq, leBytes_length])]
      rfl
    have hnone : takeBytes 8 cut = none := if_pos hlt
    have hne' : ¬ 'F'.toUInt8 = 'A'.toUInt8 := by decide
    rw [parseRetainedFrom.eq_def]
    simp only [hne', if_false, if_true]
    split
    · rfl
    · rename_i hsome
      rw [hnone] at hsome
      cases hsome

/-! ### The allocations that stay live -/

/-- A record the parser keeps: a real pointer and at least one user frame. -/
def Entry.kept : Entry → Bool
  | .alloc ptr _ names => ptr != 0 && !(userFrames (names.map fromUtf8Lossy)).isEmpty
  | .free _ => false

/-- The record ends the life of any earlier allocation at `ptr`. -/
def Entry.retires (e : Entry) (ptr : UInt64) : Bool :=
  match e with
  | .alloc ptr' _ _ => e.kept && ptr == ptr'
  | .free ptr' => ptr == ptr'

/-- The kept allocations that no later record retires: pointer, size, frames. -/
def liveAllocs : List Entry → List (UInt64 × UInt64 × List Bytes)
  | [] => []
  | .alloc ptr size names :: es =>
    if (Entry.alloc ptr size names).kept && !es.any (·.retires ptr) then
      (ptr, size, names.map fromUtf8Lossy) :: liveAllocs es
    else liveAllocs es
  | .free _ :: es => liveAllocs es

theorem userFrames_ne_nil_of_mem_liveAllocs {es : List Entry} :
    ∀ a ∈ liveAllocs es, userFrames a.2.2 ≠ [] := by
  induction es with
  | nil => simp [liveAllocs]
  | cons e es ih =>
    intro a ha
    cases e with
    | alloc ptr size names =>
      rw [liveAllocs] at ha
      split at ha
      · rename_i hkept
        rcases List.mem_cons.mp ha with rfl | ha
        · rw [Bool.and_eq_true, Entry.kept, Bool.and_eq_true] at hkept
          simpa using hkept.1.2
        · exact ih a ha
      · exact ih a ha
    | free ptr => exact ih a ha

theorem applyEntry_of_not_kept {scale : Int} {live : LiveMap} {ptr size : UInt64}
    {names : List Bytes} (h : (Entry.alloc ptr size names).kept = false) :
    applyEntry scale live (.alloc ptr size names) = live := by
  rw [Entry.kept] at h
  rw [applyEntry, insertLive]
  by_cases hptr : ptr = 0
  · simp [hptr]
  · have hp : (ptr != 0) = true := by simpa using hptr
    rw [hp, Bool.true_and, Bool.not_eq_false'] at h
    simp [hptr, h]

theorem applyEntry_of_kept {scale : Int} {live : LiveMap} {ptr size : UInt64}
    {names : List Bytes} (h : (Entry.alloc ptr size names).kept = true) :
    applyEntry scale live (.alloc ptr size names) =
      live.insert ptr (toLive scale (size, names.map fromUtf8Lossy)) := by
  rw [Entry.kept, Bool.and_eq_true] at h
  have hptr : (ptr == 0) = false := by simpa using h.1
  have huser : (userFrames (names.map fromUtf8Lossy)).isEmpty = false := by simpa using h.2
  rw [applyEntry, insertLive]
  simp only [hptr, huser, Bool.false_eq_true, if_false]
  rfl

/-- After the records `es` the parser keeps the allocations of `es` that stay
live, and of those it had before the ones that no record of `es` retires. -/
theorem entries_applyAll (scale : Int) (es : List Entry) (live : LiveMap) :
    (es.foldl (applyEntry scale) live).entries.Perm
      (live.entries.filter (fun x => !es.any (·.retires x.1)) ++
        (liveAllocs es).map fun a => ⟨a.1, toLive scale a.2⟩) := by
  induction es generalizing live with
  | nil => simp [liveAllocs]
  | cons e es ih =>
    rw [List.foldl_cons]
    refine (ih _).trans ?_
    cases e with
    | alloc ptr size names =>
      rw [liveAllocs]
      by_cases hkept : (Entry.alloc ptr size names).kept = true
      · rw [applyEntry_of_kept hkept, HashMap.entries_insert]
        -- What the insertion replaces is what the record retires.
        have hfilter : (live.entries.filter (·.1 ≠ ptr)).filter
              (fun x => !es.any (·.retires x.1)) =
            live.entries.filter
              (fun x => !(Entry.alloc ptr size names :: es).any (·.retires x.1)) := by
          rw [List.filter_filter]
          refine List.filter_congr fun x _ => ?_
          simp only [List.any_cons, Entry.retires, hkept, Bool.true_and, Bool.not_or]
          rw [Bool.and_comm]
          congr 1
          by_cases hx : x.1 = ptr <;> simp [hx]
        simp only [hkept, Bool.true_and]
        by_cases hret : es.any (·.retires ptr) = true
        · rw [List.filter_cons_of_neg (by simp [hret]), hfilter, if_neg (by simp [hret])]
        · rw [List.filter_cons_of_pos (by simpa using hret), hfilter,
            if_pos (by simpa using hret), List.map_cons]
          exact List.perm_middle.symm
      · rw [Bool.not_eq_true] at hkept
        rw [applyEntry_of_not_kept hkept]
        simp only [hkept, Bool.false_and, Bool.false_eq_true, if_false, List.any_cons,
          Entry.retires, Bool.false_or]
        exact List.Perm.refl _
    | free ptr =>
      rw [liveAllocs, applyEntry, HashMap.entries_erase, List.filter_filter]
      refine List.Perm.append_right _ (List.Perm.of_eq (List.filter_congr fun x _ => ?_))
      simp only [List.any_cons, Entry.retires, Bool.not_or]
      rw [Bool.and_comm]
      congr 1
      by_cases hx : x.1 = ptr <;> simp [hx]

/-- The table after any prefix of a retained stream. -/
theorem parseRetainedFrom_take (scale : Int) {es : List Entry} (hes : ∀ e ∈ es, e.Encodable)
    (n : Nat) :
    parseRetainedFrom scale ∅ 0 ((es.flatMap Entry.encode).take n) =
      .ok ((es.take (completeWithin n (es.map Entry.encode))).foldl (applyEntry scale) ∅) := by
  have := consume_take Entry.encode
    (fun (s : LiveMap × Nat) e => (applyEntry scale s.1 e, s.2 + e.encode.length))
    (fun s rest => parseRetainedFrom scale s.1 s.2 rest)
    (fun s => .ok s.1)
    (fun e he s rest => parseRetainedFrom_encode (hes e he) _ s.1 s.2 rest)
    (fun e he s p hp hne => parseRetainedFrom_of_cut (hes e he) _ s.1 s.2 hp hne)
    (fun s => by rw [parseRetainedFrom.eq_def]) n (∅, 0)
  rw [this]
  congr 1
  exact (List.foldl_hom Prod.fst fun _ _ => rfl).symm

/-- Reading any prefix of a retained stream. -/
theorem parseRetainedRawStream_take (it : IterOrder LiveAlloc) (rate : UInt32) {es : List Entry}
    (hes : ∀ e ∈ es, e.Encodable) (n : Nat) :
    ∃ samples, parseRetainedRawStream it ((es.flatMap Entry.encode).take n) rate = .ok samples ∧
      ∀ key, samples.lookup key = credited (scaleOf rate)
        ((liveAllocs (es.take (completeWithin n (es.map Entry.encode)))).map Prod.snd) key := by
  refine ⟨_, by rw [parseRetainedRawStream, parseRetainedFrom_take _ hes]; rfl,
    lookup_aggregate ?_ ?_⟩
  · refine (HashMap.intoValues_perm it _).trans ?_
    have hperm := (entries_applyAll (scaleOf rate)
      (es.take (completeWithin n (es.map Entry.encode))) ∅).map Sigma.snd
    simpa [Function.comp_def] using hperm
  · intro a ha
    obtain ⟨b, hb, rfl⟩ := List.mem_map.mp ha
    exact userFrames_ne_nil_of_mem_liveAllocs b hb

theorem parseRawFrom_encode {names : List Bytes} (h : Encodable names) (scale : Int)
    (samples : SampleMap) (size : UInt64) (rest : Bytes) :
    parseRawFrom scale samples (encodeRecord (leBytes 8 size.toNat) names ++ rest) =
      parseRawFrom scale (addSample scale samples size (names.map fromUtf8Lossy)) rest := by
  have hread := readRecord_encodeRecord (leBytes 8 size.toNat) h rest
  rw [leBytes_length] at hread
  rw [parseRawFrom.eq_def]
  split
  · rename_i hnone
    rw [hread] at hnone
    cases hnone
  · rename_i head frames rest' hsome
    rw [hread] at hsome
    cases hsome
    rw [u64FromLe_leBytes]

theorem parseRawFrom_of_none {scale : Int} {samples : SampleMap} {rest : Bytes}
    (h : readRecord 8 rest = none) : parseRawFrom scale samples rest = samples := by
  rw [parseRawFrom.eq_def]
  split
  · rfl
  · rename_i hsome
    rw [h] at hsome
    cases hsome

/-- Reading any prefix of an untagged stream. -/
theorem parseRawStream_take (rate : UInt32) {allocs : List (UInt64 × List Bytes)}
    (h : ∀ a ∈ allocs, Encodable a.2) (n : Nat) :
    let encode := fun a : UInt64 × List Bytes => encodeRecord (leBytes 8 a.1.toNat) a.2
    ∃ samples, parseRawStream ((allocs.flatMap encode).take n) rate = .ok samples ∧
      ∀ key, samples.lookup key = credited (scaleOf rate)
        ((allocs.take (completeWithin n (allocs.map encode))).map
          fun a => (a.1, a.2.map fromUtf8Lossy)) key := by
  intro encode
  have := consume_take encode
    (fun m a => addSample (scaleOf rate) m a.1 (a.2.map fromUtf8Lossy))
    (parseRawFrom (scaleOf rate)) id
    (fun a ha m rest => parseRawFrom_encode (h a ha) _ m a.1 rest)
    (fun a ha m p hp hne => parseRawFrom_of_none (by
      have := readRecord_of_cut (h a ha) hp hne
      rwa [leBytes_length] at this))
    (fun m => parseRawFrom_of_none rfl) n ∅
  refine ⟨_, by rw [parseRawStream, this], fun key => ?_⟩
  rw [← lookup_foldl_addSample, List.foldl_map]
  rfl

/-! ### Hook calls -/

/-- A stack of 1 to 64 frames with ASCII symbol names. -/
structure AsciiStack (stack : List Frame) : Prop where
  pos : stack ≠ []
  le : stack.length ≤ maxFrames
  ascii : ∀ f ∈ stack, ∀ s ∈ f.dliSname, IsAscii s.bytes

theorem Frame.name_isAscii {f : Frame} (h : ∀ s ∈ f.dliSname, IsAscii s.bytes) :
    IsAscii f.name.bytes := by
  obtain ⟨addr, sname⟩ := f
  cases sname with
  | none =>
    intro c hc
    rcases List.mem_append.mp hc with hc | hc
    · exact (show IsAscii (ascii "0x") by decide +kernel) c hc
    · exact lowerHex_isAscii _ c hc
  | some s => exact h s rfl

theorem recordedNames_lossy {pos : Nat} {bt : List Frame}
    (h : ∀ f ∈ bt, ∀ s ∈ f.dliSname, IsAscii s.bytes) :
    (recordedNames pos bt).map fromUtf8Lossy = recordedNames pos bt := by
  induction bt generalizing pos with
  | nil => rfl
  | cons f bt ih =>
    rw [recordedNames]
    split
    · rfl
    · have hname := (Frame.name_isAscii (h f (by simp))).take nameCap
      simp only [List.map_cons]
      rw [ih fun g hg => h g (by simp [hg]), fromUtf8Lossy, if_pos (validUtf8_of_isAscii hname)]

theorem encodable_recordedNames {pos : Nat} {bt : List Frame} (h : bt.length ≤ maxFrames) :
    Encodable (recordedNames pos bt) := by
  have hmax : maxFrames = 64 := rfl
  have hcap : nameCap = 250 := rfl
  constructor
  · have := recordedNames_length_le pos bt
    omega
  · intro name hname
    have := recordedNames_le_nameCap name hname
    omega

/-- A call of `__moon_pprof_alloc_hook`. -/
structure AllocCall where
  junk : Buffer
  size : UInt64
  stack : List Frame

def AllocCall.run (s : HookState) (c : AllocCall) : Option HookState :=
  allocHook false c.junk c.size c.stack s

/-- What its record holds. -/
def AllocCall.recorded (c : AllocCall) : UInt64 × List Bytes := (c.size, recordedNames 9 c.stack)

/-- A call of `__moon_pprof_alloc_ptr_hook` or `__moon_pprof_free_hook`. -/
inductive PtrCall where
  | alloc (junk : Buffer) (ptr size : UInt64) (stack : List Frame)
  | free (ptr : UInt64)

def PtrCall.run (s : HookState) : PtrCall → Option HookState
  | .alloc junk ptr size stack => allocPtrHook false junk ptr size stack s
  | .free ptr => some (freeHook false ptr s)

def PtrCall.Ok : PtrCall → Prop
  | .alloc _ ptr _ stack => ptr ≠ 0 ∧ AsciiStack stack
  | .free ptr => ptr ≠ 0

/-- The `n`-th allocation is sampled, counting from 0. -/
def isSampled (rate n : UInt64) : Bool := rate ≤ 1 || n % rate == 0

/-- The calls that are sampled when `counter` allocations came before. -/
def sampledCalls (rate : UInt64) : UInt64 → List AllocCall → List AllocCall
  | _, [] => []
  | counter, c :: cs =>
    if isSampled rate counter then c :: sampledCalls rate (counter + 1) cs
    else sampledCalls rate (counter + 1) cs

/-- The records of retained calls when `counter` allocations came before. -/
def recordedEntries (rate : UInt64) : UInt64 → List PtrCall → List Entry
  | _, [] => []
  | counter, .alloc _ ptr size stack :: cs =>
    if isSampled rate counter then
      .alloc ptr size (recordedNames 18 stack) :: recordedEntries rate (counter + 1) cs
    else recordedEntries rate (counter + 1) cs
  | counter, .free ptr :: cs => .free ptr :: recordedEntries rate counter cs

theorem sampleDecision_eq (s : HookState) :
    s.sampleDecision = (isSampled s.rate s.counter, { s with counter := s.counter + 1 }) := by
  rw [HookState.sampleDecision, isSampled, UInt64.add_sub_cancel]

/-- One call of the alloc hook. -/
theorem AllocCall.run_eq {c : AllocCall} (h : AsciiStack c.stack) {s : HookState} {out : Bytes}
    (hout : s.out = some out) :
    AllocCall.run s c = some { s with
      counter := s.counter + 1
      out := some (out ++ if isSampled s.rate s.counter then
        encodeRecord (leBytes 8 c.size.toNat) (recordedNames 9 c.stack) else []) } := by
  have htake : c.stack.take maxFrames = c.stack := List.take_of_length_le h.le
  have hpos : c.stack.isEmpty = false := by simpa using h.pos
  rw [AllocCall.run, allocHook, sampleDecision_eq]
  cases hs : isSampled s.rate s.counter
  · simp [hout]
  · simp [hout, htake, hpos, allocRecord_eq, HookState.emit, HookState.append]

/-- One call of a pointer hook. -/
theorem PtrCall.run_eq {c : PtrCall} (h : c.Ok) {s : HookState} {out : Bytes}
    (hout : s.out = some out) (hret : s.retained = true) :
    PtrCall.run s c = some (match c with
      | .alloc _ ptr size stack => { s with
          counter := s.counter + 1
          out := some (out ++ if isSampled s.rate s.counter then
            encodeRecord (allocPtrHeader ptr size) (recordedNames 18 stack) else []) }
      | .free ptr => { s with out := some (out ++ freeRecord ptr) }) := by
  cases c with
  | alloc junk ptr size stack =>
    obtain ⟨hptr, hstack⟩ := h
    have htake : stack.take maxFrames = stack := List.take_of_length_le hstack.le
    have hpos : stack.isEmpty = false := by simpa using hstack.pos
    rw [PtrCall.run, allocPtrHook, sampleDecision_eq]
    cases hs : isSampled s.rate s.counter
    · simp [HookState.ignores, hout, hret, hptr]
    · simp [HookState.ignores, hout, hret, hptr, htake, hpos, allocPtrRecord_eq, HookState.emit,
        HookState.append]
  | free ptr =>
    have hptr : ptr ≠ 0 := h
    simp [PtrCall.run, freeHook, HookState.ignores, hout, hret, hptr, HookState.append]

/-- A run of alloc hooks writes the records of the sampled calls. -/
theorem run_allocCalls {calls : List AllocCall} (h : ∀ c ∈ calls, AsciiStack c.stack)
    (s : HookState) {out : Bytes} (hout : s.out = some out) :
    ∃ s', calls.foldlM AllocCall.run s = some s' ∧ s'.out = some (out ++
      ((sampledCalls s.rate s.counter calls).map AllocCall.recorded).flatMap
        fun a => encodeRecord (leBytes 8 a.1.toNat) a.2) := by
  induction calls generalizing s out with
  | nil => exact ⟨s, rfl, by simp [sampledCalls, hout]⟩
  | cons c calls ih =>
    rw [List.foldlM_cons, AllocCall.run_eq (h c (by simp)) hout]
    obtain ⟨s', hrun, hout'⟩ := ih (fun x hx => h x (by simp [hx])) { s with
      counter := s.counter + 1
      out := some (out ++ if isSampled s.rate s.counter then
        encodeRecord (leBytes 8 c.size.toNat) (recordedNames 9 c.stack) else []) } rfl
    refine ⟨s', hrun, ?_⟩
    rw [hout', sampledCalls]
    cases hs : isSampled s.rate s.counter
    · simp
    · simp [AllocCall.recorded]

/-- A run of pointer hooks writes the retained records. -/
theorem run_ptrCalls {calls : List PtrCall} (h : ∀ c ∈ calls, c.Ok)
    (s : HookState) {out : Bytes} (hout : s.out = some out) (hret : s.retained = true) :
    ∃ s', calls.foldlM PtrCall.run s = some s' ∧ s'.out = some (out ++
      (recordedEntries s.rate s.counter calls).flatMap Entry.encode) := by
  induction calls generalizing s out with
  | nil => exact ⟨s, rfl, by simp [recordedEntries, hout]⟩
  | cons c calls ih =>
    have hrest := fun x hx => h x (List.mem_cons_of_mem c hx)
    rw [List.foldlM_cons, PtrCall.run_eq (h c (by simp)) hout hret]
    cases c with
    | alloc junk ptr size stack =>
      obtain ⟨s', hrun, hout'⟩ := ih hrest { s with
        counter := s.counter + 1
        out := some (out ++ if isSampled s.rate s.counter then
          encodeRecord (allocPtrHeader ptr size) (recordedNames 18 stack) else []) } rfl hret
      refine ⟨s', hrun, ?_⟩
      rw [hout', recordedEntries]
      cases hs : isSampled s.rate s.counter
      · simp
      · simp [Entry.encode]
    | free ptr =>
      obtain ⟨s', hrun, hout'⟩ := ih hrest { s with out := some (out ++ freeRecord ptr) } rfl hret
      refine ⟨s', hrun, ?_⟩
      rw [hout', recordedEntries]
      simp [Entry.encode]

theorem mem_sampledCalls {rate : UInt64} {calls : List AllocCall} {counter : UInt64} :
    ∀ c ∈ sampledCalls rate counter calls, c ∈ calls := by
  induction calls generalizing counter with
  | nil => simp [sampledCalls]
  | cons c calls ih =>
    intro x hx
    rw [sampledCalls] at hx
    split at hx
    · rcases List.mem_cons.mp hx with rfl | hx
      · exact List.mem_cons_self
      · exact List.mem_cons_of_mem _ (ih x hx)
    · exact List.mem_cons_of_mem _ (ih x hx)

/-- A record of the retained stream whose names fit and are ASCII. -/
def Entry.Ascii : Entry → Prop
  | .alloc _ _ names => RawStreamRoundTrip.Encodable names ∧ names.map fromUtf8Lossy = names
  | .free _ => True

theorem recordedEntries_ascii {rate : UInt64} {calls : List PtrCall} (h : ∀ c ∈ calls, c.Ok)
    {counter : UInt64} : ∀ e ∈ recordedEntries rate counter calls, e.Ascii := by
  induction calls generalizing counter with
  | nil => simp [recordedEntries]
  | cons c calls ih =>
    have hrest := fun x hx => h x (List.mem_cons_of_mem c hx)
    have hc := h c (by simp)
    intro e he
    cases c with
    | alloc junk ptr size stack =>
      rw [recordedEntries] at he
      split at he
      · rcases List.mem_cons.mp he with rfl | he
        · exact ⟨encodable_recordedNames hc.2.le, recordedNames_lossy hc.2.ascii⟩
        · exact ih hrest e he
      · exact ih hrest e he
    | free ptr =>
      rcases List.mem_cons.mp he with rfl | he
      · trivial
      · exact ih hrest e he

theorem Entry.Ascii.encodable {e : Entry} (h : e.Ascii) : e.Encodable := by
  cases e with
  | alloc ptr size names => exact h.1
  | free ptr => trivial

/-- Hook calls stay inside their record buffers, each record is read back as
the size (and pointer) and the recorded names, and parsing any prefix of the
stream gives the samples of the records that are complete in it. -/
theorem hook_stream_parses (it : IterOrder LiveAlloc) (rate : UInt32) (s : HookState)
    (hout : s.out = some []) :
    (∀ calls : List AllocCall, (∀ c ∈ calls, AsciiStack c.stack) →
      let written := (sampledCalls s.rate s.counter calls).map AllocCall.recorded
      let encode := fun a : UInt64 × List Bytes => encodeRecord (leBytes 8 a.1.toNat) a.2
      (∃ s', calls.foldlM AllocCall.run s = some s' ∧ s'.out = some (written.flatMap encode)) ∧
      (∀ a ∈ written, ∀ rest, ∃ head, u64FromLe head = a.1 ∧
        readRecord 8 (encode a ++ rest) = some ((head, a.2), rest)) ∧
      ∀ n, ∃ samples, parseRawStream ((written.flatMap encode).take n) rate = .ok samples ∧
        ∀ key, samples.lookup key = credited (scaleOf rate)
          (written.take (completeWithin n (written.map encode))) key) ∧
    (∀ calls : List PtrCall, (∀ c ∈ calls, c.Ok) → s.retained = true →
      let written := recordedEntries s.rate s.counter calls
      (∃ s', calls.foldlM PtrCall.run s = some s' ∧
        s'.out = some (written.flatMap Entry.encode)) ∧
      (∀ ptr size names, Entry.alloc ptr size names ∈ written → ∀ rest, ∃ head,
        u64FromLe (head.take 8) = ptr ∧ u64FromLe (head.drop 8) = size ∧
        ∃ record, (Entry.alloc ptr size names).encode = 'A'.toUInt8 :: record ∧
          readRecord 16 (record ++ rest) = some ((head, names), rest)) ∧
      ∀ n, ∃ samples,
        parseRetainedRawStream it ((written.flatMap Entry.encode).take n) rate = .ok samples ∧
        ∀ key, samples.lookup key = credited (scaleOf rate)
          ((liveAllocs (written.take (completeWithin n (written.map Entry.encode)))).map Prod.snd)
          key) := by
  constructor
  · intro calls hcalls written encode
    -- Every record holds ASCII names that fit their fields.
    have hwritten : ∀ a ∈ written, Encodable a.2 ∧ a.2.map fromUtf8Lossy = a.2 := by
      intro a ha
      obtain ⟨c, hc, rfl⟩ := List.mem_map.mp ha
      have := hcalls c (mem_sampledCalls c hc)
      exact ⟨encodable_recordedNames this.le, recordedNames_lossy this.ascii⟩
    refine ⟨?_, fun a ha rest => ⟨leBytes 8 a.1.toNat, u64FromLe_leBytes _, ?_⟩, fun n => ?_⟩
    · simpa using run_allocCalls hcalls s hout
    · have hread := readRecord_encodeRecord (leBytes 8 a.1.toNat) (hwritten a ha).1 rest
      rwa [leBytes_length, (hwritten a ha).2] at hread
    · obtain ⟨samples, hparse, hlookup⟩ :=
        parseRawStream_take rate (fun a ha => (hwritten a ha).1) n
      refine ⟨samples, hparse, fun key => ?_⟩
      rw [hlookup key]
      congr 1
      refine (List.map_congr_left fun a ha => ?_).trans (List.map_id _)
      rw [(hwritten a (List.mem_of_mem_take ha)).2]
      rfl
  · intro calls hcalls hret written
    have hwritten : ∀ e ∈ written, e.Ascii := recordedEntries_ascii hcalls
    refine ⟨?_, fun ptr size names he rest => ?_, fun n => ?_⟩
    · simpa using run_ptrCalls hcalls s hout hret
    · have hread := readRecord_encodeRecord (leBytes 8 ptr.toNat ++ leBytes 8 size.toNat)
        (hwritten _ he).1 rest
      rw [(hwritten _ he).2] at hread
      refine ⟨leBytes 8 ptr.toNat ++ leBytes 8 size.toNat, ?_, ?_,
        encodeRecord (leBytes 8 ptr.toNat ++ leBytes 8 size.toNat) names, ?_, ?_⟩
      · rw [List.take_left' (leBytes_length 8 _), u64FromLe_leBytes]
      · rw [List.drop_left' (leBytes_length 8 _), u64FromLe_leBytes]
      · simp [Entry.encode, encodeRecord, allocPtrHeader]
      · simpa using hread
    · exact parseRetainedRawStream_take it rate (fun e he => (hwritten e he).encodable) n

/-- A stack that `dladdr` resolves to `malloc` under `main`. -/
def mainStack : List Frame :=
  [⟨0x10, some ⟨ascii "malloc", by decide⟩⟩, ⟨0x20, some ⟨ascii "main", by decide⟩⟩]

def zeroBuffer : Buffer := ⟨List.replicate bufSize 0, List.length_replicate⟩

theorem hook_stream_parses_main :
    (∃ s' stream samples,
      AllocCall.run ⟨some [], 0, 1, false⟩ ⟨zeroBuffer, 24, mainStack⟩ = some s' ∧
      s'.out = some stream ∧ parseRawStream stream 1 = .ok samples ∧
      samples.lookup [ascii "main"] = some ⟨1, 24⟩) ∧
    (∃ s' stream samples,
      [PtrCall.alloc zeroBuffer 0x40 24 mainStack, .free 0x40].foldlM PtrCall.run
        ⟨some [], 0, 1, true⟩ = some s' ∧
      s'.out = some stream ∧ parseRetainedRawStream ⟨id, fun _ => .refl _⟩ stream 1 = .ok samples ∧
      samples.lookup [ascii "main"] = none) := by
  have hstack : AsciiStack mainStack := ⟨by decide, by decide, by decide +kernel⟩
  constructor
  · obtain ⟨⟨s', hrun, hout⟩, -, hparse⟩ :=
      (hook_stream_parses ⟨id, fun _ => .refl _⟩ 1 ⟨some [], 0, 1, false⟩ rfl).1
        [⟨zeroBuffer, 24, mainStack⟩] (by simpa using hstack)
    obtain ⟨samples, hsamples, hlookup⟩ := hparse 26
    refine ⟨s', _, samples, by simpa using hrun, hout, ?_, ?_⟩
    · rwa [List.take_of_length_le (by decide +kernel)] at hsamples
    · rw [hlookup]
      decide +kernel
  · obtain ⟨⟨s', hrun, hout⟩, -, hparse⟩ :=
      (hook_stream_parses ⟨id, fun _ => .refl _⟩ 1 ⟨some [], 0, 1, true⟩ rfl).2
        [.alloc zeroBuffer 0x40 24 mainStack, .free 0x40]
        (by simpa [PtrCall.Ok] using hstack) rfl
    obtain ⟨samples, hsamples, hlookup⟩ := hparse 44
    refine ⟨s', _, samples, hrun, hout, ?_, ?_⟩
    · rwa [List.take_of_length_le (by decide +kernel)] at hsamples
    · rw [hlookup]
      decide +kernel

end RawStreamRoundTrip
