/-
Guest profiling (`wasmtime-guest-pprof`) as `moon-pprof profile` drives it.

Two threads: the ticker increments the epoch of the engine until it reads the
stop flag; the main thread runs the guest, whose epoch checks call the deadline
callback, and then drops the ticker and writes the profile.  The loads are
relaxed: the ticker may miss the flag for a while, and the guest may read an
epoch that is not the last one.

* `session_safe` — in every run the profile that is written has exactly the
  samples that were taken, no more of them than ticks; after the drop there is
  no tick;
* `ticker_stops` — how long the drop waits.
-/
import MoonPprof.LabelledRun
import Mathlib.Data.List.Basic

open LabelledRun

namespace GuestSession

/-- Where the ticker thread is in its loop. -/
inductive Ticker where
  | test
  | asleep
  | awake
  | exited
deriving DecidableEq

/-- What the main thread comes to: the profile, or the error of `into_json`. -/
inductive Outcome (S : Type) where
  | trapped
  | json (result : Except String (List S))

/-- Where the main thread is, with the number of calls still to be made.  In the callback it may
hold the profiler, that is, the samples so far. -/
inductive Main (S : Type) where
  | loop (left : Nat)
  | guest (left : Nat)
  | taken (left : Nat) (prof : List S)
  | sampled (left : Nat) (prof : List S)
  | restored (left : Nat)
  | dropping (ok : Bool)
  | joining (ok : Bool)
  | dropped (ok : Bool)
  | returned (outcome : Outcome S)

structure Sys (S : Type) where
  epoch : Nat
  stop : Bool
  ticker : Ticker
  /-- `ProfileSession::inner`. -/
  inner : Option (List S)
  /-- The last epoch that the main thread has read. -/
  seen : Nat
  deadline : Nat
  main : Main S

variable {S : Type}

/-- The callback is installed and the ticker started.  The module is instantiated by the first
call. -/
def Sys.start (iterations : Nat) : Sys S where
  epoch := 0
  stop := false
  ticker := .test
  inner := some []
  seen := 0
  deadline := 1
  main := .loop (iterations + 1)

inductive Event (S : Type) where
  | test (stopped : Bool)
  | wake
  | increment
  | call
  | check (epoch : Nat)
  | sample (x : S)
  | putBack
  | extend (epoch : Nat)
  | ret
  | fail
  | leave
  | store
  | join
  | finish

/-- `take` on the session; without a profiler the callback has nothing to do. -/
def Sys.take (s : Sys S) (left : Nat) : Sys S :=
  { s with
    inner := none
    main := match s.inner with
      | some prof => .taken left prof
      | none => .restored left }

def intoJson (inner : Option (List S)) : Except String (List S) :=
  match inner with
  | some prof => .ok prof
  | none => .error "profiler was taken but never returned"

/-- The main thread may read any epoch from the last one it has seen on. -/
def Sys.Reads (s : Sys S) (epoch : Nat) : Prop := s.seen ≤ epoch ∧ epoch ≤ s.epoch

instance (s : Sys S) (epoch : Nat) : Decidable (s.Reads epoch) := inferInstanceAs (Decidable (_ ∧ _))

def Sys.step (s : Sys S) : Event S → Option (Sys S)
  | .test stopped =>
    -- a load that misses the store still reads `false`
    if s.ticker = .test ∧ (stopped = true → s.stop = true) then
      some { s with ticker := if stopped then .exited else .asleep }
    else none
  | .wake => if s.ticker = .asleep then some { s with ticker := .awake } else none
  | .increment =>
    if s.ticker = .awake then some { s with epoch := s.epoch + 1, ticker := .test } else none
  | .call =>
    match s.main with
    | .loop (left + 1) => some { s with main := .guest left }
    | _ => none
  | .check epoch =>
    match s.main with
    | .guest left =>
      if s.Reads epoch then
        some (if epoch < s.deadline then { s with seen := epoch }
          else { s with seen := epoch }.take left)
      else none
    | _ => none
  | .sample x =>
    match s.main with
    | .taken left prof => some { s with main := .sampled left (prof ++ [x]) }
    | _ => none
  | .putBack =>
    match s.main with
    | .sampled left prof => some { s with inner := some prof, main := .restored left }
    | _ => none
  | .extend epoch =>
    match s.main with
    | .restored left =>
      if s.Reads epoch then
        some { s with seen := epoch, deadline := epoch + 1, main := .guest left }
      else none
    | _ => none
  | .ret =>
    match s.main with
    | .guest left => some { s with main := .loop left }
    | _ => none
  | .fail =>
    match s.main with
    | .guest _ | .loop _ => some { s with main := .dropping false }
    | _ => none
  | .leave =>
    match s.main with
    | .loop 0 => some { s with main := .dropping true }
    | _ => none
  | .store =>
    match s.main with
    | .dropping ok => some { s with stop := true, main := .joining ok }
    | _ => none
  | .join =>
    match s.main with
    | .joining ok => if s.ticker = .exited then some { s with main := .dropped ok } else none
    | _ => none
  | .finish =>
    match s.main with
    | .dropped true => some { s with main := .returned (.json (intoJson s.inner)) }
    | .dropped false => some { s with main := .returned .trapped }
    | _ => none

/-! ### What happens in a run -/

def Event.sampleOf : Event S → Option S
  | .sample x => some x
  | _ => none

def Event.isTick : Event S → Bool
  | .increment => true
  | _ => false

/-- The samples that were taken. -/
def samplesOf (es : List (Event S)) : List S := es.filterMap Event.sampleOf

/-- The number of ticks. -/
def ticks (es : List (Event S)) : Nat := es.countP Event.isTick

/-- The main thread has dropped the ticker. -/
def Main.IsDropped : Main S → Prop
  | .dropped _ | .returned _ => True
  | _ => False

/-- What holds where the main thread is, when `samples` have been taken. -/
def Placed (s : Sys S) (samples : List S) : Prop :=
  match s.main with
  | .loop _ | .guest _ => s.inner = some samples ∧ samples.length < s.deadline ∧ s.deadline ≤ s.seen + 1
  | .taken _ prof => prof = samples ∧ samples.length < s.seen
  | .sampled _ prof => prof = samples ∧ samples.length ≤ s.seen
  | .restored _ => s.inner = some samples ∧ samples.length ≤ s.seen
  | .dropping _ => s.inner = some samples ∧ samples.length ≤ s.seen
  | .joining _ => s.inner = some samples ∧ samples.length ≤ s.seen ∧ s.stop = true
  | .dropped _ => s.inner = some samples ∧ samples.length ≤ s.seen ∧ s.ticker = .exited
  | .returned outcome => samples.length ≤ s.seen ∧ s.ticker = .exited ∧
      (outcome = .trapped ∨ outcome = .json (.ok samples))

structure Inv (s : Sys S) (samples : List S) (ticks : Nat) : Prop where
  epoch : s.epoch = ticks
  seen : s.seen ≤ s.epoch
  placed : Placed s samples

theorem inv_start (iterations : Nat) : Inv (Sys.start iterations : Sys S) [] 0 where
  epoch := rfl
  seen := Nat.le_refl 0
  placed := ⟨rfl, Nat.one_pos, Nat.le_refl 1⟩

variable {s s' : Sys S} {samples : List S} {n : Nat}

/-- A step of the ticker, which has not exited, changes nothing of it. -/
theorem Placed.ticker (h : Placed s samples) (hticker : s.ticker ≠ .exited) (ticker : Ticker)
    (epoch : Nat) : Placed { s with ticker := ticker, epoch := epoch } samples := by
  rw [Placed] at h ⊢
  cases hmain : s.main with
  | dropped ok =>
    rw [hmain] at h
    exact absurd h.2.2 hticker
  | returned outcome =>
    rw [hmain] at h
    exact absurd h.2.1 hticker
  | _ =>
    rw [hmain] at h
    exact h

/-- The callback finds the profiler. -/
theorem Placed.take {left epoch : Nat} (hmain : s.main = .guest left) (h : Placed s samples)
    (hepoch : ¬epoch < s.deadline) : Placed ({ s with seen := epoch }.take left) samples := by
  rw [Placed, hmain] at h
  obtain ⟨hinner, hlen, -⟩ := h
  have htake : ({ s with seen := epoch }.take left).main = .taken left samples := by
    rw [Sys.take]
    simp only [hinner]
  have hseen : ({ s with seen := epoch }.take left).seen = epoch := rfl
  rw [Placed, htake, hseen]
  exact ⟨rfl, by omega⟩

theorem length_le {deadline seen : Nat} (hlen : samples.length < deadline)
    (hdeadline : deadline ≤ seen + 1) : samples.length ≤ seen := by
  omega

/-- One step of either thread. -/
theorem Inv.step {e : Event S} (h : Inv s samples n) (hstep : s.step e = some s') :
    Inv s' (samples ++ e.sampleOf.toList) (n + e.isTick.toNat) := by
  obtain ⟨hepoch, hseen, hplaced⟩ := h
  have hnil : samples ++ (none : Option S).toList = samples := List.append_nil samples
  cases e with
  | test stopped =>
    simp only [Sys.step] at hstep
    split at hstep
    · rename_i htest
      cases hstep
      refine ⟨hepoch, hseen, hnil.symm ▸ hplaced.ticker ?_ _ _⟩
      rw [htest.1]
      exact nofun
    · cases hstep
  | wake =>
    simp only [Sys.step] at hstep
    split at hstep
    · rename_i hasleep
      cases hstep
      refine ⟨hepoch, hseen, hnil.symm ▸ hplaced.ticker ?_ _ _⟩
      rw [hasleep]
      exact nofun
    · cases hstep
  | increment =>
    simp only [Sys.step] at hstep
    split at hstep
    · rename_i hawake
      cases hstep
      refine ⟨congrArg Nat.succ hepoch, Nat.le_succ_of_le hseen, hnil.symm ▸ hplaced.ticker ?_ _ _⟩
      rw [hawake]
      exact nofun
    · cases hstep
  | call =>
    simp only [Sys.step] at hstep
    split at hstep
    · rename_i left hmain
      cases hstep
      rw [Placed, hmain] at hplaced
      exact ⟨hepoch, hseen, hnil.symm ▸ hplaced⟩
    · cases hstep
  | check epoch =>
    simp only [Sys.step] at hstep
    split at hstep
    · rename_i left hmain
      split at hstep
      · rename_i hread
        cases hstep
        split
        · rw [Placed, hmain] at hplaced
          obtain ⟨hinner, hlen, hdeadline⟩ := hplaced
          refine ⟨hepoch, hread.2, hnil.symm ▸ ?_⟩
          rw [Placed, hmain]
          exact ⟨hinner, hlen, Nat.le_trans hdeadline (Nat.succ_le_succ hread.1)⟩
        · rename_i hdeadline
          exact ⟨hepoch, hread.2, hnil.symm ▸ hplaced.take hmain hdeadline⟩
      · cases hstep
    · cases hstep
  | sample x =>
    simp only [Sys.step] at hstep
    split at hstep
    · rename_i left prof hmain
      cases hstep
      rw [Placed, hmain] at hplaced
      obtain ⟨rfl, hlen⟩ := hplaced
      refine ⟨hepoch, hseen, rfl, ?_⟩
      rw [Event.sampleOf, Option.toList_some, List.length_append]
      exact hlen
    · cases hstep
  | putBack =>
    simp only [Sys.step] at hstep
    split at hstep
    · rename_i left prof hmain
      cases hstep
      rw [Placed, hmain] at hplaced
      obtain ⟨rfl, hlen⟩ := hplaced
      exact ⟨hepoch, hseen, hnil.symm ▸ ⟨rfl, hlen⟩⟩
    · cases hstep
  | extend epoch =>
    simp only [Sys.step] at hstep
    split at hstep
    · rename_i left hmain
      split at hstep
      · rename_i hread
        cases hstep
        rw [Placed, hmain] at hplaced
        obtain ⟨hinner, hlen⟩ := hplaced
        exact ⟨hepoch, hread.2, hnil.symm ▸ ⟨hinner, Nat.lt_succ_of_le (Nat.le_trans hlen hread.1),
          Nat.le_refl _⟩⟩
      · cases hstep
    · cases hstep
  | ret =>
    simp only [Sys.step] at hstep
    split at hstep
    · rename_i left hmain
      cases hstep
      rw [Placed, hmain] at hplaced
      exact ⟨hepoch, hseen, hnil.symm ▸ hplaced⟩
    · cases hstep
  | fail =>
    simp only [Sys.step] at hstep
    split at hstep
    · rename_i left hmain
      cases hstep
      rw [Placed, hmain] at hplaced
      obtain ⟨hinner, hlen, hdeadline⟩ := hplaced
      exact ⟨hepoch, hseen, hnil.symm ▸ ⟨hinner, length_le hlen hdeadline⟩⟩
    · rename_i left hmain
      cases hstep
      rw [Placed, hmain] at hplaced
      obtain ⟨hinner, hlen, hdeadline⟩ := hplaced
      exact ⟨hepoch, hseen, hnil.symm ▸ ⟨hinner, length_le hlen hdeadline⟩⟩
    · cases hstep
  | leave =>
    simp only [Sys.step] at hstep
    split at hstep
    · rename_i hmain
      cases hstep
      rw [Placed, hmain] at hplaced
      obtain ⟨hinner, hlen, hdeadline⟩ := hplaced
      exact ⟨hepoch, hseen, hnil.symm ▸ ⟨hinner, length_le hlen hdeadline⟩⟩
    · cases hstep
  | store =>
    simp only [Sys.step] at hstep
    split at hstep
    · rename_i ok hmain
      cases hstep
      rw [Placed, hmain] at hplaced
      exact ⟨hepoch, hseen, hnil.symm ▸ ⟨hplaced.1, hplaced.2, rfl⟩⟩
    · cases hstep
  | join =>
    simp only [Sys.step] at hstep
    split at hstep
    · rename_i ok hmain
      split at hstep
      · rename_i hexited
        cases hstep
        rw [Placed, hmain] at hplaced
        exact ⟨hepoch, hseen, hnil.symm ▸ ⟨hplaced.1, hplaced.2.1, hexited⟩⟩
      · cases hstep
    · cases hstep
  | finish =>
    simp only [Sys.step] at hstep
    split at hstep
    · rename_i hmain
      cases hstep
      rw [Placed, hmain] at hplaced
      refine ⟨hepoch, hseen, hnil.symm ▸ ⟨hplaced.2.1, hplaced.2.2, .inr ?_⟩⟩
      rw [hplaced.1]
      rfl
    · rename_i hmain
      cases hstep
      rw [Placed, hmain] at hplaced
      exact ⟨hepoch, hseen, hnil.symm ▸ ⟨hplaced.2.1, hplaced.2.2, .inl rfl⟩⟩
    · cases hstep

theorem samplesOf_cons (e : Event S) (es : List (Event S)) :
    samplesOf (e :: es) = e.sampleOf.toList ++ samplesOf es := by
  cases h : e.sampleOf with
  | none => exact List.filterMap_cons_none h
  | some x => exact List.filterMap_cons_some h

theorem ticks_cons (e : Event S) (es : List (Event S)) :
    ticks (e :: es) = e.isTick.toNat + ticks es := by
  cases h : e.isTick with
  | false =>
    rw [ticks, List.countP_cons_of_neg (by simp [h]), Bool.toNat_false, Nat.zero_add]
    rfl
  | true =>
    rw [ticks, List.countP_cons_of_pos h, Bool.toNat_true, Nat.add_comm]
    rfl

/-- A whole run. -/
theorem Inv.run {es : List (Event S)} (h : Inv s samples n)
    (hrun : LabelledRun.run Sys.step s es = some s') :
    Inv s' (samples ++ samplesOf es) (n + ticks es) := by
  induction es generalizing s samples n with
  | nil =>
    obtain rfl := Option.some.inj hrun
    rw [show samplesOf ([] : List (Event S)) = [] from rfl, List.append_nil]
    exact h
  | cons e es ih =>
    rw [run_cons] at hrun
    obtain ⟨s₁, hstep, hrest⟩ := Option.bind_eq_some_iff.mp hrun
    rw [samplesOf_cons, ticks_cons, ← List.append_assoc, ← Nat.add_assoc]
    exact ih (h.step hstep) hrest

/-! ### The ticker -/

/-- How many steps the ticker still makes when its loads see the flag. -/
def Ticker.rank : Ticker → Nat
  | .exited => 0
  | .test => 1
  | .awake => 2
  | .asleep => 3

/-- A step of the ticker thread. -/
def Event.IsTicker : Event S → Bool
  | .test _ | .wake | .increment => true
  | _ => false

/-- A load that still misses the flag. -/
def Event.IsStale : Event S → Bool
  | .test stopped => !stopped
  | _ => false

/-- Each step of the ticker brings it closer to its exit, and no other step moves it. -/
theorem rank_step {e : Event S} (hstep : s.step e = some s') (hstale : e.IsStale = false) :
    s'.ticker.rank + e.IsTicker.toNat = s.ticker.rank := by
  cases e with
  | test stopped =>
    simp only [Sys.step] at hstep
    split at hstep
    · rename_i htest
      cases hstep
      obtain rfl : stopped = true := by simpa [Event.IsStale] using hstale
      rw [htest.1]
      rfl
    · cases hstep
  | wake =>
    simp only [Sys.step] at hstep
    split at hstep
    · rename_i hasleep
      cases hstep
      rw [hasleep]
      rfl
    · cases hstep
  | increment =>
    simp only [Sys.step] at hstep
    split at hstep
    · rename_i hawake
      cases hstep
      rw [hawake]
      rfl
    · cases hstep
  | check epoch | extend epoch | join =>
    simp only [Sys.step] at hstep
    split at hstep
    · split at hstep
      · cases hstep
        first
        | rfl
        | split <;> rfl
      · cases hstep
    · cases hstep
  | _ =>
    simp only [Sys.step] at hstep
    split at hstep
    all_goals
      cases hstep
      try rfl

/-- A run in which the loads see the flag. -/
theorem rank_run {es : List (Event S)} (hrun : run Sys.step s es = some s')
    (hfresh : ∀ e ∈ es, e.IsStale = false) :
    s'.ticker.rank + es.countP Event.IsTicker = s.ticker.rank := by
  induction es generalizing s with
  | nil =>
    obtain rfl := Option.some.inj hrun
    rfl
  | cons e es ih =>
    rw [run_cons] at hrun
    obtain ⟨s₁, hstep, hrest⟩ := Option.bind_eq_some_iff.mp hrun
    have hfirst := rank_step hstep (hfresh e List.mem_cons_self)
    have hcount := ih hrest fun e' he' => hfresh e' (List.mem_cons_of_mem _ he')
    rw [List.countP_cons]
    cases hticker : e.IsTicker
    · rw [hticker, Bool.toNat_false] at hfirst
      simp only [Bool.false_eq_true, if_false]
      omega
    · rw [hticker, Bool.toNat_true] at hfirst
      simp only [if_true]
      omega

theorem Ticker.eq_exited {t : Ticker} (h : t.rank = 0) : t = .exited := by
  cases t with
  | exited => rfl
  | _ => cases h

/-- A thread that has exited makes no step. -/
theorem exited_step {e : Event S} (h : s.ticker = .exited) (hstep : s.step e = some s') :
    e.isTick = false ∧ s'.ticker = .exited := by
  have hstale : e.IsStale = false := by
    cases e with
    | test stopped => simp [Sys.step, h] at hstep
    | _ => rfl
  have hrank := rank_step hstep hstale
  rw [h] at hrank
  have hzero : s'.ticker.rank = 0 := Nat.eq_zero_of_add_eq_zero_right hrank
  refine ⟨?_, Ticker.eq_exited hzero⟩
  cases e with
  | increment => simp [Sys.step, h] at hstep
  | _ => rfl

theorem exited_run {es : List (Event S)} (h : s.ticker = .exited)
    (hrun : run Sys.step s es = some s') : ticks es = 0 := by
  induction es generalizing s with
  | nil => rfl
  | cons e es ih =>
    rw [run_cons] at hrun
    obtain ⟨s₁, hstep, hrest⟩ := Option.bind_eq_some_iff.mp hrun
    obtain ⟨htick, hexited⟩ := exited_step h hstep
    rw [ticks_cons, htick, Bool.toNat_false, Nat.zero_add]
    exact ih hexited hrest

/-- The thread that drops the ticker can always go on. -/
theorem exists_join {ok : Bool} (hmain : s.main = .joining ok) (hstop : s.stop = true) :
    ∃ es s', run Sys.step s es = some s' ∧ s'.main = .dropped ok := by
  obtain ⟨epoch, stop, ticker, inner, seen, deadline, main⟩ := s
  obtain rfl : stop = true := hstop
  obtain rfl : main = .joining ok := hmain
  cases ticker with
  | exited => exact ⟨[.join], _, rfl, rfl⟩
  | test => exact ⟨[.test true, .join], _, rfl, rfl⟩
  | awake => exact ⟨[.increment, .test true, .join], _, rfl, rfl⟩
  | asleep => exact ⟨[.wake, .increment, .test true, .join], _, rfl, rfl⟩

/-! ### Main result -/

/-- What has been read off where the main thread is. -/
theorem Placed.length_le_seen (h : Placed s samples) : samples.length ≤ s.seen := by
  rw [Placed] at h
  split at h
  · exact length_le h.2.1 h.2.2
  · exact length_le h.2.1 h.2.2
  · exact Nat.le_of_lt h.2
  · exact h.2
  · exact h.2
  · exact h.2
  · exact h.2.1
  · exact h.2.1
  · exact h.1

theorem Placed.exited (h : Placed s samples) (hdropped : s.main.IsDropped) :
    s.ticker = .exited := by
  rw [Placed] at h
  cases hmain : s.main with
  | dropped ok =>
    rw [hmain] at h
    exact h.2.2
  | returned outcome =>
    rw [hmain] at h
    exact h.2.1
  | _ =>
    rw [hmain] at hdropped
    exact hdropped.elim

/-- In every run of the two threads: wherever the guest runs, the session has its profiler with all
samples, so that no callback is in vain; the profile that is written has exactly the samples that
were taken, and `into_json` never fails; there are no more samples than ticks; once the ticker is
dropped there is no tick; and while the drop waits, the ticker makes at most three steps after its
loads see the flag, and the drop can return. -/
theorem session_safe (iterations : Nat) {es : List (Event S)} {s : Sys S}
    (hrun : run Sys.step (Sys.start iterations) es = some s) :
    (∀ left, s.main = .guest left → s.inner = some (samplesOf es)) ∧
      (∀ outcome, s.main = .returned outcome →
        outcome = .trapped ∨ outcome = .json (.ok (samplesOf es))) ∧
      (samplesOf es).length ≤ ticks es ∧
      (s.main.IsDropped → ∀ es' s', run Sys.step s es' = some s' → ticks es' = 0) ∧
      ∀ ok, s.main = .joining ok →
        (∀ es' s', run Sys.step s es' = some s' → (∀ e ∈ es', e.IsStale = false) →
          es'.countP Event.IsTicker ≤ 3) ∧
        ∃ es' s', run Sys.step s es' = some s' ∧ s'.main = .dropped ok := by
  obtain ⟨hepoch, hseen, hplaced⟩ := (inv_start iterations).run hrun
  rw [List.nil_append] at hplaced
  rw [Nat.zero_add] at hepoch
  refine ⟨fun left hmain => ?_, fun outcome hmain => ?_, ?_, fun hdropped es' s' hrun' => ?_,
    fun ok hmain => ⟨fun es' s' hrun' hfresh => ?_, ?_⟩⟩
  · rw [Placed, hmain] at hplaced
    exact hplaced.1
  · rw [Placed, hmain] at hplaced
    exact hplaced.2.2
  · exact hepoch ▸ Nat.le_trans hplaced.length_le_seen hseen
  · exact exited_run (hplaced.exited hdropped) hrun'
  · have hrank : s.ticker.rank ≤ 3 := by
      cases s.ticker <;> decide
    have hcount := rank_run hrun' hfresh
    omega
  · rw [Placed, hmain] at hplaced
    exact exists_join hmain hplaced.2.2

/-- The guest misses a tick, and the ticker the flag. -/
theorem session_safe_stale :
    let es : List (Event String) := [.test false, .wake, .call, .check 0, .increment, .check 0,
      .test false, .wake, .increment, .check 2, .sample "main", .putBack, .test false, .extend 2,
      .ret, .call, .ret, .leave, .store, .wake, .increment, .test false, .wake, .increment,
      .test true, .join, .finish]
    ∃ s, run Sys.step (Sys.start 1) es = some s ∧ s.main = .returned (.json (.ok ["main"])) ∧
      (samplesOf es).length ≤ ticks es := by
  intro es
  refine ⟨_, rfl, rfl, ?_⟩
  exact (session_safe 1 rfl).2.2.1

end GuestSession
