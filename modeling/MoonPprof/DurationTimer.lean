/-
The `--duration` timer of `memprofile-native` (`cmd_memprofile_native.rs`).

`run` spawns the patched binary and, for a positive duration, a thread that
sleeps for it and then sends `SIGTERM` to the pid of the child; meanwhile it
waits for the child, which reaps it, and then joins the thread.  The machine has
a step for each of these, for the end of the child, which can come at any time,
and for the system giving a pid that is free to another process.

* `kill_owned_of_outlives` — the signal goes to the child in every run in which
  the child does not end before it;
* `exists_kill_of_exit` — when it does end before, the run can go on so that the
  signal is sent after the child is reaped;
* `kill_owned` — both together.
-/
import MoonPprof.LabelledRun

open LabelledRun

namespace DurationTimer

/-! ### The processes and their steps -/

/-- What the pid of the child stands for. -/
inductive Pid
  | running
  | zombie
  | free
  | reused
deriving DecidableEq

/-- The child has not been reaped. -/
def Pid.Owned (pid : Pid) : Prop := pid = .running ∨ pid = .zombie

instance (pid : Pid) : Decidable pid.Owned := inferInstanceAs (Decidable (_ ∨ _))

/-- The timer thread; there is none when `args.duration` is 0. -/
inductive Timer
  | absent
  | spawned
  | sleeping (deadline : Nat)
  | awake
  | finished
deriving DecidableEq

/-- The thread of `run`, from the spawn of the timer on. -/
inductive Main
  | waiting
  | joining
  | returned
deriving DecidableEq

structure State where
  clock : Nat
  pid : Pid
  timer : Timer
  main : Main
deriving DecidableEq

/-- The child is spawned, and the timer for a positive duration. -/
def start (duration : Nat) : State where
  clock := 0
  pid := .running
  timer := if duration > 0 then .spawned else .absent
  main := .waiting

inductive Event
  | tick
  | childExits
  | pidReused
  | timerSleeps
  | timerWakes
  | kill
  | waitReturns
  | waitFails
  | joinReturns
deriving DecidableEq

def step (duration : Nat) (s : State) : Event → Option State
  | .tick => some { s with clock := s.clock + 1 }
  | .childExits => if s.pid = .running then some { s with pid := .zombie } else none
  | .pidReused => if s.pid = .free then some { s with pid := .reused } else none
  | .timerSleeps =>
    if s.timer = .spawned then some { s with timer := .sleeping (s.clock + duration) } else none
  | .timerWakes =>
    match s.timer with
    | .sleeping deadline => if deadline ≤ s.clock then some { s with timer := .awake } else none
    | _ => none
  -- `libc::kill(pid, SIGTERM)`; what it does to the child is a later `childExits`
  | .kill => if s.timer = .awake then some { s with timer := .finished } else none
  | .waitReturns =>
    if s.main = .waiting ∧ s.pid = .zombie then
      some { s with pid := .free, main := if s.timer = .absent then .returned else .joining }
    else none
  | .waitFails => if s.main = .waiting then some { s with main := .returned } else none
  | .joinReturns =>
    if s.main = .joining ∧ s.timer = .finished then some { s with main := .returned } else none

/-! ### The signal -/

/-- Each signal of the run is sent while the child has not been reaped. -/
def KillsOwned (duration : Nat) : List Event → Prop :=
  Along (step duration) (fun s e => e = .kill → s.pid.Owned) (start duration)

/-- There is no timer, or it has sent its signal. -/
def Timer.Settled (timer : Timer) : Prop := timer = .absent ∨ timer = .finished

instance (timer : Timer) : Decidable timer.Settled := inferInstanceAs (Decidable (_ ∨ _))

/-- The child does not end before the signal. -/
def Outlives (duration : Nat) : List Event → Prop :=
  Along (step duration) (fun s e => e = .childExits → s.timer.Settled) (start duration)

instance (duration : Nat) (es : List Event) : Decidable (Outlives duration es) :=
  Along.decidable _ _ es

variable {duration : Nat} {s s' : State} {e : Event}

/-- What becomes of the timer in a step. -/
theorem timer_of_step (hs : step duration s e = some s') :
    s'.timer = s.timer ∨ s'.timer = .finished ∨ ¬ s.timer.Settled := by
  cases e with
  | timerSleeps =>
    obtain ⟨htimer, -⟩ := Option.ite_none_right_eq_some.mp hs
    exact Or.inr (Or.inr (by simp [Timer.Settled, htimer]))
  | timerWakes =>
    rcases htimer : s.timer with _ | _ | deadline | _ | _
    case sleeping => exact Or.inr (Or.inr (by simp [Timer.Settled]))
    all_goals simp [step, htimer] at hs
  | kill =>
    obtain ⟨-, rfl⟩ := by simpa [step] using hs
    exact Or.inr (Or.inl rfl)
  | tick =>
    obtain rfl := Option.some.inj hs
    exact Or.inl rfl
  | childExits | pidReused | waitReturns | waitFails | joinReturns =>
    obtain ⟨-, rfl⟩ := by simpa [step] using hs
    exact Or.inl rfl

/-- The child ends only in its own step. -/
theorem running_of_step (hs : step duration s e = some s') (hrunning : s.pid = .running)
    (he : e ≠ .childExits) : s'.pid = .running := by
  cases e with
  | childExits => exact absurd rfl he
  | tick =>
    obtain rfl := Option.some.inj hs
    exact hrunning
  | timerWakes =>
    rcases htimer : s.timer with _ | _ | deadline | _ | _
    case sleeping =>
      obtain ⟨-, rfl⟩ := by simpa [step, htimer] using hs
      exact hrunning
    all_goals simp [step, htimer] at hs
  | pidReused | waitReturns => simp [step, hrunning] at hs
  | timerSleeps | kill | waitFails | joinReturns =>
    obtain ⟨-, rfl⟩ := by simpa [step] using hs
    exact hrunning

/-- As long as the child outlives the timer, it is running or the signal is sent. -/
theorem running_or_settled_of_step (hs : step duration s e = some s')
    (he : e = .childExits → s.timer.Settled) (h : s.pid = .running ∨ s.timer.Settled) :
    s'.pid = .running ∨ s'.timer.Settled := by
  by_cases hsettled : s.timer.Settled
  · rcases timer_of_step hs with htimer | htimer | hnot
    · exact Or.inr (htimer ▸ hsettled)
    · exact Or.inr (Or.inr htimer)
    · exact absurd hsettled hnot
  · refine Or.inl (running_of_step hs (h.resolve_right hsettled) ?_)
    rintro rfl
    exact hsettled (he rfl)

/-- In a run in which the child does not end before the signal, the child gets it. -/
theorem kill_owned_of_outlives {es : List Event} (h : Outlives duration es) :
    KillsOwned duration es := by
  have hinv : ∀ s e s', (s.pid = .running ∨ s.timer.Settled) →
      (e = .childExits → s.timer.Settled) → step duration s e = some s' →
      (s'.pid = .running ∨ s'.timer.Settled) :=
    fun s e s' h he hs => running_or_settled_of_step hs he h
  refine Along.of_invariant hinv ?_ (Or.inl rfl) h
  rintro s e s' hor hs rfl
  obtain ⟨hawake, -⟩ := Option.ite_none_right_eq_some.mp hs
  exact Or.inl (hor.resolve_right (by simp [Timer.Settled, hawake]))

/-! ### A child that ends too early -/

theorem run_ticks (duration : Nat) (s : State) (n : Nat) :
    run (step duration) s (List.replicate n .tick) = some { s with clock := s.clock + n } := by
  induction n generalizing s with
  | zero => rfl
  | succ n ih =>
    rw [List.replicate_succ]
    refine run_step rfl ((ih _).trans ?_)
    simp [Nat.add_assoc, Nat.add_comm 1]

/-- A timer that has yet to send its signal comes to it, whatever else waits. -/
theorem exists_run_awake (duration : Nat) (s : State) (h : ¬ s.timer.Settled) :
    ∃ es clock, run (step duration) s es = some { s with clock := clock, timer := .awake } := by
  obtain ⟨clock, pid, timer, main⟩ := s
  have hsleeping : ∀ deadline, ∃ es clock', run (step duration)
      ⟨clock, pid, .sleeping deadline, main⟩ es = some ⟨clock', pid, .awake, main⟩ := by
    intro deadline
    refine ⟨List.replicate deadline .tick ++ [.timerWakes], clock + deadline, ?_⟩
    refine run_trans (run_ticks _ _ _) (run_step (if_pos ?_) rfl)
    exact Nat.le_add_left deadline clock
  rcases timer with _ | _ | deadline | _ | _
  case absent => exact absurd (Or.inl rfl) h
  case finished => exact absurd (Or.inr rfl) h
  case awake => exact ⟨[], clock, rfl⟩
  case sleeping => exact hsleeping deadline
  case spawned =>
    obtain ⟨es, clock', hrun⟩ := hsleeping (clock + duration)
    exact ⟨.timerSleeps :: es, clock', run_step rfl hrun⟩

/-- When the child ends before the signal, while `run` waits for it, it can be
reaped before the signal is sent. -/
theorem exists_kill_of_exit {es : List Event}
    (hrun : run (step duration) (start duration) es = some s) (hpid : s.pid = .running)
    (hmain : s.main = .waiting) (htimer : ¬ s.timer.Settled) :
    ∃ es' s', run (step duration) (start duration) (es ++ .childExits :: es') = some s' ∧
      ¬ KillsOwned duration (es ++ .childExits :: es') := by
  obtain ⟨clock, pid, timer, main⟩ := s
  obtain rfl : pid = .running := hpid
  obtain rfl : main = .waiting := hmain
  have hpresent : timer ≠ .absent := fun h => htimer (Or.inl h)
  -- the child ends, it is reaped, and the timer wakes up
  have hreaped : run (step duration) ⟨clock, .running, timer, .waiting⟩
      [.childExits, .waitReturns] = some ⟨clock, .free, timer, .joining⟩ := by
    simp [run_cons, run_nil, step, hpresent]
  obtain ⟨wake, clock', hwake⟩ := exists_run_awake duration ⟨clock, .free, timer, .joining⟩ htimer
  have hbefore := run_trans hrun (run_trans hreaped hwake)
  have hkill : step duration ⟨clock', .free, .awake, .joining⟩ .kill =
    some ⟨clock', .free, .finished, .joining⟩ := rfl
  have happ : es ++ .childExits :: (.waitReturns :: (wake ++ [.kill])) =
      (es ++ ([.childExits, .waitReturns] ++ wake)) ++ .kill :: [] := by simp
  refine ⟨.waitReturns :: (wake ++ [.kill]), ⟨clock', .free, .finished, .joining⟩, ?_, fun h => ?_⟩
  · rw [happ]
    exact run_trans hbefore (run_step hkill rfl)
  · rw [KillsOwned, happ] at h
    rcases h.at hbefore hkill rfl with hpid | hpid
    · cases hpid
    · cases hpid

/-- The signal goes to a child that is not reaped in every run in which the child
does not end before the signal; and from the moment at which it ends before,
while `run` waits for it, the run can go on to a signal after the child is reaped. -/
theorem kill_owned (duration : Nat) :
    (∀ es, Outlives duration es → KillsOwned duration es) ∧
    ∀ es s, run (step duration) (start duration) es = some s → s.pid = .running →
      s.main = .waiting → ¬ s.timer.Settled →
        ∃ es' s', run (step duration) (start duration) (es ++ .childExits :: es') = some s' ∧
          ¬ KillsOwned duration (es ++ .childExits :: es') :=
  ⟨fun _ => kill_owned_of_outlives, fun _ _ => exists_kill_of_exit⟩

/-- Two seconds for a child that the signal ends, and that is reaped then. -/
def outlivingRun : List Event :=
  [.timerSleeps, .tick, .tick, .timerWakes, .kill, .childExits, .waitReturns, .joinReturns]

theorem kill_owned_outlivingRun :
    run (step 2) (start 2) outlivingRun = some ⟨2, .free, .finished, .returned⟩ ∧
      .kill ∈ outlivingRun ∧ Outlives 2 outlivingRun ∧ KillsOwned 2 outlivingRun := by
  have houtlives : Outlives 2 outlivingRun := by
    decide
  exact ⟨by decide, by decide, houtlives, (kill_owned 2).1 _ houtlives⟩

/-- Five seconds for a child that ends after one: its pid is another process by
the time the signal is sent. -/
def earlyExit : List Event :=
  [.timerSleeps, .tick, .childExits, .waitReturns, .pidReused, .tick, .tick, .tick, .tick,
    .timerWakes]

theorem kill_reused :
    run (step 5) (start 5) (earlyExit ++ [.kill, .joinReturns]) =
      some ⟨5, .reused, .finished, .returned⟩ ∧
    ¬ KillsOwned 5 (earlyExit ++ [.kill, .joinReturns]) := by
  refine ⟨by decide, fun h => ?_⟩
  have hbefore : run (step 5) (start 5) earlyExit = some ⟨5, .reused, .awake, .joining⟩ := by decide
  have hkill : step 5 ⟨5, .reused, .awake, .joining⟩ .kill =
    some ⟨5, .reused, .finished, .joining⟩ := rfl
  rcases h.at hbefore hkill rfl with hpid | hpid
  · cases hpid
  · cases hpid

end DurationTimer
