/-
The lines of two streams that share the line buffer.

* `drainLines_eq` — the loop takes out the lines that a newline ends;
* `runCalls_traffic` — the host prints what one buffer for all streams yields;
* `fdWrite_lines_iff` — which is the lines of each stream, and what one of
  them has left, exactly when no newline meets a line begun by the other and
  the buffer is not of both.
-/
import MoonPprof.LineAssembly
import MoonPprof.WasmHost

open LineAssembly

namespace WasmHost

def isNewline (b : UInt8) : Bool := b = newline

theorem drainLines_eq {fuel : Nat} {buf : Bytes} (h : buf.length ≤ fuel) :
    drainLines fuel buf = (linesOf isNewline buf, unfinished isNewline buf) := by
  induction fuel generalizing buf with
  | zero =>
    rw [List.length_eq_zero_iff.mp (Nat.le_zero.mp h)]
    rfl
  | succ fuel ih =>
    rw [drainLines]
    cases hnl : buf.findIdx? (· = newline) with
    | none =>
      have hnone : ∀ b ∈ buf, ¬isNewline b := by
        intro b hb
        simpa [isNewline] using List.findIdx?_eq_none_iff.mp hnl b hb
      obtain ⟨hfinished, hunfinished⟩ := finished_of_not isNewline hnone
      rw [linesOf, hfinished, hunfinished]
      rfl
    | some nl =>
      obtain ⟨hlt, hat, hbefore⟩ := List.findIdx?_eq_some_iff_getElem.mp hnl
      have hsplit : buf = buf.take nl ++ buf[nl] :: buf.drop (nl + 1) := by
        rw [List.getElem_cons_drop, List.take_append_drop]
      have hline : ∀ b ∈ buf.take nl, ¬isNewline b := by
        intro b hb
        obtain ⟨i, hi, rfl⟩ := List.getElem_of_mem hb
        rw [List.getElem_take]
        simpa [isNewline] using hbefore i (by rw [List.length_take] at hi; omega)
      set rest := buf.drop (nl + 1)
      have hcons : finished isNewline (buf.take nl ++ buf[nl] :: rest) = _ ∧
          unfinished isNewline (buf.take nl ++ buf[nl] :: rest) = _ :=
        finished_cons isNewline hline hat
      rw [← hsplit] at hcons
      obtain ⟨hfinished, hunfinished⟩ := hcons
      dsimp only
      rw [ih (by rw [List.length_drop]; omega), linesOf, linesOf, hfinished, hunfinished]
      rfl

/-! ### Runs -/

/-- A call, with the memory as the guest has left it. -/
structure Call where
  memory : Option Bytes
  fd : Int
  iovsPtr : Int
  iovsLen : Int
  nwrittenPtr : Int

/-- The bytes that the iovecs of a call name. -/
def Call.payload (c : Call) : Bytes :=
  match c.memory with
  | none => []
  | some data =>
    match readIovs data (usize c.iovsPtr) (usize c.iovsLen) 0 [] 0 with
    | some (.ok (payload, _)) => payload
    | _ => []

def Host.call (host : Host) (c : Call) : Option (Int × Host) :=
  fdWrite { host with memory := c.memory } c.fd c.iovsPtr c.iovsLen c.nwrittenPtr

/-- The host after calls that all succeed. -/
def runCalls : Host → List Call → Option Host
  | host, [] => some host
  | host, c :: calls =>
    match host.call c with
    | some (0, host) => runCalls host calls
    | _ => none

def Host.new : Host := ⟨none, [], [], []⟩

/-- The bytes of the calls with the file descriptors they were written to. -/
def traffic (calls : List Call) : List (Int × UInt8) :=
  calls.flatMap fun c => c.payload.map fun b => (c.fd, b)

/-- What has been written to a file descriptor. -/
def written (calls : List Call) (fd : Int) : Bytes :=
  calls.flatMap fun c => if c.fd = fd then c.payload else []

theorem own_traffic (calls : List Call) (fd : Int) : own fd (traffic calls) = written calls fd := by
  induction calls with
  | nil => rfl
  | cons c calls ih =>
    rw [traffic, List.flatMap_cons, ← traffic, written, List.flatMap_cons, ← written, ← ih, own,
      own, List.filter_append, List.map_append]
    refine congrArg (· ++ _) ?_
    by_cases hfd : c.fd = fd
    · rw [if_pos hfd, List.filter_eq_self.mpr, List.map_map]
      · exact List.map_id _
      · intro x hx
        obtain ⟨b, -, rfl⟩ := List.mem_map.mp hx
        exact decide_eq_true hfd
    · rw [if_neg hfd, List.filter_eq_nil_iff.mpr]
      · rfl
      · intro x hx htag
        obtain ⟨b, -, rfl⟩ := List.mem_map.mp hx
        exact hfd (of_decide_eq_true htag)

theorem readIovs_error {data : Bytes} {iovsPtr n i total : Nat} {payload : Bytes} {errno : Int}
    (h : readIovs data iovsPtr n i payload total = some (.error errno)) : errno = 28 := by
  induction n generalizing i payload total with
  | zero => cases h
  | succ n ih =>
    rw [readIovs] at h
    dsimp only at h
    split at h
    · cases h
      rfl
    · obtain ⟨ptr, -, h⟩ := Option.bind_eq_some_iff.mp h
      obtain ⟨len, -, h⟩ := Option.bind_eq_some_iff.mp h
      split at h
      · cases h
        rfl
      · obtain ⟨bytes, -, h⟩ := Option.bind_eq_some_iff.mp h
        exact ih h

/-- A call that succeeds puts its bytes behind the buffer and prints what is complete. -/
theorem call_ok {host host' : Host} {c : Call} (h : host.call c = some (0, host')) :
    let buf := host.stdoutBytes ++ c.payload
    host'.stdoutBytes = unfinished isNewline buf ∧
      host'.stdout = (if c.fd = 2 then host.stdout
        else host.stdout ++ (linesOf isNewline buf).map fromUtf8Lossy) ∧
      host'.stderr = (if c.fd = 2 then host.stderr ++ (linesOf isNewline buf).map fromUtf8Lossy
        else host.stderr) := by
  intro buf
  rw [Host.call, fdWrite] at h
  cases hmem : c.memory with
  | none =>
    rw [hmem] at h
    cases h
  | some data =>
    rw [hmem] at h
    dsimp only at h
    cases hread : readIovs data (usize c.iovsPtr) (usize c.iovsLen) 0 [] 0 with
    | none =>
      rw [hread] at h
      cases h
    | some read =>
      cases read with
      | error errno =>
        rw [hread, readIovs_error hread] at h
        cases h
      | ok read =>
        -- only here bytes are printed; every other case answers with an errno
        have hpayload : c.payload = read.1 := by
          rw [Call.payload, hmem]
          dsimp only
          rw [hread]
        rw [hread] at h
        dsimp only at h
        split at h
        · cases h
        · cases h
          rw [show buf = host.stdoutBytes ++ read.1 from hpayload ▸ rfl, Host.printLines]
          dsimp only
          rw [drainLines_eq (le_refl _)]
          exact ⟨rfl, rfl, rfl⟩

/-- The host after traffic `t`: one buffer for all streams. -/
structure Shows (t : List (Int × UInt8)) (host : Host) : Prop where
  stdoutBytes : host.stdoutBytes = (buffered isNewline t).map Prod.snd
  stdout : host.stdout = (linesFor isNewline 1 t).map fromUtf8Lossy
  stderr : host.stderr = (linesFor isNewline 2 t).map fromUtf8Lossy

theorem Shows.call {t : List (Int × UInt8)} {host host' : Host} (h : Shows t host) {c : Call}
    (hfd : c.fd = 1 ∨ c.fd = 2) (hcall : host.call c = some (0, host')) :
    Shows (t ++ c.payload.map fun b => (c.fd, b)) host' := by
  obtain ⟨hbytes, hstdout, hstderr⟩ := call_ok hcall
  set s := c.payload.map fun b => (c.fd, b)
  have htags : ∀ x ∈ s, x.1 = c.fd := by
    intro x hx
    obtain ⟨b, -, rfl⟩ := List.mem_map.mp hx
    rfl
  have hsnd : s.map Prod.snd = c.payload := by
    rw [List.map_map]
    exact List.map_id _
  rw [h.stdoutBytes, ← hsnd] at hbytes hstdout hstderr
  refine ⟨?_, ?_, ?_⟩
  · rw [hbytes, buffered_append]
  · rw [hstdout, linesFor_append htags, h.stdout]
    rcases hfd with hfd | hfd
    · rw [hfd, if_neg (by decide), if_pos rfl, List.map_append]
    · rw [hfd, if_pos rfl, if_neg (by decide), List.append_nil]
  · rw [hstderr, linesFor_append htags, h.stderr]
    rcases hfd with hfd | hfd
    · rw [hfd, if_neg (by decide), if_neg (by decide), List.append_nil]
    · rw [hfd, if_pos rfl, if_pos rfl, List.map_append]

theorem Shows.runCalls {t : List (Int × UInt8)} {host host' : Host} (h : Shows t host)
    {calls : List Call} (hfd : ∀ c ∈ calls, c.fd = 1 ∨ c.fd = 2)
    (hrun : runCalls host calls = some host') : Shows (t ++ traffic calls) host' := by
  induction calls generalizing t host with
  | nil =>
    rw [WasmHost.runCalls, Option.some.injEq] at hrun
    rw [← hrun, traffic, List.flatMap_nil, List.append_nil]
    exact h
  | cons c calls ih =>
    rw [WasmHost.runCalls] at hrun
    split at hrun
    · rename_i next hcall
      have hnext := h.call (hfd c List.mem_cons_self) hcall
      have hrest := ih hnext (fun d hd => hfd d (List.mem_cons_of_mem _ hd)) hrun
      rwa [List.append_assoc] at hrest
    · cases hrun

/-- The buffer is what one stream has written after its last newline, and no other stream has
written anything after its own. -/
def Host.HoldsOwn (host : Host) (calls : List Call) : Prop :=
  ∃ fd, host.stdoutBytes = unfinished isNewline (written calls fd) ∧
    ∀ fd' ≠ fd, unfinished isNewline (written calls fd') = []

/-- In every run of successful calls on the file descriptors 1 and 2, whatever memory and iovecs
they are made with: the host prints each line to the stream whose newline ended it, and keeps the
bytes behind the last newline of both.  The lines are each stream's own and the buffer is one
stream's if and only if every newline meets only bytes of its own stream in the buffer, and what
is left in it is of one stream; the lines alone need only the first.  Then the host has printed
exactly the lines of each stream, and each one's share of the buffer is what it has written after
its last newline. -/
theorem fdWrite_lines_iff {calls : List Call} (hfd : ∀ c ∈ calls, c.fd = 1 ∨ c.fd = 2)
    {host : Host} (h : runCalls Host.new calls = some host) :
    let t := traffic calls
    (host.stdout = (linesFor isNewline 1 t).map fromUtf8Lossy ∧
        host.stderr = (linesFor isNewline 2 t).map fromUtf8Lossy ∧
        host.stdoutBytes = (buffered isNewline t).map Prod.snd) ∧
      ((∀ fd, linesFor isNewline fd t = linesOf isNewline (written calls fd)) ∧
          host.HoldsOwn calls ↔ Clean isNewline t ∧ Single isNewline t) ∧
      ((∀ fd, linesFor isNewline fd t = linesOf isNewline (written calls fd)) ↔
        Clean isNewline t) ∧
      (Clean isNewline t →
        host.stdout = (linesOf isNewline (written calls 1)).map fromUtf8Lossy ∧
        host.stderr = (linesOf isNewline (written calls 2)).map fromUtf8Lossy ∧
        ∀ fd, own fd (buffered isNewline t) = unfinished isNewline (written calls fd)) := by
  intro t
  -- the host shows the lines of all that was written, whoever wrote it
  have hnew : Shows [] Host.new := ⟨rfl, rfl, rfl⟩
  have hshows : Shows t host := hnew.runCalls hfd h
  have hlines : (∀ fd, linesFor isNewline fd t = linesOf isNewline (written calls fd)) ↔
      Clean isNewline t := by
    simp only [← own_traffic]
    exact linesFor_eq_iff t
  have hrest : (∀ fd, linesFor isNewline fd t = linesOf isNewline (written calls fd)) ∧
      host.HoldsOwn calls ↔ Clean isNewline t ∧ Single isNewline t := by
    simp only [Host.HoldsOwn, hshows.stdoutBytes, ← own_traffic]
    exact linesFor_rest_eq_iff t
  refine ⟨⟨hshows.stdout, hshows.stderr, hshows.stdoutBytes⟩, hrest, hlines, fun hclean => ?_⟩
  have hown := hlines.mpr hclean
  refine ⟨hown 1 ▸ hshows.stdout, hown 2 ▸ hshows.stderr, fun fd => ?_⟩
  rw [← own_traffic, hclean.unfinished_eq]

/-- A call with one iovec, which names the bytes that follow it. -/
def writeCall (fd : Int) (bytes : Bytes) : Call where
  memory := some (MachineInt.leBytes 4 8 ++ MachineInt.leBytes 4 bytes.length ++ bytes)
  fd := fd
  iovsPtr := 0
  iovsLen := 1
  nwrittenPtr := 0

theorem fdWrite_lines_iff_sample : ∃ host,
    runCalls Host.new [writeCall 1 (ascii "a\n"), writeCall 2 (ascii "b\nc")] = some host ∧
      host.stdout = [ascii "a"] ∧ host.stderr = [ascii "b"] ∧ host.stdoutBytes = ascii "c" ∧
      host.HoldsOwn [writeCall 1 (ascii "a\n"), writeCall 2 (ascii "b\nc")] := by
  have hfd : ∀ c ∈ [writeCall 1 (ascii "a\n"), writeCall 2 (ascii "b\nc")],
    c.fd = 1 ∨ c.fd = 2 := by
    simp [writeCall]
  obtain ⟨host, h⟩ : ∃ host,
      runCalls Host.new [writeCall 1 (ascii "a\n"), writeCall 2 (ascii "b\nc")] = some host := by
    exact ⟨_, rfl⟩
  obtain ⟨⟨hstdout, hstderr, hbytes⟩, hiff, -⟩ := fdWrite_lines_iff hfd h
  exact ⟨host, h, hstdout, hstderr, hbytes, (hiff.mpr ⟨by decide, by decide⟩).2⟩

/-- `a` on the standard output and then a line `b` on the standard error. -/
theorem fdWrite_mixes_streams : ∃ host,
    runCalls Host.new [writeCall 1 (ascii "a"), writeCall 2 (ascii "b\n")] = some host ∧
      host.stderr ≠ (linesOf isNewline
        (written [writeCall 1 (ascii "a"), writeCall 2 (ascii "b\n")] 2)).map fromUtf8Lossy := by
  exact ⟨_, rfl, by decide⟩

end WasmHost
