import Mathlib
import RuBLE.Library.System

/-!
# Capturing what a command prints

`Pager#exec_unpaginated!` runs a command and reads its two pipes in one loop: it asks
whether the command has ended, waits for one of the pipes, reads what is there, and
when the command has ended it reads the rest.  The processes that the command starts
have the same pipes and may go on when it has ended.  All of them and the method take
their steps in any order, and a pipe holds so many bytes and no more.

* `processStep`, `parentStep` — the steps of a process and of the method; `execSystem` —
  all of them.
* `Shuffle` — what several processes have written, each in its order.
* `Captures` — the invariant; `Captures.step` — every step keeps it.
* `Stuck` — the method reads one pipe to its end, and those that are left want to write
  to the other one, which is full.
* `exec_unpaginated_captures` — **nothing is lost**: when the method is done, it has all
  of both streams; until then some step is possible if and only if it is not stuck, and
  there are only so many of them.
-/

namespace RuBLE.Pager

open Transition

/-! ## The processes and the pipes -/

/-- The streams of the command. -/
inductive Stream where
  | out
  | err
  deriving DecidableEq, Repr

/-- `Process::Status`. -/
inductive Status where
  | exited (code : Nat)
  | signaled (signal : Nat)
  deriving DecidableEq, Repr

/-- `success?`; `nil` for a command that a signal has killed. -/
def Status.success : Status → Bool
  | .exited code => code == 0
  | .signaled _ => false

/-- `exitstatus.to_i`. -/
def Status.exitstatus : Status → Nat
  | .exited code => code
  | .signaled _ => 0

/-- What a process does with its streams, a byte at a time. -/
inductive Op where
  | put (io : Stream) (byte : UInt8)
  | close (io : Stream)
  deriving DecidableEq, Repr

/-- What has become of a process. -/
inductive Fate where
  | running
  | ended (status : Status)
  | reaped
  deriving DecidableEq, Repr

/-- A process that has both pipes: the command, or one of those that it starts, which
does nothing before it is started and closes what it is not given.  It has only so
much to do and then ends; for one that kept a pipe and never ended the method would
wait for ever. -/
structure Process where
  /-- What it has still to do. -/
  ops : List Op
  fate : Fate := .running
  /-- It has its end of the pipe open. -/
  writer : Stream → Bool := fun _ => true

/-- Where the method is. -/
inductive Pc where
  /-- `until (result ||= Process.wait2(pid, Process::WNOHANG)) || open_ios.empty?` -/
  | poll
  /-- `IO.select(open_ios, [], open_ios, 5)` -/
  | select
  /-- `rd_io&.each` -/
  | each (ready : List Stream)
  /-- `open_ios.each` -/
  | drain (ios : List Stream)
  /-- `result ||= Process.wait2(pid)` -/
  | reap
  /-- `[status, out, err]` -/
  | returned (status : Status)
  /-- `exit(status.exitstatus.to_i)` -/
  | exited (code : Nat)
  /-- An `IOError` has been raised. -/
  | raised
  deriving DecidableEq, Repr

/-- The processes, their pipes, and the variables of the method. -/
structure State (ι : Type) where
  procs : ι → Process
  /-- What is in the pipes. -/
  pending : Stream → List UInt8 := fun _ => []
  openIos : List Stream := [.out, .err]
  /-- The method has closed its end. -/
  closed : Stream → Bool := fun _ => false
  /-- `out` and `err`. -/
  buf : Stream → List UInt8 := fun _ => []
  result : Option Status := none
  pc : Pc := .poll

section Model

variable {ι : Type}

/-- Only this process has changed. -/
def State.setProc [DecidableEq ι] (s : State ι) (p : ι) (q : Process) : State ι :=
  { s with procs := Function.update s.procs p q }

/-- The process ends; its own ends of the pipes are closed. -/
def State.exit [DecidableEq ι] (s : State ι) (p : ι) (status : Status) : State ι :=
  s.setProc p { s.procs p with fate := .ended status, writer := fun _ => false }

/-- A step of a process, which ends with this status.  A write to a pipe that nobody
reads kills it, and one to a full pipe has to wait. -/
def processStep [DecidableEq ι] (capacity : Nat) (status : Status) (p : ι) (s : State ι) :
    Option (State ι) :=
  match (s.procs p).fate, (s.procs p).ops with
  | .running, [] => some (s.exit p status)
  | .running, .put io byte :: ops =>
      if (s.procs p).writer io = false then some (s.setProc p { s.procs p with ops := ops })
      else if s.closed io = true then some (s.exit p (.signaled 13))
      else if (s.pending io).length < capacity then
        some { s.setProc p { s.procs p with ops := ops } with
          pending := Function.update s.pending io (s.pending io ++ [byte]) }
      else none
  | .running, .close io :: ops =>
      some (s.setProc p { s.procs p with
        ops := ops
        writer := Function.update (s.procs p).writer io false })
  | _, _ => none

/-! ## The method -/

/-- What `eof?` finds: the end, or something to read, or it waits; a closed stream raises. -/
inductive Look where
  | closed
  | eof
  | data
  | wait
  deriving DecidableEq, Repr

/-- Some process can still write to the pipe. -/
def State.writer [Fintype ι] (s : State ι) (io : Stream) : Bool :=
  decide (∃ p, (s.procs p).writer io = true)

def State.look [Fintype ι] (s : State ι) (io : Stream) : Look :=
  if s.closed io = true then .closed
  else if s.pending io ≠ [] then .data
  else if s.writer io = true then .wait
  else .eof

/-- `buf << io.read_nonblock(8192)`, of which so many bytes are read. -/
def State.read (s : State ι) (io : Stream) (n : Nat) : Option (State ι) :=
  if 0 < n ∧ n ≤ 8192 ∧ n ≤ (s.pending io).length then
    some { s with
      buf := Function.update s.buf io (s.buf io ++ (s.pending io).take n)
      pending := Function.update s.pending io ((s.pending io).drop n) }
  else none

/-- `io.close`. -/
def State.close (s : State ι) (io : Stream) : State ι :=
  { s with closed := Function.update s.closed io true }

/-- The streams that `IO.select` returns. -/
def State.ready [Fintype ι] (s : State ι) : List Stream :=
  s.openIos.filter fun io => s.pending io ≠ [] || !s.writer io

/-- `Process.wait2` returns the status of the command. -/
def State.wait2 [DecidableEq ι] (s : State ι) (pid : ι) (status : Status) : State ι :=
  { s.setProc pid { s.procs pid with fate := .reaped } with result := some status }

/-- The end: `unless status.success? && !allow_fail`. -/
def State.finish (s : State ι) (allowFail : Bool) (status : Status) : State ι :=
  { s with pc := if status.success && !allowFail then .returned status else .exited status.exitstatus }

/-- A step of the method. -/
def parentStep [DecidableEq ι] [Fintype ι] (pid : ι) (allowFail : Bool) (n : Nat) (s : State ι) :
    Option (State ι) :=
  match s.pc with
  | .poll =>
      match (s.procs pid).fate with
      | .ended status => some { s.wait2 pid status with pc := .drain s.openIos }
      | _ => some { s with pc := if s.openIos = [] then .drain s.openIos else .select }
  | .select => if s.ready = [] then none else some { s with pc := .each s.ready }
  | .each [] => some { s with pc := .poll }
  | .each (io :: rest) =>
      match s.look io with
      | .closed => some { s with pc := .raised }
      | .eof => some { s.close io with openIos := s.openIos.erase io, pc := .each rest }
      | .data => (s.read io n).map fun t => { t with pc := .each rest }
      | .wait => none
  | .drain [] => some { s with pc := .reap }
  | .drain (io :: rest) =>
      match s.look io with
      | .closed => some { s with pc := .drain rest }
      | .eof => some { s.close io with pc := .drain rest }
      | .data => s.read io n
      | .wait => none
  | .reap =>
      match s.result, (s.procs pid).fate with
      | some status, _ => some (s.finish allowFail status)
      | none, .ended status => some ((s.wait2 pid status).finish allowFail status)
      | none, _ => none
  | .returned _ | .exited _ | .raised => none

/-- A step of a process, a step of the method that reads so many bytes if it reads, or
five seconds in which no stream is ready. -/
inductive Action (ι : Type) where
  | process (p : ι)
  | parent (n : Nat)
  | timeout
  deriving DecidableEq, Repr

/-- `exec_unpaginated!`, of a command with this `pid`; the processes do this and end so. -/
def execSystem [DecidableEq ι] [Fintype ι] (capacity : Nat) (pid : ι) (allowFail : Bool)
    (ops : ι → List Op) (status : ι → Status) : System (State ι) (Action ι) where
  init := { procs := fun p => { ops := ops p } }
  step s
    | .process p => processStep capacity (status p) p s
    | .parent n => parentStep pid allowFail n s
    | .timeout => if s.pc = .select ∧ s.ready = [] then some { s with pc := .poll } else none

/-- The method is done. -/
def Pc.isDone : Pc → Bool
  | .returned _ | .exited _ | .raised => true
  | _ => false

/-- The process wants to write to a pipe that is full. -/
def State.Waits (capacity : Nat) (s : State ι) (p : ι) : Prop :=
  ∃ io byte rest, (s.procs p).ops = .put io byte :: rest ∧ (s.procs p).writer io = true ∧
    capacity ≤ (s.pending io).length

/-- The command has ended, the method waits for the end of a stream that another process
has open, and all processes that go on want to write to a pipe that is full. -/
structure State.Stuck [Fintype ι] (capacity : Nat) (pid : ι) (s : State ι) : Prop where
  drains : ∃ io rest, s.pc = .drain (io :: rest) ∧ s.look io = .wait
  reaped : (s.procs pid).fate = .reaped
  waits : ∀ p, (s.procs p).fate = .running → s.Waits capacity p

end Model

/-! ## What is captured -/

/-- The parts have become one, an element at a time, each in its order. -/
inductive Shuffle {ι α : Type} [DecidableEq ι] : (ι → List α) → List α → Prop where
  | nil : Shuffle (fun _ => []) []
  | snoc {parts : ι → List α} {whole : List α} (p : ι) (a : α) (h : Shuffle parts whole) :
      Shuffle (Function.update parts p (parts p ++ [a])) (whole ++ [a])

/-- If the other parts are empty, the whole is the one that is left. -/
theorem Shuffle.eq_of_alone {ι α : Type} [DecidableEq ι] {parts : ι → List α} {whole : List α} {q : ι}
    (h : Shuffle parts whole) (halone : ∀ p, p ≠ q → parts p = []) : whole = parts q := by
  induction h with
  | nil => rfl
  | @snoc parts whole p a h ih =>
      obtain rfl : p = q := by
        by_contra hp
        have hempty := halone p hp
        rw [Function.update_self] at hempty
        exact List.append_ne_nil_of_right_ne_nil _ (List.cons_ne_nil a []) hempty
      have hrest : ∀ p', p' ≠ p → parts p' = [] := by
        intro p' hp'
        have hempty := halone p' hp'
        rwa [Function.update_of_ne hp'] at hempty
      rw [Function.update_self, ih hrest]

/-- What a process writes to a stream before it closes it. -/
def written (io : Stream) : List Op → List UInt8
  | [] => []
  | .put io' byte :: ops => if io' = io then byte :: written io ops else written io ops
  | .close io' :: ops => if io' = io then [] else written io ops

/-- What the process will still write. -/
def Process.toCome (q : Process) (io : Stream) : List UInt8 :=
  if q.writer io = true then written io q.ops else []

/-! ### What a process does -/

section Does

variable {ι : Type} {p : ι} {st : Status} {capacity : Nat} {s t : State ι} {q : Process}
  {pending : Stream → List UInt8}

/-- What a process that goes on can do: what becomes of it, and of the pipes. -/
inductive Does (capacity : Nat) (status : Status) (s : State ι) (p : ι) :
    Process → (Stream → List UInt8) → Prop where
  | quits (hops : (s.procs p).ops = []) :
      Does capacity status s p { s.procs p with fate := .ended status, writer := fun _ => false } s.pending
  | skips {io : Stream} {byte : UInt8} {rest : List Op} (hops : (s.procs p).ops = .put io byte :: rest)
      (hwriter : (s.procs p).writer io = false) :
      Does capacity status s p { s.procs p with ops := rest } s.pending
  | dies {io : Stream} (hwriter : (s.procs p).writer io = true) (hclosed : s.closed io = true) :
      Does capacity status s p { s.procs p with fate := .ended (.signaled 13), writer := fun _ => false }
        s.pending
  | puts {io : Stream} {byte : UInt8} {rest : List Op} (hops : (s.procs p).ops = .put io byte :: rest)
      (hwriter : (s.procs p).writer io = true) (hclosed : s.closed io = false)
      (hroom : (s.pending io).length < capacity) :
      Does capacity status s p { s.procs p with ops := rest }
        (Function.update s.pending io (s.pending io ++ [byte]))
  | closes {io : Stream} {rest : List Op} (hops : (s.procs p).ops = .close io :: rest) :
      Does capacity status s p
        { s.procs p with ops := rest, writer := Function.update (s.procs p).writer io false } s.pending

/-- Of a stream nothing happens, or a byte that was to come is in the pipe. -/
theorem Does.stream (h : Does capacity st s p q pending)
    (hopen : ∀ io, (s.procs p).writer io = true → s.closed io = false) (io : Stream) :
    (pending io = s.pending io ∧ q.toCome io = (s.procs p).toCome io) ∨
      ∃ byte, s.closed io = false ∧ pending io = s.pending io ++ [byte] ∧
        (s.procs p).toCome io = byte :: q.toCome io := by
  cases h with
  | quits hops => exact .inl ⟨rfl, by simp [Process.toCome, hops, written]⟩
  | @skips io' byte rest hops hwriter =>
      refine .inl ⟨rfl, ?_⟩
      by_cases hio : io' = io
      · subst hio
        simp [Process.toCome, hwriter]
      · simp [Process.toCome, hops, written, hio]
  | dies hwriter hclosed =>
      rw [hopen _ hwriter] at hclosed
      cases hclosed
  | @puts io' byte rest hops hwriter hclosed _ =>
      by_cases hio : io' = io
      · subst hio
        exact .inr ⟨byte, hclosed, Function.update_self .., by simp [Process.toCome, hops, written, hwriter]⟩
      · exact .inl ⟨Function.update_of_ne (Ne.symm hio) .., by simp [Process.toCome, hops, written, hio]⟩
  | @closes io' rest hops =>
      refine .inl ⟨rfl, ?_⟩
      by_cases hio : io' = io
      · subst hio
        simp [Process.toCome, hops, written]
      · simp [Process.toCome, hops, written, hio, Function.update_of_ne (Ne.symm hio)]

/-- A process opens nothing. -/
theorem Does.writer (h : Does capacity st s p q pending) (hwriter : q.writer io = true) :
    (s.procs p).writer io = true := by
  cases h with
  | quits | dies => cases hwriter
  | skips | puts => exact hwriter
  | @closes io' =>
      have hwriter : Function.update (s.procs p).writer io' false io = true := hwriter
      by_cases hio : io = io'
      · subst hio
        rw [Function.update_self] at hwriter
        cases hwriter
      · rwa [Function.update_of_ne hio] at hwriter

/-- It goes on, or it has ended and closed its ends. -/
theorem Does.fate (h : Does capacity st s p q pending) (hfate : (s.procs p).fate = .running)
    (hopen : ∀ io, (s.procs p).writer io = true → s.closed io = false) :
    q.fate = .running ∨ q.fate = .ended st ∧ ∀ io, q.writer io = false := by
  cases h with
  | quits => exact .inr ⟨rfl, fun _ => rfl⟩
  | skips | puts | closes => exact .inl hfate
  | dies hwriter hclosed =>
      rw [hopen _ hwriter] at hclosed
      cases hclosed

/-- A step of a process changes it and what is in the pipes. -/
theorem processStep_does [DecidableEq ι] (h : processStep capacity st p s = some t) :
    (s.procs p).fate = .running ∧ ∃ q pending, Does capacity st s p q pending ∧
      t = { s with procs := Function.update s.procs p q, pending := pending } := by
  unfold processStep at h
  split at h
  · next hfate hops =>
      cases h
      exact ⟨hfate, _, _, .quits hops, rfl⟩
  · next io byte rest hfate hops =>
      refine ⟨hfate, ?_⟩
      split at h
      · next hwriter =>
          cases h
          exact ⟨_, _, .skips hops hwriter, rfl⟩
      · next hwriter =>
          rw [Bool.not_eq_false] at hwriter
          split at h
          · next hclosed =>
              cases h
              exact ⟨_, _, .dies hwriter hclosed, rfl⟩
          · next hclosed =>
              rw [Bool.not_eq_true] at hclosed
              split at h
              · next hroom =>
                  cases h
                  exact ⟨_, _, .puts hops hwriter hclosed hroom, rfl⟩
              · cases h
  · next io rest hfate hops =>
      cases h
      exact ⟨hfate, _, _, .closes hops, rfl⟩
  · cases h

/-- Some bytes have been read. -/
theorem read_cases {io : Stream} {n : Nat} (h : s.read io n = some t) :
    0 < n ∧ n ≤ (s.pending io).length ∧ t = { s with
      buf := Function.update s.buf io (s.buf io ++ (s.pending io).take n)
      pending := Function.update s.pending io ((s.pending io).drop n) } := by
  unfold State.read at h
  split at h
  · next hn =>
      cases h
      exact ⟨hn.1, hn.2.2, rfl⟩
  · cases h

/-- A byte that is there can be read. -/
theorem exists_read {io : Stream} (h : s.pending io ≠ []) : ∃ t, s.read io 1 = some t := by
  have hlength : 1 ≤ (s.pending io).length := List.length_pos_iff.2 h
  exact ⟨_, if_pos ⟨Nat.one_pos, by omega, hlength⟩⟩

/-- Only the fate of the command changes. -/
theorem wait2_procs [DecidableEq ι] (s : State ι) (pid p : ι) (st : Status) :
    ((s.wait2 pid st).procs p).ops = (s.procs p).ops ∧
      ((s.wait2 pid st).procs p).writer = (s.procs p).writer ∧
      ((s.wait2 pid st).procs p).fate = if p = pid then .reaped else (s.procs p).fate := by
  by_cases hp : p = pid
  · subst hp
    simp [State.wait2, State.setProc]
  · simp [State.wait2, State.setProc, hp]

/-- A process can go on unless it wants to write to a full pipe. -/
theorem exists_processStep [DecidableEq ι] (hfate : (s.procs p).fate = .running)
    (hwaits : ¬ s.Waits capacity p) :
    ∃ t, processStep capacity st p s = some t := by
  unfold processStep
  rw [hfate]
  cases hops : (s.procs p).ops with
  | nil => exact ⟨_, rfl⟩
  | cons op rest =>
      cases op with
      | close io => exact ⟨_, rfl⟩
      | put io byte =>
          by_cases hwriter : (s.procs p).writer io = false
          · exact ⟨_, if_pos hwriter⟩
          · by_cases hclosed : s.closed io = true
            · exact ⟨s.exit p (.signaled 13), by simp [hwriter, hclosed]⟩
            · have hroom : (s.pending io).length < capacity := by
                by_contra hfull
                exact hwaits ⟨io, byte, rest, hops, by simpa using hwriter, not_lt.1 hfull⟩
              exact ⟨_, by simp [hwriter, hclosed, hroom]; rfl⟩

end Does

section Captures

variable {ι : Type} [Fintype ι]

/-- The streams in `open_ios` are those that are not closed. -/
def State.Tracks (s : State ι) : Prop :=
  s.openIos.Nodup ∧ s.result = none ∧ ∀ io, io ∈ s.openIos ↔ s.closed io = false

/-- What is known at a place of the method. -/
def State.Fits (status : Status) (allowFail : Bool) (s : State ι) : Pc → Prop
  | .poll => s.Tracks
  | .select => s.Tracks ∧ s.openIos ≠ []
  | .each ready => s.Tracks ∧ ready.Nodup ∧ ∀ io ∈ ready,
      io ∈ s.openIos ∧ (s.pending io ≠ [] ∨ s.writer io = false)
  | .drain ios => (∀ io, s.closed io = false → io ∈ ios) ∧
      (s.result.isSome = true ∨ ∀ io, s.closed io = true)
  | .reap => ∀ io, s.closed io = true
  | .returned st => (∀ io, s.closed io = true) ∧ st = status ∧ status.success = true ∧
      allowFail = false
  | .exited code => (∀ io, s.closed io = true) ∧ code = status.exitstatus ∧
      ¬ (status.success = true ∧ allowFail = false)
  | .raised => False

variable {pid p : ι} {ops : ι → List Op} {rest : List Op} {status : ι → Status} {st : Status}
  {allowFail : Bool} {capacity n : Nat} {s t : State ι} {q : Process} {pending : Stream → List UInt8}
  {io : Stream} {pc : Pc} {ready : List Stream}

theorem writer_iff : s.writer io = true ↔ ∃ p, (s.procs p).writer io = true :=
  decide_eq_true_iff

theorem writer_eq_false_iff : s.writer io = false ↔ ∀ p, (s.procs p).writer io = false := by
  rw [← Bool.not_eq_true, writer_iff]
  simp

/-- What is known does not depend on what a process does next. -/
theorem State.Fits.of_process (h : s.Fits st allowFail pc) (hopen : t.openIos = s.openIos)
    (hclosed : t.closed = s.closed) (hresult : t.result = s.result)
    (hready : ∀ io, s.pending io ≠ [] ∨ s.writer io = false → t.pending io ≠ [] ∨ t.writer io = false) :
    t.Fits st allowFail pc := by
  have htracks : s.Tracks → t.Tracks := by
    rintro ⟨hnodup, hnone, hiff⟩
    exact ⟨hopen ▸ hnodup, hresult ▸ hnone, by rwa [hopen, hclosed]⟩
  cases pc with
  | poll => exact htracks h
  | select => exact ⟨htracks h.1, hopen ▸ h.2⟩
  | each ready =>
      obtain ⟨htracked, hnodup, hall⟩ := h
      exact ⟨htracks htracked, hnodup, fun io hio =>
        ⟨hopen ▸ (hall io hio).1, hready io (hall io hio).2⟩⟩
  | drain ios =>
      rw [State.Fits, hclosed, hresult]
      exact h
  | reap | returned st | exited code =>
      rw [State.Fits, hclosed]
      exact h
  | raised => exact h

/-- What `eof?` has found. -/
theorem look_cases (s : State ι) (io : Stream) :
    (s.look io = .closed ∧ s.closed io = true) ∨
    (s.look io = .data ∧ s.closed io = false ∧ s.pending io ≠ []) ∨
    (s.look io = .wait ∧ s.closed io = false ∧ s.pending io = [] ∧ s.writer io = true) ∨
    (s.look io = .eof ∧ s.closed io = false ∧ s.pending io = [] ∧ s.writer io = false) := by
  unfold State.look
  by_cases hclosed : s.closed io = true
  · exact .inl ⟨if_pos hclosed, hclosed⟩
  · rw [if_neg hclosed]
    rw [Bool.not_eq_true] at hclosed
    by_cases hpending : s.pending io = []
    · rw [if_neg (not_not.2 hpending)]
      by_cases hwriter : s.writer io = true
      · exact .inr (.inr (.inl ⟨if_pos hwriter, hclosed, hpending, hwriter⟩))
      · exact .inr (.inr (.inr ⟨if_neg hwriter, hclosed, hpending, by simpa using hwriter⟩))
    · exact .inr (.inl ⟨if_pos hpending, hclosed, hpending⟩)

variable [DecidableEq ι]

/-- **The invariant.** -/
structure Captures (pid : ι) (ops : ι → List Op) (status : ι → Status) (allowFail : Bool)
    (s : State ι) : Prop where
  /-- What has been read and what is in the pipe is what the processes have written, and
  there is the rest of it to come. -/
  stream : ∀ io, ∃ sent, Shuffle sent (s.buf io ++ s.pending io) ∧
    ∀ p, sent p ++ (s.procs p).toCome io = written io (ops p)
  shut : ∀ io, s.closed io = true → s.pending io = [] ∧ s.writer io = false
  ended : ∀ p, (s.procs p).fate ≠ .running → ∀ io, (s.procs p).writer io = false
  outcome : ∀ st, (s.procs pid).fate = .ended st ∨ s.result = some st → st = status pid
  reaped : s.result.isSome = true ↔ (s.procs pid).fate = .reaped
  fits : s.Fits (status pid) allowFail s.pc

theorem Captures.init : Captures pid ops status allowFail { procs := fun p => { ops := ops p } } where
  stream io := ⟨fun _ => [], Shuffle.nil, fun _ => rfl⟩
  shut io h := by cases h
  ended p h := absurd rfl h
  outcome st h := by rcases h with h | h <;> cases h
  reaped := iff_of_false (by simp) (by simp)
  fits := ⟨by simp, rfl, fun io => by cases io <;> simp⟩

/-- Only the place changes. -/
theorem Captures.goto (h : Captures pid ops status allowFail s)
    (hfits : s.Fits (status pid) allowFail pc) :
    Captures pid ops status allowFail { s with pc := pc } where
  stream := h.stream
  shut := h.shut
  ended := h.ended
  outcome := h.outcome
  reaped := h.reaped
  fits := hfits

theorem Captures.running_of_writer (h : Captures pid ops status allowFail s)
    (hwriter : (s.procs p).writer io = true) : (s.procs p).fate = .running := by
  by_contra hne
  rw [h.ended p hne io] at hwriter
  cases hwriter

theorem Captures.open_of_writer (h : Captures pid ops status allowFail s)
    (hwriter : (s.procs p).writer io = true) : s.closed io = false := by
  by_contra hne
  rw [Bool.not_eq_false] at hne
  rw [writer_eq_false_iff.1 (h.shut io hne).2 p] at hwriter
  cases hwriter

/-! ### Steps of a process -/

theorem Captures.process (h : Captures pid ops status allowFail s)
    (hstep : processStep capacity (status p) p s = some t) : Captures pid ops status allowFail t := by
  obtain ⟨hfate, q, pending, hdoes, ht⟩ := processStep_does hstep
  have hprocs : t.procs = Function.update s.procs p q := by rw [ht]
  have hself : t.procs p = q := by rw [hprocs, Function.update_self]
  have hother : ∀ p', p' ≠ p → t.procs p' = s.procs p' := fun p' hp => by
    rw [hprocs, Function.update_of_ne hp]
  have hopen : ∀ io, (s.procs p).writer io = true → s.closed io = false :=
    fun _ => h.open_of_writer
  have hgoes := hdoes.fate hfate hopen
  obtain ⟨hpending, hbuf, hclosed, hresult, hpc, hopenIos⟩ : t.pending = pending ∧ t.buf = s.buf ∧
      t.closed = s.closed ∧ t.result = s.result ∧ t.pc = s.pc ∧ t.openIos = s.openIos := by
    rw [ht]
    exact ⟨rfl, rfl, rfl, rfl, rfl, rfl⟩
  -- nobody opens an end
  have hwriter : ∀ io, s.writer io = false → t.writer io = false := by
    simp only [writer_eq_false_iff]
    intro io hio p'
    by_cases hp : p' = p
    · subst hp
      by_contra hne
      rw [Bool.not_eq_false, hself] at hne
      exact absurd (hdoes.writer hne) (by simp [hio])
    · rw [hother p' hp]
      exact hio p'
  constructor
  case stream =>
    intro io
    obtain ⟨sent, hshuffle, hsent⟩ := h.stream io
    rw [hbuf, hpending]
    rcases hdoes.stream hopen io with ⟨hsame, hcome⟩ | ⟨byte, -, hmore, hcome⟩
    · refine ⟨sent, by rwa [hsame], fun p' => ?_⟩
      rw [← hsent p']
      by_cases hp : p' = p
      · subst hp
        rw [hself, hcome]
      · rw [hother p' hp]
    · refine ⟨Function.update sent p (sent p ++ [byte]), ?_, fun p' => ?_⟩
      · rw [hmore, ← List.append_assoc]
        exact hshuffle.snoc p byte
      · rw [← hsent p']
        by_cases hp : p' = p
        · subst hp
          rw [hself, Function.update_self, hcome, List.append_assoc, List.singleton_append]
        · rw [hother p' hp, Function.update_of_ne hp]
  case shut =>
    intro io hio
    rw [hclosed] at hio
    refine ⟨?_, hwriter io (h.shut io hio).2⟩
    rw [hpending]
    rcases hdoes.stream hopen io with ⟨hsame, -⟩ | ⟨byte, hfalse, -⟩
    · exact hsame.trans (h.shut io hio).1
    · exact absurd (hfalse.symm.trans hio) (by simp)
  case ended =>
    intro p' hne io
    by_cases hp : p' = p
    · subst hp
      rw [hself] at hne ⊢
      exact (hgoes.resolve_left hne).2 io
    · rw [hother p' hp] at hne ⊢
      exact h.ended p' hne io
  case outcome =>
    intro st' hst
    rw [hresult] at hst
    by_cases hp : pid = p
    · subst hp
      rw [hself] at hst
      rcases hst with hst | hst
      · rcases hgoes with hrunning | ⟨hended, -⟩
        · simp [hrunning] at hst
        · rw [hended] at hst
          cases hst
          rfl
      · exact h.outcome st' (.inr hst)
    · rw [hother pid hp] at hst
      exact h.outcome st' hst
  case reaped =>
    rw [hresult]
    by_cases hp : pid = p
    · subst hp
      rw [hself, h.reaped, hfate]
      rcases hgoes with hrunning | ⟨hended, -⟩
      · rw [hrunning]
      · rw [hended]
        simp
    · rw [hother pid hp]
      exact h.reaped
  case fits =>
    rw [hpc]
    refine h.fits.of_process hopenIos hclosed hresult fun io hio => hio.imp (fun hne => ?_) (hwriter io)
    rw [hpending]
    rcases hdoes.stream hopen io with ⟨hsame, -⟩ | ⟨byte, -, hmore, -⟩
    · rwa [hsame]
    · simp [hmore]

/-! ### Steps of the method -/

/-- Some bytes move from the pipe to the buffer. -/
theorem Captures.read (h : Captures pid ops status allowFail s) (hclosed : s.closed io = false)
    (hread : s.read io n = some t) (hfits : t.Fits (status pid) allowFail pc) :
    Captures pid ops status allowFail { t with pc := pc } := by
  obtain ⟨-, -, rfl⟩ := read_cases hread
  refine ⟨fun io' => ?_, fun io' hio' => ?_, h.ended, h.outcome, h.reaped, hfits⟩
  · obtain ⟨sent, hshuffle, hsent⟩ := h.stream io'
    refine ⟨sent, ?_, hsent⟩
    by_cases hio : io' = io
    · subst hio
      have hmove : s.buf io' ++ (s.pending io').take n ++ (s.pending io').drop n =
          s.buf io' ++ s.pending io' := by rw [List.append_assoc, List.take_append_drop]
      simpa only [Function.update_self, hmove] using hshuffle
    · simpa only [Function.update_of_ne hio] using hshuffle
  · have hio : io' ≠ io := by
      rintro rfl
      exact absurd hio' (by simp [hclosed])
    have hsame := Function.update_of_ne hio ((s.pending io).drop n) s.pending
    exact ⟨hsame.trans (h.shut io' hio').1, (h.shut io' hio').2⟩

/-- A stream is closed at its end. -/
theorem Captures.close (h : Captures pid ops status allowFail s) (openIos : List Stream)
    (hpending : s.pending io = []) (hwriter : s.writer io = false)
    (hfits : { s.close io with openIos := openIos }.Fits (status pid) allowFail pc) :
    Captures pid ops status allowFail { s.close io with openIos := openIos, pc := pc } := by
  refine ⟨h.stream, fun io' hio' => ?_, h.ended, h.outcome, h.reaped, hfits⟩
  by_cases hio : io' = io
  · subst hio
    exact ⟨hpending, hwriter⟩
  · exact h.shut io' (by simpa [State.close, Function.update_of_ne hio] using hio')

/-- The method returns or exits. -/
theorem Captures.finish (h : Captures pid ops status allowFail s) (hall : ∀ io, s.closed io = true) :
    Captures pid ops status allowFail (s.finish allowFail (status pid)) := by
  refine h.goto ?_
  cases hok : (status pid).success && !allowFail with
  | true =>
      rw [Bool.and_eq_true, Bool.not_eq_true'] at hok
      exact ⟨hall, rfl, hok.1, hok.2⟩
  | false =>
      refine ⟨hall, rfl, ?_⟩
      rintro ⟨hsuccess, hallow⟩
      simp [hsuccess, hallow] at hok

theorem wait2_writer (s : State ι) (pid : ι) (st : Status) (io : Stream) :
    (s.wait2 pid st).writer io = s.writer io := by
  rw [Bool.eq_iff_iff, writer_iff, writer_iff]
  simp only [(wait2_procs s pid _ st).2.1]

/-- The status is taken, once the command has ended. -/
theorem Captures.wait2 (h : Captures pid ops status allowFail s) (hfate : (s.procs pid).fate = .ended st)
    (hfits : (s.wait2 pid st).Fits (status pid) allowFail pc) :
    Captures pid ops status allowFail { s.wait2 pid st with pc := pc } where
  stream io := by
    obtain ⟨sent, hshuffle, hsent⟩ := h.stream io
    refine ⟨sent, hshuffle, fun p => ?_⟩
    obtain ⟨hops, hwriter, -⟩ := wait2_procs s pid p st
    rw [← hsent p]
    show sent p ++ ((s.wait2 pid st).procs p).toCome io = _
    rw [Process.toCome, hops, hwriter, Process.toCome]
  shut io hio := ⟨(h.shut io hio).1, (wait2_writer s pid st io).trans (h.shut io hio).2⟩
  ended p hne io := by
    obtain ⟨-, hwriter, hnow⟩ := wait2_procs s pid p st
    show ((s.wait2 pid st).procs p).writer io = false
    rw [hwriter]
    by_cases hp : p = pid
    · subst hp
      exact h.ended p (by simp [hfate]) io
    · refine h.ended p (fun hrunning => hne ?_) io
      show ((s.wait2 pid st).procs p).fate = .running
      rw [hnow, if_neg hp, hrunning]
  outcome st' hst' := by
    have hnow : ((s.wait2 pid st).procs pid).fate = .reaped := by
      rw [(wait2_procs s pid pid st).2.2, if_pos rfl]
    rcases hst' with hst' | hst'
    · cases hnow.symm.trans hst'
    · cases hst'
      exact h.outcome st (.inl hfate)
  reaped := iff_of_true rfl (by
    show ((s.wait2 pid st).procs pid).fate = .reaped
    rw [(wait2_procs s pid pid st).2.2, if_pos rfl])
  fits := hfits

theorem Captures.parent (h : Captures pid ops status allowFail s)
    (hstep : parentStep pid allowFail n s = some t) : Captures pid ops status allowFail t := by
  have hfits := h.fits
  unfold parentStep at hstep
  split at hstep
  · next hpc =>
      rw [hpc] at hfits
      obtain ⟨hnodup, hnone, hopen⟩ := hfits
      split at hstep
      · next st hfate =>
          cases hstep
          exact h.wait2 hfate ⟨fun io => (hopen io).2, .inl rfl⟩
      · cases hstep
        by_cases hempty : s.openIos = []
        · rw [if_pos hempty]
          refine h.goto ⟨fun io => (hopen io).2, .inr fun io => ?_⟩
          by_contra hio
          rw [Bool.not_eq_true, ← hopen, hempty] at hio
          cases hio
        · rw [if_neg hempty]
          exact h.goto ⟨⟨hnodup, hnone, hopen⟩, hempty⟩
  · next hpc =>
      rw [hpc] at hfits
      split at hstep
      · cases hstep
      · cases hstep
        refine h.goto ⟨hfits.1, hfits.1.1.filter _, fun io hio => ?_⟩
        obtain ⟨hmem, hready⟩ := List.mem_filter.1 hio
        exact ⟨hmem, by simpa using hready⟩
  · next hpc =>
      rw [hpc] at hfits
      cases hstep
      exact h.goto hfits.1
  · next io rest hpc =>
      rw [hpc] at hfits
      obtain ⟨htracks, hnodup, hall⟩ := hfits
      rw [List.nodup_cons] at hnodup
      rw [List.forall_mem_cons] at hall
      have hopen : s.closed io = false := (htracks.2.2 io).1 hall.1.1
      have hne : ∀ io' ∈ rest, io' ≠ io := by
        rintro io' hio' rfl
        exact hnodup.1 hio'
      rcases look_cases s io with ⟨-, hclosed⟩ | ⟨hlook, -, -⟩ | ⟨hlook, -, hpending, hwriter⟩ |
        ⟨hlook, -, hpending, hwriter⟩
      · exact absurd hclosed (by simp [hopen])
      · rw [hlook] at hstep
        obtain ⟨t, hread, rfl⟩ := Option.map_eq_some_iff.1 hstep
        refine h.read hopen hread ?_
        obtain ⟨-, -, rfl⟩ := read_cases hread
        refine ⟨htracks, hnodup.2, fun io' hio' => ⟨(hall.2 io' hio').1, ?_⟩⟩
        show Function.update s.pending io _ io' ≠ [] ∨ s.writer io' = false
        rw [Function.update_of_ne (hne io' hio')]
        exact (hall.2 io' hio').2
      · rw [hlook] at hstep
        cases hstep
      · rw [hlook] at hstep
        cases hstep
        refine h.close (s.openIos.erase io) hpending hwriter
          ⟨⟨htracks.1.erase io, htracks.2.1, fun io' => ?_⟩, hnodup.2,
            fun io' hio' => ⟨?_, (hall.2 io' hio').2⟩⟩
        · rw [htracks.1.mem_erase_iff, htracks.2.2]
          by_cases hio : io' = io
          · subst hio
            simp [State.close]
          · simp [State.close, hio]
        · exact (List.mem_erase_of_ne (hne io' hio')).2 (hall.2 io' hio').1
  · next hpc =>
      rw [hpc] at hfits
      cases hstep
      refine h.goto fun io => ?_
      by_contra hio
      cases hfits.1 io (by simpa using hio)
  · next io rest hpc =>
      rw [hpc] at hfits
      obtain ⟨hopen, hover⟩ := hfits
      rcases look_cases s io with ⟨hlook, hclosed⟩ | ⟨hlook, hclosed, -⟩ |
        ⟨hlook, -, hpending, hwriter⟩ | ⟨hlook, hclosed, hpending, hwriter⟩
      · rw [hlook] at hstep
        cases hstep
        refine h.goto ⟨fun io' hio' => ?_, hover⟩
        refine (List.mem_cons.1 (hopen io' hio')).resolve_left ?_
        rintro rfl
        exact absurd hclosed (by simp [hio'])
      · rw [hlook] at hstep
        have hsame : { t with pc := .drain (io :: rest) } = t := by
          obtain ⟨-, -, rfl⟩ := read_cases hstep
          rw [← hpc]
        rw [← hsame]
        refine h.read hclosed hstep ?_
        obtain ⟨-, -, rfl⟩ := read_cases hstep
        exact ⟨hopen, hover⟩
      · rw [hlook] at hstep
        cases hstep
      · rw [hlook] at hstep
        cases hstep
        refine h.close s.openIos hpending hwriter ⟨fun io' hio' => ?_, ?_⟩
        · have hio : io' ≠ io := by
            rintro rfl
            simp [State.close] at hio'
          exact (List.mem_cons.1 (hopen io' (by simpa [State.close, hio] using hio'))).resolve_left hio
        · refine hover.imp_right fun hall io' => ?_
          by_cases hio : io' = io
          · subst hio
            simp [State.close]
          · simpa [State.close, hio] using hall io'
  · next hpc =>
      rw [hpc] at hfits
      split at hstep
      · next st hresult =>
          cases hstep
          obtain rfl := h.outcome st (.inr hresult)
          exact h.finish hfits
      · next st hresult hfate =>
          cases hstep
          obtain rfl := h.outcome st (.inl hfate)
          have hplace : (s.wait2 pid (status pid)).Fits (status pid) allowFail s.pc := by
            rw [hpc]
            exact hfits
          exact (h.wait2 hfate hplace).finish hfits
      · cases hstep
  · cases hstep
  · cases hstep
  · cases hstep

theorem Captures.step {a : Action ι} (h : Captures pid ops status allowFail s)
    (hstep : (execSystem capacity pid allowFail ops status).step s a = some t) :
    Captures pid ops status allowFail t := by
  cases a with
  | process p => exact h.process hstep
  | parent n => exact h.parent hstep
  | timeout =>
      simp only [execSystem] at hstep
      split at hstep
      · next hselect =>
          cases hstep
          have hfits := h.fits
          rw [hselect.1] at hfits
          exact h.goto hfits.1
      · cases hstep

theorem captures_of_reachable (h : (execSystem capacity pid allowFail ops status).Reachable s) :
    Captures pid ops status allowFail s :=
  System.invariant Captures.init (fun _ _ _ => Captures.step) h

/-! ### All of it -/

/-- When both streams are closed, what has been read of them is what was written. -/
theorem Captures.buf_shuffle (h : Captures pid ops status allowFail s)
    (hall : ∀ io, s.closed io = true) (io : Stream) :
    Shuffle (fun p => written io (ops p)) (s.buf io) := by
  obtain ⟨hpending, hwriter⟩ := h.shut io (hall io)
  obtain ⟨sent, hshuffle, hsent⟩ := h.stream io
  have hall : sent = fun p => written io (ops p) := by
    funext p
    have hcome : (s.procs p).toCome io = [] := by
      simp [Process.toCome, writer_eq_false_iff.1 hwriter p]
    rw [← hsent p, hcome, List.append_nil]
  rwa [hall, hpending, List.append_nil] at hshuffle

/-- When the method is done, both streams are closed. -/
theorem Captures.closed_of_done (h : Captures pid ops status allowFail s) (hdone : s.pc.isDone = true)
    (io : Stream) : s.closed io = true := by
  have hfits := h.fits
  cases hpc : s.pc with
  | returned st | exited code =>
      rw [hpc] at hfits
      exact hfits.1 io
  | raised =>
      rw [hpc] at hfits
      exact hfits.elim
  | poll | select | each ready | drain ios | reap =>
      rw [hpc] at hdone
      cases hdone

/-- The pipes that are open have room as long as they are empty. -/
theorem Captures.not_waits (h : Captures pid ops status allowFail s) (hcapacity : 0 < capacity)
    (hempty : ∀ io, s.closed io = false → s.pending io = []) (p : ι) : ¬ s.Waits capacity p := by
  rintro ⟨io, byte, rest, -, hwriter, hfull⟩
  rw [hempty io (h.open_of_writer hwriter), List.length_nil] at hfull
  omega

/-- Until the method is done, a process can go on or the method can, unless it is stuck. -/
theorem Captures.progress (h : Captures pid ops status allowFail s) (hcapacity : 0 < capacity)
    (hdone : s.pc.isDone = false) (hstuck : ¬ s.Stuck capacity pid) :
    (∃ p t, processStep capacity (status p) p s = some t) ∨
      ∃ t, parentStep pid allowFail 1 s = some t := by
  have hfits := h.fits
  cases hpc : s.pc with
  | poll =>
      refine .inr ?_
      unfold parentStep
      rw [hpc]
      cases (s.procs pid).fate with
      | running | ended | reaped => exact ⟨_, rfl⟩
  | select =>
      rw [hpc] at hfits
      by_cases hready : s.ready = []
      · -- nothing is there, so whoever has a pipe open can go on
        have hquiet : ∀ io ∈ s.openIos, s.pending io = [] ∧ s.writer io = true := by
          intro io hio
          have hnot := List.filter_eq_nil_iff.1 hready io hio
          simpa using hnot
        obtain ⟨io, hio⟩ := List.exists_mem_of_ne_nil _ hfits.2
        obtain ⟨p, hp⟩ := writer_iff.1 (hquiet io hio).2
        have hempty : ∀ io, s.closed io = false → s.pending io = [] :=
          fun io hopen => (hquiet io ((hfits.1.2.2 io).2 hopen)).1
        exact .inl ⟨p, exists_processStep (h.running_of_writer hp) (h.not_waits hcapacity hempty p)⟩
      · refine .inr ⟨{ s with pc := .each s.ready }, ?_⟩
        simp only [parentStep, hpc, if_neg hready]
  | each ready =>
      rw [hpc] at hfits
      refine .inr ?_
      cases ready with
      | nil => exact ⟨_, by simp only [parentStep, hpc]; rfl⟩
      | cons io rest =>
          have hio := hfits.2.2 io List.mem_cons_self
          rcases look_cases s io with ⟨hlook, -⟩ | ⟨hlook, -, hpending⟩ |
            ⟨hlook, -, hpending, hwriter⟩ | ⟨hlook, -⟩
          · exact ⟨_, by simp only [parentStep, hpc, hlook]; rfl⟩
          · obtain ⟨t, ht⟩ := exists_read hpending
            exact ⟨_, by simp only [parentStep, hpc, hlook, ht]; rfl⟩
          · rcases hio.2 with hne | hfalse
            · exact absurd hpending hne
            · exact absurd hfalse (by simp [hwriter])
          · exact ⟨_, by simp only [parentStep, hpc, hlook]; rfl⟩
  | drain ios =>
      rw [hpc] at hfits
      cases ios with
      | nil => exact .inr ⟨_, by simp only [parentStep, hpc]; rfl⟩
      | cons io rest =>
          rcases look_cases s io with ⟨hlook, -⟩ | ⟨hlook, -, hpending⟩ |
            ⟨hlook, hclosed, -, hwriter⟩ | ⟨hlook, -⟩
          · exact .inr ⟨_, by simp only [parentStep, hpc, hlook]; rfl⟩
          · obtain ⟨t, ht⟩ := exists_read hpending
            exact .inr ⟨t, by simp only [parentStep, hpc, hlook, ht]⟩
          · -- the command has ended: in the loop a stream that is open would not be drained
            have hreaped : (s.procs pid).fate = .reaped := by
              rcases hfits.2 with hresult | hall
              · exact h.reaped.1 hresult
              · exact absurd (hall io) (by simp [hclosed])
            obtain ⟨p, hp⟩ : ∃ p, ¬ ((s.procs p).fate = .running → s.Waits capacity p) := by
              by_contra hnone
              rw [not_exists_not] at hnone
              exact hstuck ⟨⟨io, rest, hpc, hlook⟩, hreaped, hnone⟩
            rw [Classical.not_imp] at hp
            exact .inl ⟨p, exists_processStep hp.1 hp.2⟩
          · exact .inr ⟨_, by simp only [parentStep, hpc, hlook]; rfl⟩
  | reap =>
      rw [hpc] at hfits
      cases hresult : s.result with
      | some st => exact .inr ⟨_, by simp only [parentStep, hpc, hresult]; rfl⟩
      | none =>
          cases hfate : (s.procs pid).fate with
          | running =>
              have hempty : ∀ io, s.closed io = false → s.pending io = [] :=
                fun io hopen => absurd (hfits io) (by simp [hopen])
              exact .inl ⟨pid, exists_processStep hfate (h.not_waits hcapacity hempty pid)⟩
          | ended st => exact .inr ⟨_, by simp only [parentStep, hpc, hresult, hfate]; rfl⟩
          | reaped => exact absurd (h.reaped.2 hfate) (by simp [hresult])
  | returned st | exited code | raised =>
      rw [hpc] at hdone
      cases hdone

/-- Where it is stuck, nothing can go on. -/
theorem Captures.step_eq_none_of_stuck (h : Captures pid ops status allowFail s)
    (hstuck : s.Stuck capacity pid) (a : Action ι) :
    (execSystem capacity pid allowFail ops status).step s a = none := by
  obtain ⟨⟨io, rest, hpc, hlook⟩, -, hwaits⟩ := hstuck
  cases a with
  | process p =>
      show processStep capacity (status p) p s = none
      unfold processStep
      cases hfate : (s.procs p).fate with
      | ended | reaped => rfl
      | running =>
          obtain ⟨io', byte, rest, hops, hwriter, hfull⟩ := hwaits p hfate
          have hclosed := h.open_of_writer hwriter
          simp [hops, hwriter, hclosed, not_lt.2 hfull]
  | parent n => simp only [execSystem, parentStep, hpc, hlook]
  | timeout => simp [execSystem, hpc]

/-- It is another process that keeps the method waiting. -/
theorem Captures.not_stuck_of_closed (h : Captures pid ops status allowFail s)
    (hclosed : ∀ p, p ≠ pid → ∀ io, (s.procs p).writer io = false) : ¬ s.Stuck capacity pid := by
  rintro ⟨⟨io, rest, -, hlook⟩, hreaped, -⟩
  have hwriter : s.writer io = true := by
    rcases look_cases s io with ⟨hlook', -⟩ | ⟨hlook', -⟩ | ⟨-, -, -, hwriter⟩ | ⟨hlook', -⟩
    · cases hlook.symm.trans hlook'
    · cases hlook.symm.trans hlook'
    · exact hwriter
    · cases hlook.symm.trans hlook'
  obtain ⟨p, hp⟩ := writer_iff.1 hwriter
  by_cases hpid : p = pid
  · subst hpid
    cases hreaped.symm.trans (h.running_of_writer hp)
  · rw [hclosed p hpid io] at hp
    cases hp

end Captures

/-! ### How many steps there are -/

section Steps

variable {ι : Type} {pid p : ι} {ops : ι → List Op} {status : ι → Status} {st : Status}
  {allowFail : Bool} {capacity n : Nat} {s t : State ι} {q : Process} {pending : Stream → List UInt8}
  {io : Stream}

/-- A stream that the method has not closed. -/
def State.unclosed (s : State ι) (io : Stream) : Nat := if s.closed io = true then 0 else 1

/-- How far the place is from the end of a round, or from the end. -/
def State.place (s : State ι) : Nat :=
  match s.pc with
  | .poll => s.openIos.length + 3
  | .select => s.openIos.length + 2
  | .each [] => s.openIos.length + 4
  | .each (_ :: _) => s.openIos.length + 1
  | .drain ios => ios.length + 2
  | .reap => 1
  | .returned _ | .exited _ | .raised => 0

/-- What a process has left to do, and that it has not ended. -/
def Process.labour (q : Process) : Nat := 8 * q.ops.length + if q.fate = .running then 1 else 0

/-- The bytes in the pipes. -/
def State.load (s : State ι) : Nat := (s.pending .out).length + (s.pending .err).length

/-- A step of a process or of the method. -/
def Action.acts : Action ι → Bool
  | .timeout => false
  | _ => true

/-- What five seconds of waiting add: the round starts again. -/
def Action.refill : Action ι → Nat
  | .timeout => 1
  | _ => 0

theorem place_each_le (s : State ι) (rest : List Stream) :
    ({ s with pc := .each rest } : State ι).place ≤ s.openIos.length + 4 := by
  cases rest with
  | nil => exact le_rfl
  | cons io rest => exact Nat.add_le_add_left (by decide) _

theorem place_finish (s : State ι) (allowFail : Bool) (st : Status) :
    (s.finish allowFail st).place = 0 := by
  unfold State.finish State.place
  cases st.success && !allowFail <;> rfl

theorem sum_refill [DecidableEq ι] (as : List (Action ι)) :
    (as.map Action.refill).sum = as.count .timeout := by
  induction as with
  | nil => rfl
  | cons a as ih =>
      rw [List.map_cons, List.sum_cons, List.count_cons, ih]
      cases a <;> simp [Action.refill, Nat.add_comm]

/-- A process does one thing less, or has ended; a byte costs less in a pipe. -/
theorem Does.work (h : Does capacity st s p q pending) (hfate : (s.procs p).fate = .running) :
    q.labour + 4 * ((pending .out).length + (pending .err).length) + 1 ≤
      (s.procs p).labour + 4 * s.load := by
  unfold State.load Process.labour
  cases h with
  | quits | dies => simp [hfate]
  | skips hops | closes hops => simp [hfate, hops]
  | @puts io byte rest hops =>
      have hlength : ((Function.update s.pending io (s.pending io ++ [byte])) .out).length +
          ((Function.update s.pending io (s.pending io ++ [byte])) .err).length =
          (s.pending .out).length + (s.pending .err).length + 1 := by
        cases io <;> simp [Function.update] <;> omega
      rw [hlength]
      simp [hfate, hops]
      omega

variable [Fintype ι]

def State.labour (s : State ι) : Nat := ∑ p, (s.procs p).labour

/-- What is left to write, to read and to close. -/
def State.work (s : State ι) : Nat := s.labour + 4 * s.load + 4 * (s.unclosed .out + s.unclosed .err)

/-- What is left to do: a round pays for its steps with a byte or a stream. -/
def State.rank (s : State ι) : Nat := s.work + s.place

/-- A byte less in one of the pipes. -/
theorem work_read (hread : s.read io n = some t) : t.work + 4 ≤ s.work := by
  obtain ⟨hpos, hle, rfl⟩ := read_cases hread
  have hload : ({ s with
      buf := Function.update s.buf io (s.buf io ++ (s.pending io).take n)
      pending := Function.update s.pending io ((s.pending io).drop n) } : State ι).load + 1 ≤ s.load := by
    cases io <;> simp [State.load, Function.update] <;> omega
  have hlabour : ({ s with
      buf := Function.update s.buf io (s.buf io ++ (s.pending io).take n)
      pending := Function.update s.pending io ((s.pending io).drop n) } : State ι).work + 4 * s.load =
      s.work + 4 * ({ s with
        buf := Function.update s.buf io (s.buf io ++ (s.pending io).take n)
        pending := Function.update s.pending io ((s.pending io).drop n) } : State ι).load := by
    simp only [State.work, State.labour, State.unclosed]
    omega
  omega

/-- One stream less that is not closed. -/
theorem work_close (hclosed : s.closed io = false) : (s.close io).work + 4 = s.work := by
  have hopen : (s.close io).unclosed .out + (s.close io).unclosed .err + 1 =
      s.unclosed .out + s.unclosed .err := by
    cases io <;> simp [State.close, State.unclosed, Function.update, hclosed]
    omega
  have hrest : (s.close io).work = s.labour + 4 * s.load +
      4 * ((s.close io).unclosed .out + (s.close io).unclosed .err) := rfl
  rw [hrest]
  unfold State.work
  omega

variable [DecidableEq ι]

/-- A process has done something; the labour of the others is the same. -/
theorem labour_setProc (s : State ι) (p : ι) (q : Process) :
    (s.setProc p q).labour + (s.procs p).labour = s.labour + q.labour := by
  have hold := Finset.add_sum_erase Finset.univ (fun p' => (s.procs p').labour) (Finset.mem_univ p)
  have hnew := Finset.add_sum_erase Finset.univ (fun p' => ((s.setProc p q).procs p').labour)
    (Finset.mem_univ p)
  have hself : (s.setProc p q).procs p = q := Function.update_self ..
  have hrest : ∑ p' ∈ Finset.univ.erase p, ((s.setProc p q).procs p').labour =
      ∑ p' ∈ Finset.univ.erase p, (s.procs p').labour := by
    refine Finset.sum_congr rfl fun p' hp' => ?_
    have hother : (s.setProc p q).procs p' = s.procs p' :=
      Function.update_of_ne (Finset.ne_of_mem_erase hp') ..
    rw [hother]
  simp only [hself, hrest] at hold hnew
  unfold State.labour
  omega

theorem rank_process (hstep : processStep capacity st p s = some t) : t.rank + 1 ≤ s.rank := by
  obtain ⟨hfate, q, pending, hdoes, rfl⟩ := processStep_does hstep
  have hwork := hdoes.work hfate
  have hlabour := labour_setProc s p q
  show (s.setProc p q).labour + 4 * ((pending .out).length + (pending .err).length) +
    4 * (s.unclosed .out + s.unclosed .err) + s.place + 1 ≤ s.work + s.place
  unfold State.work
  omega

theorem work_wait2 (s : State ι) (pid : ι) (st : Status) : (s.wait2 pid st).work ≤ s.work := by
  have hlabour := labour_setProc s pid { s.procs pid with fate := .reaped }
  have hle : ({ s.procs pid with fate := .reaped } : Process).labour ≤ (s.procs pid).labour := by
    simp [Process.labour]
  show (s.setProc pid { s.procs pid with fate := .reaped }).labour + 4 * s.load +
    4 * (s.unclosed .out + s.unclosed .err) ≤ s.work
  unfold State.work
  omega

theorem rank_parent (hstep : parentStep pid allowFail n s = some t) : t.rank + 1 ≤ s.rank := by
  -- a step that only goes on, and one that takes the status
  have hgoto : ∀ pc, ({ s with pc := pc } : State ι).work = s.work := fun _ => rfl
  have hwait : ∀ st pc, ({ s.wait2 pid st with pc := pc } : State ι).work ≤ s.work :=
    fun st _ => work_wait2 s pid st
  unfold State.rank
  unfold parentStep at hstep
  split at hstep
  · next hpc =>
      have hold : s.place = s.openIos.length + 3 := by simp only [State.place, hpc]
      split at hstep
      · next st _ =>
          cases hstep
          have hwork := hwait st (.drain s.openIos)
          have hnew : ({ s.wait2 pid st with pc := .drain s.openIos } : State ι).place =
            s.openIos.length + 2 := rfl
          omega
      · cases hstep
        rw [hgoto, hold]
        by_cases hempty : s.openIos = []
        · simp only [State.place, if_pos hempty]
          omega
        · simp only [State.place, if_neg hempty]
          omega
  · next hpc =>
      have hold : s.place = s.openIos.length + 2 := by simp only [State.place, hpc]
      split at hstep
      · cases hstep
      · next hready =>
          cases hstep
          obtain ⟨io, rest, hcons⟩ := List.exists_cons_of_ne_nil hready
          rw [hgoto, hold]
          simp only [State.place, hcons]
          omega
  · next hpc =>
      have hold : s.place = s.openIos.length + 4 := by simp only [State.place, hpc]
      cases hstep
      rw [hgoto, hold]
      simp only [State.place]
      omega
  · next io rest hpc =>
      have hold : s.place = s.openIos.length + 1 := by simp only [State.place, hpc]
      rcases look_cases s io with ⟨hlook, -⟩ | ⟨hlook, -, -⟩ | ⟨hlook, -⟩ | ⟨hlook, hclosed, -⟩
      · rw [hlook] at hstep
        cases hstep
        rw [hgoto, hold]
        simp only [State.place]
        omega
      · rw [hlook] at hstep
        obtain ⟨u, hread, rfl⟩ := Option.map_eq_some_iff.1 hstep
        have hwork := work_read hread
        have hnew := place_each_le u rest
        have hsame : u.openIos.length = s.openIos.length := by rw [(read_cases hread).2.2]
        rw [show ({ u with pc := .each rest } : State ι).work = u.work from rfl]
        omega
      · rw [hlook] at hstep
        cases hstep
      · rw [hlook] at hstep
        cases hstep
        have hwork := work_close hclosed
        have hnew : ({ s.close io with openIos := s.openIos.erase io, pc := .each rest } :
            State ι).place ≤ (s.openIos.erase io).length + 4 :=
          place_each_le { s.close io with openIos := s.openIos.erase io } rest
        have hlength : (s.openIos.erase io).length ≤ s.openIos.length := List.length_erase_le
        have hsame : ({ s.close io with openIos := s.openIos.erase io, pc := .each rest } :
          State ι).work = (s.close io).work := rfl
        omega
  · next hpc =>
      have hold : s.place = 2 := by simp [State.place, hpc]
      cases hstep
      rw [hgoto, hold]
      simp only [State.place]
      omega
  · next io rest hpc =>
      have hold : s.place = rest.length + 3 := by simp [State.place, hpc]
      rcases look_cases s io with ⟨hlook, -⟩ | ⟨hlook, -, -⟩ | ⟨hlook, -⟩ | ⟨hlook, hclosed, -⟩
      · rw [hlook] at hstep
        cases hstep
        rw [hgoto, hold]
        simp only [State.place]
        omega
      · rw [hlook] at hstep
        have hwork := work_read hstep
        have hsame : t.place = s.place := by
          rw [(read_cases hstep).2.2]
          simp only [State.place, hpc]
        omega
      · rw [hlook] at hstep
        cases hstep
      · rw [hlook] at hstep
        cases hstep
        have hwork := work_close hclosed
        show (s.close io).work + (rest.length + 2) + 1 ≤ _
        omega
  · next hpc =>
      have hold : s.place = 1 := by simp only [State.place, hpc]
      split at hstep
      · cases hstep
        rw [place_finish, hold]
        exact le_rfl
      · next st _ _ =>
          cases hstep
          have hwork := hwait st s.pc
          rw [place_finish, hold]
          exact Nat.succ_le_succ hwork
      · cases hstep
  · cases hstep
  · cases hstep
  · cases hstep

theorem rank_step {a : Action ι}
    (hstep : (execSystem capacity pid allowFail ops status).step s a = some t) :
    t.rank + (if a.acts then 1 else 0) ≤ s.rank + a.refill := by
  cases a with
  | process p => exact rank_process hstep
  | parent n => exact rank_parent hstep
  | timeout =>
      simp only [execSystem] at hstep
      split at hstep
      · next hselect =>
          cases hstep
          have hold : s.place = s.openIos.length + 2 := by simp only [State.place, hselect.1]
          calc ({ s with pc := .poll } : State ι).rank + (if (Action.timeout : Action ι).acts then 1 else 0)
              = s.work + (s.openIos.length + 3) := rfl
            _ = s.work + s.place + 1 := by rw [hold]; omega
            _ ≤ s.rank + (Action.timeout : Action ι).refill := le_rfl
      · cases hstep

/-- **Nothing goes on for ever**, but for the waits. -/
theorem acts_le {as : List (Action ι)}
    (h : (execSystem capacity pid allowFail ops status).run as = some s) :
    as.countP Action.acts ≤ 8 * ∑ p, (ops p).length + Fintype.card ι + 13 + as.count .timeout := by
  have hpaid := System.countP_add_rank_le State.rank Action.acts Action.refill
    (fun _ _ _ => rank_step) h
  have hlabour : (execSystem capacity pid allowFail ops status).init.labour =
      8 * ∑ p, (ops p).length + Fintype.card ι := by
    simp [State.labour, Process.labour, execSystem, Finset.sum_add_distrib, Finset.mul_sum]
  have hinit : State.rank (execSystem capacity pid allowFail ops status).init =
    (execSystem capacity pid allowFail ops status).init.labour + 13 := rfl
  rw [sum_refill, hinit, hlabour] at hpaid
  omega

/-- **Nothing is lost**, and nothing hangs but for a process that is left behind and fills
one pipe while the other one is read to its end. -/
theorem exec_unpaginated_captures {as : List (Action ι)} (hcapacity : 0 < capacity)
    (h : (execSystem capacity pid allowFail ops status).run as = some s) :
    (∀ st, s.pc = .returned st → st = status pid ∧ st.success = true ∧ allowFail = false ∧
      ∀ io, Shuffle (fun p => written io (ops p)) (s.buf io)) ∧
    (∀ code, s.pc = .exited code → code = (status pid).exitstatus ∧
      ¬ ((status pid).success = true ∧ allowFail = false) ∧
      ∀ io, Shuffle (fun p => written io (ops p)) (s.buf io)) ∧
    s.pc ≠ .raised ∧
    (s.pc.isDone = false →
      ((∃ a t, a ≠ .timeout ∧ (execSystem capacity pid allowFail ops status).step s a = some t) ↔
        ¬ s.Stuck capacity pid)) ∧
    ((∀ p, p ≠ pid → ∀ io, (s.procs p).writer io = false) → ¬ s.Stuck capacity pid) ∧
    as.countP Action.acts ≤ 8 * ∑ p, (ops p).length + Fintype.card ι + 13 + as.count .timeout := by
  have hs := captures_of_reachable (System.reachable_of_run h)
  refine ⟨fun st hpc => ?_, fun code hpc => ?_, fun hpc => ?_, fun hdone => ⟨?_, fun hstuck => ?_⟩,
    hs.not_stuck_of_closed, acts_le h⟩
  · have hfits := hs.fits
    rw [hpc] at hfits
    obtain ⟨hall, rfl, hsuccess, hallow⟩ := hfits
    exact ⟨rfl, hsuccess, hallow, hs.buf_shuffle hall⟩
  · have hfits := hs.fits
    rw [hpc] at hfits
    obtain ⟨hall, hcode, hnot⟩ := hfits
    exact ⟨hcode, hnot, hs.buf_shuffle hall⟩
  · have hfits := hs.fits
    rw [hpc] at hfits
    exact hfits
  · rintro ⟨a, t, -, hstep⟩ hstuck
    cases (hs.step_eq_none_of_stuck hstuck a).symm.trans hstep
  · rcases hs.progress hcapacity hdone hstuck with ⟨p, t, ht⟩ | ⟨t, ht⟩
    · exact ⟨.process p, t, by simp, ht⟩
    · exact ⟨.parent 1, t, by simp, ht⟩

/-- What only the command writes to is captured as it is. -/
theorem buf_eq_of_alone {as : List (Action ι)}
    (h : (execSystem capacity pid allowFail ops status).run as = some s) (hdone : s.pc.isDone = true)
    (halone : ∀ p, p ≠ pid → written io (ops p) = []) : s.buf io = written io (ops pid) :=
  have hs := captures_of_reachable (System.reachable_of_run h)
  (hs.buf_shuffle (hs.closed_of_done hdone) io).eq_of_alone halone

/-- The command prints a byte and starts a process that outlives it and prints another. -/
def outlived : Fin 2 → List Op := ![[.put .out 97], [.put .err 98]]

/-- The method waits, reads the byte of the first stream, and finds the command ended
before it has looked at the second; it reads that when the other process has ended. -/
def endsBetween : List (Action (Fin 2)) :=
  [.parent 1, .timeout, .process 0, .parent 1, .parent 1, .process 0, .parent 1, .process 1, .parent 1,
    .process 1, .parent 1, .parent 1, .parent 1, .parent 1, .parent 1, .parent 1]

theorem endsBetween_at : (((execSystem 1 0 false outlived fun _ => .exited 0).run endsBetween).map
    (·.pc)) = some (.returned (.exited 0)) := by
  decide +kernel

theorem exec_unpaginated_captures_endsBetween :
    ∃ s, (execSystem 1 0 false outlived fun _ => .exited 0).run endsBetween = some s ∧
      s.pc = .returned (.exited 0) ∧ ∀ io, Shuffle (fun p => written io (outlived p)) (s.buf io) := by
  obtain ⟨s, hrun, hpc⟩ := Option.map_eq_some_iff.1 endsBetween_at
  exact ⟨s, hrun, hpc, ((exec_unpaginated_captures Nat.one_pos hrun).1 _ hpc).2.2.2⟩

/-- The process that the command has left behind writes more than the second pipe holds,
and has the first one open: the method waits for the end of the first one, and it for
room in the second. -/
theorem stuck_leftBehind :
    ∃ s, (execSystem 1 0 false ![[], [.put .err 98, .put .err 99]] fun _ => .exited 0).run
        [.process 0, .parent 1, .process (1 : Fin 2)] = some s ∧ s.Stuck 1 0 := by
  refine ⟨_, rfl, ⟨.out, [.err], rfl, rfl⟩, rfl, fun p hrunning => ?_⟩
  fin_cases p
  · cases hrunning
  · exact ⟨.err, 99, [], rfl, rfl, le_rfl⟩

end Steps

end RuBLE.Pager
