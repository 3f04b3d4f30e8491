import Mathlib.Data.List.AList
import OsHomework.Lib.Run
import OsHomework.Smash.Jobs

/-!
# The shell and its children

The commands of `Commands.cpp` that touch the jobs list or start a process, the handlers of
`signals.cpp`, and the children of the shell, as a transition system.

* `Procs`: the children that have not been reaped, with what `kill` and `waitpid` do to them;
* `Cmd`: a `Command` object; `atoi`;
* `Pc`: what the shell is about to do. While no foreground job is published, a signal handler returns at
  once: the statements of such a stretch that touch the list once make a single step. From the moment
  `current_foreground_job` is set, every statement is a step of its own;
* `Shell`: `entry` and `objs` are the `JobEntry` objects made so far, and `reaped` records whether the
  process that an object was made for has been reaped;
* `Answer`: what a step gets from outside: `waitpid`, `fork`, `new`, the clock, and what is read through
  an erased iterator;
* `step`: a line is read, the shell takes its next step, a signal handler runs, or a child changes its
  state by itself. No step exists where the source has no meaning (`++maxJobID` at `INT_MAX`) or blocks.
-/

set_option autoImplicit false

namespace OsHomework.Smash

/-! ## Processes -/

/-- The state of a child; `reported` says that `waitpid` has reported the stop. -/
inductive Proc where
  | running
  | stopped (reported : Bool)
  | zombie
  deriving DecidableEq

/-- The children that have not been reaped. -/
abbrev Procs := AList fun _ : Pid => Proc

def sigKill : ℤ := 9
def sigCont : ℤ := 18
def sigStop : ℤ := 19

/-- What a signal does to a process at once. What others do (to end the process, or to stop it) happens
as a step of the process. -/
def Proc.receive (st : Proc) (sig : ℤ) : Proc :=
  match st with
  | .zombie => .zombie
  | .running =>
    if sig = sigKill then .zombie else if sig = sigStop then .stopped false else .running
  | .stopped r =>
    if sig = sigKill then .zombie else if sig = sigCont then .running else .stopped r

/-- `kill`; `none` if it returns -1: no such process, or no such signal. -/
def Procs.kill (t : Procs) (pid : Pid) (sig : ℤ) : Option Procs :=
  match t.lookup pid with
  | none => none
  | some st => if 0 ≤ sig ∧ sig ≤ 64 then some (t.insert pid (st.receive sig)) else none

/-! ## Commands -/

/-- The white space of `isspace`. -/
def isSpace (c : Char) : Bool :=
  c = ' ' || c = '\n' || c = '\r' || c = '\t' || c = '\x0c' || c = '\x0b'

/-- `_trim`. -/
def trim (s : List Char) : List Char :=
  ((s.dropWhile isSpace).reverse.dropWhile isSpace).reverse

/-- `cmd_s.at(first_occurance + 1)`, with the first occurrence of `op`; `none` if `at` throws. The
position of a character that does not occur is -1. -/
def charAfter (op : Char) (cmd : List Char) : Option Char :=
  match cmd.findIdx? (· = op) with
  | some i => cmd[i + 1]?
  | none => cmd[0]?

/-- The number that the digits at the front make. -/
def natPart (s : List Char) : ℤ :=
  (s.takeWhile Char.isDigit).foldl (fun n c => 10 * n + (c.toNat - '0'.toNat : ℕ)) 0

/-- `strtol` to the base 10: a value out of range is the nearest `long`. -/
def strtol (s : List Char) : ℤ :=
  match s.dropWhile isSpace with
  | '-' :: t => max (-2 ^ 63) (-natPart t)
  | '+' :: t => min (2 ^ 63 - 1) (natPart t)
  | t => min (2 ^ 63 - 1) (natPart t)

/-- `atoi`: the `long` cast to `int`. -/
def atoi (s : List Char) : ℤ := (strtol s).bmod (2 ^ 32)

/-- The classes of commands. -/
inductive Kind where
  | pipe | redirection | setcore | getfiletype | chmod | chprompt | showpid | pwd | cd | jobs | fg | bg
  | quit | kill | external
  deriving DecidableEq

/-- The commands that start with `removeFinishedJobs`. -/
def Kind.sweeps : Kind → Bool
  | .getfiletype | .chmod | .chprompt | .showpid | .pwd | .cd => false
  | _ => true

/-- A `Command`; `argc` is the length of `argv`. -/
structure Cmd where
  kind : Kind
  argv : List (List Char)
  isBackground : Bool
  cmdLine : List Char
  deriving DecidableEq

/-! ## The shell -/

/-- What the shell is about to do. -/
inductive Pc where
  /-- `getline` in `main`. -/
  | prompt
  /-- `removeFinishedJobs`: call `waitpid(-1, NULL, WNOHANG)`. -/
  | sweep (c : Cmd)
  /-- It has reaped `finproc`: call `removeJobByPid`. -/
  | reaped (c : Cmd) (finproc : Pid)
  /-- It has found no more: the second loop. -/
  | scan (c : Cmd)
  /-- `removeFinishedJobs` has returned. -/
  | body (c : Cmd)
  /-- A pipe forks its second child. -/
  | fork2 (c : Cmd)
  /-- Call `addJob(pid, status, cmd_line_copy)`. -/
  | add (c : Cmd) (pid : Pid) (status : Status)
  /-- Make the job with id -1 of an external or redirected command, and publish it. -/
  | foreground (c : Cmd) (pid : Pid)
  /-- `fg` has published its job: `kill(job_pid, SIGCONT)`. -/
  | fgCont (c : Cmd) (jobId : ℤ) (pid : Pid)
  /-- `fg`: `removeJobById(job_id)`. -/
  | fgRemove (c : Cmd) (jobId : ℤ) (pid : Pid)
  /-- `waitpid(pid, NULL, WUNTRACED)`. -/
  | wait (c : Cmd) (pid : Pid)
  /-- It has returned: `setCurrentForegroundJob(nullptr)`. -/
  | clear (c : Cmd) (pid : Pid)
  /-- The shell has ended. -/
  | exited
  deriving DecidableEq

structure Shell where
  jobs : JobsList
  entry : Entries
  /-- The addresses of the objects made so far. -/
  objs : List Ptr
  /-- `current_foreground_job`. -/
  current : Option Ptr
  procs : Procs
  /-- The process that the object was made for has been reaped. -/
  reaped : Ptr → Bool
  stderr : List String
  pc : Pc

/-- What a step gets from outside. -/
structure Answer where
  /-- The child that `waitpid(-1, NULL, WNOHANG)` reaps, if it does. -/
  finproc : Option Pid
  /-- What `fork` returns to the shell, if it succeeds. -/
  child : Option Pid
  /-- Where `new JobEntry` puts the object. -/
  ptr : Ptr
  /-- `time(NULL)`. -/
  time : ℕ
  /-- The id read through an erased iterator. -/
  stale : ℤ

namespace Shell

/-- Back to the loop of `main`. -/
def done (s : Shell) : Shell := { s with pc := .prompt }

def error (s : Shell) (msg : String) : Shell := { s with stderr := s.stderr ++ [msg] }

/-- A child is reaped. -/
def reap (s : Shell) (pid : Pid) : Shell :=
  { s with
    procs := s.procs.erase pid
    reaped := fun p => s.reaped p || (decide (p ∈ s.objs) && decide ((s.entry p).jobProcessId = pid)) }

/-- `kill`; a failure is reported as `msg`, if at all. -/
def send (s : Shell) (pid : Pid) (sig : ℤ) (msg : Option String) : Shell :=
  match s.procs.kill pid sig with
  | some t => { s with procs := t }
  | none => { s with stderr := s.stderr ++ msg.toList }

/-- `new JobEntry(job_id, pid, status, cmd_line)`. -/
def newEntry (s : Shell) (a : Answer) (jobId : ℤ) (pid : Pid) (st : Status) (cmdLine : List Char) :
    Option Shell :=
  if a.ptr ∈ s.objs then none
  else
    some
      { s with
        entry := Function.update s.entry a.ptr ⟨jobId, pid, st, cmdLine, a.time⟩
        objs := a.ptr :: s.objs
        reaped := Function.update s.reaped a.ptr (s.procs.lookup pid).isNone }

/-- `addJob(pid, status, cmd_line)`. The object is at `a.ptr`. -/
def addJob (s : Shell) (a : Answer) (pid : Pid) (st : Status) (cmdLine : List Char) : Option Shell :=
  if s.jobs.maxJobID < intMax then
    (s.newEntry a (s.jobs.maxJobID + 1) pid st cmdLine).map fun t =>
      { t with jobs := ⟨s.jobs.jobsList ++ [a.ptr], s.jobs.maxJobID + 1⟩ }
  else none

/-- `fork`, as the shell sees it. -/
def fork (s : Shell) (a : Answer) (next : Pid → Pc) : Option Shell :=
  match a.child with
  | none => some (s.error "smash error: fork failed").done
  | some pid =>
    if pid = 0 ∨ pid ∈ s.procs then none
    else some { s with procs := s.procs.insert pid .running, pc := next pid }

/-- `killAllJobs`. -/
def killAllJobs (s : Shell) : Shell :=
  s.jobs.jobsList.foldl (fun t p => t.send (t.entry p).jobProcessId sigKill none) s

/-! ### The commands, after `removeFinishedJobs` -/

/-- The job that `fg` is to resume, or its error message. -/
def fgTarget (s : Shell) (c : Cmd) : Except String ℤ :=
  match c.argv with
  | [_] =>
    if s.jobs.getNumberOfJobs = 0 then .error "smash error: fg: jobs list is empty"
    else .ok s.jobs.maxJobID
  | [_, arg] =>
    if atoi arg = 0 then .error "smash error: fg: invalid arguments" else .ok (atoi arg)
  | _ => .error "smash error: fg: invalid arguments"

def foregroundCommand (s : Shell) (c : Cmd) : Shell :=
  match s.fgTarget c with
  | .error msg => (s.error msg).done
  | .ok jobId =>
    match s.jobs.getJobById s.entry jobId with
    | none => (s.error s!"smash error: fg: job-id {jobId} does not exist").done
    | some job =>
      { s with
        entry := setJobStatus s.entry job .foreground
        current := some job
        pc := .fgCont c jobId (s.entry job).jobProcessId }

/-- The job that `bg` is to resume, or its error message. -/
def bgTarget (s : Shell) (c : Cmd) : Except String ℤ :=
  match c.argv with
  | [_] =>
    let jobId := s.jobs.getMaxStoppedJobID s.entry
    if jobId = 0 then .error "smash error: bg: there is no stopped jobs to resume" else .ok jobId
  | [_, arg] =>
    if atoi arg = 0 then .error "smash error: fg: invalid arguments" else .ok (atoi arg)
  | _ => .error "smash error: bg: invalid arguments"

def backgroundCommand (s : Shell) (c : Cmd) : Shell :=
  match s.bgTarget c with
  | .error msg => (s.error msg).done
  | .ok jobId =>
    match s.jobs.getJobById s.entry jobId with
    | none => (s.error s!"smash error: bg: job-id {jobId} does not exist").done
    | some job =>
      if (s.entry job).jobStatus = .background then
        (s.error s!"smash error: bg: job-id {jobId} is already running in the background").done
      else
        ({ s with entry := setJobStatus s.entry job .background }.send
          (s.entry job).jobProcessId sigCont none).done

def quitCommand (s : Shell) (c : Cmd) : Shell :=
  match c.argv with
  | [_] => { s with pc := .exited }
  | _ :: arg :: _ =>
    if arg = ['k', 'i', 'l', 'l'] then { s.killAllJobs with pc := .exited } else s.done
  | [] => s.done

/-- The status that `kill` gives to a job it has sent a signal. -/
def killStatus (e : Entries) (job : Ptr) (sig : ℤ) : Entries :=
  if sig = sigKill then setJobStatus e job .finished
  else if sig = sigStop then setJobStatus e job .stopped
  else e

def killCommand (s : Shell) (c : Cmd) : Shell :=
  let invalid := (s.error "smash error: kill: invalid arguments").done
  match c.argv with
  | [_, '-' :: sigStr, jobStr] =>
    let jobId := atoi jobStr
    let sig := atoi sigStr
    if jobId = 0 ∨ sig = 0 then invalid
    else
      match s.jobs.getJobById s.entry jobId with
      | none => (s.error s!"smash error: kill: job-id {jobId} does not exist").done
      | some job =>
        match s.procs.kill (s.entry job).jobProcessId sig with
        | none => invalid
        | some t => { s with procs := t, entry := killStatus s.entry job sig }.done
  | _ => invalid

/-- What a command does after `removeFinishedJobs`, up to its first call that others can see. -/
def body (s : Shell) (c : Cmd) (a : Answer) : Option Shell :=
  match c.kind with
  | .jobs => some { s with jobs := s.jobs.sort }.done
  | .fg => some (s.foregroundCommand c)
  | .bg => some (s.backgroundCommand c)
  | .quit => some (s.quitCommand c)
  | .kill => some (s.killCommand c)
  | .external =>
    s.fork a fun pid => if c.isBackground then .add c pid .background else .foreground c pid
  | .redirection =>
    match charAfter '>' (trim c.cmdLine) with
    | none => some { s with pc := .exited }
    | some _ => s.fork a fun pid => if c.isBackground then .add c pid .background else .foreground c pid
  | .pipe =>
    match charAfter '|' (trim c.cmdLine) with
    | none => some { s with pc := .exited }
    | some _ => s.fork a fun _ => .fork2 c
  -- setcore moves a job to another core: neither the list nor a state of a child changes
  | _ => some s.done

/-- `waitpid(pid, NULL, WUNTRACED)`. -/
def waitpid (s : Shell) (c : Cmd) (pid : Pid) : Option Shell :=
  match s.procs.lookup pid with
  | none => some { s with
      stderr := s.stderr ++ if c.kind = .fg then [] else ["smash error: wait failed"]
      pc := .clear c pid }
  | some .zombie => some { s.reap pid with pc := .clear c pid }
  | some (.stopped false) =>
    some { s with procs := s.procs.insert pid (.stopped true), pc := .clear c pid }
  | some (.stopped true) => none
  | some .running => none

/-- The next step of the shell. -/
def shellStep (s : Shell) (a : Answer) : Option Shell :=
  match s.pc with
  | .prompt => none
  | .exited => none
  | .sweep c =>
    match a.finproc with
    | some pid =>
      if s.procs.lookup pid = some .zombie then some { s.reap pid with pc := .reaped c pid } else none
    | none =>
      if s.procs.entries.all fun x => x.2 ≠ .zombie then some { s with pc := .scan c } else none
  | .reaped c finproc =>
    some { s with jobs := s.jobs.removeJobByPid s.entry finproc a.stale, pc := .sweep c }
  | .scan c =>
    match scanLoop s.entry (s.jobs.jobsList.length + 1) s.jobs.jobsList 0 0 with
    | .ret (l, maxId) => some { s with jobs := ⟨l, maxId⟩, pc := .body c }
    | _ => none
  | .body c => s.body c a
  | .fork2 c => s.fork a fun pid => .add c pid .foreground
  | .add c pid st =>
    (s.addJob a pid st c.cmdLine).map fun t =>
      if c.kind = .pipe then { t with current := some a.ptr, pc := .wait c pid } else t.done
  | .foreground c pid =>
    (s.newEntry a (-1) pid .foreground c.cmdLine).map fun t =>
      { t with current := some a.ptr, pc := .wait c pid }
  | .fgCont c jobId pid => some { s.send pid sigCont none with pc := .fgRemove c jobId pid }
  | .fgRemove c jobId pid =>
    some { s with jobs := s.jobs.removeJobById s.entry jobId a.stale, pc := .wait c pid }
  | .wait c pid => s.waitpid c pid
  | .clear _ _ => some { s with current := none }.done

end Shell

/-! ## The handlers -/

def ctrlZHandler (s : Shell) (a : Answer) : Option Shell :=
  match s.current with
  | none => some s
  | some job =>
    let t := { s with entry := setJobStatus s.entry job .stopped }.send (s.entry job).jobProcessId sigStop
      (some "smash error: kill failed")
    if (t.entry job).jobId = -1 then
      -- addJob of the new job does nothing: it is in the list
      (t.addJob a (t.entry job).jobProcessId .stopped (t.entry job).cmdLine).map fun u =>
        { u with jobs := u.jobs.addJob u.entry a.ptr }
    else some { t with jobs := t.jobs.addJob t.entry job }

def ctrlCHandler (s : Shell) : Shell :=
  match s.current with
  | none => s
  | some job =>
    { s with entry := setJobStatus s.entry job .finished }.send (s.entry job).jobProcessId sigKill
      (some "smash error: kill failed")

/-! ## Steps and runs -/

inductive Act where
  /-- `main` reads a line. -/
  | line (c : Cmd)
  /-- The shell goes on. -/
  | shell (a : Answer)
  | ctrlZ (a : Answer)
  | ctrlC
  /-- A child ends, stops or goes on by itself. -/
  | exit (pid : Pid)
  | stop (pid : Pid)
  | cont (pid : Pid)

/-- A child changes its state. -/
def Shell.childStep (s : Shell) (pid : Pid) (f : Proc → Option Proc) : Option Shell :=
  ((s.procs.lookup pid).bind f).map fun st => { s with procs := s.procs.insert pid st }

def step (s : Shell) : Act → Option Shell
  | .line c =>
    if s.pc = .prompt then some { s with pc := if c.kind.sweeps then .sweep c else .prompt } else none
  | .shell a => s.shellStep a
  | .ctrlZ a => if s.pc = .exited then none else ctrlZHandler s a
  | .ctrlC => if s.pc = .exited then none else some (ctrlCHandler s)
  | .exit pid => s.childStep pid fun st => if st = .zombie then none else some .zombie
  | .stop pid => s.childStep pid fun st => if st = .running then some (.stopped false) else none
  | .cont pid => s.childStep pid fun st => if st = .zombie then none else some .running

def Step (s : Shell) (l : Act) (t : Shell) : Prop := step s l = some t

/-- The shell before its first line. `maxJobID` has not been set, and no object has been made. -/
def start (maxJobID : ℤ) (entry : Entries) : Shell where
  jobs := ⟨[], maxJobID⟩
  entry := entry
  objs := []
  current := none
  procs := ∅
  reaped := fun _ => false
  stderr := []
  pc := .prompt

end OsHomework.Smash
