import Mathlib.Data.List.Flatten
import Mathlib.Tactic.NormNum
import OsHomework.Lib.Outcome

/-!
# The heaviest descendant of a task

The system calls of `hw2.c` on the weights of tasks.

* `Task`: a task with its weight and the list of its children;
* `findHeaviestDescendant`, `forEachChild`: the recursion over a task and its list of children. A pointer
  to a task is an `Option`, and reading through `NULL` is undefined;
* `Heaviest ts d`: `d` has the greatest weight in `ts`, and the smallest pid among equals;
* **`findHeaviestDescendant_spec`**: for a task that is itself a candidate the recursion finds it. No list
  of children is treated wrongly there, since the candidate is never `NULL`;
* **`heaviest_descendant_iff`**: `sys_get_heaviest_descendant` starts without a candidate and with weight 0,
  and reads the pid of its candidate when a descendant has weight 0 as well.
-/

set_option autoImplicit false

namespace OsHomework.Kernel

structure Task where
  pid : ℕ
  weight : ℤ
  children : List Task

def ECHILD : ℤ := 10

mutual

/-- `find_heaviest_descendant`; `none` is `NULL`. -/
def findHeaviestDescendant (task : Task) (father : ℤ) : Outcome (Option Task) :=
  match task with
  | ⟨pid, weight, children⟩ =>
    if father = 1 then forEachChild children none 0
    else forEachChild children (some ⟨pid, weight, children⟩) weight

/-- Its loop `list_for_each_entry`, with the candidate and its weight so far. -/
def forEachChild : List Task → Option Task → ℤ → Outcome (Option Task)
  | [], heaviestDescendant, _ => .ret heaviestDescendant
  | child :: rest, heaviestDescendant, heaviestWeight => do
    match ← findHeaviestDescendant child 0 with
    | none => forEachChild rest heaviestDescendant heaviestWeight
    | some descendant =>
      if descendant.weight > heaviestWeight then forEachChild rest (some descendant) descendant.weight
      else if descendant.weight = heaviestWeight then
        -- heaviest_descendant->pid
        match heaviestDescendant with
        | none => .ub
        | some h => forEachChild rest (if descendant.pid < h.pid then some descendant else some h) heaviestWeight
      else forEachChild rest heaviestDescendant heaviestWeight

end

def sysGetHeaviestDescendant (current : Task) : Outcome ℤ :=
  if current.children = [] then .ret (-ECHILD)
  else do
    match ← findHeaviestDescendant current 1 with
    | none => .ub
    | some heaviestDescendant => .ret heaviestDescendant.pid

/-! ## The tasks of a tree -/

mutual

/-- A task and its descendants. -/
def Task.tasks (task : Task) : List Task :=
  match task with
  | ⟨pid, weight, children⟩ => ⟨pid, weight, children⟩ :: tasksOf children

/-- The tasks of several trees. -/
def tasksOf : List Task → List Task
  | [] => []
  | child :: rest => child.tasks ++ tasksOf rest

end

/-- The strict descendants of a task. -/
def Task.descendants (task : Task) : List Task := tasksOf task.children

/-- `d` is heavier than `e`, or as heavy with a pid that is not greater. -/
def Task.Outranks (d e : Task) : Prop := e.weight < d.weight ∨ e.weight = d.weight ∧ d.pid ≤ e.pid

/-- `d` has the greatest weight in `ts`, and the smallest pid among equals. -/
def Heaviest (ts : List Task) (d : Task) : Prop := d ∈ ts ∧ ∀ e ∈ ts, d.Outranks e

section Heaviest

variable {d e f : Task} {ts us : List Task}

theorem Task.Outranks.refl (d : Task) : d.Outranks d := .inr ⟨rfl, le_rfl⟩

theorem Task.Outranks.trans (h : d.Outranks e) (h' : e.Outranks f) : d.Outranks f := by
  unfold Task.Outranks at *
  omega

theorem Task.Outranks.weight_le (h : d.Outranks e) : e.weight ≤ d.weight := by
  rcases h with h | h
  · exact h.le
  · exact h.1.le

theorem heaviest_singleton (d : Task) : Heaviest [d] d := by
  refine ⟨List.mem_singleton_self d, fun e he => ?_⟩
  rw [List.mem_singleton.mp he]
  exact .refl d

theorem Heaviest.append_left (hd : Heaviest ts d) (he : Heaviest us e) (h : d.Outranks e) :
    Heaviest (ts ++ us) d := by
  refine ⟨List.mem_append_left _ hd.1, fun f hf => ?_⟩
  rcases List.mem_append.mp hf with hf | hf
  · exact hd.2 f hf
  · exact h.trans (he.2 f hf)

theorem Heaviest.append_right (hd : Heaviest ts d) (he : Heaviest us e) (h : e.Outranks d) :
    Heaviest (ts ++ us) e := by
  refine ⟨List.mem_append_right _ he.1, fun f hf => ?_⟩
  rcases List.mem_append.mp hf with hf | hf
  · exact h.trans (hd.2 f hf)
  · exact he.2 f hf

/-- A candidate may stand for the tasks that it has been chosen from. -/
theorem Heaviest.of_cons (hd : Heaviest ts d) (he : Heaviest (d :: us) e) : Heaviest (ts ++ us) e := by
  obtain ⟨hmem, hout⟩ := he
  refine ⟨?_, fun f hf => ?_⟩
  · rcases List.mem_cons.mp hmem with rfl | hmem
    · exact List.mem_append_left _ hd.1
    · exact List.mem_append_right _ hmem
  · rcases List.mem_append.mp hf with hf | hf
    · exact (hout d List.mem_cons_self).trans (hd.2 f hf)
    · exact hout f (List.mem_cons_of_mem _ hf)

end Heaviest

/-! ## The recursion -/

theorem forEachChild_cons {child d h : Task} {rest : List Task}
    (hd : findHeaviestDescendant child 0 = .ret (some d)) :
    ∃ h', (h' = h ∧ h.Outranks d ∨ h' = d ∧ d.Outranks h) ∧
      forEachChild (child :: rest) (some h) h.weight = forEachChild rest (some h') h'.weight := by
  rw [forEachChild, hd, Outcome.ret_bind]
  dsimp only
  by_cases hgt : d.weight > h.weight
  · exact ⟨d, .inr ⟨rfl, .inl hgt⟩, by rw [if_pos hgt]⟩
  · rw [if_neg hgt]
    by_cases heq : d.weight = h.weight
    · rw [if_pos heq]
      by_cases hpid : d.pid < h.pid
      · exact ⟨d, .inr ⟨rfl, .inr ⟨heq.symm, hpid.le⟩⟩, by rw [if_pos hpid, heq]⟩
      · exact ⟨h, .inl ⟨rfl, .inr ⟨heq, not_lt.mp hpid⟩⟩, by rw [if_neg hpid]⟩
    · exact ⟨h, .inl ⟨rfl, .inl (by omega)⟩, by rw [if_neg heq]⟩

mutual

/-- **The recursion finds the heaviest** of a task and its descendants. -/
theorem findHeaviestDescendant_spec (t : Task) :
    ∃ d, findHeaviestDescendant t 0 = .ret (some d) ∧ Heaviest t.tasks d := by
  obtain ⟨pid, weight, children⟩ := t
  obtain ⟨d, he, hd⟩ := forEachChild_spec children ⟨pid, weight, children⟩
  exact ⟨d, he, hd⟩

theorem forEachChild_spec (ts : List Task) (h : Task) :
    ∃ d, forEachChild ts (some h) h.weight = .ret (some d) ∧ Heaviest (h :: tasksOf ts) d := by
  match ts with
  | [] => exact ⟨h, rfl, heaviest_singleton h⟩
  | child :: rest =>
    obtain ⟨d, he, hd⟩ := findHeaviestDescendant_spec child
    obtain ⟨h', hh', hstep⟩ := @forEachChild_cons child d h rest he
    obtain ⟨d', he', hd'⟩ := forEachChild_spec rest h'
    refine ⟨d', hstep.trans he', ?_⟩
    have hbest : Heaviest ([h] ++ child.tasks) h' := by
      rcases hh' with ⟨rfl, hout⟩ | ⟨rfl, hout⟩
      · exact (heaviest_singleton h').append_left hd hout
      · exact (heaviest_singleton h).append_right hd hout
    simpa [tasksOf] using hbest.of_cons hd'

end

/-! ## The system call -/

/-- Without a candidate, the loop takes that of the first child, if its weight is positive. -/
theorem forEachChild_none {child d : Task} {rest : List Task}
    (hd : findHeaviestDescendant child 0 = .ret (some d)) (hw : 0 ≤ d.weight) :
    forEachChild (child :: rest) none 0 =
      if 0 < d.weight then forEachChild rest (some d) d.weight else .ub := by
  rw [forEachChild, hd, Outcome.ret_bind]
  dsimp only
  by_cases hpos : 0 < d.weight
  · rw [if_pos hpos, if_pos hpos]
  · rw [if_neg hpos, if_pos (by omega), if_neg hpos]

/-- What the system call is to do: `-ECHILD` exactly if there are no children, else the pid of the heaviest
strict descendant. -/
def ReportsHeaviest (current : Task) : Prop :=
  (sysGetHeaviestDescendant current = .ret (-ECHILD) ↔ current.children = []) ∧
    (current.children ≠ [] →
      ∃ d, sysGetHeaviestDescendant current = .ret (d.pid : ℤ) ∧ Heaviest current.descendants d)

/-- **The system call does so exactly if** there are no children, or a task of positive weight is in the tree
of the first child. -/
theorem heaviest_descendant_iff (current : Task) (hw : ∀ t ∈ current.descendants, 0 ≤ t.weight) :
    ReportsHeaviest current ↔ ∀ child ∈ current.children.head?, ∃ t ∈ child.tasks, 0 < t.weight := by
  obtain ⟨pid, weight, children⟩ := current
  unfold ReportsHeaviest Task.descendants at *
  dsimp only at *
  cases children with
  | nil => simp [sysGetHeaviestDescendant]
  | cons child rest =>
    obtain ⟨d, he, hd⟩ := findHeaviestDescendant_spec child
    have hd0 : 0 ≤ d.weight := hw d (List.mem_append_left _ hd.1)
    have hpos : (∃ t ∈ child.tasks, 0 < t.weight) ↔ 0 < d.weight :=
      ⟨fun ⟨t, ht, h⟩ => h.trans_le (hd.2 t ht).weight_le, fun h => ⟨d, hd.1, h⟩⟩
    have hcall : sysGetHeaviestDescendant ⟨pid, weight, child :: rest⟩ =
        (if 0 < d.weight then forEachChild rest (some d) d.weight else .ub) >>= fun
          | none => .ub
          | some t => .ret (t.pid : ℤ) := by
      rw [sysGetHeaviestDescendant, if_neg (by simp), findHeaviestDescendant, if_pos rfl,
        forEachChild_none he hd0]
    rw [hcall]
    simp only [List.head?_cons, Option.mem_some_iff, forall_eq', hpos]
    constructor
    · rintro ⟨-, h⟩
      by_contra hneg
      obtain ⟨t, ht, -⟩ := h (by simp)
      rw [if_neg hneg] at ht
      cases ht
    · intro h
      obtain ⟨d', he', hd'⟩ := forEachChild_spec rest d
      rw [if_pos h, he', Outcome.ret_bind]
      refine ⟨⟨fun hret => ?_, by simp⟩, fun _ => ⟨d', rfl, hd.of_cons hd'⟩⟩
      have := Outcome.ret.inj hret
      unfold ECHILD at this
      omega

/-- A second child ties with the grandchild, and has the smaller pid. -/
theorem heaviest_descendant_iff_tie :
    ReportsHeaviest ⟨1, 0, [⟨2, 0, [⟨5, 7, []⟩]⟩, ⟨4, 7, []⟩]⟩ ↔
      ∀ child ∈ [(⟨2, 0, [⟨5, 7, []⟩]⟩ : Task), ⟨4, 7, []⟩].head?, ∃ t ∈ child.tasks, 0 < t.weight :=
  heaviest_descendant_iff _ (by simp [Task.descendants, tasksOf, Task.tasks])

/-- **The weights that every task starts with**: a child of weight 0 makes the call read through `NULL`. -/
theorem child_of_weight_zero : ¬ ReportsHeaviest ⟨1, 0, [⟨2, 0, []⟩]⟩ := by
  rintro ⟨-, h⟩
  obtain ⟨d, hd, -⟩ := h (by simp)
  cases hd

end OsHomework.Kernel
