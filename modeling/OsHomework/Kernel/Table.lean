import Mathlib.Algebra.Order.BigOperators.Group.Finset
import OsHomework.Kernel.Heaviest
import OsHomework.Lib.Rooted
import OsHomework.Lib.Run

/-!
# The tasks in memory

The system calls of `hw2.c` on the tasks as the kernel has them: every task points to its parent, and has a list
of its children.

* `TaskStruct`, `Tasks`; `sysSetWeight`, `sysGetWeight`, `sysGetAncestorSum`: the calls of the task at an address;
* `Table`, `Table.Ok`: the tasks are a tree with `init` as its root, and their weights are not negative;
* `Call`, `TableStep`: a task sets its weight, or the kernel changes the tree. **`ok_of_run`**;
* `ancestorLoop_spec`, **`ancestor_sum_of_run`**: what `sys_get_ancestor_sum` returns in every run, and what setting a
  weight changes.
-/

set_option autoImplicit false

namespace OsHomework.Kernel

/-! ## The system calls -/

/-- `task_struct`. A pointer to another one is its address, and a list head the entries of its list. -/
structure TaskStruct where
  pid : ℕ
  weight : ℤ
  realParent : ℕ
  children : List ℕ

/-- The tasks by their addresses. -/
abbrev Tasks := ℕ → TaskStruct

def EINVAL : ℤ := 22

/-- `sys_set_weight` of the task at `current`, and what it returns. -/
def sysSetWeight (mem : Tasks) (current : ℕ) (weight : ℤ) : Tasks × ℤ :=
  if weight < 0 then (mem, -EINVAL) else (Function.update mem current { mem current with weight }, 0)

def sysGetWeight (mem : Tasks) (current : ℕ) : ℤ := (mem current).weight

/-- An addition of `long`. -/
def addLong (x y : ℤ) : Outcome ℤ := if -2 ^ 63 ≤ x + y ∧ x + y < 2 ^ 63 then .ret (x + y) else .ub

/-- The loop of `sys_get_ancestor_sum`. -/
def ancestorLoop (mem : Tasks) : ℕ → ℕ → ℤ → Outcome ℤ
  | 0, _, _ => .fuel
  | fuel + 1, currentTask, sum =>
    if (mem currentTask).pid ≠ 1 then do
      let sum ← addLong sum (mem currentTask).weight
      ancestorLoop mem fuel (mem currentTask).realParent sum
    -- init
    else addLong sum (mem currentTask).weight

def sysGetAncestorSum (mem : Tasks) (fuel current : ℕ) : Outcome ℤ := ancestorLoop mem fuel current 0

/-! ## The tree -/

/-- The tasks, where they are, and where `init` is. -/
structure Table where
  mem : Tasks
  live : Finset ℕ
  init : ℕ

namespace Table

def parent (s : Table) (t : ℕ) : ℕ := (s.mem t).realParent

def weight (s : Table) (t : ℕ) : ℤ := sysGetWeight s.mem t

/-- `a` is `t` or one of its ancestors. -/
abbrev IsAbove (s : Table) (a t : ℕ) : Prop := Above s.parent s.init a t

/-- The tasks are a tree: the parent pointers lead to `init`, and the lists of children agree with them. -/
structure IsTree (s : Table) : Prop where
  rooted : Rooted s.live s.parent s.init
  pid_init : ∀ t ∈ s.live, (s.mem t).pid = 1 ↔ t = s.init
  pid_inj : ∀ t ∈ s.live, ∀ u ∈ s.live, (s.mem t).pid = (s.mem u).pid → t = u
  /-- A pid is an `int`. -/
  pid_lt : ∀ t ∈ s.live, (s.mem t).pid < 2 ^ 31
  mem_children : ∀ t ∈ s.live, ∀ c, c ∈ (s.mem t).children ↔ c ∈ s.live ∧ c ≠ s.init ∧ s.parent c = t

/-- A weight is an `int`, and not negative. -/
structure Ok (s : Table) : Prop where
  tree : s.IsTree
  weight : ∀ t ∈ s.live, 0 ≤ s.weight t ∧ s.weight t < 2 ^ 31

/-- After `sys_set_weight`. -/
def setWeight (s : Table) (t : ℕ) (weight : ℤ) : Table := { s with mem := (sysSetWeight s.mem t weight).1 }

end Table

/-- A step of a run. -/
inductive Call where
  /-- The task at `t` calls `sys_set_weight`. -/
  | setWeight (t : ℕ) (weight : ℤ)
  /-- The kernel starts tasks, ends tasks, and gives them other parents. -/
  | kernel

/-- **A step.** Whatever the kernel does with the tree, a task has the weight that some task had before. -/
inductive TableStep : Table → Call → Table → Prop where
  | setWeight {s : Table} {t : ℕ} {weight : ℤ} (ht : t ∈ s.live) (hint : -2 ^ 31 ≤ weight ∧ weight < 2 ^ 31) :
      TableStep s (.setWeight t weight) (s.setWeight t weight)
  | kernel {s s' : Table} (htree : s'.IsTree) (hweight : ∀ t ∈ s'.live, ∃ u ∈ s.live, s'.weight t = s.weight u) :
      TableStep s .kernel s'

section Steps

variable {s s' : Table} {t a b : ℕ} {w : ℤ}

theorem setWeight_neg (h : w < 0) : s.setWeight t w = s := by
  unfold Table.setWeight sysSetWeight
  rw [if_pos h]

theorem setWeight_mem (h : 0 ≤ w) : (s.setWeight t w).mem = Function.update s.mem t { s.mem t with weight := w } := by
  unfold Table.setWeight sysSetWeight
  rw [if_neg h.not_gt]

theorem setWeight_weight (h : 0 ≤ w) : (s.setWeight t w).weight = Function.update s.weight t w := by
  funext u
  unfold Table.weight sysGetWeight
  rw [setWeight_mem h]
  by_cases hu : u = t
  · subst hu
    rw [Function.update_self, Function.update_self]
  · rw [Function.update_of_ne hu, Function.update_of_ne hu]

theorem setWeight_same (u : ℕ) : ((s.setWeight t w).mem u).pid = (s.mem u).pid ∧
    ((s.setWeight t w).mem u).children = (s.mem u).children ∧ (s.setWeight t w).parent u = s.parent u := by
  by_cases h : w < 0
  · rw [setWeight_neg h]
    exact ⟨rfl, rfl, rfl⟩
  · unfold Table.parent
    rw [setWeight_mem (not_lt.mp h)]
    by_cases hu : u = t
    · subst hu
      rw [Function.update_self]
      exact ⟨rfl, rfl, rfl⟩
    · rw [Function.update_of_ne hu]
      exact ⟨rfl, rfl, rfl⟩

theorem setWeight_parent : (s.setWeight t w).parent = s.parent := funext fun u => (setWeight_same u).2.2

theorem Table.IsTree.setWeight (h : s.IsTree) : (s.setWeight t w).IsTree where
  rooted := by
    rw [setWeight_parent]
    exact h.rooted
  pid_init u hu := by
    rw [(setWeight_same u).1]
    exact h.pid_init u hu
  pid_inj u hu v hv := by
    rw [(setWeight_same u).1, (setWeight_same v).1]
    exact h.pid_inj u hu v hv
  pid_lt u hu := by
    rw [(setWeight_same u).1]
    exact h.pid_lt u hu
  mem_children u hu c := by
    rw [(setWeight_same u).2.1, setWeight_parent]
    exact h.mem_children u hu c

/-- **What a step preserves.** -/
theorem TableStep.ok {c : Call} (hs : TableStep s c s') (h : s.Ok) : s'.Ok := by
  cases hs with
  | @setWeight t w ht hint =>
    refine ⟨h.tree.setWeight, fun u hu => ?_⟩
    by_cases hw : w < 0
    · rw [setWeight_neg hw]
      exact h.weight u hu
    · rw [setWeight_weight (not_lt.mp hw)]
      by_cases hut : u = t
      · rw [hut, Function.update_self]
        exact ⟨not_lt.mp hw, hint.2⟩
      · rw [Function.update_of_ne hut]
        exact h.weight u hu
  | kernel htree hweight =>
    refine ⟨htree, fun t ht => ?_⟩
    obtain ⟨u, hu, he⟩ := hweight t ht
    rw [he]
    exact h.weight u hu

theorem ok_of_run {cs : List Call} (hrun : Run TableStep s cs s') (h : s.Ok) : s'.Ok :=
  hrun.invariant h fun _ _ _ hi hs => hs.ok hi

end Steps

/-! ## The sum of the weights above a task -/

section Ancestors

variable {s s' : Table} {t p : ℕ} {w : ℤ}

/-- The weights of a task and of its ancestors. -/
noncomputable def Table.ancestorSum (s : Table) (t : ℕ) : ℤ := sumAbove s.live s.parent s.init s.weight t

theorem card_live_le (h : s.IsTree) : s.live.card ≤ 2 ^ 31 := by
  have hle := Finset.card_le_card_of_injOn (fun t => (s.mem t).pid) (t := Finset.range (2 ^ 31))
    (fun t ht => Finset.mem_coe.mpr (Finset.mem_range.mpr (h.pid_lt t ht)))
    fun t ht u hu he => h.pid_inj t ht u hu he
  rwa [Finset.card_range] at hle

theorem ancestorSum_bounds (h : s.Ok) (t : ℕ) : 0 ≤ s.ancestorSum t ∧ s.ancestorSum t < 2 ^ 63 := by
  classical
  have hweight : ∀ a ∈ s.live.filter fun a => s.IsAbove a t, 0 ≤ s.weight a ∧ s.weight a ≤ 2 ^ 31 := by
    intro a ha
    have := h.weight a (Finset.mem_filter.mp ha).1
    omega
  have hcard : ((s.live.filter fun a => s.IsAbove a t).card : ℤ) ≤ 2 ^ 31 := by
    exact_mod_cast (Finset.card_filter_le _ _).trans (card_live_le h.tree)
  have hle := Finset.sum_le_card_nsmul _ _ _ fun a ha => (hweight a ha).2
  have hnonneg := Finset.sum_nonneg fun a ha => (hweight a ha).1
  have hsum : s.ancestorSum t = ∑ a ∈ s.live.filter (fun a => s.IsAbove a t), s.weight a := by
    unfold Table.ancestorSum sumAbove
    rw [Finset.filter_congr_decidable]
  rw [hsum]
  refine ⟨hnonneg, hle.trans_lt ?_⟩
  rw [nsmul_eq_mul]
  omega

theorem addLong_ret {x y : ℤ} (hx : 0 ≤ x) (hy : 0 ≤ y) (h : x + y < 2 ^ 63) : addLong x y = .ret (x + y) :=
  if_pos ⟨by omega, h⟩

/-- **The loop** adds up the weights on the way to `init`. -/
theorem ancestorLoop_spec (h : s.Ok) : ∀ t ∈ s.live, ∃ N, ∀ fuel, N ≤ fuel → ∀ sum, 0 ≤ sum →
    sum + s.ancestorSum t < 2 ^ 63 → ancestorLoop s.mem fuel t sum = .ret (sum + s.ancestorSum t) := by
  refine h.tree.rooted.induction ⟨1, fun fuel hfuel sum h₀ hlt => ?_⟩ fun t ht hr ⟨N, hN⟩ =>
    ⟨N + 1, fun fuel hfuel sum h₀ hlt => ?_⟩
  · obtain ⟨k, rfl⟩ : ∃ k, fuel = k + 1 := ⟨fuel - 1, by omega⟩
    have hinit := h.tree.rooted.root_mem
    have hsum : s.ancestorSum s.init = (s.mem s.init).weight := h.tree.rooted.sumAbove_root
    have hweight := (ancestorSum_bounds h s.init).1
    rw [hsum] at hlt hweight ⊢
    rw [ancestorLoop, if_neg (not_not.mpr ((h.tree.pid_init _ hinit).mpr rfl)), addLong_ret h₀ hweight hlt]
  · obtain ⟨k, rfl⟩ : ∃ k, fuel = k + 1 := ⟨fuel - 1, by omega⟩
    have hsum : s.ancestorSum t = (s.mem t).weight + s.ancestorSum (s.parent t) :=
      h.tree.rooted.sumAbove_step ht hr
    have hparent := (ancestorSum_bounds h (s.parent t)).1
    have hweight : 0 ≤ (s.mem t).weight := (h.weight t ht).1
    rw [ancestorLoop, if_pos fun he => hr ((h.tree.pid_init t ht).mp he), addLong_ret h₀ hweight (by omega),
      Outcome.ret_bind]
    refine (hN k (by omega) _ (by omega) ?_).trans ?_
    · omega
    · rw [hsum, add_assoc]

theorem returns_ancestorSum (h : s.Ok) (ht : t ∈ s.live) :
    Returns (fun fuel => sysGetAncestorSum s.mem fuel t) (s.ancestorSum t) := by
  obtain ⟨N, hN⟩ := ancestorLoop_spec h t ht
  refine ⟨N, fun fuel hfuel => ?_⟩
  have hbound := ancestorSum_bounds h t
  have hret := hN fuel hfuel 0 le_rfl (by omega)
  rwa [zero_add] at hret

open Classical in
/-- What a task adds to the sums below it. -/
theorem ancestorSum_setWeight (hp : p ∈ s.live) (hw : 0 ≤ w) (t : ℕ) :
    (s.setWeight p w).ancestorSum t = s.ancestorSum t + if s.IsAbove p t then w - s.weight p else 0 := by
  unfold Table.ancestorSum
  rw [setWeight_parent, setWeight_weight hw]
  exact sumAbove_update hp w t

end Ancestors

open Classical in
/-- **The sums of the weights, in every run.** From a tree with weights that are not negative, whatever weights the
tasks set and whatever the kernel does with the tree: the call of a task returns, and it returns the sum of the weights
of the task and all its ancestors. If a task then sets its weight, the sums of its descendants and its own change
by the difference, and no other does. -/
theorem ancestor_sum_of_run {s s' : Table} {cs : List Call} (h : s.Ok) (hrun : Run TableStep s cs s') {t : ℕ}
    (ht : t ∈ s'.live) :
    Returns (fun fuel => sysGetAncestorSum s'.mem fuel t) (s'.ancestorSum t) ∧
      ∀ p ∈ s'.live, ∀ w, 0 ≤ w → w < 2 ^ 31 → Returns (fun fuel => sysGetAncestorSum (s'.setWeight p w).mem fuel t)
        (s'.ancestorSum t + if s'.IsAbove p t then w - s'.weight p else 0) := by
  have hok := ok_of_run hrun h
  refine ⟨returns_ancestorSum hok ht, fun p hp w hw hlt => ?_⟩
  rw [← ancestorSum_setWeight hp hw t]
  have hstep : TableStep s' (.setWeight p w) (s'.setWeight p w) := .setWeight hp ⟨by omega, hlt⟩
  exact returns_ancestorSum (hstep.ok hok) ht

/-- `init`, a child, and a child of it. -/
def threeTasks : Table where
  mem := fun t => if t = 10 then ⟨1, 0, 0, [20]⟩ else if t = 20 then ⟨2, 5, 10, [30]⟩ else ⟨3, 7, 20, []⟩
  live := {10, 20, 30}
  init := 10

theorem ok_threeTasks : threeTasks.Ok where
  tree :=
    { rooted := ⟨by decide, by decide, id, by decide⟩
      pid_init := by decide
      pid_inj := by decide
      pid_lt := by decide
      mem_children := by
        intro t ht c
        have ht' : t = 10 ∨ t = 20 ∨ t = 30 := by simpa [threeTasks] using ht
        have hc' : c ∈ threeTasks.live ↔ c = 10 ∨ c = 20 ∨ c = 30 := by simp [threeTasks]
        by_cases hc : c ∈ threeTasks.live
        · rcases ht' with rfl | rfl | rfl <;> rcases hc'.mp hc with rfl | rfl | rfl <;> decide
        · refine iff_of_false (fun hmem => hc ?_) fun hmem => hc hmem.1
          rcases ht' with rfl | rfl | rfl <;> simp [threeTasks] at hmem ⊢ <;> omega }
  weight := by decide

/-- The child gives up its weight. -/
theorem ancestor_sum_of_run_threeTasks :
    Returns (fun fuel => sysGetAncestorSum (threeTasks.setWeight 20 0).mem fuel 30)
      ((threeTasks.setWeight 20 0).ancestorSum 30) :=
  (ancestor_sum_of_run ok_threeTasks (.cons (.setWeight (by decide) (by decide)) (.nil _)) (by decide)).1

end OsHomework.Kernel
