import Mathlib.Data.List.Nodup
import Mathlib.Logic.Relation
import OsHomework.Kernel.Heaviest

/-!
# The order of the children

Trees with distinct pids.

* `Reordering`, `Reordered`: children lists change their order, anywhere in the tree;
* `tasks_reordered`: every task of a tree is one of the reordered tree, with its own children reordered;
* **`heaviest_unique`**: the recursion returns the one task that is heavier than every other, or as heavy with a
  smaller pid, and the same task of every reordered tree.
-/

set_option autoImplicit false

namespace OsHomework.Kernel

/-- One children list changes its order. -/
inductive Reordering : Task → Task → Prop
  | here (pid : ℕ) (weight : ℤ) {ts us : List Task} :
      ts.Perm us → Reordering ⟨pid, weight, ts⟩ ⟨pid, weight, us⟩
  | inside (pid : ℕ) (weight : ℤ) (pre post : List Task) {t u : Task} :
      Reordering t u → Reordering ⟨pid, weight, pre ++ t :: post⟩ ⟨pid, weight, pre ++ u :: post⟩

/-- The same tree with its children lists in another order. -/
def Reordered : Task → Task → Prop := Relation.ReflTransGen Reordering

section Reordered

variable {t u d e : Task}

theorem Reordering.symm (h : Reordering t u) : Reordering u t := by
  induction h with
  | here pid weight h => exact .here pid weight h.symm
  | inside pid weight pre post _ ih => exact .inside pid weight pre post ih

theorem Reordered.symm (h : Reordered t u) : Reordered u t := by
  induction h with
  | refl => exact .refl
  | tail _ hstep ih => exact .head hstep.symm ih

theorem Reordering.same (h : Reordering t u) : u.pid = t.pid ∧ u.weight = t.weight := by
  cases h with
  | here => exact ⟨rfl, rfl⟩
  | inside => exact ⟨rfl, rfl⟩

theorem Reordered.same (h : Reordered t u) : u.pid = t.pid ∧ u.weight = t.weight := by
  induction h with
  | refl => exact ⟨rfl, rfl⟩
  | tail _ hstep ih => exact ⟨hstep.same.1.trans ih.1, hstep.same.2.trans ih.2⟩

theorem Task.Outranks.of_reordered (h : d.Outranks u) (hd : Reordered d e) (hu : Reordered u t) :
    e.Outranks t := by
  unfold Task.Outranks at *
  rw [hd.same.1, hd.same.2, hu.same.1, hu.same.2]
  exact h

theorem mem_tasksOf {ts : List Task} : d ∈ tasksOf ts ↔ ∃ t ∈ ts, d ∈ t.tasks := by
  induction ts with
  | nil => simp [tasksOf]
  | cons t ts ih => simp [tasksOf, ih]

theorem mem_tasks {pid : ℕ} {weight : ℤ} {ts : List Task} :
    d ∈ Task.tasks ⟨pid, weight, ts⟩ ↔ d = ⟨pid, weight, ts⟩ ∨ ∃ t ∈ ts, d ∈ t.tasks := by
  rw [Task.tasks, List.mem_cons, mem_tasksOf]

/-- What one change of order does to the tasks of the tree. -/
theorem tasks_reordering (h : Reordering t u) : ∀ d ∈ t.tasks, ∃ e ∈ u.tasks, Reordered d e := by
  induction h with
  | here pid weight hperm =>
    intro d hd
    rcases mem_tasks.mp hd with rfl | ⟨t, ht, hd⟩
    · exact ⟨_, mem_tasks.mpr (.inl rfl), .single (.here pid weight hperm)⟩
    · exact ⟨d, mem_tasks.mpr (.inr ⟨t, hperm.mem_iff.mp ht, hd⟩), .refl⟩
  | @inside pid weight pre post t u hstep ih =>
    intro d hd
    rcases mem_tasks.mp hd with rfl | ⟨child, hchild, hd⟩
    · exact ⟨_, mem_tasks.mpr (.inl rfl), .single (.inside pid weight pre post hstep)⟩
    rcases List.mem_append.mp hchild with hpre | hrest
    · exact ⟨d, mem_tasks.mpr (.inr ⟨child, List.mem_append_left _ hpre, hd⟩), .refl⟩
    rcases List.mem_cons.mp hrest with heq | hpost
    · obtain ⟨e, he, hde⟩ := ih d (heq ▸ hd)
      exact ⟨e, mem_tasks.mpr (.inr ⟨u, by simp, he⟩), hde⟩
    · exact ⟨d, mem_tasks.mpr (.inr ⟨child, by simp [hpost], hd⟩), .refl⟩

/-- **The tasks of a reordered tree** are those of the tree, reordered. -/
theorem tasks_reordered (h : Reordered t u) : ∀ d ∈ t.tasks, ∃ e ∈ u.tasks, Reordered d e := by
  induction h with
  | refl => exact fun d hd => ⟨d, hd, .refl⟩
  | tail _ hstep ih =>
    intro d hd
    obtain ⟨e, he, hde⟩ := ih d hd
    obtain ⟨f, hf, hef⟩ := tasks_reordering hstep e he
    exact ⟨f, hf, hde.trans hef⟩

end Reordered

section Unique

variable {t : Task}

theorem eq_of_outranks (hpids : (t.tasks.map Task.pid).Nodup) {d e : Task} (hd : d ∈ t.tasks) (he : e ∈ t.tasks)
    (hde : d.Outranks e) (hed : e.Outranks d) : e = d := by
  refine List.inj_on_of_nodup_map hpids he hd ?_
  unfold Task.Outranks at *
  omega

/-- **The recursion on a tree with distinct pids** returns the task of greatest weight, and among those the
one of the smallest pid. The order of the children lists does not matter. -/
theorem heaviest_unique (hpids : (t.tasks.map Task.pid).Nodup) :
    ∃ d, findHeaviestDescendant t 0 = .ret (some d) ∧ d ∈ t.tasks ∧
      (∀ e ∈ t.tasks, e ≠ d → e.weight < d.weight ∨ e.weight = d.weight ∧ d.pid < e.pid) ∧
      ∀ t', Reordered t t' → ∃ d', findHeaviestDescendant t' 0 = .ret (some d') ∧ Reordered d d' := by
  obtain ⟨d, hret, hd, hbest⟩ := findHeaviestDescendant_spec t
  refine ⟨d, hret, hd, fun e he hne => ?_, fun t' ht => ?_⟩
  · have hpid : e.pid ≠ d.pid := fun h => hne (List.inj_on_of_nodup_map hpids he hd h)
    have := hbest e he
    unfold Task.Outranks at this
    omega
  · obtain ⟨d', hret', hd', hbest'⟩ := findHeaviestDescendant_spec t'
    -- the counterparts of the two results in the other tree
    obtain ⟨e', he', hde'⟩ := tasks_reordered ht d hd
    obtain ⟨e, he, hd'e⟩ := tasks_reordered ht.symm d' hd'
    have hed : e.Outranks d := (hbest' e' he').of_reordered hd'e hde'.symm
    refine ⟨d', hret', ?_⟩
    rw [← eq_of_outranks hpids hd he (hbest e he) hed]
    exact hd'e.symm

/-- A grandchild and a child tie: the child has the smaller pid, in either order. -/
theorem heaviest_unique_tie :
    ∃ d, findHeaviestDescendant ⟨1, 0, [⟨2, 0, [⟨5, 7, []⟩]⟩, ⟨4, 7, []⟩]⟩ 0 = .ret (some d) ∧
      d ∈ Task.tasks ⟨1, 0, [⟨2, 0, [⟨5, 7, []⟩]⟩, ⟨4, 7, []⟩]⟩ ∧
      (∀ e ∈ Task.tasks ⟨1, 0, [⟨2, 0, [⟨5, 7, []⟩]⟩, ⟨4, 7, []⟩]⟩, e ≠ d →
        e.weight < d.weight ∨ e.weight = d.weight ∧ d.pid < e.pid) ∧
      ∀ t', Reordered ⟨1, 0, [⟨2, 0, [⟨5, 7, []⟩]⟩, ⟨4, 7, []⟩]⟩ t' →
        ∃ d', findHeaviestDescendant t' 0 = .ret (some d') ∧ Reordered d d' :=
  heaviest_unique (by simp [Task.tasks, tasksOf])

end Unique

end OsHomework.Kernel
