import Mathlib.Data.Option.Basic
import OsHomework.Kernel.Table

/-!
# The heaviest descendant in memory

`find_heaviest_descendant` on the tasks in memory, and on the trees that they are.

* `heaviestLoop`, `findHeaviestAt`, `getHeaviestAt`: the recursion and the system call over addresses;
* `Task.At`, `exists_tree`: the tree below a task;
* `Agree`, **`findHeaviestAt_agrees`**: the recursion over addresses is the one over trees;
* `tasks_at`: the tasks of the tree are those at the addresses below;
* `Table.HeaviestOf`, **`heaviest_of_run`**: what `sys_get_heaviest_descendant` returns in every run.
-/

set_option autoImplicit false

namespace OsHomework.Kernel

/-! ## The system call -/

/-- The loop of `find_heaviest_descendant`, where `descend` is the recursive call. -/
def heaviestLoop (mem : Tasks) (descend : ℕ → Outcome (Option ℕ)) : List ℕ → Option ℕ → ℤ → Outcome (Option ℕ)
  | [], heaviestDescendant, _ => .ret heaviestDescendant
  | child :: rest, heaviestDescendant, heaviestWeight => do
    match ← descend child with
    | none => heaviestLoop mem descend rest heaviestDescendant heaviestWeight
    | some descendant =>
      if (mem descendant).weight > heaviestWeight then
        heaviestLoop mem descend rest (some descendant) (mem descendant).weight
      else if (mem descendant).weight = heaviestWeight then
        -- heaviest_descendant->pid
        match heaviestDescendant with
        | none => .ub
        | some h =>
          heaviestLoop mem descend rest (if (mem descendant).pid < (mem h).pid then some descendant else some h)
            heaviestWeight
      else heaviestLoop mem descend rest heaviestDescendant heaviestWeight

/-- `find_heaviest_descendant`, where `fuel` bounds the depth of the recursion. -/
def findHeaviestAt (mem : Tasks) : ℕ → ℕ → ℤ → Outcome (Option ℕ)
  | 0, _, _ => .fuel
  | fuel + 1, task, father =>
    if father = 1 then heaviestLoop mem (fun child => findHeaviestAt mem fuel child 0) (mem task).children none 0
    else heaviestLoop mem (fun child => findHeaviestAt mem fuel child 0) (mem task).children (some task)
      (mem task).weight

def getHeaviestAt (mem : Tasks) (fuel current : ℕ) : Outcome ℤ :=
  if (mem current).children = [] then .ret (-ECHILD)
  else do
    match ← findHeaviestAt mem fuel current 1 with
    | none => .ub
    | some heaviestDescendant => .ret (mem heaviestDescendant).pid

/-! ## Trees in memory -/

mutual

/-- The tree of a task is the one that is found in memory from the address `t`. -/
def Task.At (mem : Tasks) : Task → ℕ → Prop
  | ⟨pid, weight, children⟩, t =>
    (mem t).pid = pid ∧ (mem t).weight = weight ∧ childrenAt mem children (mem t).children

def childrenAt (mem : Tasks) : List Task → List ℕ → Prop
  | [], [] => True
  | child :: rest, c :: cs => child.At mem c ∧ childrenAt mem rest cs
  | _, _ => False

end

/-- Two outcomes of the recursion that are the same task. -/
inductive Agree (mem : Tasks) : Outcome (Option ℕ) → Outcome (Option Task) → Prop where
  | ret {a : Option ℕ} {d : Option Task} (h : Option.Rel (fun t T => Task.At mem T t) a d) : Agree mem (.ret a) (.ret d)
  | ub : Agree mem .ub .ub

section Refine

variable {mem : Tasks}

theorem Task.At.pid {T : Task} {t : ℕ} (h : T.At mem t) : (mem t).pid = T.pid := by
  obtain ⟨pid, weight, children⟩ := T
  rw [Task.At] at h
  exact h.1

theorem Task.At.weight {T : Task} {t : ℕ} (h : T.At mem t) : (mem t).weight = T.weight := by
  obtain ⟨pid, weight, children⟩ := T
  rw [Task.At] at h
  exact h.2.1

theorem Task.At.children {T : Task} {t : ℕ} (h : T.At mem t) : childrenAt mem T.children (mem t).children := by
  obtain ⟨pid, weight, children⟩ := T
  rw [Task.At] at h
  exact h.2.2

theorem Agree.of_some {x : Outcome (Option ℕ)} {T : Task} (h : Agree mem x (.ret (some T))) :
    ∃ t, x = .ret (some t) ∧ T.At mem t := by
  cases h with
  | ret h =>
    cases h with
    | some h => exact ⟨_, rfl, h⟩

theorem Agree.of_ub {x : Outcome (Option ℕ)} (h : Agree mem x .ub) : x = .ub := by
  cases h
  rfl

/-- One turn of the loop, if the recursive calls agree. -/
theorem heaviestLoop_cons {descend : ℕ → Outcome (Option ℕ)} {c : ℕ} {cs : List ℕ} {child : Task} {rest : List Task}
    (hc : Agree mem (descend c) (findHeaviestDescendant child 0))
    (hrest : ∀ a d w, Option.Rel (fun t T => Task.At mem T t) a d →
      Agree mem (heaviestLoop mem descend cs a w) (forEachChild rest d w))
    {a : Option ℕ} {d : Option Task} (h : Option.Rel (fun t T => Task.At mem T t) a d) (w : ℤ) :
    Agree mem (heaviestLoop mem descend (c :: cs) a w) (forEachChild (child :: rest) d w) := by
  rw [heaviestLoop, forEachChild]
  generalize findHeaviestDescendant child 0 = y at hc ⊢
  generalize descend c = x at hc ⊢
  cases hc with
  | ub => exact .ub
  | ret hres =>
    cases hres with
    | none => exact hrest a d w h
    | @some t T hT =>
      simp only [Outcome.ret_bind, hT.weight, hT.pid]
      split_ifs with hgt heq
      · exact hrest _ _ _ (.some hT)
      · cases h with
        | none => exact .ub
        | @some u U hU =>
          simp only [hU.pid]
          split_ifs
          · exact hrest _ _ _ (.some hT)
          · exact hrest _ _ _ (.some hU)
      · exact hrest a d w h

mutual

/-- **The recursion over addresses** is the one over trees. -/
theorem findHeaviestAt_agrees (T : Task) (t : ℕ) (h : T.At mem t) (father : ℤ) : ∃ N, ∀ fuel, N ≤ fuel →
    Agree mem (findHeaviestAt mem fuel t father) (findHeaviestDescendant T father) := by
  obtain ⟨pid, weight, children⟩ := T
  have hw := h.weight
  obtain ⟨N, hN⟩ := heaviestLoop_agrees children (mem t).children h.children
  refine ⟨N + 1, fun fuel hfuel => ?_⟩
  obtain ⟨k, rfl⟩ : ∃ k, fuel = k + 1 := ⟨fuel - 1, by omega⟩
  rw [findHeaviestAt, findHeaviestDescendant]
  split_ifs
  · exact hN k (by omega) none none 0 .none
  · rw [hw]
    exact hN k (by omega) _ _ _ (.some h)

theorem heaviestLoop_agrees (ts : List Task) (cs : List ℕ) (h : childrenAt mem ts cs) : ∃ N, ∀ fuel, N ≤ fuel →
    ∀ (a : Option ℕ) (d : Option Task) (w : ℤ), Option.Rel (fun t T => Task.At mem T t) a d →
      Agree mem (heaviestLoop mem (fun child => findHeaviestAt mem fuel child 0) cs a w) (forEachChild ts d w) := by
  match ts, cs with
  | [], [] => exact ⟨0, fun _ _ a d _ had => .ret had⟩
  | child :: rest, c :: cs =>
    rw [childrenAt] at h
    obtain ⟨N, hN⟩ := findHeaviestAt_agrees child c h.1 0
    obtain ⟨N', hN'⟩ := heaviestLoop_agrees rest cs h.2
    refine ⟨max N N', fun fuel hfuel a d w had => ?_⟩
    exact heaviestLoop_cons (hN fuel (by omega)) (hN' fuel (by omega)) had w
  | [], _ :: _ => exact absurd h (by simp [childrenAt])
  | _ :: _, [] => exact absurd h (by simp [childrenAt])

end

end Refine

/-! ## The heaviest descendant -/

namespace Table

/-- `d` is a strict descendant of `t`. -/
def Descends (s : Table) (t d : ℕ) : Prop := d ∈ s.live ∧ ∃ c ∈ (s.mem t).children, s.IsAbove c d

/-- `d` is the heaviest strict descendant of `t`, and the one with the smallest pid among equals. -/
def HeaviestOf (s : Table) (t d : ℕ) : Prop := s.Descends t d ∧ ∀ e, s.Descends t e →
  s.weight e < s.weight d ∨ s.weight e = s.weight d ∧ (s.mem d).pid ≤ (s.mem e).pid

end Table

section Heaviest

variable {s s' : Table} {t : ℕ}

theorem childrenAt_of_forall {mem : Tasks} {cs : List ℕ} (h : ∀ c ∈ cs, ∃ T, Task.At mem T c) :
    ∃ ts, childrenAt mem ts cs := by
  induction cs with
  | nil => exact ⟨[], by rw [childrenAt]; trivial⟩
  | cons c cs ih =>
    obtain ⟨T, hT⟩ := h c List.mem_cons_self
    obtain ⟨ts, hts⟩ := ih fun c hc => h c (List.mem_cons_of_mem _ hc)
    exact ⟨T :: ts, by rw [childrenAt]; exact ⟨hT, hts⟩⟩

theorem exists_tree (h : s.IsTree) : ∀ t ∈ s.live, ∃ T, Task.At s.mem T t := by
  refine h.rooted.induction_up fun t ht ih => ?_
  obtain ⟨ts, hts⟩ := childrenAt_of_forall fun c hc => by
    obtain ⟨hlive, hr, hparent⟩ := (h.mem_children t ht c).mp hc
    exact ih c hlive hr hparent
  exact ⟨⟨(s.mem t).pid, (s.mem t).weight, ts⟩, by rw [Task.At]; exact ⟨rfl, rfl, hts⟩⟩

theorem isAbove_iff_child (h : s.IsTree) (ht : t ∈ s.live) {d : ℕ} (hd : d ∈ s.live) :
    s.IsAbove t d ↔ d = t ∨ s.Descends t d := by
  rw [Table.IsAbove, above_iff_child, eq_comm]
  refine or_congr_right ⟨?_, ?_⟩
  · rintro ⟨c, hr, hc, hcd⟩
    exact ⟨hd, c, (h.mem_children t ht c).mpr ⟨h.rooted.mem_of_above hcd hd, hr, hc⟩, hcd⟩
  · rintro ⟨-, c, hc, hcd⟩
    obtain ⟨-, hr, hparent⟩ := (h.mem_children t ht c).mp hc
    exact ⟨c, hr, hparent, hcd⟩

mutual

/-- **The tasks of the tree** are those at the addresses below. -/
theorem tasks_at (h : s.IsTree) (T : Task) (t : ℕ) (ht : t ∈ s.live) (hT : T.At s.mem t) :
    (∀ D ∈ T.tasks, ∃ d ∈ s.live, s.IsAbove t d ∧ D.At s.mem d) ∧
      ∀ d ∈ s.live, s.IsAbove t d → ∃ D ∈ T.tasks, D.At s.mem d := by
  obtain ⟨pid, weight, children⟩ := T
  obtain ⟨hdown, hup⟩ := tasksOf_at h children (s.mem t).children
    (fun c hc => ((h.mem_children t ht c).mp hc).1) hT.children
  rw [Task.tasks]
  constructor
  · intro D hD
    rcases List.mem_cons.mp hD with rfl | hD
    · exact ⟨t, ht, .refl, hT⟩
    · obtain ⟨c, hc, d, hd, hcd, hat⟩ := hdown D hD
      exact ⟨d, hd, (isAbove_iff_child h ht hd).mpr (.inr ⟨hd, c, hc, hcd⟩), hat⟩
  · intro d hd htd
    rcases (isAbove_iff_child h ht hd).mp htd with rfl | ⟨-, c, hc, hcd⟩
    · exact ⟨_, List.mem_cons_self, hT⟩
    · obtain ⟨D, hD, hat⟩ := hup c hc d hd hcd
      exact ⟨D, List.mem_cons_of_mem _ hD, hat⟩

theorem tasksOf_at (h : s.IsTree) (ts : List Task) (cs : List ℕ) (hcs : ∀ c ∈ cs, c ∈ s.live)
    (hts : childrenAt s.mem ts cs) :
    (∀ D ∈ tasksOf ts, ∃ c ∈ cs, ∃ d ∈ s.live, s.IsAbove c d ∧ D.At s.mem d) ∧
      ∀ c ∈ cs, ∀ d ∈ s.live, s.IsAbove c d → ∃ D ∈ tasksOf ts, D.At s.mem d := by
  match ts, cs with
  | [], [] =>
    rw [tasksOf]
    exact ⟨fun D hD => absurd hD List.not_mem_nil, fun c hc => absurd hc List.not_mem_nil⟩
  | child :: rest, c :: cs =>
    rw [childrenAt] at hts
    obtain ⟨hdown, hup⟩ := tasks_at h child c (hcs c List.mem_cons_self) hts.1
    obtain ⟨hdown', hup'⟩ := tasksOf_at h rest cs (fun c hc => hcs c (List.mem_cons_of_mem _ hc)) hts.2
    rw [tasksOf]
    constructor
    · intro D hD
      rcases List.mem_append.mp hD with hD | hD
      · exact ⟨c, List.mem_cons_self, hdown D hD⟩
      · obtain ⟨c', hc', hd⟩ := hdown' D hD
        exact ⟨c', List.mem_cons_of_mem _ hc', hd⟩
    · intro c' hc' d hd hcd
      rcases List.mem_cons.mp hc' with rfl | hc'
      · obtain ⟨D, hD, hat⟩ := hup d hd hcd
        exact ⟨D, List.mem_append_left _ hD, hat⟩
      · obtain ⟨D, hD, hat⟩ := hup' c' hc' d hd hcd
        exact ⟨D, List.mem_append_right _ hD, hat⟩
  | [], _ :: _ => exact absurd hts (by simp [childrenAt])
  | _ :: _, [] => exact absurd hts (by simp [childrenAt])

end

theorem descendants_at (h : s.IsTree) (ht : t ∈ s.live) {ts : List Task}
    (hts : childrenAt s.mem ts (s.mem t).children) :
    (∀ D ∈ tasksOf ts, ∃ d, s.Descends t d ∧ D.At s.mem d) ∧
      ∀ d, s.Descends t d → ∃ D ∈ tasksOf ts, D.At s.mem d := by
  obtain ⟨hdown, hup⟩ := tasksOf_at h ts _ (fun c hc => ((h.mem_children t ht c).mp hc).1) hts
  refine ⟨fun D hD => ?_, fun d ⟨hd, c, hc, hcd⟩ => hup c hc d hd hcd⟩
  obtain ⟨c, hc, d, hd, hcd, hat⟩ := hdown D hD
  exact ⟨d, ⟨hd, c, hc, hcd⟩, hat⟩

/-- The heaviest of the tree is the heaviest descendant in memory. -/
theorem heaviestOf_of_heaviest (h : s.IsTree) (ht : t ∈ s.live) {ts : List Task}
    (hts : childrenAt s.mem ts (s.mem t).children) {D : Task} (hD : Heaviest (tasksOf ts) D) :
    ∃ d, s.HeaviestOf t d ∧ D.At s.mem d := by
  obtain ⟨hdown, hup⟩ := descendants_at h ht hts
  obtain ⟨d, hd, hat⟩ := hdown D hD.1
  refine ⟨d, ⟨hd, fun e he => ?_⟩, hat⟩
  obtain ⟨E, hE, hatE⟩ := hup e he
  have hout := hD.2 E hE
  unfold Task.Outranks at hout
  unfold Table.weight sysGetWeight
  rwa [hat.weight, hat.pid, hatE.weight, hatE.pid]

theorem exists_pos_iff (h : s.IsTree) {c : ℕ} (hc : c ∈ s.live) {child D : Task} (hchild : child.At s.mem c)
    (hD : Heaviest child.tasks D) : (∃ u ∈ s.live, s.IsAbove c u ∧ 0 < s.weight u) ↔ 0 < D.weight := by
  obtain ⟨hdown, hup⟩ := tasks_at h child c hc hchild
  constructor
  · rintro ⟨u, hu, hcu, hpos⟩
    obtain ⟨U, hU, hat⟩ := hup u hu hcu
    have hle := (hD.2 U hU).weight_le
    have hw : s.weight u = U.weight := hat.weight
    omega
  · intro hpos
    obtain ⟨d, hd, hcd, hat⟩ := hdown D hD.1
    have hw : s.weight d = D.weight := hat.weight
    exact ⟨d, hd, hcd, by omega⟩

/-- **The system call** on a task with children. -/
theorem getHeaviestAt_spec (h : s.Ok) (ht : t ∈ s.live) {c : ℕ} {cs : List ℕ} (hcs : (s.mem t).children = c :: cs) :
    ((∃ u ∈ s.live, s.IsAbove c u ∧ 0 < s.weight u) →
      ∃ d, s.HeaviestOf t d ∧ Returns (fun fuel => getHeaviestAt s.mem fuel t) (s.mem d).pid) ∧
    ((¬ ∃ u ∈ s.live, s.IsAbove c u ∧ 0 < s.weight u) → ∃ N, ∀ fuel, N ≤ fuel → getHeaviestAt s.mem fuel t = .ub) := by
  obtain ⟨T, hT⟩ := exists_tree h.tree t ht
  obtain ⟨N, hN⟩ := findHeaviestAt_agrees T t hT 1
  have hchildren := hT.children
  obtain ⟨pid, weight, children⟩ := T
  dsimp only at hchildren
  have hc : c ∈ s.live := ((h.tree.mem_children t ht c).mp (by rw [hcs]; exact List.mem_cons_self)).1
  cases children with
  | nil =>
    rw [hcs] at hchildren
    exact absurd hchildren (by simp [childrenAt])
  | cons child rest =>
    have hchild : child.At s.mem c := by
      rw [hcs, childrenAt] at hchildren
      exact hchildren.1
    obtain ⟨D, hret, hD⟩ := findHeaviestDescendant_spec child
    obtain ⟨d₀, hd₀, -, hat₀⟩ := (tasks_at h.tree child c hc hchild).1 D hD.1
    have hnonneg : 0 ≤ D.weight := by
      rw [← hat₀.weight]
      exact (h.weight d₀ hd₀).1
    rw [findHeaviestDescendant, if_pos rfl, forEachChild_none hret hnonneg] at hN
    rw [exists_pos_iff h.tree hc hchild hD]
    have hne : (s.mem t).children ≠ [] := by
      rw [hcs]
      exact List.cons_ne_nil c cs
    constructor
    · intro hpos
      obtain ⟨D', hret', hD'⟩ := forEachChild_spec rest D
      rw [if_pos hpos, hret'] at hN
      obtain ⟨d, hd, hat⟩ := heaviestOf_of_heaviest h.tree ht hchildren (hD.of_cons hD')
      refine ⟨d, hd, N, fun fuel hfuel => ?_⟩
      obtain ⟨a, ha, hata⟩ := (hN fuel hfuel).of_some
      beta_reduce
      rw [getHeaviestAt, if_neg hne, ha, Outcome.ret_bind]
      dsimp only
      rw [hata.pid, hat.pid]
    · intro hpos
      rw [if_neg hpos] at hN
      refine ⟨N, fun fuel hfuel => ?_⟩
      rw [getHeaviestAt, if_neg hne, (hN fuel hfuel).of_ub, Outcome.ub_bind]

end Heaviest

/-- **The heaviest descendant, in every run.** From a tree with weights that are not negative, whatever weights the
tasks set and whatever the kernel does with the tree: a task without children gets `-ECHILD`. If a task in the tree
of its first child has a positive weight, it gets the pid of the heaviest of its descendants, and the smallest pid
among equals; if none has, the kernel reads through `NULL`. -/
theorem heaviest_of_run {s s' : Table} {cs : List Call} (h : s.Ok) (hrun : Run TableStep s cs s') {t : ℕ}
    (ht : t ∈ s'.live) :
    ((s'.mem t).children = [] → ∀ fuel, getHeaviestAt s'.mem fuel t = .ret (-ECHILD)) ∧
      ∀ c ∈ (s'.mem t).children.head?,
        ((∃ u ∈ s'.live, s'.IsAbove c u ∧ 0 < s'.weight u) → ∃ d, s'.HeaviestOf t d ∧
          Returns (fun fuel => getHeaviestAt s'.mem fuel t) (s'.mem d).pid) ∧
        ((¬ ∃ u ∈ s'.live, s'.IsAbove c u ∧ 0 < s'.weight u) →
          ∃ N, ∀ fuel, N ≤ fuel → getHeaviestAt s'.mem fuel t = .ub) := by
  have hok := ok_of_run hrun h
  refine ⟨fun hnil fuel => if_pos hnil, fun c hc => ?_⟩
  obtain ⟨rest, hrest⟩ : ∃ rest, (s'.mem t).children = c :: rest := List.head?_eq_some_iff.mp hc
  exact getHeaviestAt_spec hok ht hrest

/-- The grandchild is the heaviest descendant of `init`. -/
theorem heaviest_of_run_threeTasks : ∃ d, threeTasks.HeaviestOf 10 d ∧
    Returns (fun fuel => getHeaviestAt threeTasks.mem fuel 10) (threeTasks.mem d).pid :=
  ((heaviest_of_run ok_threeTasks (.nil _) (t := 10) (by decide)).2 20 (by decide)).1
    ⟨30, by decide, .up (by decide) .refl, by decide⟩

end OsHomework.Kernel
