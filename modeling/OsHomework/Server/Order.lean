import Mathlib.Data.List.Sort
import OsHomework.Server.Capacity

/-!
# Connections leave in accept order

Connections are numbered as they are accepted. Those that workers have taken, then those that wait, then
the one in the hands of `main`, are in accept order, whatever the policy drops in between.

* `Shifts`: what a step does to this line, and **`Step.shifts`**: every step is one of these;
* `Ordered`: the invariant; **`Ordered.step`**;
* **`accept_order`**: over every run, with what `dh` and `random` drop.
-/

set_option autoImplicit false

namespace OsHomework.Server

open Queue

variable {n : ℕ}

/-- Taken, waiting, and with `main`. -/
def lineUp (s : Sys n) : List ℤ := s.taken.map Prod.snd ++ s.queue.connfds ++ s.main.held

/-- What a step does to the line. -/
inductive Shifts (s t : Sys n) : Prop
  | stays : t.queue = s.queue → t.taken = s.taken → t.main.held.Sublist s.main.held →
      t.accepted = s.accepted → Shifts s t
  | accepts : t.queue = s.queue → t.taken = s.taken → s.main.held = [] →
      t.main.held = [(s.accepted : ℤ)] → t.accepted = s.accepted + 1 → Shifts s t
  | enqueues : t.queue.connfds = s.queue.connfds ++ s.main.held → t.taken = s.taken →
      t.main.held = [] → t.accepted = s.accepted → Shifts s t
  | takes (i : Fin n) (x : ℤ) : s.queue.connfds = x :: t.queue.connfds →
      t.taken = s.taken ++ [(i, x)] → t.main.held = s.main.held → t.closed = s.closed →
      t.accepted = s.accepted → Shifts s t
  | dropsHead (c : Request) (x : ℤ) : s.main = .headBody c → s.queue.connfds = x :: t.queue.connfds →
      t.taken = s.taken → t.main.held = s.main.held → t.closed = s.closed ++ [x] →
      t.accepted = s.accepted → Shifts s t
  | dropsRandom (c : Request) : s.main = .randomBody c → t.queue.connfds.Sublist s.queue.connfds →
      t.taken = s.taken → t.main.held = s.main.held → t.accepted = s.accepted → Shifts s t

section Steps

variable {conf : Conf} {env : Env n} {s t : Sys n} {i : Fin n}

theorem shifts_mainStep (h : Placed s) (hs : mainStep conf env s = some t) : Shifts s t := by
  cases hm : s.main with
  | accept =>
    simp only [mainStep, hm, Option.some.injEq] at hs
    subst hs
    exact .accepts rfl rfl (by rw [hm]; rfl) rfl rfl
  | headBody c =>
    simp only [mainStep, hm] at hs
    rcases headBody_cases h.holds hs with ⟨-, rfl⟩ | ⟨x, q, hc, -, -, rfl⟩
    · exact .stays rfl rfl (List.nil_sublist _) rfl
    · exact .dropsHead c x hm hc rfl (by rw [hm]; rfl) rfl rfl
  | randomBody c =>
    simp only [mainStep, hm] at hs
    rcases randomBody_cases h.holds hs with ⟨-, rfl⟩ | ⟨q, fds, -, -, -, hsub, -, rfl⟩
    · exact .stays rfl rfl (by rw [hm]; exact List.Sublist.refl _) rfl
    · exact .dropsRandom c hm hsub rfl (by rw [hm]; rfl) rfl
  | enqueueBody c =>
    obtain ⟨q, -, hc, -, rfl⟩ := enqueueBody_cases h.holds hm hs
    exact .enqueues (by rw [hm]; exact hc) rfl rfl rfl
  | signal =>
    simp only [mainStep, hm, signalCond] at hs
    split at hs
    · split_ifs at hs
      cases hs
      exact .stays rfl rfl (List.nil_sublist _) rfl
    · split_ifs at hs
      cases hs
      exact .stays rfl rfl (List.nil_sublist _) rfl
  | overload c =>
    simp only [mainStep, hm, Option.some.injEq] at hs
    subst hs
    refine .stays rfl rfl ?_ rfl
    rw [hm, held_handleOverloading]
    exact List.Sublist.refl _
  | close c =>
    simp only [mainStep, hm, Option.some.injEq] at hs
    subst hs
    refine .stays rfl rfl ?_ rfl
    simp only
    split_ifs <;> exact List.nil_sublist _
  | _ =>
    -- the other statements keep what `main` holds
    simp only [mainStep, hm] at hs
    (try split_ifs at hs) <;> cases hs <;>
      exact .stays rfl rfl (by rw [hm]; exact List.Sublist.refl _) rfl

theorem shifts_workerStep (h : Placed s) (hs : workerStep env s i = some t) : Shifts s t := by
  cases hm : s.worker i with
  | look signalled =>
    simp only [workerStep, hm] at hs
    rcases lookBody_cases h.holds hs with ⟨-, rfl⟩ | ⟨q, j, hc, -, -, rfl⟩
    · exact .stays rfl rfl (List.Sublist.refl _) rfl
    · exact .takes i j.connfd hc rfl rfl rfl rfl
  | unlock2 element =>
    cases element <;> simp only [workerStep, hm, Option.some.injEq] at hs <;>
      (subst hs; exact .stays rfl rfl (List.Sublist.refl _) rfl)
  | signal2 j =>
    simp only [workerStep, hm] at hs
    split at hs
    · next c hc =>
      cases hs
      exact .stays rfl rfl (by rw [hc]; exact List.Sublist.refl _) rfl
    · cases hs
      exact .stays rfl rfl (List.Sublist.refl _) rfl
  | waiting => simp [workerStep, hm] at hs
  | _ =>
    simp only [workerStep, hm] at hs
    try split_ifs at hs
    cases hs
    exact .stays rfl rfl (List.Sublist.refl _) rfl

/-- **Every step shifts the line** in one of these ways. -/
theorem Step.shifts {l : Label n} (h : Placed s) (hs : Step conf s l t) : Shifts s t := by
  cases l with
  | main env => exact shifts_mainStep h hs
  | worker i env => exact shifts_workerStep h hs
  | spuriousMain =>
    simp only [Step, Server.step] at hs
    split at hs
    · next c hc =>
      cases hs
      exact .stays rfl rfl (by rw [hc]; exact List.Sublist.refl _) rfl
    · cases hs
  | spuriousWorker i =>
    simp only [Step, Server.step] at hs
    split_ifs at hs
    cases hs
    exact .stays rfl rfl (List.Sublist.refl _) rfl

/-- `main` comes to the random policy only if it is the policy. -/
theorem inRandom_step {l : Label n} (h : Placed s) (hs : Step conf s l t)
    (hr : t.main.inRandom = true) : s.main.inRandom = true ∨ conf.policy = .random := by
  cases l with
  | main env =>
    cases hm : s.main with
    | headBody c =>
      simp only [Step, Server.step, mainStep, hm] at hs
      rcases headBody_cases h.holds hs with ⟨-, rfl⟩ | ⟨x, q, -, -, -, rfl⟩ <;> cases hr
    | enqueueBody c =>
      obtain ⟨q, -, -, -, rfl⟩ := enqueueBody_cases h.holds hm hs
      cases hr
    | overload c =>
      simp only [Step, Server.step, mainStep, hm, Option.some.injEq] at hs
      subst hs
      cases hpol : conf.policy <;> simp [hpol, handleOverloading, MainPc.inRandom] at hr ⊢
    | signal =>
      simp only [Step, Server.step, mainStep, hm, signalCond] at hs
      split at hs <;> split_ifs at hs <;> cases hs <;> cases hr
    | randomLock c => exact .inl rfl
    | randomBody c => exact .inl rfl
    | _ =>
      simp only [Step, Server.step, mainStep, hm] at hs
      (try split_ifs at hs) <;> cases hs <;> cases hr
  | worker i env =>
    obtain ⟨pc, -, -, hmain, -⟩ := workerStep_frame h hs
    rcases hmain with hmain | ⟨c, -, hmain⟩
    · exact .inl (hmain ▸ hr)
    · rw [hmain] at hr
      cases hr
  | spuriousMain =>
    simp only [Step, Server.step] at hs
    split at hs
    · cases hs
      cases hr
    · cases hs
  | spuriousWorker i =>
    simp only [Step, Server.step] at hs
    split_ifs at hs
    cases hs
    exact .inl hr

end Steps

/-- The invariant. -/
structure Ordered (conf : Conf) (s : Sys n) : Prop where
  placed : Placed s
  sorted : (lineUp s).Pairwise (· < ·)
  random : s.main.inRandom = true → conf.policy = .random

section Runs

variable {conf : Conf} {s t : Sys n}

/-- Only accepted connections are anywhere. -/
theorem Placed.lt_accepted (h : Placed s) {x : ℤ} (hx : x ∈ s.taken.map Prod.snd ∨ x ∈ s.queue.connfds ∨
    x ∈ s.main.held) : 0 ≤ x ∧ x < s.accepted := by
  by_contra hout
  have hplaces := h.places x
  rw [if_neg hout, Server.places] at hplaces
  have htaken := h.taken x
  rcases hx with hx | hx | hx <;> have := List.count_pos_iff.mpr hx <;> omega

/-- A step takes connections out of the line, or the new one joins it at the end. -/
theorem Shifts.lineUp (h : Shifts s t) :
    (lineUp t).Sublist (lineUp s) ∨ lineUp t = lineUp s ++ [(s.accepted : ℤ)] := by
  unfold Server.lineUp
  cases h with
  | stays hq ht hm ha =>
    rw [hq, ht]
    exact .inl (hm.append_left _)
  | accepts hq ht hm hm' ha =>
    rw [hq, ht, hm, hm', List.append_nil]
    exact .inr rfl
  | enqueues hq ht hm ha =>
    rw [hq, ht, hm, List.append_nil, List.append_assoc]
    exact .inl (List.Sublist.refl _)
  | takes i x hq ht hm hc ha =>
    rw [hq, ht, hm, List.map_append, List.map_singleton, List.append_assoc _ [x], List.singleton_append]
    exact .inl (List.Sublist.refl _)
  | dropsHead c x hpc hq ht hm hc ha =>
    rw [hq, ht, hm]
    exact .inl (((List.sublist_cons_self _ _).append_left _).append_right _)
  | dropsRandom c hpc hq ht hm ha =>
    rw [ht, hm]
    exact .inl ((hq.append_left _).append_right _)

theorem Ordered.step {l : Label n} (h : Ordered conf s) (hs : Step conf s l t) : Ordered conf t := by
  refine ⟨h.placed.step hs, ?_, fun hr => ?_⟩
  · rcases (hs.shifts h.placed).lineUp with hsub | heq
    · exact h.sorted.sublist hsub
    · rw [heq, List.pairwise_append]
      refine ⟨h.sorted, List.pairwise_singleton _ _, fun x hx y hy => ?_⟩
      rw [List.mem_singleton.mp hy]
      unfold Server.lineUp at hx
      rw [List.mem_append, List.mem_append, or_assoc] at hx
      exact (h.placed.lt_accepted hx).2
  · rcases inRandom_step h.placed hs hr with hr' | hpol
    · exact h.random hr'
    · exact hpol

theorem ordered_init (conf : Conf) (n : ℕ) (capacity : ℤ) : Ordered conf (init n capacity) :=
  ⟨placed_init n capacity, by simp [lineUp, init, Queue.connfds, contents_createQueue, MainPc.held],
    by simp [init, MainPc.inRandom]⟩

/-- A strictly increasing list of numbers below `k` is a subsequence of them all. -/
theorem sublist_range {k : ℕ} {l : List ℤ} (hl : l.Pairwise (· < ·)) (hk : ∀ x ∈ l, 0 ≤ x ∧ x < k) :
    l.Sublist ((List.range k).map Nat.cast) := by
  have hrange : ((List.range k).map (Nat.cast : ℕ → ℤ)).Pairwise (· < ·) :=
    List.pairwise_map.mpr (List.pairwise_lt_range.imp fun h => Int.ofNat_lt.mpr h)
  have hsub : l ⊆ (List.range k).map Nat.cast := by
    intro x hx
    obtain ⟨h0, hlt⟩ := hk x hx
    exact List.mem_map.mpr ⟨x.toNat, List.mem_range.mpr (by omega), Int.toNat_of_nonneg h0⟩
  exact List.sublist_of_subperm_of_pairwise (List.subperm_of_subset (hl.imp ne_of_lt) hsub)
    (hl.imp le_of_lt) (hrange.imp le_of_lt)

theorem Placed.not_closed (h : Placed s) {x : ℤ} (hx : x ∈ s.queue.connfds) : x ∉ s.closed := by
  intro hclosed
  have hplaces := h.places x
  rw [Server.places] at hplaces
  have h₁ := List.count_pos_iff.mpr hx
  have h₂ := List.count_pos_iff.mpr hclosed
  split_ifs at hplaces <;> omega

/-- Outside the random policy, only the oldest of the waiting connections is closed. -/
theorem Shifts.oldest_closed (h : Shifts s t) (hs : Placed s) (ht : Placed t)
    (hr : s.main.inRandom = false) {x : ℤ} (hx : x ∈ s.queue.connfds) (hclosed : x ∈ t.closed) :
    s.queue.connfds = x :: t.queue.connfds := by
  cases h with
  | stays hq => exact absurd hclosed (ht.not_closed (hq ▸ hx))
  | accepts hq => exact absurd hclosed (ht.not_closed (hq ▸ hx))
  | enqueues hq =>
    have hmem : x ∈ t.queue.connfds := by
      rw [hq]
      exact List.mem_append_left _ hx
    exact absurd hclosed (ht.not_closed hmem)
  | takes i y hq htk hm hc => exact absurd (hc ▸ hclosed) (hs.not_closed hx)
  | dropsHead c y hpc hq htk hm hc =>
    rw [hc, List.mem_append, List.mem_singleton] at hclosed
    rcases hclosed with hclosed | rfl
    · exact absurd hclosed (hs.not_closed hx)
    · exact hq
  | dropsRandom c hpc =>
    rw [hpc] at hr
    cases hr

/-- **Accept order.** In every state of every run, under every policy, the waiting connections are a
subsequence of the accepted ones and workers have taken theirs in increasing order. What `dh` closes from
the queue is older than all that wait then, and what `random` leaves in the queue keeps its order. -/
theorem accept_order {capacity : ℤ} {ls : List (Label n)} (hrun : Run (Step conf) (init n capacity) ls s) :
    s.queue.connfds.Sublist ((List.range s.accepted).map Nat.cast) ∧
      (s.taken.map Prod.snd).Pairwise (· < ·) ∧
      (conf.policy = .dh → ∀ l t, Step conf s l t → ∀ x ∈ s.queue.connfds, x ∈ t.closed →
        ∀ y ∈ t.queue.connfds, x < y) ∧
      (conf.policy = .random → ∀ env t c, s.main = .randomBody c → Step conf s (.main env) t →
        t.queue.connfds.Sublist s.queue.connfds) := by
  have h : Ordered conf s := hrun.invariant (ordered_init conf n capacity) fun _ _ _ h hs => h.step hs
  have hline := h.sorted
  unfold lineUp at hline
  have hqueue := hline.sublist ((List.sublist_append_right _ _).trans (List.sublist_append_left _ _))
  refine ⟨sublist_range hqueue fun x hx => h.placed.lt_accepted (.inr (.inl hx)),
    hline.sublist ((List.sublist_append_left _ _).trans (List.sublist_append_left _ _)), ?_, ?_⟩
  · intro hpol l t hs x hx hclosed y hy
    have hr : s.main.inRandom = false := by
      by_contra hr
      have hpol' := h.random (by simpa using hr)
      rw [hpol] at hpol'
      cases hpol'
    have hq := (hs.shifts h.placed).oldest_closed h.placed (h.placed.step hs) hr hx hclosed
    rw [hq] at hqueue
    exact (List.pairwise_cons.mp hqueue).1 y hy
  · intro hpol env t c hm hs
    simp only [Step, Server.step, mainStep, hm] at hs
    rcases randomBody_cases h.placed.holds hs with ⟨-, rfl⟩ | ⟨q, fds, -, -, -, hsub, -, rfl⟩
    · exact List.Sublist.refl _
    · exact hsub

end Runs

/-- Three connections arrive and one worker takes one; capacity 3, policy `dh`. -/
theorem accept_order_three_connections : ∃ s,
    Run (Step ⟨.dh, 0⟩) (init 1 3) (arrive 1 none ++ arrive 2 none ++ arrive 3 none ++ take 0) s ∧
      s.taken = [(0, 0)] ∧ s.queue.connfds = [1, 2] ∧
      s.queue.connfds.Sublist ((List.range s.accepted).map Nat.cast) := by
  obtain ⟨s, hs, htaken, hqueue⟩ : ∃ s, exec (step ⟨.dh, 0⟩) (init 1 3)
      (arrive 1 none ++ arrive 2 none ++ arrive 3 none ++ take 0) = some s ∧ s.taken = [(0, 0)] ∧
        s.queue.connfds = [1, 2] := by
    refine ⟨_, rfl, ?_⟩
    decide
  have hrun : Run (Step ⟨.dh, 0⟩) (init 1 3)
      (arrive 1 none ++ arrive 2 none ++ arrive 3 none ++ take 0) s := Run.of_exec hs
  exact ⟨s, hrun, htaken, hqueue, (accept_order hrun).1⟩

end OsHomework.Server
