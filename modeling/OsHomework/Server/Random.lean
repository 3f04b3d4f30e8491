import OsHomework.Server.Capacity

/-!
# The random policy

On an overload, `size_to_del = queue->queue_size / 2` connections are dropped, rounded down; the tests
expect half of them rounded up. With one connection waiting nothing is dropped, and the new connection is
enqueued all the same.

* `EvenStep`: a step that, if it drops at random, finds an even number of connections waiting;
* `random_drop`: what every drop at random does;
* **`random_bound`**: runs of such steps keep the load within the capacity, and their drops are the
  expected ones;
* **`random_overflows`**: one connection in work and one waiting, at capacity 2.
-/

set_option autoImplicit false

namespace OsHomework.Server

open Queue

variable {n : ℕ}

/-- A step that, if it drops at random, finds an even number of connections waiting. -/
def EvenStep (conf : Conf) (s : Sys n) (l : Label n) (t : Sys n) : Prop :=
  Step conf s l t ∧ ∀ c, s.main = .randomBody c → s.queue.connfds.length % 2 = 0

/-- **A drop at random** closes half of the waiting connections, rounded down, and keeps the others in
order. The new connection is still with `main`, which goes on to the enqueue. -/
theorem random_drop {conf : Conf} {env : Env n} {s t : Sys n} {c : Request} (h : Placed s)
    (hm : s.main = .randomBody c) (hne : s.queue.connfds ≠ []) (hs : Step conf s (.main env) t) :
    ∃ fds, t.closed = s.closed ++ fds ∧ fds.length = s.queue.connfds.length / 2 ∧
      t.queue.connfds.Sublist s.queue.connfds ∧ (fds ++ t.queue.connfds).Perm s.queue.connfds ∧
      t.main = .dropUnlock c := by
  simp only [Step, step, mainStep, hm] at hs
  rcases randomBody_cases h.holds hs with ⟨hnil, -⟩ | ⟨q, fds, -, -, hlen, hsub, hperm, rfl⟩
  · exact absurd hnil hne
  · exact ⟨fds, rfl, hlen, hsub, hperm, rfl⟩

/-- **Runs whose drops find an even number of connections waiting** keep the load within the capacity. In
every state reached, the next drop closes half of the `q` waiting connections, rounded up, if and only if
`q` is even, and keeps the others in order. -/
theorem random_bound {conf : Conf} {capacity : ℤ} {ls : List (Label n)} {s : Sys n}
    (hpol : conf.policy = .random) (hcap : 1 ≤ capacity)
    (hrun : Run (EvenStep conf) (init n capacity) ls s) :
    s.queue.queueSize + s.numOfCurrWorking ≤ s.capacity ∧
      ∀ env t c, s.main = .randomBody c → s.queue.connfds ≠ [] → Step conf s (.main env) t →
        ∃ fds, t.closed = s.closed ++ fds ∧
          (fds.length = (s.queue.connfds.length + 1) / 2 ↔ s.queue.connfds.length % 2 = 0) ∧
          t.queue.connfds.Sublist s.queue.connfds ∧
          (fds ++ t.queue.connfds).Perm s.queue.connfds ∧ t.main = .dropUnlock c := by
  have h : Bounded conf capacity s := by
    apply hrun.invariant (bounded_init conf (by omega))
    intro t _ _ ht hs
    refine ht.step (by rw [hpol]; decide) (fun c hm => ?_) hs.1
    have := hs.2 c hm
    omega
  refine ⟨h.le, fun env t c hm hne hs => ?_⟩
  obtain ⟨fds, hc, hlen, hsub, hperm, hmain⟩ := random_drop h.placed hm hne hs
  exact ⟨fds, hc, by omega, hsub, hperm, hmain⟩

/-- The steps that `EvenStep` allows, computed. -/
def evenStep (conf : Conf) (s : Sys n) (l : Label n) : Option (Sys n) :=
  match s.main with
  | .randomBody _ => if s.queue.connfds.length % 2 = 0 then step conf s l else none
  | _ => step conf s l

theorem evenStep_sound {conf : Conf} {s t : Sys n} {l : Label n} (h : evenStep conf s l = some t) :
    EvenStep conf s l t := by
  unfold evenStep at h
  split at h
  · split_ifs at h with heven
    exact ⟨h, fun _ _ => heven⟩
  · next hne => exact ⟨h, fun c hc => absurd hc (hne c)⟩

/-- Two connections are waiting at capacity 2, and the third one makes the server drop the first. -/
theorem random_bound_third_connection : ∃ s, Run (EvenStep ⟨.random, 0⟩) (init 1 2)
      (arrive 1 none ++ arrive 2 none ++ List.replicate 10 (.main (envOf 3 none))) s ∧
    s.closed = [0] ∧ s.queue.connfds = [1, 2] ∧
    s.queue.queueSize + s.numOfCurrWorking ≤ s.capacity := by
  obtain ⟨s, hs, hc⟩ : ∃ s, exec (evenStep ⟨.random, 0⟩) (init 1 2)
      (arrive 1 none ++ arrive 2 none ++ List.replicate 10 (.main (envOf 3 none))) = some s ∧
      s.closed = [0] ∧ s.queue.connfds = [1, 2] := by
    refine ⟨_, rfl, ?_⟩
    decide
  have hrun : Run (EvenStep ⟨.random, 0⟩) (init 1 2)
      (arrive 1 none ++ arrive 2 none ++ List.replicate 10 (.main (envOf 3 none))) s :=
    (Run.of_exec hs).mono fun _ _ _ h => evenStep_sound h
  exact ⟨s, hrun, hc.1, hc.2, (random_bound rfl (by norm_num) hrun).1⟩

/-- **One connection in work and one waiting**: the third one meets an overload with one connection
waiting, none is dropped, and the load is 3 at capacity 2. -/
theorem random_overflows : ∃ s,
    Run (Step ⟨.random, 0⟩) (init 1 2)
      (arrive 1 none ++ take 0 ++ arrive 2 none ++ List.replicate 10 (.main (envOf 3 none))) s ∧
    s.capacity = 2 ∧ s.queue.queueSize + s.numOfCurrWorking = 3 ∧ s.closed = [] := by
  obtain ⟨s, hs, hc⟩ : ∃ s, exec (step ⟨.random, 0⟩) (init 1 2)
      (arrive 1 none ++ take 0 ++ arrive 2 none ++ List.replicate 10 (.main (envOf 3 none))) = some s ∧
      s.capacity = 2 ∧ s.queue.queueSize + s.numOfCurrWorking = 3 ∧ s.closed = [] := by
    refine ⟨_, rfl, ?_⟩
    decide
  exact ⟨s, Run.of_exec hs, hc⟩

end OsHomework.Server
