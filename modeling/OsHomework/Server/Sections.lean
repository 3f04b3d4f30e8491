import OsHomework.Server.Model

/-!
# What the critical sections do to the queue

The bodies of the critical sections, over a well-formed queue that holds descriptors only.

* `Holds q`: the queue is well-formed and no element is `-1`;
* `lookBody_cases`, `headBody_cases`, `enqueueBody_cases`: a worker takes the oldest connection, `dh` drops
  it, and the new one is appended;
* **`dropRandom_spec`**, `randomBody_cases`: the random policy drops half of the connections, rounded down,
  and keeps the others in order.
-/

set_option autoImplicit false

namespace OsHomework.Server

open Queue

/-- The descriptors in the queue, the oldest first. -/
def Queue.connfds (q : Queue) : List ℤ := q.contents.map Prod.fst

/-- The queue is well-formed and holds descriptors only. -/
structure Holds (q : Queue) : Prop where
  wf : q.WF
  fds : ∀ x ∈ q.connfds, x ≠ -1

theorem Queue.WF.size_connfds {q : Queue} (h : q.WF) : q.queueSize = q.connfds.length := by
  rw [h.size, connfds, List.length_map]

section Sections

variable {n : ℕ} {env : Env n} {s t : Sys n} {c : Request} {i : Fin n}

theorem Holds.dequeue {q : Queue} (h : Holds q) (now : ℚ) :
    (q.connfds = [] ∧ q.dequeue now = .ret (q, -1, none)) ∨
      ∃ x t q', q.connfds = x :: q'.connfds ∧ x ≠ -1 ∧ q'.WF ∧ q'.queueSize = q.queueSize - 1 ∧
        q.dequeue now = .ret (q', x, some (t, now - t)) := by
  rcases hc : q.contents with _ | ⟨x, l⟩
  · exact .inl ⟨by rw [connfds, hc, List.map_nil], dequeue_nil h.wf hc⟩
  · obtain ⟨q', he, hw, hl, hs⟩ := dequeue_cons now h.wf hc
    have hx : q.connfds = x.1 :: q'.connfds := by rw [connfds, connfds, hc, hl, List.map_cons]
    exact .inr ⟨x.1, x.2, q', hx, h.fds _ (by rw [hx]; exact List.mem_cons_self), hw, hs, he⟩

theorem lookBody_cases (hq : Holds s.queue) (h : lookBody env s i = some t) :
    (s.queue.connfds = [] ∧ t = s.goto i (.unlock2 none)) ∨
      ∃ (q : Queue) (j : Job), s.queue.connfds = j.connfd :: q.connfds ∧ q.WF ∧ q.queueSize = s.queue.queueSize - 1 ∧
        t = { s with
          queue := q
          numOfCurrWorking := s.numOfCurrWorking + 1
          taken := s.taken ++ [(i, j.connfd)] }.goto i (.unlock2 (some j)) := by
  rcases hq.dequeue env.time with ⟨hc, he⟩ | ⟨x, u, q, hc, hx, hw, hs, he⟩
  · rw [lookBody, he] at h
    exact .inl ⟨hc, (Option.some.inj h).symm⟩
  · simp only [lookBody, he, if_neg hx, Option.getD_some] at h
    exact .inr ⟨q, ⟨x, u, env.time - u⟩, hc, hw, hs, (Option.some.inj h).symm⟩

theorem headBody_cases (hq : Holds s.queue) (h : headBody env s c = some t) :
    (s.queue.connfds = [] ∧
        t = { s with closed := s.closed ++ [c.connfd], main := .dropUnlockDone }) ∨
      ∃ x q, s.queue.connfds = x :: q.connfds ∧ q.WF ∧ q.queueSize = s.queue.queueSize - 1 ∧
        t = { s with queue := q, closed := s.closed ++ [x], main := .dropUnlock c } := by
  rcases hq.dequeue env.time with ⟨hc, he⟩ | ⟨x, u, q, hc, hx, hw, hs, he⟩
  · rw [headBody, he] at h
    exact .inl ⟨hc, (Option.some.inj h).symm⟩
  · simp only [headBody, he, if_neg hx] at h
    exact .inr ⟨x, q, hc, hw, hs, (Option.some.inj h).symm⟩

/-- **Dropping `m` connections at random**: the induction is on `m`. -/
theorem dropRandom_spec (rand : ℕ → ℕ) {m i : ℕ} {q : Queue} (h : q.WF) (hm : m ≤ q.connfds.length) :
    ∃ q' fds, dropRandom rand m i q = .ret (q', fds) ∧ q'.WF ∧ fds.length = m ∧
      q'.connfds.Sublist q.connfds ∧ (fds ++ q'.connfds).Perm q.connfds ∧
      q'.queueSize = q.queueSize - m := by
  induction m generalizing i q with
  | zero => exact ⟨q, [], rfl, h, rfl, List.Sublist.refl _, List.Perm.refl _, by simp⟩
  | succ m ih =>
    have hlen : q.queueSize.toNat = q.contents.length := by rw [h.size, Int.toNat_natCast]
    rw [connfds, List.length_map] at hm
    have hp : rand i % q.queueSize.toNat < q.contents.length := by
      rw [hlen]; exact Nat.mod_lt _ (by omega)
    obtain ⟨q₁, he₁, hw₁, hc₁, hs₁⟩ := dequeueI_spec h (List.getElem?_eq_getElem hp)
    have hlen₁ : q₁.connfds.length = q.contents.length - 1 := by
      rw [connfds, List.length_map, hc₁, List.length_eraseIdx_of_lt hp]
    obtain ⟨q₂, fds, he₂, hw₂, hfds, hsub, hperm, hs₂⟩ :=
      ih (i := i + 1) hw₁ (by omega)
    refine ⟨q₂, q.contents[rand i % q.queueSize.toNat].1 :: fds, ?_, hw₂, by rw [List.length_cons, hfds],
      hsub.trans ?_, ?_, ?_⟩
    · rw [dropRandom, Nat.cast_add, Nat.cast_one, he₁, Outcome.ret_bind]
      simp only [he₂, Outcome.ret_bind]
    · rw [connfds, hc₁]
      exact (List.eraseIdx_sublist _ _).map _
    · refine ((hperm.cons _).trans ?_)
      rw [connfds, hc₁, ← List.map_cons]
      exact (List.getElem_cons_eraseIdx_perm hp).map _
    · rw [hs₂, hs₁]
      push_cast
      ring

theorem randomBody_cases (hq : Holds s.queue) (h : randomBody env s c = some t) :
    (s.queue.connfds = [] ∧ t = { s with main := .dropUnlockClose c }) ∨
      ∃ q fds, s.queue.connfds ≠ [] ∧ q.WF ∧ fds.length = s.queue.connfds.length / 2 ∧
        q.connfds.Sublist s.queue.connfds ∧ (fds ++ q.connfds).Perm s.queue.connfds ∧
        t = { s with queue := q, closed := s.closed ++ fds, main := .dropUnlock c } := by
  have hsize := hq.wf.size_connfds
  rw [randomBody] at h
  split_ifs at h with h0
  · refine .inl ⟨List.eq_nil_of_length_eq_zero ?_, (Option.some.inj h).symm⟩
    omega
  · have hm : (s.queue.queueSize / 2).toNat = s.queue.connfds.length / 2 := by omega
    obtain ⟨q, fds, he, hw, hl, hsub, hperm, -⟩ := dropRandom_spec env.rand
      (m := (s.queue.queueSize / 2).toNat) (i := 0) hq.wf (by omega)
    rw [he] at h
    refine .inr ⟨q, fds, fun hnil => h0 ?_, hw, hl.trans hm, hsub, hperm, (Option.some.inj h).symm⟩
    rw [hsize, hnil]
    rfl

theorem enqueueBody_cases (hq : Holds s.queue) (hm : s.main = .enqueueBody c) {conf : Conf}
    (h : mainStep conf env s = some t) : ∃ q, q.WF ∧ q.connfds = s.queue.connfds ++ [c.connfd] ∧
      q.queueSize = s.queue.queueSize + 1 ∧ t = { s with queue := q, main := .enqueueUnlock } := by
  simp only [mainStep, hm] at h
  split_ifs at h with hnew
  split at h
  next he' =>
    -- the call has returned, so the counter was below its bound
    obtain ⟨h0, hsize⟩ := of_enqueue he'
    obtain ⟨q, he, hw, hc, hs⟩ := enqueue_spec c.connfd c.arrivalTime hq.wf h0 hnew hsize
    obtain rfl := Outcome.ret.inj (he.symm.trans he')
    exact ⟨q, hw, by rw [connfds, connfds, hc, List.map_append]; rfl, hs, (Option.some.inj h).symm⟩
  next => cases h

end Sections

end OsHomework.Server
