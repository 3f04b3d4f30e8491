import Mathlib.Data.List.Pairwise
import OsHomework.Smash.Ids

/-!
# The order of the jobs listing

`printJobsList` sorts with `jobsList.sort()`. The elements of the list are pointers, so that it is their
addresses which are compared: the `operator<` written for `JobEntry` is not used.

* `printJobsList`: the sorted list, and the lines in the order printed;
* **`printed_in_order_iff`**: over every run, the lines are in the order of the ids exactly if the objects
  lie in memory in this order;
* `printed_out_of_order`: two jobs, of which the second has the lower address.
-/

set_option autoImplicit false

namespace OsHomework.Smash

/-- A line of the listing: `[id] command : pid seconds secs`, and whether `(stopped)` follows. -/
structure JobLine where
  jobId : ℤ
  cmdLine : List Char
  jobProcessId : Pid
  secs : ℤ
  stopped : Bool
  deriving DecidableEq

/-- The line of an entry at the time `now`. -/
def JobEntry.line (now : ℕ) (job : JobEntry) : JobLine :=
  ⟨job.jobId, job.cmdLine, job.jobProcessId, now - job.entryTime, job.jobStatus = .stopped⟩

/-- `printJobsList`, and the lines it prints. -/
def JobsList.printJobsList (e : Entries) (J : JobsList) (now : ℕ) : JobsList × List JobLine :=
  (J.sort, J.sort.jobsList.map fun p => (e p).line now)

theorem body_jobs {s : Shell} {c : Cmd} {a : Answer} (hk : c.kind = .jobs) :
    s.body c a = some { s with jobs := (s.jobs.printJobsList s.entry a.time).1 }.done := by
  rw [Shell.body, hk]
  rfl

section Order

variable {e : Entries} {J : JobsList} {now : ℕ}

theorem pairwise_sort (J : JobsList) : J.sort.jobsList.Pairwise (· ≤ ·) := by
  have h := @List.pairwise_mergeSort _ (fun p q : Ptr => decide (p ≤ q))
    (fun p q r => by simpa using le_trans) (fun p q => by simpa using le_total p q) J.jobsList
  simpa [JobsList.sort] using h

theorem printed_ids : (J.printJobsList e now).2.map JobLine.jobId = ids e J.sort.jobsList := by
  rw [JobsList.printJobsList, List.map_map]
  rfl

theorem mem_sort {p : Ptr} : p ∈ J.sort.jobsList ↔ p ∈ J.jobsList := J.sort_perm.mem_iff

/-- The ids of a list that is sorted by address are increasing exactly if they grow with the address. -/
theorem increasing_ids_iff {l : List Ptr} (hl : l.Pairwise (· ≤ ·)) (hnd : (ids e l).Nodup) :
    (ids e l).Pairwise (· < ·) ↔ ∀ p ∈ l, ∀ q ∈ l, p < q → (e p).jobId < (e q).jobId := by
  unfold ids at *
  rw [List.pairwise_map]
  constructor
  · intro h p hp q hq hpq
    -- of two entries, the one printed later has no lower address
    have hback : l.Pairwise fun a b => b < a → (e b).jobId < (e a).jobId :=
      hl.imp fun hle hba => absurd hba hle.not_gt
    have hforth : l.Pairwise fun a b => a < b → (e a).jobId < (e b).jobId := by
      apply h.imp
      intro a b hlt _
      exact hlt
    exact List.Pairwise.forall_of_forall_of_flip (fun a _ haa => absurd haa (lt_irrefl a)) hforth hback hp hq hpq
  · intro h
    have hlt : l.Pairwise (· < ·) := (hl.and (hnd.of_map _)).imp fun hab => lt_of_le_of_ne hab.1 hab.2
    exact hlt.imp_of_mem fun hp hq hpq => h _ hp _ hq hpq

theorem increasing_lines_iff (hnd : (ids e J.jobsList).Nodup) :
    ((J.printJobsList e now).2.map JobLine.jobId).Pairwise (· < ·) ↔
      ∀ p ∈ J.jobsList, ∀ q ∈ J.jobsList, p < q → (e p).jobId < (e q).jobId := by
  rw [printed_ids, increasing_ids_iff (pairwise_sort _) ((J.sort_perm.map _).nodup_iff.mpr hnd)]
  simp only [mem_sort]

end Order

/-- **The order of the listing.** In every state of every run, the entries are printed in strictly increasing
job id if and only if of two entries the one with the lower address has the smaller id. -/
theorem printed_in_order_iff {maxJobID : ℤ} {entry : Entries} {ls : List Act} {s : Shell}
    (h : Run Step (start maxJobID entry) ls s) (now : ℕ) :
    ((s.jobs.printJobsList s.entry now).2.map JobLine.jobId).Pairwise (· < ·) ↔
      ∀ p ∈ s.jobs.jobsList, ∀ q ∈ s.jobs.jobsList, p < q → (s.entry p).jobId < (s.entry q).jobId :=
  increasing_lines_iff (IdInv.of_run h).nodup

/-- `sleep 9&` twice, with the objects at the addresses given. -/
def sleepsAt (ptr₁ ptr₂ : Ptr) : List Act :=
  [.line (sleepCmd true), .shell (quietAnswer 1), .shell (quietAnswer 1), .shell (quietAnswer 1),
    .shell { quietAnswer 1 with ptr := ptr₁ }, .line (sleepCmd true), .shell (quietAnswer 2),
    .shell (quietAnswer 2), .shell (quietAnswer 2), .shell { quietAnswer 2 with ptr := ptr₂ }]

theorem printed_in_order_iff_ascending : ∃ s, Run Step sevenShell (sleepsAt 10 20) s ∧
    (((s.jobs.printJobsList s.entry 0).2.map JobLine.jobId).Pairwise (· < ·) ↔
      ∀ p ∈ s.jobs.jobsList, ∀ q ∈ s.jobs.jobsList, p < q → (s.entry p).jobId < (s.entry q).jobId) := by
  obtain ⟨s, hs⟩ : ∃ s, exec step sevenShell (sleepsAt 10 20) = some s := ⟨_, rfl⟩
  exact ⟨s, Run.of_exec hs, printed_in_order_iff (Run.of_exec hs) 0⟩

/-- The second job lies below the first: it is printed first. -/
theorem printed_out_of_order :
    ¬ ∀ (maxJobID : ℤ) (entry : Entries) (ls : List Act) (s : Shell) (now : ℕ),
      Run Step (start maxJobID entry) ls s →
        ((s.jobs.printJobsList s.entry now).2.map JobLine.jobId).Pairwise (· < ·) := by
  intro hall
  have hlist : (exec step sevenShell (sleepsAt 20 10)).map (fun s => (s.jobs.jobsList, s.ids)) =
      some ([20, 10], [1, 2]) := by decide
  obtain ⟨s, hs, heq⟩ := Option.map_eq_some_iff.mp hlist
  obtain ⟨hjobs, hids⟩ := Prod.mk.inj heq
  have hrun := Run.of_exec hs
  have hlow := (increasing_lines_iff (IdInv.of_run hrun).nodup).mp (hall _ _ _ s 0 hrun)
    10 (by simp [hjobs]) 20 (by simp [hjobs]) (by decide)
  unfold Shell.ids ids at hids
  rw [hjobs] at hids
  simp only [List.map_cons, List.map_nil, List.cons.injEq, and_true] at hids
  omega

end OsHomework.Smash
