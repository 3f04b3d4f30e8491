import Mathlib.Algebra.Order.Ring.Int
import Mathlib.Data.List.Basic
import OsHomework.Lib.Outcome

/-!
# The jobs list of the shell

`JobsList` of `Commands.cpp`: a `std::list` of pointers to `JobEntry` objects, and `maxJobID`.

* `Entries`: the objects by their addresses. No object is ever deleted;
* `removeFirst`: `removeJobById` and `removeJobByPid`. Both read the id once more through the iterator
  they have just erased: the value read is a parameter;
* `scanLoop`: the second loop of `removeFinishedJobs`. An iterator is a position of the list, and the
  sentinel at `end()` is the position after the last: the list is circular, so that one step back from
  the first element is the sentinel;
* **`scanLoop_spec`**: the loop ends. It drops the finished jobs and finds the largest id of the others.
-/

set_option autoImplicit false

namespace OsHomework.Smash

inductive Status where
  | foreground | background | stopped | finished
  deriving DecidableEq

/-- The address of a `JobEntry`. -/
abbrev Ptr := ℕ

abbrev Pid := ℕ

structure JobEntry where
  jobId : ℤ
  jobProcessId : Pid
  jobStatus : Status
  cmdLine : List Char
  entryTime : ℕ

/-- What every address holds. -/
abbrev Entries := Ptr → JobEntry

/-- `setJobStatus`. -/
def setJobStatus (e : Entries) (job : Ptr) (st : Status) : Entries :=
  Function.update e job { e job with jobStatus := st }

section SetJobStatus

variable (e : Entries) (job p : Ptr) (st : Status)

@[simp] theorem setJobStatus_jobId : (setJobStatus e job st p).jobId = (e p).jobId := by
  by_cases h : p = job
  · subst h; simp [setJobStatus]
  · simp [setJobStatus, h]

@[simp] theorem setJobStatus_jobProcessId :
    (setJobStatus e job st p).jobProcessId = (e p).jobProcessId := by
  by_cases h : p = job
  · subst h; simp [setJobStatus]
  · simp [setJobStatus, h]

@[simp] theorem setJobStatus_self : (setJobStatus e job st job).jobStatus = st := by
  simp [setJobStatus]

end SetJobStatus

structure JobsList where
  jobsList : List Ptr
  maxJobID : ℤ

/-- `INT_MAX`. -/
def intMax : ℤ := 2 ^ 31 - 1

namespace JobsList

variable (e : Entries) (J : JobsList)

def getJobById (jobId : ℤ) : Option Ptr :=
  J.jobsList.find? fun p => (e p).jobId = jobId

def getNumberOfJobs : ℕ := J.jobsList.length

/-- The loop of `getMaxStoppedJobID`. -/
def getMaxStoppedJobID : ℤ :=
  J.jobsList.foldl (fun maxJobId p =>
    if (e p).jobStatus = .stopped ∧ (e p).jobId > maxJobId then (e p).jobId else maxJobId) 0

/-- Erase the first job that `sel` selects. The id is then compared with `maxJobID` through the erased
iterator: `stale` is what this reads. -/
def removeFirst (sel : Ptr → Bool) (stale : ℤ) : JobsList :=
  if J.jobsList.any sel then
    { jobsList := J.jobsList.eraseP sel
      maxJobID := if stale = J.maxJobID then J.maxJobID - 1 else J.maxJobID }
  else J

def removeJobById (jobId stale : ℤ) : JobsList :=
  J.removeFirst (fun p => (e p).jobId = jobId) stale

def removeJobByPid (pid : Pid) (stale : ℤ) : JobsList :=
  J.removeFirst (fun p => (e p).jobProcessId = pid) stale

/-- `addJob(job)`: an object that exists goes back to the list, unless its id is there. -/
def addJob (job : Ptr) : JobsList :=
  match J.getJobById e (e job).jobId with
  | none => { J with jobsList := J.jobsList ++ [job] }
  | some _ => J

/-- `jobsList.sort()` compares the elements, which are the addresses. -/
def sort : JobsList :=
  { J with jobsList := J.jobsList.mergeSort (fun p q => p ≤ q) }

@[simp] theorem removeFirst_jobsList (sel : Ptr → Bool) (stale : ℤ) :
    (J.removeFirst sel stale).jobsList = J.jobsList.eraseP sel := by
  unfold removeFirst
  split
  next => rfl
  next h =>
    symm
    apply List.eraseP_of_forall_not
    intro p hp hsel
    exact h (List.any_eq_true.mpr ⟨p, hp, hsel⟩)

theorem sort_perm : J.sort.jobsList.Perm J.jobsList :=
  List.mergeSort_perm _ _

end JobsList

/-! ## The scan of `removeFinishedJobs` -/

/-- `++it` in a list of `n` elements. -/
def next (n it : ℕ) : ℕ := (it + 1) % (n + 1)

/-- `it--`. -/
def prev (n it : ℕ) : ℕ := (it + n) % (n + 1)

theorem next_of_lt {n it : ℕ} (h : it < n) : next n it = it + 1 :=
  Nat.mod_eq_of_lt (by omega)

/-- `it--` and `++it` cancel, also at the first element. -/
theorem next_prev {n it : ℕ} (h : it ≤ n) : next n (prev n it) = it := by
  unfold next prev
  rw [Nat.mod_add_mod, show it + n + 1 = it + (n + 1) by omega, Nat.add_mod_right]
  exact Nat.mod_eq_of_lt (by omega)

/-- `for (auto it = begin(jobsList); it != end(jobsList); ++it)`, with the largest id so far. -/
def scanLoop (e : Entries) : ℕ → List Ptr → ℕ → ℤ → Outcome (List Ptr × ℤ)
  | 0, _, _, _ => .fuel
  | fuel + 1, l, it, maxId =>
    match l[it]? with
    | none => .ret (l, maxId)
    | some job =>
      if (e job).jobStatus = .finished then
        -- it = jobsList.erase(it); it--; continue
        let l' := l.eraseIdx it
        scanLoop e fuel l' (next l'.length (prev l'.length it)) maxId
      else
        scanLoop e fuel l (next l.length it) (if maxId < (e job).jobId then (e job).jobId else maxId)

/-- The jobs that the scan keeps. -/
def unfinished (e : Entries) (l : List Ptr) : List Ptr :=
  l.filter fun p => (e p).jobStatus ≠ .finished

/-- The ids of a list of jobs. -/
def ids (e : Entries) (l : List Ptr) : List ℤ :=
  l.map fun p => (e p).jobId

/-- The largest number of a list, 0 if there is none above. -/
def largest (l : List ℤ) : ℤ :=
  l.foldl max 0

theorem le_foldl_max (l : List ℤ) (m : ℤ) : m ≤ l.foldl max m ∧ ∀ i ∈ l, i ≤ l.foldl max m := by
  induction l generalizing m with
  | nil => simp
  | cons a l ih =>
    refine ⟨(le_max_left m a).trans (ih _).1, fun i hi => ?_⟩
    cases hi with
    | head => exact (le_max_right m _).trans (ih _).1
    | tail _ hi => exact (ih _).2 i hi

theorem le_largest {l : List ℤ} {i : ℤ} (h : i ∈ l) : i ≤ largest l :=
  (le_foldl_max l 0).2 i h

theorem largest_nonneg (l : List ℤ) : 0 ≤ largest l :=
  (le_foldl_max l 0).1

theorem largest_mem (l : List ℤ) : largest l = 0 ∨ largest l ∈ l := by
  have hfold : ∀ (l : List ℤ) (m : ℤ), l.foldl max m = m ∨ l.foldl max m ∈ l := by
    intro l
    induction l with
    | nil => exact fun _ => .inl rfl
    | cons a l ih =>
      intro m
      rcases ih (max m a) with h | h
      · rcases max_choice m a with hm | ha
        · exact .inl (h.trans hm)
        · exact .inr (by rw [List.foldl_cons, h, ha]; exact List.mem_cons_self)
      · exact .inr (List.mem_cons_of_mem a h)
  exact hfold l 0

/-- The largest id of a list of jobs is that of a job, if one is positive, and else 0. -/
theorem largest_ids (e : Entries) (l : List Ptr) :
    ((∃ p ∈ l, 0 < (e p).jobId) →
      (∃ p ∈ l, (e p).jobId = largest (ids e l)) ∧ ∀ p ∈ l, (e p).jobId ≤ largest (ids e l)) ∧
    ((∀ p ∈ l, (e p).jobId ≤ 0) → largest (ids e l) = 0) := by
  have hle : ∀ p ∈ l, (e p).jobId ≤ largest (ids e l) := fun p hp => le_largest (List.mem_map_of_mem hp)
  rcases largest_mem (ids e l) with hzero | hmem
  · refine ⟨?_, fun _ => hzero⟩
    rintro ⟨p, hp, hpos⟩
    have := hle p hp
    omega
  · obtain ⟨p, hp, hid⟩ := List.mem_map.mp hmem
    refine ⟨fun _ => ⟨⟨p, hp, hid⟩, hle⟩, fun hneg => ?_⟩
    have := hneg p hp
    have := largest_nonneg (ids e l)
    omega

theorem largest_append (l : List ℤ) (a : ℤ) : largest (l ++ [a]) = max (largest l) a := by
  simp [largest]

/-- From a position whose predecessors are all kept, the scan drops the finished jobs that follow. -/
theorem scanLoop_append (e : Entries) (post : List Ptr) (pre : List Ptr) (maxId : ℤ) {fuel : ℕ}
    (h : post.length < fuel) :
    scanLoop e fuel (pre ++ post) pre.length maxId =
      .ret (pre ++ unfinished e post, (ids e (unfinished e post)).foldl max maxId) := by
  induction post generalizing pre maxId fuel with
  | nil =>
    obtain ⟨fuel, rfl⟩ : ∃ k, fuel = k + 1 := ⟨fuel - 1, by simp at h; omega⟩
    simp [scanLoop, unfinished, ids]
  | cons job post ih =>
    obtain ⟨fuel, rfl⟩ : ∃ k, fuel = k + 1 := ⟨fuel - 1, by simp at h; omega⟩
    have hfuel : post.length < fuel := by simp at h; omega
    have hget : (pre ++ job :: post)[pre.length]? = some job := by simp
    unfold scanLoop
    simp only [hget]
    by_cases hfin : (e job).jobStatus = .finished
    · have herase : (pre ++ job :: post).eraseIdx pre.length = pre ++ post := by
        simp [List.eraseIdx_append_of_length_le]
      rw [if_pos hfin, herase, next_prev (by simp), ih pre maxId hfuel]
      simp [unfinished, hfin]
    · have hsplit : pre ++ job :: post = (pre ++ [job]) ++ post := by simp
      have hnext : next (pre ++ job :: post).length pre.length = (pre ++ [job]).length := by
        rw [next_of_lt (by simp)]
        simp
      rw [if_neg hfin, hnext, hsplit, ih _ _ hfuel, ← max_def_lt]
      simp [unfinished, ids, hfin]

/-- **The scan ends**: it keeps the jobs that are not finished, in order, and finds their largest id. -/
theorem scanLoop_spec (e : Entries) (l : List Ptr) :
    scanLoop e (l.length + 1) l 0 0 = .ret (unfinished e l, largest (ids e (unfinished e l))) := by
  simpa [largest] using scanLoop_append e l [] 0 (Nat.lt_succ_self _)

end OsHomework.Smash
