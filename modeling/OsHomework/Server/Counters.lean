import OsHomework.Server.Capacity
import OsHomework.Server.Isolation
import OsHomework.Server.Reported

/-!
# The counters of the threads

The threads of the server together with the requests that they handle. `requestHandle` takes two steps: it
counts the request, and it answers it.

* `Web`, `webStep`: besides the state of the server, the counters of each worker, whether its request has been
  counted yet, and what its calls of `requestHandle` have logged so far;
* `Counted`: the counters agree with the responses; `Balanced`: no connection is lost between the threads;
* **`thread_statistics`**: what the responses of a thread report, in every run.
-/

set_option autoImplicit false

namespace OsHomework.Server

open Finset

variable {n : ℕ}

/-- What a call of `requestHandle` gets. -/
structure Inputs where
  os : Os
  stack : Stack
  fuel : ℕ
  conn : Conn

/-- The server with the counters of its workers. -/
structure Web (n : ℕ) where
  sys : Sys n
  stats : Fin n → Stats
  /-- The request has been counted, and is not answered yet. -/
  begun : Fin n → Bool
  /-- The logs of the requests answered so far. -/
  responses : Fin n → List (List Event)

inductive WebLabel (n : ℕ) where
  /-- A statement outside of `requestHandle`. -/
  | sys (l : Label n)
  /-- The first statement of `requestHandle`. -/
  | enter (i : Fin n)
  /-- All the others. -/
  | leave (i : Fin n) (call : Inputs)

/-- The state before the first `Accept`. -/
def initWeb (n : ℕ) (capacity : ℤ) : Web n :=
  { sys := init n capacity, stats := fun i => ⟨i, 0, 0, 0⟩, begun := fun _ => false, responses := fun _ => [] }

/-- The worker is about to execute `requestHandle`. -/
def WorkerPc.inHandle : WorkerPc → Bool
  | .handle _ => true
  | _ => false

/-- A statement of `requestHandle`. -/
def Label.inHandle (s : Sys n) : Label n → Bool
  | .worker i _ => (s.worker i).inHandle
  | _ => false

def webStep (conf : Conf) (w : Web n) : WebLabel n → Option (Web n)
  | .sys l => if l.inHandle w.sys then none else (step conf w.sys l).map fun sys => { w with sys }
  | .enter i =>
    match w.sys.worker i, w.begun i, increment (w.stats i).handlerThreadReqCount with
    | .handle _, false, .ret count =>
      some { w with
        stats := Function.update w.stats i { w.stats i with handlerThreadReqCount := count }
        begun := Function.update w.begun i true }
    | _, _, _ => none
  | .leave i call =>
    match w.sys.worker i, w.begun i with
    | .handle j, true =>
      let x := answer call.os call.stack call.fuel call.conn (w.stats i) j.arrivalTime j.dispatchInterval
      match x.out with
      | .ret stats =>
        some {
          sys := w.sys.goto i (.decLock j)
          stats := Function.update w.stats i stats
          begun := Function.update w.begun i false
          responses := Function.update w.responses i (w.responses i ++ [x.log]) }
      | _ => none
    | _, _ => none

def WebStep (conf : Conf) (w : Web n) (l : WebLabel n) (w' : Web n) : Prop := webStep conf w l = some w'

/-- The two steps are those of `requestHandle`, and together they are the statement of the worker. -/
theorem requestHandle_steps (os : Os) (stack : Stack) (fuel : ℕ) (conn : Conn) (stats : Stats)
    (arrivalTime dispatchInterval : ℚ) :
    requestHandle os stack fuel conn stats arrivalTime dispatchInterval = (do
      let count ← Logged.lift (increment stats.handlerThreadReqCount)
      answer os stack fuel conn { stats with handlerThreadReqCount := count } arrivalTime dispatchInterval) := rfl

section Steps

variable {conf : Conf} {w w' : Web n} {l : WebLabel n}

theorem webStep_leave {i : Fin n} {call : Inputs} {j : Job} {stats : Stats} (hi : w.sys.worker i = .handle j)
    (hb : w.begun i = true)
    (ho : (answer call.os call.stack call.fuel call.conn (w.stats i) j.arrivalTime j.dispatchInterval).out =
      .ret stats) :
    webStep conf w (.leave i call) = some {
      sys := w.sys.goto i (.decLock j)
      stats := Function.update w.stats i stats
      begun := Function.update w.begun i false
      responses := Function.update w.responses i (w.responses i ++
        [(answer call.os call.stack call.fuel call.conn (w.stats i) j.arrivalTime j.dispatchInterval).log]) } := by
  simp only [webStep, hi, hb, ho]

/-- **What a step does.** -/
theorem WebStep.cases (h : WebStep conf w l w') :
    (∃ l' sys, Step conf w.sys l' sys ∧ l'.inHandle w.sys = false ∧ w' = { w with sys }) ∨
    (∃ i j, w.sys.worker i = .handle j ∧ w.begun i = false ∧
      w' = { w with
        stats := Function.update w.stats i
          { w.stats i with handlerThreadReqCount := (w.stats i).handlerThreadReqCount + 1 }
        begun := Function.update w.begun i true }) ∨
    ∃ i j x stats, w.sys.worker i = .handle j ∧ w.begun i = true ∧ Responds x (w.stats i) ∧ x.out = .ret stats ∧
      w' = {
        sys := w.sys.goto i (.decLock j)
        stats := Function.update w.stats i stats
        begun := Function.update w.begun i false
        responses := Function.update w.responses i (w.responses i ++ [x.log]) } := by
  unfold WebStep at h
  cases l with
  | sys l =>
    rw [webStep] at h
    split_ifs at h with hl
    obtain ⟨sys, hs, rfl⟩ := Option.map_eq_some_iff.mp h
    exact .inl ⟨l, sys, hs, Bool.eq_false_of_not_eq_true hl, rfl⟩
  | enter i =>
    simp only [webStep] at h
    split at h
    · next j count hi hb hc =>
      obtain rfl := increment_value hc
      obtain rfl := Option.some.inj h
      exact .inr (.inl ⟨i, j, hi, hb, rfl⟩)
    · cases h
  | leave i call =>
    simp only [webStep] at h
    split at h
    · next j hi hb =>
      split at h
      · next stats hout =>
        obtain rfl := Option.some.inj h
        exact .inr (.inr ⟨i, j, _, stats, hi, hb, responds_answer, hout, rfl⟩)
      · cases h
    · cases h

end Steps

/-! ## The counters of a thread -/

/-- The kinds of all the responses. -/
def kinds (responses : List (List Event)) : List Kind := responses.flatMap served

/-- The counters of a thread agree with its responses. -/
structure Counted (stats : Stats) (begun : Bool) (responses : List (List Event)) : Prop where
  req : stats.handlerThreadReqCount = responses.length + begun.toNat
  static : stats.handlerThreadStaticReqCount = (kinds responses).count .static
  dynamic : stats.handlerThreadDynamicReqCount = (kinds responses).count .dynamic
  one : ∀ log ∈ responses, (served log).length = 1
  reports : ∀ (k : ℕ) log, responses[k]? = some log → ∃ s, Reports (sent log) s ∧
    s.handlerThreadReqCount = k + 1 ∧
    s.handlerThreadStaticReqCount = (kinds (responses.take (k + 1))).count .static ∧
    s.handlerThreadDynamicReqCount = (kinds (responses.take (k + 1))).count .dynamic

section Counted

variable {stats s : Stats} {responses : List (List Event)} {x : Logged Event Stats}

theorem kinds_concat (log : List Event) : kinds (responses ++ [log]) = kinds responses ++ served log := by
  simp [kinds]

theorem counted_nil (id : ℤ) : Counted ⟨id, 0, 0, 0⟩ false [] :=
  ⟨rfl, rfl, rfl, fun _ h => by simp at h, fun _ _ h => by simp at h⟩

theorem Counted.enter (h : Counted stats false responses) :
    Counted { stats with handlerThreadReqCount := stats.handlerThreadReqCount + 1 } true responses :=
  { h with req := by simp [h.req] }

/-- **A response is added**, and its counter is raised. -/
theorem Counted.leave (h : Counted stats true responses) (hx : Responds x stats) (ho : x.out = .ret s) :
    Counted s false (responses ++ [x.log]) := by
  obtain ⟨kind, hkind, rfl, hreports⟩ := hx s ho
  have hstatic : (stats.count kind).handlerThreadStaticReqCount = (kinds (responses ++ [x.log])).count .static := by
    rw [kinds_concat, hkind, List.count_append]
    cases kind <;> simp [Stats.count, h.static]
  have hdynamic : (stats.count kind).handlerThreadDynamicReqCount = (kinds (responses ++ [x.log])).count .dynamic := by
    rw [kinds_concat, hkind, List.count_append]
    cases kind <;> simp [Stats.count, h.dynamic]
  have hreq : (stats.count kind).handlerThreadReqCount = responses.length + 1 := by
    cases kind <;> exact h.req
  refine ⟨?_, hstatic, hdynamic, fun log hlog => ?_, fun k log hk => ?_⟩
  · rw [hreq, List.length_append]
    simp
  · rcases List.mem_append.mp hlog with hlog | hlog
    · exact h.one log hlog
    · obtain rfl := List.mem_singleton.mp hlog
      rw [hkind]
      rfl
  · rcases Nat.lt_or_ge k responses.length with hlt | hge
    · rw [List.getElem?_append_left hlt] at hk
      obtain ⟨s, hs⟩ := h.reports k log hk
      refine ⟨s, ?_⟩
      rwa [List.take_append_of_le_length hlt]
    · -- the new one
      obtain rfl : k = responses.length := by
        have := (List.getElem?_eq_some_iff.mp hk).1
        simp at this
        omega
      obtain rfl : x.log = log := by simpa using hk
      refine ⟨_, hreports, hreq, ?_, ?_⟩
      · rw [hstatic, List.take_of_length_le (by simp)]
      · rw [hdynamic, List.take_of_length_le (by simp)]

theorem kind_counts (l : List Kind) : l.length = l.count .static + l.count .dynamic + l.count .error := by
  induction l with
  | nil => rfl
  | cons kind l ih =>
    cases kind <;> simp [ih] <;> omega

theorem length_kinds {l : List (List Event)} (h : ∀ log ∈ l, (served log).length = 1) :
    (kinds l).length = l.length := by
  induction l with
  | nil => rfl
  | cons log l ih =>
    rw [kinds, List.flatMap_cons, List.length_append, h log List.mem_cons_self, ← kinds,
      ih fun log' h' => h log' (List.mem_cons_of_mem _ h'), List.length_cons, Nat.add_comm]

end Counted

/-! ## The threads together -/

/-- A connection has been dequeued, and its request is not answered. -/
def WorkerPc.handed : WorkerPc → Bool
  | .unlock2 (some _) | .unlock _ | .handle _ => true
  | _ => false

section Handed

variable {conf : Conf} {env : Env n} {s t : Sys n} {i : Fin n} {l : Label n}

theorem mainStep_taken (hs : mainStep conf env s = some t) : t.taken = s.taken := by
  cases hm : s.main <;> simp only [mainStep, hm, headBody, randomBody, signalCond] at hs <;>
    (repeat' split at hs) <;> cases hs <;> rfl

/-- A statement outside of `requestHandle` leaves those who are in it, and hands over at most one connection. -/
def Hands (s t : Sys n) : Prop :=
  (∀ i, (s.worker i).inHandle → t.worker i = s.worker i) ∧
    (t.taken = s.taken ∧ (∀ i, (t.worker i).handed = (s.worker i).handed) ∨
      ∃ i x, t.taken = s.taken ++ [x] ∧ (s.worker i).handed = false ∧ (t.worker i).handed = true ∧
        ∀ j, j ≠ i → t.worker j = s.worker j)

theorem Hands.of_eq (hw : t.worker = s.worker) (ht : t.taken = s.taken) : Hands s t :=
  ⟨fun i _ => by rw [hw], .inl ⟨ht, fun i => by rw [hw]⟩⟩

theorem inHandle_update {pc : WorkerPc} (hw : t.worker = Function.update s.worker i pc)
    (hi : (s.worker i).inHandle = false) (j : Fin n) (hj : (s.worker j).inHandle) : t.worker j = s.worker j := by
  have hne : j ≠ i := by
    rintro rfl
    rw [hi] at hj
    cases hj
  rw [hw, Function.update_of_ne hne]

theorem Hands.of_update {pc : WorkerPc} (hw : t.worker = Function.update s.worker i pc)
    (hi : (s.worker i).inHandle = false) (hh : pc.handed = (s.worker i).handed) (ht : t.taken = s.taken) :
    Hands s t := by
  refine ⟨inHandle_update hw hi, .inl ⟨ht, fun j => ?_⟩⟩
  rw [hw]
  by_cases hj : j = i
  · rw [hj, Function.update_self, hh]
  · rw [Function.update_of_ne hj]

theorem hands_workerStep (h : Placed s) (hs : workerStep env s i = some t) (hi : (s.worker i).inHandle = false) :
    Hands s t := by
  cases hm : s.worker i with
  | look signalled =>
    simp only [workerStep, hm] at hs
    rcases lookBody_cases h.holds hs with ⟨-, rfl⟩ | ⟨q, j, -, -, -, rfl⟩
    · exact .of_update rfl hi (by rw [hm]; rfl) rfl
    · refine ⟨inHandle_update rfl hi, .inr ⟨i, _, rfl, by rw [hm]; rfl, ?_, fun k hk => Function.update_of_ne hk _ _⟩⟩
      simp [Sys.goto, WorkerPc.handed]
  | unlock2 element =>
    cases element <;> simp only [workerStep, hm, Option.some.injEq] at hs <;>
      (subst hs; exact .of_update rfl hi (by rw [hm]; rfl) rfl)
  | signal2 j =>
    simp only [workerStep, hm] at hs
    split at hs <;> cases hs <;> exact .of_update rfl hi (by rw [hm]; rfl) rfl
  | waiting => simp [workerStep, hm] at hs
  | handle j =>
    rw [hm] at hi
    cases hi
  | _ =>
    simp only [workerStep, hm] at hs
    try split_ifs at hs
    cases hs
    exact .of_update rfl hi (by rw [hm]; rfl) rfl

theorem Step.hands (hs : Step conf s l t) (h : Placed s) (hl : l.inHandle s = false) : Hands s t := by
  cases l with
  | main env =>
    have ht := mainStep_taken hs
    rcases (mainStep_frame h hs).2.1 with hw | ⟨i, hi, hw⟩
    · exact .of_eq hw ht
    · exact .of_update hw (by rw [hi]; rfl) (by rw [hi]; rfl) ht
  | worker i env => exact hands_workerStep h hs hl
  | spuriousMain =>
    simp only [Step, Server.step] at hs
    split at hs <;> cases hs
    exact .of_eq rfl rfl
  | spuriousWorker i =>
    simp only [Step, Server.step] at hs
    split_ifs at hs with hi
    cases hs
    rw [isWaiting_iff] at hi
    exact .of_update rfl (by rw [hi]; rfl) (by rw [hi]; rfl) rfl

end Handed

/-- A connection that has been dequeued and whose request is not counted yet. -/
def pending (w : Web n) (i : Fin n) : Bool := (w.sys.worker i).handed && !w.begun i

/-- The counters agree with the responses and with the connections taken. -/
structure Balanced (w : Web n) : Prop where
  placed : Placed w.sys
  counted : ∀ i, Counted (w.stats i) (w.begun i) (w.responses i)
  begun : ∀ i, w.begun i → (w.sys.worker i).inHandle
  sum : ∑ i, ((w.stats i).handlerThreadReqCount + (pending w i).toNat) = w.sys.taken.length

section Balanced

variable {conf : Conf} {w w' : Web n} {l : WebLabel n}

theorem balanced_init (n : ℕ) (capacity : ℤ) : Balanced (initWeb n capacity) where
  placed := placed_init n capacity
  counted i := counted_nil i
  begun i hi := by cases hi
  sum := by simp [initWeb, init, pending, WorkerPc.handed]

theorem handed_of_inHandle {pc : WorkerPc} (h : pc.inHandle) : pc.handed := by
  cases pc <;> first | rfl | cases h

theorem count_req (stats : Stats) (kind : Kind) :
    (stats.count kind).handlerThreadReqCount = stats.handlerThreadReqCount := by
  cases kind <;> rfl

/-- A statement outside of `requestHandle`. -/
theorem Balanced.sys {sys : Sys n} (h : Balanced w) (hplaced : Placed sys) (hhands : Hands w.sys sys) :
    Balanced { w with sys } := by
  obtain ⟨hin, hhanded⟩ := hhands
  refine ⟨hplaced, h.counted, fun i hi => ?_, ?_⟩
  · show (sys.worker i).inHandle
    rw [hin i (h.begun i hi)]
    exact h.begun i hi
  rcases hhanded with ⟨ht, hsame⟩ | ⟨i, x, ht, hold, hnew, hrest⟩
  · dsimp only
    rw [ht, ← h.sum]
    refine sum_congr rfl fun j _ => ?_
    unfold pending
    rw [hsame j]
  · have hb : w.begun i = false := by
      by_contra hb
      rw [handed_of_inHandle (h.begun i (by simpa using hb))] at hold
      cases hold
    have hsum := sum_exchange
      (F := fun j => (w.stats j).handlerThreadReqCount + ((pending { w with sys } j).toNat : ℤ))
      (G := fun j => (w.stats j).handlerThreadReqCount + ((pending w j).toNat : ℤ)) (i := i)
      fun j hj => by simp only [pending, hrest j hj]
    rw [h.sum] at hsum
    simp only [pending, hold, hnew, hb, Bool.not_false, Bool.and_true, Bool.toNat_true, Bool.toNat_false] at hsum
    dsimp only [pending]
    rw [ht, List.length_append, List.length_singleton]
    push_cast at hsum ⊢
    omega

/-- **The request is counted.** -/
theorem Balanced.enter {i : Fin n} {j : Job} (h : Balanced w) (hi : w.sys.worker i = .handle j)
    (hb : w.begun i = false) :
    Balanced { w with
      stats := Function.update w.stats i
        { w.stats i with handlerThreadReqCount := (w.stats i).handlerThreadReqCount + 1 }
      begun := Function.update w.begun i true } := by
  refine ⟨h.placed, fun k => ?_, fun k hk => ?_, ?_⟩
  · by_cases hki : k = i
    · subst hki
      have hc := h.counted k
      rw [hb] at hc
      simpa using hc.enter
    · simpa [Function.update_of_ne hki] using h.counted k
  · by_cases hki : k = i
    · rw [hki, hi]
      rfl
    · exact h.begun k (by simpa [Function.update_of_ne hki] using hk)
  · rw [← h.sum]
    refine sum_congr rfl fun k _ => ?_
    by_cases hki : k = i
    · subst hki
      simp [pending, hi, hb, WorkerPc.handed]
    · simp [pending, Function.update_of_ne hki]

/-- **The request is answered.** -/
theorem Balanced.leave {i : Fin n} {j : Job} {x : Logged Event Stats} {stats : Stats} (h : Balanced w)
    (hi : w.sys.worker i = .handle j) (hb : w.begun i = true) (hx : Responds x (w.stats i)) (ho : x.out = .ret stats) :
    Balanced {
      sys := w.sys.goto i (.decLock j)
      stats := Function.update w.stats i stats
      begun := Function.update w.begun i false
      responses := Function.update w.responses i (w.responses i ++ [x.log]) } := by
  have hreq : stats.handlerThreadReqCount = (w.stats i).handlerThreadReqCount := by
    obtain ⟨kind, -, rfl, -⟩ := hx stats ho
    exact count_req _ _
  refine ⟨h.placed.goto (by rw [hi]; rfl), fun k => ?_, fun k hk => ?_, ?_⟩
  · by_cases hki : k = i
    · subst hki
      have hc := h.counted k
      rw [hb] at hc
      simpa using hc.leave hx ho
    · simpa [Function.update_of_ne hki] using h.counted k
  · by_cases hki : k = i
    · subst hki
      simp at hk
    · have := h.begun k (by simpa [Function.update_of_ne hki] using hk)
      simpa [Sys.goto, Function.update_of_ne hki] using this
  · show _ = (w.sys.taken.length : ℤ)
    rw [← h.sum]
    refine sum_congr rfl fun k _ => ?_
    by_cases hki : k = i
    · subst hki
      simp [pending, hi, hb, hreq, Sys.goto, WorkerPc.handed]
    · simp [pending, Sys.goto, Function.update_of_ne hki]

theorem Balanced.step (h : Balanced w) (hs : WebStep conf w l w') : Balanced w' := by
  rcases hs.cases with ⟨l', sys, hsys, hl, rfl⟩ | ⟨i, j, hi, hb, rfl⟩ | ⟨i, j, x, stats, hi, hb, hx, ho, rfl⟩
  · exact h.sys (h.placed.step hsys) (hsys.hands h.placed hl)
  · exact h.enter hi hb
  · exact h.leave hi hb hx ho

theorem balanced_of_run {capacity : ℤ} {ls : List (WebLabel n)}
    (hrun : Run (WebStep conf) (initWeb n capacity) ls w) : Balanced w :=
  hrun.invariant (balanced_init n capacity) fun _ _ _ h hs => h.step hs

/-- The server does not notice that requests are counted: a run is a run of the threads. -/
theorem run_sys {capacity : ℤ} {ls : List (WebLabel n)} (hrun : Run (WebStep conf) (initWeb n capacity) ls w) :
    ∃ ls', Run (Step conf) (init n capacity) ls' w.sys := by
  induction hrun with
  | nil => exact ⟨[], .nil _⟩
  | snoc _ hs ih =>
    obtain ⟨ls', hls'⟩ := ih
    rcases hs.cases with ⟨l', sys, hsys, -, rfl⟩ | ⟨i, j, -, -, rfl⟩ | ⟨i, j, x, stats, hi, -, -, -, rfl⟩
    · exact ⟨_, hls'.snoc hsys⟩
    · exact ⟨ls', hls'⟩
    · refine ⟨_, hls'.snoc (l := .worker i (envOf 0 none)) ?_⟩
      simp only [Step, Server.step, workerStep, hi]

end Balanced

/-- **The statistics of the threads.** For any number of workers and every schedule: the response to the
`(k + 1)`-th request of a worker reports `k + 1` requests, and as many static and dynamic ones as that worker
has served up to this one; together with its error responses these are all. Whenever every connection
taken has been counted, the counts of all workers add up to the number of connections taken. -/
theorem thread_statistics {conf : Conf} {capacity : ℤ} {ls : List (WebLabel n)} {w : Web n}
    (hrun : Run (WebStep conf) (initWeb n capacity) ls w) :
    (∀ (i : Fin n) (k : ℕ) log, (w.responses i)[k]? = some log → ∀ output,
      reported "Stat-Thread-Count:: ".toList (sent log ++ output) = some (decimal (k + 1)) ∧
      reported "Stat-Thread-Static:: ".toList (sent log ++ output) =
        some (decimal ((kinds ((w.responses i).take (k + 1))).count .static)) ∧
      reported "Stat-Thread-Dynamic:: ".toList (sent log ++ output) =
        some (decimal ((kinds ((w.responses i).take (k + 1))).count .dynamic)) ∧
      k + 1 = (kinds ((w.responses i).take (k + 1))).count .static +
        (kinds ((w.responses i).take (k + 1))).count .dynamic +
        (kinds ((w.responses i).take (k + 1))).count .error) ∧
    ((∀ i, pending w i = false) → ∑ i, (w.stats i).handlerThreadReqCount = w.sys.taken.length) := by
  have h := balanced_of_run hrun
  refine ⟨fun i k log hk output => ?_, fun hpending => ?_⟩
  · obtain ⟨s, hs, hreq, hstatic, hdynamic⟩ := (h.counted i).reports k log hk
    obtain ⟨hcount, hst, hdyn⟩ := hs output
    rw [hreq] at hcount
    rw [hstatic] at hst
    rw [hdynamic] at hdyn
    refine ⟨hcount, hst, hdyn, ?_⟩
    have hlt := (List.getElem?_eq_some_iff.mp hk).1
    have hlen : (kinds ((w.responses i).take (k + 1))).length = ((w.responses i).take (k + 1)).length :=
      length_kinds fun log hlog => (h.counted i).one log (List.mem_of_mem_take hlog)
    rw [← kind_counts, hlen, List.length_take]
    omega
  · rw [← h.sum]
    refine sum_congr rfl fun i _ => ?_
    rw [hpending i]
    simp

/-- One worker answers one request. -/
theorem thread_statistics_first_request : ∃ w : Web 1, ∃ ls,
    Run (WebStep ⟨.dt, 0⟩) (initWeb 1 1) ls w ∧ ∃ log, (w.responses 0)[0]? = some log ∧
      reported "Stat-Thread-Count:: ".toList (sent log) = some (decimal 1) ∧
      ∑ i, (w.stats i).handlerThreadReqCount = 1 := by
  obtain ⟨w, hw, hi, hb, hstats, hresponses, htaken⟩ :
      ∃ w, exec (webStep ⟨.dt, 0⟩) (initWeb 1 1) ((arrive 1 none ++ take 0).map .sys ++ [.enter 0]) = some w ∧
        w.sys.worker 0 = .handle ⟨0, 0, 0 - 0⟩ ∧ w.begun 0 = true ∧
        w.stats 0 = { noStats with handlerThreadReqCount := 1 } ∧ w.responses 0 = [] ∧ w.sys.taken = [(0, 0)] :=
    ⟨_, rfl, rfl, rfl, rfl, rfl, rfl⟩
  rw [sub_self] at hi
  obtain ⟨stats, N, hN⟩ := (answer_iff (by constructor <;> norm_num [noStats])).mpr answered_root.2
  have hout : (answer noFiles (stackOf []) N getRoot (w.stats 0) 0 0).out = .ret stats := by
    rw [hstats]
    exact hN N le_rfl
  obtain ⟨w', hw', ⟨log, hlog⟩, hsys⟩ :
      ∃ w', webStep ⟨.dt, 0⟩ w (.leave 0 ⟨noFiles, stackOf [], N, getRoot⟩) = some w' ∧
        (∃ log, w'.responses 0 = [log]) ∧ w'.sys = w.sys.goto 0 (.decLock ⟨0, 0, 0⟩) :=
    ⟨_, webStep_leave hi hb hout, ⟨_, by simp only [Function.update_self, hresponses]; rfl⟩, rfl⟩
  have hrun : Run (WebStep ⟨.dt, 0⟩) (initWeb 1 1) _ w' := (Run.of_exec hw).snoc hw'
  have hzero : (w'.responses 0)[0]? = some log := by rw [hlog]; rfl
  obtain ⟨hreports, hsum⟩ := thread_statistics hrun
  refine ⟨w', _, hrun, log, hzero, ?_, ?_⟩
  · simpa using (hreports 0 0 log hzero []).1
  · rw [hsum fun i => ?_, hsys]
    · show ((w.sys.taken.length : ℕ) : ℤ) = 1
      rw [htaken]
      rfl
    · obtain rfl := Subsingleton.elim i 0
      simp [pending, hsys, Sys.goto, WorkerPc.handed]

end OsHomework.Server
