import Mathlib.Data.Fintype.Basic
import OsHomework.Lib.Run
import OsHomework.Server.Queue

/-!
# The threads of the web server

`main` of `server.c` with `handle_overloading`, and the workers of `thread_func`, as a transition
system. A step is one statement of one thread: to lock, to unlock, to wait, to signal, or the body of a
critical section. The bodies are single steps, since what they touch is touched by other threads under
the same mutex only.

* `MainPc`, `WorkerPc`: the statement a thread is about to execute, with the connection it holds;
* `Sys`: the shared variables, the owners of the two mutexes, and the program points. `accepted`, `closed`
  and `taken` record what has happened so far;
* `Env`: what a step gets from outside: the clock, `malloc`, `rand`, and the waiter that a signal wakes;
* `step`: a signal wakes exactly one waiter if there is one; a waiter may also wake up by itself.
-/

set_option autoImplicit false

namespace OsHomework.Server

/-- The overload policies; `other` is any other word on the command line. -/
inductive Policy where
  | block | dt | dh | bf | dynamic | random | other
  deriving DecidableEq

/-- What the command line fixes. -/
structure Conf where
  policy : Policy
  maxSize : ℤ

/-- An accepted connection. -/
structure Request where
  connfd : ℤ
  arrivalTime : ℚ

/-- A connection in the hands of a worker. -/
structure Job where
  connfd : ℤ
  arrivalTime : ℚ
  dispatchInterval : ℚ

/-- The next statement of `main`. -/
inductive MainPc where
  /-- `Accept`. -/
  | accept
  /-- The test for an overload, under `mutex2`. -/
  | testLock (c : Request)
  | test (c : Request)
  | testUnlock (c : Request) (isOverloaded : Bool)
  /-- `handle_overloading`. -/
  | overload (c : Request)
  /-- `block` and `bf`: the loop around `pthread_cond_wait(&cond2, &mutex2)`. -/
  | waitLock (c : Request)
  | waitTest (c : Request)
  | waiting (c : Request)
  | woken (c : Request)
  | waitUnlock (c : Request)
  /-- `dh`: drop the oldest. -/
  | headLock (c : Request)
  | headBody (c : Request)
  /-- `random`: drop at random. -/
  | randomLock (c : Request)
  | randomBody (c : Request)
  /-- The end of the two: enqueue the new connection, close it, or nothing is left to do. -/
  | dropUnlock (c : Request)
  | dropUnlockClose (c : Request)
  | dropUnlockDone
  /-- `Close(connfd)`. -/
  | close (c : Request)
  /-- `dynamic`: raise the capacity. -/
  | grow
  /-- Enqueue, under `mutex`, and signal `cond`. -/
  | enqueueLock (c : Request)
  | enqueueBody (c : Request)
  | enqueueUnlock
  | signal

/-- The next statement of a worker. -/
inductive WorkerPc where
  /-- The top of the loop. -/
  | lock
  /-- With `mutex`; `signalled` says that a signal has brought the worker here. -/
  | lock2 (signalled : Bool)
  /-- With both mutexes: dequeue and count. -/
  | look (signalled : Bool)
  | unlock2 (element : Option Job)
  /-- `pthread_cond_wait(&cond, &mutex)`. -/
  | wait
  | waiting
  | woken (signalled : Bool)
  | unlock (j : Job)
  /-- `requestHandle`, which returns: a step of the server. -/
  | handle (j : Job)
  | decLock (j : Job)
  | dec (j : Job)
  | decUnlock (j : Job)
  | signal2 (j : Job)
  | close (j : Job)

def WorkerPc.isWaiting : WorkerPc → Bool
  | .waiting => true
  | _ => false

inductive Thread (n : ℕ) where
  | main
  | worker (i : Fin n)
  deriving DecidableEq

/-- The state of the server with `n` workers. -/
structure Sys (n : ℕ) where
  queue : Queue
  /-- The `queue_size` of `main`. -/
  capacity : ℤ
  numOfCurrWorking : ℤ
  mutex : Option (Thread n)
  mutex2 : Option (Thread n)
  main : MainPc
  worker : Fin n → WorkerPc
  /-- Connections accepted so far. They are numbered by their accept events. -/
  accepted : ℕ
  /-- Connections closed so far. -/
  closed : List ℤ
  /-- Connections taken by workers so far. -/
  taken : List (Fin n × ℤ)

/-- What a step gets from outside. -/
structure Env (n : ℕ) where
  /-- `Time_GetSeconds()`. -/
  time : ℚ
  /-- The node that `malloc` returns. -/
  node : ℕ
  /-- The answers of `rand()`. -/
  rand : ℕ → ℕ
  /-- The waiter that a signal wakes. -/
  wakes : Option (Fin n)

inductive Label (n : ℕ) where
  | main (env : Env n)
  | worker (i : Fin n) (env : Env n)
  | spuriousMain
  | spuriousWorker (i : Fin n)

/-- The state before the first `Accept`. -/
def init (n : ℕ) (capacity : ℤ) : Sys n :=
  { queue := createQueue, capacity, numOfCurrWorking := 0, mutex := none, mutex2 := none,
    main := .accept, worker := fun _ => .lock, accepted := 0, closed := [], taken := [] }

/-- The condition of the wait loops of `handle_overloading`. -/
def waitCond {n : ℕ} (conf : Conf) (s : Sys n) : Prop :=
  match conf.policy with
  | .bf => s.queue.queueSize + s.numOfCurrWorking ≠ 0
  | _ => s.capacity ≤ s.queue.queueSize + s.numOfCurrWorking

instance {n : ℕ} (conf : Conf) (s : Sys n) : Decidable (waitCond conf s) := by
  unfold waitCond
  exact match conf.policy with
    | .bf => inferInstance
    | .block | .dt | .dh | .dynamic | .random | .other => inferInstance

/-- Where `handle_overloading` begins. -/
def handleOverloading (c : Request) : Policy → MainPc
  | .block | .bf => .waitLock c
  | .dt | .dynamic => .close c
  | .dh => .headLock c
  | .random => .randomLock c
  | .other => .enqueueLock c

/-- The loop of the random policy: the descriptors it closes, in this order. -/
def dropRandom (rand : ℕ → ℕ) : ℕ → ℕ → Queue → Outcome (Queue × List ℤ)
  | 0, _, q => .ret (q, [])
  | m + 1, i, q => do
    let (q, connfd) ← q.dequeueI (rand i % q.queueSize.toNat + 1 : ℕ)
    let (q, rest) ← dropRandom rand m (i + 1) q
    .ret (q, connfd :: rest)

/-- The body of the `dh` policy. -/
def headBody {n : ℕ} (env : Env n) (s : Sys n) (c : Request) : Option (Sys n) :=
  match s.queue.dequeue env.time with
  | .ret (queue, connfdToClose, _) =>
    if connfdToClose = -1 then
      some { s with queue, closed := s.closed ++ [c.connfd], main := .dropUnlockDone }
    else
      some { s with queue, closed := s.closed ++ [connfdToClose], main := .dropUnlock c }
  | _ => none

/-- The body of the `random` policy. -/
def randomBody {n : ℕ} (env : Env n) (s : Sys n) (c : Request) : Option (Sys n) :=
  if s.queue.queueSize = 0 then some { s with main := .dropUnlockClose c }
  else
    match dropRandom env.rand (s.queue.queueSize / 2).toNat 0 s.queue with
    | .ret (queue, connfds) =>
      some { s with queue, closed := s.closed ++ connfds, main := .dropUnlock c }
    | _ => none

/-- `pthread_cond_signal(&cond)`. -/
def signalCond {n : ℕ} (env : Env n) (s : Sys n) : Option (Sys n) :=
  match env.wakes with
  | some i =>
    if (s.worker i).isWaiting then
      some { s with worker := Function.update s.worker i (.woken true), main := .accept }
    else none
  | none => if ∀ i, (s.worker i).isWaiting = false then some { s with main := .accept } else none

/-- One statement of `main`. -/
def mainStep {n : ℕ} (conf : Conf) (env : Env n) (s : Sys n) : Option (Sys n) :=
  match s.main with
  | .accept =>
    some { s with main := .testLock ⟨s.accepted, env.time⟩, accepted := s.accepted + 1 }
  | .testLock c =>
    if s.mutex2 = none then some { s with mutex2 := some .main, main := .test c } else none
  | .test c =>
    some { s with
      main := .testUnlock c (decide (s.capacity ≤ s.queue.queueSize + s.numOfCurrWorking)) }
  | .testUnlock c isOverloaded =>
    some { s with mutex2 := none, main := if isOverloaded then .overload c else .enqueueLock c }
  | .overload c => some { s with main := handleOverloading c conf.policy }
  | .waitLock c =>
    if s.mutex2 = none then some { s with mutex2 := some .main, main := .waitTest c } else none
  | .waitTest c =>
    if waitCond conf s then some { s with mutex2 := none, main := .waiting c }
    else some { s with main := .waitUnlock c }
  | .waiting _ => none
  | .woken c =>
    if s.mutex2 = none then some { s with mutex2 := some .main, main := .waitTest c } else none
  | .waitUnlock c =>
    some { s with mutex2 := none, main := if conf.policy = .bf then .close c else .enqueueLock c }
  | .headLock c =>
    if s.mutex = none then some { s with mutex := some .main, main := .headBody c } else none
  | .headBody c => headBody env s c
  | .randomLock c =>
    if s.mutex = none then some { s with mutex := some .main, main := .randomBody c } else none
  | .randomBody c => randomBody env s c
  | .dropUnlock c => some { s with mutex := none, main := .enqueueLock c }
  | .dropUnlockClose c => some { s with mutex := none, main := .close c }
  | .dropUnlockDone => some { s with mutex := none, main := .accept }
  | .close c =>
    some { s with
      closed := s.closed ++ [c.connfd]
      main := if conf.policy = .dynamic then .grow else .accept }
  | .grow =>
    some { s with
      capacity := if s.capacity < conf.maxSize then s.capacity + 1 else s.capacity
      main := .accept }
  | .enqueueLock c =>
    if s.mutex = none then some { s with mutex := some .main, main := .enqueueBody c } else none
  | .enqueueBody c =>
    if env.node ∈ s.queue.allocated then none
    else
      match s.queue.enqueue env.node c.connfd c.arrivalTime with
      | .ret queue => some { s with queue, main := .enqueueUnlock }
      | _ => none
  | .enqueueUnlock => some { s with mutex := none, main := .signal }
  | .signal => signalCond env s

/-- Move a worker. -/
def Sys.goto {n : ℕ} (s : Sys n) (i : Fin n) (pc : WorkerPc) : Sys n :=
  { s with worker := Function.update s.worker i pc }

/-- The body of the critical section in which a worker takes a connection. -/
def lookBody {n : ℕ} (env : Env n) (s : Sys n) (i : Fin n) : Option (Sys n) :=
  match s.queue.dequeue env.time with
  | .ret (queue, element, times) =>
    if element = -1 then some ({ s with queue }.goto i (.unlock2 none))
    else
      some ({ s with
          queue
          numOfCurrWorking := s.numOfCurrWorking + 1
          taken := s.taken ++ [(i, element)] }.goto i
        (.unlock2 (some ⟨element, (times.getD (0, 0)).1, (times.getD (0, 0)).2⟩)))
  | _ => none

/-- One statement of a worker. -/
def workerStep {n : ℕ} (env : Env n) (s : Sys n) (i : Fin n) : Option (Sys n) :=
  match s.worker i with
  | .lock =>
    if s.mutex = none then some ({ s with mutex := some (.worker i) }.goto i (.lock2 false)) else none
  | .lock2 signalled =>
    if s.mutex2 = none then some ({ s with mutex2 := some (.worker i) }.goto i (.look signalled))
    else none
  | .look _ => lookBody env s i
  | .unlock2 none => some ({ s with mutex2 := none }.goto i .wait)
  | .unlock2 (some j) => some ({ s with mutex2 := none }.goto i (.unlock j))
  | .wait => some ({ s with mutex := none }.goto i .waiting)
  | .waiting => none
  | .woken signalled =>
    if s.mutex = none then some ({ s with mutex := some (.worker i) }.goto i (.lock2 signalled))
    else none
  | .unlock j => some ({ s with mutex := none }.goto i (.handle j))
  | .handle j => some (s.goto i (.decLock j))
  | .decLock j =>
    if s.mutex2 = none then some ({ s with mutex2 := some (.worker i) }.goto i (.dec j)) else none
  | .dec j => some ({ s with numOfCurrWorking := s.numOfCurrWorking - 1 }.goto i (.decUnlock j))
  | .decUnlock j => some ({ s with mutex2 := none }.goto i (.signal2 j))
  | .signal2 j =>
    -- only `main` waits for `cond2`
    match s.main with
    | .waiting c => some ({ s with main := .woken c }.goto i (.close j))
    | _ => some (s.goto i (.close j))
  | .close j => some ({ s with closed := s.closed ++ [j.connfd] }.goto i .lock)

/-- One step of the server. -/
def step {n : ℕ} (conf : Conf) (s : Sys n) : Label n → Option (Sys n)
  | .main env => mainStep conf env s
  | .worker i env => workerStep env s i
  | .spuriousMain =>
    match s.main with
    | .waiting c => some { s with main := .woken c }
    | _ => none
  | .spuriousWorker i => if (s.worker i).isWaiting then some (s.goto i (.woken false)) else none

/-- The step relation. -/
def Step {n : ℕ} (conf : Conf) (s : Sys n) (l : Label n) (t : Sys n) : Prop := step conf s l = some t

end OsHomework.Server
