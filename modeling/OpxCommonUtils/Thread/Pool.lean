import OpxCommonUtils.Misc.Heap
import OpxCommonUtils.Misc.Steps
import Mathlib.Data.Fintype.Basic

/-!
# The thread pool (`src/std_thread_pool.cpp`)

Workers take jobs from a queue under a lock and wait on a condition when there are none. A worker is
a place in `worker_thread`; what `std_thread_pool_job_add` does under the lock is one step, and
so is each round of the loop of `do_shutdown`. The flag `shutdown` is written without the lock, so
every test of it is a step of its own. A signal wakes at least one of the workers that are blocked
in the wait, if there is one, and a worker may also wake without a signal.
-/

namespace OpxCommonUtils.Thread

/-- `std_thread_pool_job_t` (`std_thread_pool.h:31-49`). -/
structure StdThreadPoolJob where
  context : Ptr
  funct : Ptr
  freeJobFunc : Ptr
  deriving DecidableEq, Repr

/-- A job that was accepted. For the statements it also tells how many were accepted before it. -/
structure Job where
  ticket : Nat
  job : StdThreadPoolJob
  deriving DecidableEq, Repr

/-- A call of a function of a job with its context, which has returned. -/
inductive Call where
  | funct (j : Job)
  | free (j : Job)
  deriving DecidableEq, Repr

/-- The job a call is for. -/
def Call.job : Call → Job
  | .funct j => j
  | .free j => j

/-- Where a worker is in `worker_thread` and `dequeue`. -/
inductive Pc where
  /-- Before the first `lock`. -/
  | start
  /-- At the test of the loop. -/
  | test
  /-- At the test of `shutdown` in `dequeue`. -/
  | dequeue
  /-- At `jobs.size()` in `dequeue`. -/
  | take
  /-- In `funct`. -/
  | run (j : Job)
  /-- At the test of `free_job_func`, or in it. -/
  | release (j : Job)
  /-- Before the `lock` of `dequeue`. -/
  | relock
  /-- At the last line of `dequeue`. -/
  | again
  /-- Before the wait. -/
  | wait
  /-- In the wait. -/
  | blocked
  /-- In the wait, about to take the lock again. -/
  | woken
  /-- Before the last `unlock`. -/
  | leave
  /-- `worker_thread` has returned. -/
  | done
  deriving DecidableEq, Repr

namespace Pc

/-- The worker has the lock. -/
def locked : Pc → Bool
  | test | dequeue | take | again | wait | leave => true
  | start | run _ | release _ | relock | blocked | woken | done => false

/-- What the worker does next locks, waits on or reads the pool. -/
def touches : Pc → Bool
  | run _ | release _ | done => false
  | start | test | dequeue | take | relock | again | wait | blocked | woken | leave => true

/-- The job the worker has, and whether its `funct` has returned. -/
def held : Pc → Option (Job × Bool)
  | run j => some (j, false)
  | release j => some (j, true)
  | start | test | dequeue | take | relock | again | wait | blocked | woken | leave | done => none

end Pc

/-- Where the caller of `std_thread_pool_delete` is: before the call, in the loop of `do_shutdown`
after some rounds, after the lock was destroyed, and after the return. -/
inductive Deleter where
  | idle
  | signals (ix : Nat)
  | destroyed
  | returned
  deriving DecidableEq, Repr

/-- A pool of `n` workers: the queue, the flag, the worker that has the lock and the places of all.
For the statements it also has the jobs accepted and those taken from the queue so far, the calls
made for them, and the jobs that were accepted when `std_thread_pool_delete` was called. -/
structure Pool (n : Nat) where
  jobs : List Job
  shutdown : Bool
  owner : Option (Fin n)
  workers : Fin n → Pc
  deleter : Deleter
  accepted : List Job
  taken : List Job
  log : List Call
  called : List Job
  deriving DecidableEq

/-- A pool whose threads have been created (`std_thread_pool_create`,
`std_thread_pool.cpp:125-148`). -/
def Pool.init (n : Nat) : Pool n :=
  ⟨[], false, none, fun _ => .start, .idle, [], [], [], []⟩

/-- The steps. `woken` are the workers that wake if the step signals. -/
inductive Label (n : Nat) where
  /-- A call of `std_thread_pool_job_add`; `stored` tells whether `push_back` succeeds. -/
  | jobAdd (job : StdThreadPoolJob) (stored : Bool) (woken : Finset (Fin n))
  /-- A step of a worker. -/
  | worker (w : Fin n) (woken : Finset (Fin n))
  /-- A worker wakes without a signal. -/
  | wake (w : Fin n)
  /-- `std_thread_pool_delete` is called and sets the flag. -/
  | shutdown
  /-- A round of the loop of `do_shutdown`. -/
  | signal (woken : Finset (Fin n))
  /-- The condition and the lock are destroyed. -/
  | destroy
  /-- The sleep is over, the pool is deleted and `std_thread_pool_delete` returns. -/
  | delete
  deriving DecidableEq

namespace Pool

variable {n : Nat}

/-- The workers in the wait. -/
def blocked (s : Pool n) : Finset (Fin n) := Finset.univ.filter fun w => s.workers w = .blocked

/-- The worker goes on at another place. -/
def goto (s : Pool n) (w : Fin n) (pc : Pc) : Pool n :=
  { s with workers := fun w' => if w' = w then pc else s.workers w' }

/-- `signal` (`std_thread_pool.cpp:52-54`) wakes some of the blocked workers, and at least one if
there are any. -/
def signal (s : Pool n) (woken : Finset (Fin n)) : Option (Pool n) :=
  if woken ⊆ s.blocked ∧ (woken = ∅ → s.blocked = ∅) then
    some { s with workers := fun w => if w ∈ woken then .woken else s.workers w }
  else none

/-- `lock` (`std_thread_pool.cpp:55-57`). -/
def lock (s : Pool n) (w : Fin n) (pc : Pc) : Option (Pool n) :=
  if s.owner = none then some ({ s with owner := some w }.goto w pc) else none

/-- `unlock` (`std_thread_pool.cpp:58-60`), also as the first part of the wait. -/
def unlock (s : Pool n) (w : Fin n) (pc : Pc) : Pool n := { s with owner := none }.goto w pc

/-- The critical section of `add_work` (`std_thread_pool.cpp:64-75`). -/
def addWork (s : Pool n) (job : StdThreadPoolJob) (stored : Bool) (woken : Finset (Fin n)) :
    Option (Pool n) :=
  let j : Job := ⟨s.accepted.length, job⟩
  if stored then
    { s with jobs := s.jobs ++ [j], accepted := s.accepted ++ [j] }.signal woken
  else some s

/-- A step of `worker_thread` (`std_thread_pool.cpp:113-122`) with `dequeue`
(`std_thread_pool.cpp:91-111`). -/
def workerStep (s : Pool n) (w : Fin n) (woken : Finset (Fin n)) : Option (Pool n) :=
  match s.workers w with
  | .start => s.lock w .test
  | .test => some (if s.shutdown then s.goto w .leave else s.goto w .dequeue)
  -- `dequeue` answers false and the worker waits, although the pool is shut down
  | .dequeue => if s.shutdown then (s.goto w .wait).signal woken else some (s.goto w .take)
  | .take =>
    match s.jobs with
    | [] => some (s.goto w .again)
    | j :: jobs =>
      let s := { s with jobs := jobs, taken := s.taken ++ [j] }.unlock w (.run j)
      if jobs.length + 1 > 1 then s.signal woken else some s
  | .run j => some ({ s with log := s.log ++ [Call.funct j] }.goto w (.release j))
  | .release j =>
    if j.job.freeJobFunc ≠ NULL then some ({ s with log := s.log ++ [Call.free j] }.goto w .relock)
    else some (s.goto w .relock)
  | .relock => s.lock w .again
  | .again => some (if s.jobs.length > 0 then s.goto w .test else s.goto w .wait)
  | .wait => some (s.unlock w .blocked)
  | .woken => s.lock w .test
  | .leave => some (s.unlock w .done)
  | .blocked | .done => none

/-- A step of the system. What would touch the pool once it is deleted is no step; nor does anyone
add a job then. -/
def step (l : Label n) (s : Pool n) : Option (Pool n) :=
  match l with
  | .jobAdd job stored woken =>
    if s.deleter = .returned ∨ s.owner ≠ none then none else s.addWork job stored woken
  | .worker w woken =>
    if s.deleter = .returned ∧ (s.workers w).touches then none else s.workerStep w woken
  | .wake w =>
    if s.deleter ≠ .returned ∧ s.workers w = .blocked then some (s.goto w .woken) else none
  | .shutdown =>
    if s.deleter = .idle then
      some { s with shutdown := true, deleter := .signals 0, called := s.accepted }
    else none
  | .signal woken =>
    match s.deleter with
    | .signals ix =>
      if ix < n ∧ s.owner = none then { s with deleter := .signals (ix + 1) }.signal woken else none
    | _ => none
  | .destroy => if s.deleter = .signals n then some { s with deleter := .destroyed } else none
  | .delete => if s.deleter = .destroyed then some { s with deleter := .returned } else none

/-- The calls made for a job, in order. -/
def calls (s : Pool n) (j : Job) : List Call := s.log.filter fun c => c.job = j

end Pool

/-- The calls a job is accepted for. -/
def Job.calls (j : Job) : List Call :=
  .funct j :: if j.job.freeJobFunc = NULL then [] else [.free j]

end OpxCommonUtils.Thread
