import Mathlib.Data.Fintype.Basic
import Mathlib.Data.List.FinRange
import Xv6.Foundations.While

/-!
# The MLFQ simulator

The main loop of `mlfq.py`, with the jobs numbered by `Fin n`. The dictionaries are functions; a
queue, or the entries of `ioDone` for a time, that nobody has written is the empty list. Of the
output the lines "Run JOB" are kept, as `trace`.

`Abort` is every way in which the simulator can stop early: its own two checks, an assertion, or
the first element of an empty queue.
-/

namespace Xv6.Simulation.Mlfq

/-- The options of the simulator. -/
structure Options where
  numQueues : ℕ
  /-- The length of a time slice, for each queue. -/
  quantum : ℕ → ℤ
  /-- The number of time slices, for each queue. -/
  allotment : ℕ → ℤ
  boost : ℤ
  ioTime : ℤ
  stay : Bool
  iobump : Bool

/-- `hiQueue` -/
def Options.hiQueue (o : Options) : ℕ := o.numQueues - 1

/-- A job of `jlist`. -/
structure Spec where
  startTime : ℤ
  runTime : ℤ
  ioFreq : ℤ

/-- The entries of `job[j]`. -/
structure Job extends Spec where
  currPri : ℕ
  ticksLeft : ℤ
  allotLeft : ℤ
  timeLeft : ℤ
  doingIo : Bool
  firstRun : ℤ
  endTime : Option ℤ

/-- Why a job comes to its queue. -/
inductive Kind
  | jobBegins
  | ioDone
  deriving DecidableEq

/-- How the simulator stops early. -/
inductive Abort
  | currPri
  | timeLeft
  | assertion
  | index
  deriving DecidableEq

/-- The variables of the main loop. -/
structure State (n : ℕ) where
  job : Fin n → Job
  queue : ℕ → List (Fin n)
  ioDone : ℤ → List (Fin n × Kind)
  currTime : ℤ
  finishedJobs : ℕ
  /-- The time and the job of each line "Run JOB", the last one first. -/
  trace : List (ℤ × Fin n)

/-- `FindQueue`, from the queue `q` down; `none` is -1. -/
def findQueue {n : ℕ} (queue : ℕ → List (Fin n)) : ℕ → Option ℕ
  | 0 => if 0 < (queue 0).length then some 0 else none
  | q + 1 => if 0 < (queue (q + 1)).length then some (q + 1) else findQueue queue q

/-- The entries of a job before the loop. -/
def Spec.job (o : Options) (x : Spec) : Job :=
  { x with
    currPri := o.hiQueue
    ticksLeft := o.quantum o.hiQueue
    allotLeft := o.allotment o.hiQueue
    timeLeft := x.runTime
    doingIo := false
    firstRun := -1
    endTime := none }

/-- Before the loop: every job has its entry in `ioDone`. -/
def State.start {n : ℕ} (o : Options) (spec : Fin n → Spec) : State n where
  job j := (spec j).job o
  queue _ := []
  ioDone := (List.finRange n).foldl (fun ioDone j =>
    Function.update ioDone (spec j).startTime (ioDone (spec j).startTime ++ [(j, .jobBegins)]))
    fun _ => []
  currTime := 0
  finishedJobs := 0
  trace := []

namespace State

variable {n : ℕ} (o : Options) (s : State n)

def setJob (j : Fin n) (x : Job) : State n := { s with job := Function.update s.job j x }

def setQueue (q : ℕ) (l : List (Fin n)) : State n :=
  { s with queue := Function.update s.queue q l }

/-- The priority boost. -/
def boost : State n :=
  if 0 < o.boost ∧ s.currTime ≠ 0 ∧ s.currTime % o.boost = 0 then
    { s with
      queue := (List.range (o.numQueues - 1)).foldl (fun queue q =>
        Function.update (Function.update queue o.hiQueue
          (queue o.hiQueue ++ (queue q).filter fun j => !(s.job j).doingIo)) q []) s.queue
      job := fun j =>
        if 0 < (s.job j).timeLeft then
          { s.job j with
            currPri := o.hiQueue
            ticksLeft := o.quantum o.hiQueue
            allotLeft := o.allotment o.hiQueue }
        else s.job j }
  else s

/-- An I/O is done, or a job begins. -/
def ioComplete (x : Fin n × Kind) : State n :=
  let q := (s.job x.1).currPri
  (s.setJob x.1 { s.job x.1 with doingIo := false }).setQueue q
    (if o.iobump = false ∨ x.2 = .jobBegins then s.queue q ++ [x.1] else x.1 :: s.queue q)

/-- The check for I/Os that are done now. -/
def ioCompletes : State n := (s.ioDone s.currTime).foldl (ioComplete o) s

/-- `assert(queue[q].pop(0) == j)` -/
def pop (q : ℕ) (j : Fin n) : Except Abort (State n) :=
  match s.queue q with
  | [] => .error .index
  | x :: l => if x = j then .ok (s.setQueue q l) else .error .assertion

/-- The job has ended. -/
def finish (q : ℕ) (j : Fin n) : Except Abort (State n) :=
  State.pop { s.setJob j { s.job j with endTime := some s.currTime } with
    finishedJobs := s.finishedJobs + 1 } q j

/-- The job issues an I/O. -/
def issueIo (q : ℕ) (j : Fin n) : Except Abort (State n) := do
  let s ← s.pop q j
  let x := { s.job j with doingIo := true }
  let s := s.setJob j
    (if o.stay then { x with ticksLeft := o.quantum q, allotLeft := o.allotment q } else x)
  let futureTime := s.currTime + o.ioTime
  return { s with
    ioDone := Function.update s.ioDone futureTime (s.ioDone futureTime ++ [(j, .ioDone)]) }

/-- The queue and the entries of a job `x` of the queue `q` at the end of its time slice. -/
def nextSlice (q : ℕ) (x : Job) : ℕ × Job :=
  let allotLeft := x.allotLeft - 1
  if allotLeft = 0 then
    if 0 < q then
      (q - 1, { x with
        currPri := q - 1, ticksLeft := o.quantum (q - 1), allotLeft := o.allotment (q - 1) })
    else (q, { x with ticksLeft := o.quantum q, allotLeft := o.allotment q })
  else (q, { x with ticksLeft := o.quantum q, allotLeft := allotLeft })

/-- The time slice of the job ends. -/
def endQuantum (q : ℕ) (j : Fin n) (issuedIo : Bool) : Except Abort (State n) := do
  let s ← if issuedIo then .ok s else s.pop q j
  let (q', x) := nextSlice o q (s.job j)
  let s := s.setJob j x
  return if issuedIo then s else s.setQueue q' (s.queue q' ++ [j])

/-- The rest of a round, in which the job `j` of the queue `q` has run. -/
def ran (q : ℕ) (j : Fin n) : Except Abort (State n) :=
  let x := s.job j
  if x.timeLeft < 0 then .error .timeLeft
  else
    let s := { s with currTime := s.currTime + 1 }
    if x.timeLeft = 0 then s.finish q j
    else do
      let issuedIo := decide (0 < x.ioFreq ∧ (x.runTime - x.timeLeft) % x.ioFreq = 0)
      let s ← if issuedIo then s.issueIo o q j else .ok s
      -- `ticksLeft` is the value from before the I/O
      if x.ticksLeft = 0 then s.endQuantum o q j issuedIo else .ok s

/-- The job `j` has run for a tick, as far as the line "Run JOB". -/
def charge (j : Fin n) : State n :=
  let x := s.job j
  { s.setJob j { x with
      timeLeft := x.timeLeft - 1
      ticksLeft := x.ticksLeft - 1
      firstRun := if x.firstRun = -1 then s.currTime else x.firstRun } with
    trace := (s.currTime, j) :: s.trace }

/-- The first job of the queue `q` runs. -/
def run (q : ℕ) : Except Abort (State n) :=
  match s.queue q with
  | [] => .error .index
  | j :: _ =>
    if (s.job j).currPri ≠ q then .error .currPri
    else (s.charge j).ran o q j

/-- A round of the main loop. -/
def round : Except Abort (State n) :=
  let s := (s.boost o).ioCompletes o
  match findQueue s.queue o.hiQueue with
  | none => .ok { s with currTime := s.currTime + 1 }
  | some q => s.run o q

end State

/-- The simulator, with at most `fuel` rounds. -/
def simulate {n : ℕ} (o : Options) (spec : Fin n → Spec) (fuel : ℕ) :
    Except Abort (Option (State n)) :=
  whileLoop (fun s => decide (s.finishedJobs < n)) (State.round o) fuel (State.start o spec)

end Xv6.Simulation.Mlfq
