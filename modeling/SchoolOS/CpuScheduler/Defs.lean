import SchoolOS.Lib.InsertionSort
import SchoolOS.Lib.Stdio

/-!
# The CPU scheduling simulator

Reference: `Assignment3-3/cpu_scheduler.c`, `FCFS`, `SJF`, `SRTF` and `RR`.

A process list of length `n` is an array `Fin n → Process`. The four schedulers share the state
`Sim` of their tick loops. The Gantt chart is kept as the list of its slots: the index of the
process that was printed, or `none` for an empty slot. Times are mathematical integers. A scheduler
takes fuel for its tick loop and returns `none` if that runs out, or if `RR` writes behind its queue
array.
-/

namespace SchoolOS.CpuScheduler

open Function Loop

/-- `INT_MAX`. -/
def INT_MAX : ℤ := 2147483647

/-- `#define MAX_SIZE 1000` -/
def MAX_SIZE : ℕ := 1000

/-- `struct process`. The field `end` is called `ended`. -/
structure Process where
  pid : ℤ
  arrival : ℤ
  burst : ℤ
  remain : ℤ
  start : ℤ
  finish : ℤ
  waiting : ℤ
  turnaround : ℤ
  response : ℤ
  ended : ℤ
deriving DecidableEq

/-- The fields that are read from the input file. -/
def Process.input (p : Process) : ℤ × ℤ × ℤ := (p.pid, p.arrival, p.burst)

/-- `finish = time; end = 1;` -/
@[simps] def Process.exit (p : Process) (time : ℤ) : Process :=
  { p with finish := time, ended := 1 }

/-- The locals of a tick loop, with the slots printed so far. `running` is `none` for `-1`. -/
structure Sim (n : ℕ) where
  list : Fin n → Process
  finCnt : ℕ
  time : ℕ
  running : Option (Fin n)
  chart : List (Option (Fin n))

/-- What a scheduler leaves behind: the list, the Gantt chart and the return value. -/
structure Result (n : ℕ) where
  list : Fin n → Process
  chart : List (Option (Fin n))
  ret : ℤ

/-- The text of the Gantt chart. -/
def Result.gantt {n : ℕ} (r : Result n) : Bytes :=
  ascii "Gantt Chart:\n|" ++ (r.chart.flatMap fun slot =>
    match slot with
    | none => ascii " |"
    | some i => ascii " P" ++ decimal (r.list i).pid ++ ascii " |") ++ ascii "\n"

namespace Sim

variable {n : ℕ}

/-- The locals before the first tick. -/
def start (list : Fin n → Process) : Sim n := ⟨list, 0, 0, none, []⟩

/-- The loop condition `fin_cnt < len`. -/
def active (s : Sim n) : Bool := s.finCnt < n

/-- `if (running != -1 && list[running].remain == 0)`: record the finish time of the process that
has just used its last slot. -/
def complete (s : Sim n) : Sim n :=
  match s.running with
  | none => s
  | some i =>
    if (s.list i).remain = 0 then
      { s with
        list := update s.list i ((s.list i).exit s.time)
        running := none
        finCnt := s.finCnt + 1 }
    else s

/-- A slot without a runnable process. Nothing is printed once all processes have finished. -/
def idle (s : Sim n) : Sim n :=
  { s with
    chart := if s.finCnt < n then s.chart ++ [none] else s.chart
    time := s.time + 1 }

/-- `list[i].start = time; running = i;` -/
def dispatch (s : Sim n) (i : Fin n) : Sim n :=
  { s with list := update s.list i { s.list i with start := s.time }, running := some i }

/-- `running = i; if (list[running].burst == list[running].remain) list[running].start = time;` -/
def resume (s : Sim n) (i : Fin n) : Sim n :=
  if (s.list i).burst = (s.list i).remain then s.dispatch i else { s with running := some i }

/-- `list[running].remain -= 1; printf(" P%d |", …);` -/
def execute (s : Sim n) (i : Fin n) : Sim n :=
  { s with
    list := update s.list i { s.list i with remain := (s.list i).remain - 1 }
    chart := s.chart ++ [some i]
    time := s.time + 1 }

/-- A process that the selection loops consider: it has arrived and has not finished. -/
def Ready (s : Sim n) (i : Fin n) : Prop := (s.list i).arrival ≤ s.time ∧ (s.list i).ended = 0

instance (s : Sim n) (i : Fin n) : Decidable (s.Ready i) := inferInstanceAs (Decidable (_ ∧ _))

/-- The first runnable process. -/
def firstReady (s : Sim n) : Option (Fin n) := (List.finRange n).find? fun i => s.Ready i

/-- `min` and `min_idx` of a selection loop. -/
structure Scan (n : ℕ) where
  min : ℤ
  minIdx : Option (Fin n)

/-- One iteration of a selection loop. -/
def scanStep (s : Sim n) (key : Process → ℤ) (i : Fin n) (m : Scan n) : Scan n :=
  if s.Ready i ∧ m.min > key (s.list i) then ⟨key (s.list i), some i⟩ else m

/-- `min_idx`: the runnable process with the least key below `INT_MAX`. -/
def scanMin (s : Sim n) (key : Process → ℤ) : Option (Fin n) :=
  (forLoop (s.scanStep key) ⟨INT_MAX, none⟩).minIdx

/-- A tick of a scheduler that selects only when no process is running. After `complete`, `running`
is `-1` exactly if the test `running == -1 || list[running].remain == 0` of the source holds. -/
def nonPreemptiveTick (select : Sim n → Option (Fin n)) (s : Sim n) : Sim n :=
  let s := s.complete
  match s.running with
  | some i => s.execute i
  | none =>
    match select s with
    | none => s.idle
    | some i => (s.dispatch i).execute i

end Sim

variable {n : ℕ}

/-- `waiting`, `response` and `turnaround` as `FCFS` and `SJF` compute them. -/
def Process.timesFromStart (p : Process) : Process :=
  { p with
    waiting := p.start - p.arrival
    response := p.start - p.arrival
    turnaround := p.finish - p.arrival }

/-- `waiting`, `response` and `turnaround` as `SRTF` and `RR` compute them. -/
def Process.timesFromFinish (p : Process) : Process :=
  { p with
    waiting := p.finish - p.arrival - p.burst
    response := p.start - p.arrival
    turnaround := p.finish - p.arrival }

/-! ## `FCFS` -/

/-- The insertion sort of `FCFS`. -/
def sortByArrival (list : Fin n → Process) : Fin n → Process := insertionSort Process.arrival list

/-- One iteration of the tick loop of `FCFS`. -/
def fcfsTick (s : Sim n) : Sim n := s.nonPreemptiveTick Sim.firstReady

/-- The tick loop of `FCFS`. -/
def fcfsLoop (fuel : ℕ) (s : Sim n) : Option (Sim n) :=
  whileLoop Sim.active (fun s => some (fcfsTick s)) fuel s

/-- `FCFS`. -/
def fcfs (list : Fin n → Process) (fuel : ℕ) : Option (Result n) :=
  (fcfsLoop fuel (Sim.start (sortByArrival list))).map fun s =>
    ⟨fun i => (s.list i).timesFromStart, s.chart, n⟩

/-! ## `SJF` -/

/-- One iteration of the tick loop of `SJF`. -/
def sjfTick (s : Sim n) : Sim n := s.nonPreemptiveTick fun s => s.scanMin Process.burst

/-- The tick loop of `SJF`. -/
def sjfLoop (fuel : ℕ) (s : Sim n) : Option (Sim n) :=
  whileLoop Sim.active (fun s => some (sjfTick s)) fuel s

/-- `SJF`. -/
def sjf (list : Fin n → Process) (fuel : ℕ) : Option (Result n) :=
  (sjfLoop fuel (Sim.start list)).map fun s =>
    ⟨fun i => (s.list i).timesFromStart, s.chart, n⟩

/-! ## `SRTF` -/

/-- The locals of `SRTF`. -/
structure Srtf (n : ℕ) extends Sim n where
  contextSwitch : ℕ

/-- One iteration of the tick loop of `SRTF`. -/
def srtfTick (s : Srtf n) : Srtf n :=
  let sim := s.toSim.complete
  match sim.scanMin Process.remain with
  | none => ⟨sim.idle, s.contextSwitch⟩
  | some i =>
    ⟨(sim.resume i).execute i,
      if sim.running ≠ some i then s.contextSwitch + 1 else s.contextSwitch⟩

/-- The tick loop of `SRTF`. -/
def srtfLoop (fuel : ℕ) (s : Srtf n) : Option (Srtf n) :=
  whileLoop (fun s => s.active) (fun s => some (srtfTick s)) fuel s

/-- `SRTF`. -/
def srtf (list : Fin n → Process) (fuel : ℕ) : Option (Result n) :=
  (srtfLoop fuel ⟨Sim.start list, 0⟩).map fun s =>
    ⟨fun i => (s.list i).timesFromFinish, s.chart, s.contextSwitch⟩

/-! ## `RR` -/

/-- The locals of `RR`. `queue` holds the part of the array that has been written, so its length is
`tail`. -/
structure Rr (n : ℕ) extends Sim n where
  contextSwitch : ℕ
  queue : List (Fin n)
  head : ℕ
  prevRun : ℤ
  curSlice : ℤ

namespace Rr

/-- `queue[tail++] = i;` is defined while `tail` is below the size of the array. -/
def push (maxSize : ℕ) (s : Rr n) (i : Fin n) : Option (Rr n) :=
  if s.queue.length < maxSize then some { s with queue := s.queue ++ [i] } else none

/-- Push the processes that arrive at this tick. -/
def pushArrivals (maxSize : ℕ) (s : Rr n) : Option (Rr n) :=
  (List.finRange n).foldlM
    (fun s i => if (s.time : ℤ) = (s.list i).arrival then s.push maxSize i else some s) s

/-- The running process has used its last slot, or its slice. -/
def release (maxSize : ℕ) (s : Rr n) : Option (Rr n) :=
  match s.running with
  | none => some s
  | some i =>
    if (s.list i).remain = 0 then some { s with toSim := s.toSim.complete }
    else if s.curSlice = 0 then
      (s.push maxSize i).map fun s => { s with toSim := { s.toSim with running := none } }
    else some s

/-- Run process `i` for one slot. -/
def execute (s : Rr n) (i : Fin n) : Rr n :=
  { s with
    toSim := s.toSim.execute i
    prevRun := (i : ℕ)
    curSlice := s.curSlice - 1 }

/-- `running = queue[head++]` for process `i`. -/
def dispatch (s : Rr n) (i : Fin n) : Rr n :=
  { s with
    toSim := s.toSim.resume i
    head := s.head + 1
    contextSwitch := if s.prevRun ≠ (i : ℕ) then s.contextSwitch + 1 else s.contextSwitch }

/-- Run the process that is running, or the first one in the queue. -/
def choose (timeSlice : ℤ) (s : Rr n) : Rr n :=
  match s.running with
  | some i => s.execute i
  | none =>
    let s := { s with curSlice := timeSlice }
    match s.queue[s.head]? with
    | none => { s with toSim := s.toSim.idle }
    | some i => (s.dispatch i).execute i

/-- One iteration of the tick loop of `RR`. -/
def tick (maxSize : ℕ) (timeSlice : ℤ) (s : Rr n) : Option (Rr n) := do
  let s ← s.pushArrivals maxSize
  let s ← s.release maxSize
  some (s.choose timeSlice)

end Rr

/-- The tick loop of `RR`. -/
def rrLoop (maxSize : ℕ) (timeSlice : ℤ) (fuel : ℕ) (s : Rr n) : Option (Rr n) :=
  whileLoop (fun s => s.active) (Rr.tick maxSize timeSlice) fuel s

/-- `RR`, with a queue array of size `maxSize` (`MAX_SIZE` in the source) and with the values that
the uninitialised locals `prev_run` and `cur_slice` happen to have. -/
def rr (maxSize : ℕ) (prevRun curSlice timeSlice : ℤ) (list : Fin n → Process) (fuel : ℕ) :
    Option (Result n) :=
  (rrLoop maxSize timeSlice fuel ⟨Sim.start list, 0, [], 0, prevRun, curSlice⟩).map fun s =>
    ⟨fun i => (s.list i).timesFromFinish, s.chart, s.contextSwitch⟩

/-! ## `main` -/

/-- The `max_finish` of `main`. -/
def maxFinish (list : Fin n → Process) : ℤ :=
  forLoop (fun i m => if m > (list i).finish then m else (list i).finish) 0

/-- The list as `init_list` returns it: `remain` is the burst time and `end` is `0`. The fields that
the simulation computes are not initialised. -/
def Loaded (list : Fin n → Process) : Prop :=
  ∀ i, (list i).remain = (list i).burst ∧ (list i).ended = 0

end SchoolOS.CpuScheduler
