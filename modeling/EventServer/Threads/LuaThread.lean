import EventServer.Lib.Transition
import EventServer.Lib.Tokens

/-!
# Background tasks

Any number of threads post tasks to any number of workers; every worker runs
`WorkProc`, and any number of calls of `CLuaThreadMgr::Update` collect what was
executed for a coroutine. A step is one critical section, or one access to a
semaphore or to the pointer to it. The logs at the end of the state are not in
the program: they record what was appended, executed and consumed.
-/
namespace EventServer.Threads

open EventServer.Lib.Transition EventServer.Lib.Tokens

/-- The address of a `lua_State`. -/
abbrev LuaState := Nat

/-- A `_LuaTask`; `id` tells apart what was allocated at different times. -/
structure LuaTask where
  id : Nat
  co : Option LuaState
  main : LuaState
  deriving DecidableEq

/-- Where `WorkProc` stands. -/
inductive WorkerPhase where
  /-- Before `_event.Initialize()`. -/
  | starting
  /-- At the top of the loop. -/
  | checking
  /-- The queue was empty, `Wait()` is called. -/
  | idle
  /-- In `sem_wait()`. -/
  | waiting
  /-- A task was popped. -/
  | holding (t : LuaTask)
  /-- It was executed. -/
  | executed (t : LuaTask)
  /-- The loop was left. -/
  | exited
  deriving DecidableEq

/-- A `CLuaThread`: `sem` is `pSem`, with the count of the semaphore behind it. -/
structure LuaThread where
  tasks : List LuaTask
  maxTasks : Nat
  sem : Option Nat
  phase : WorkerPhase

/-- The thread object as `GetThread` makes it known, before `WorkProc` runs. -/
def LuaThread.created : LuaThread := ⟨[], 10000, none, .starting⟩

/-- Where a thread stands in `PostTask`, with its arguments. -/
inductive Poster (W : Type) where
  | outside
  /-- `size_tasks` was taken. -/
  | counted (w : W) (co : Option LuaState) (main : LuaState) (sizeTasks : Nat)
  /-- The limit was checked. -/
  | admitted (w : W) (co : Option LuaState) (main : LuaState)
  /-- The task was appended, `SetEvent()` is called. -/
  | pushed (w : W)
  /-- `pSem` was not null. -/
  | posting (w : W)

/-- A call of `Update(co)` and what is left of `lstRet`. -/
inductive Updater where
  | outside
  | working (co : LuaState) (lstRet : List LuaTask)

def Updater.lstRet : Updater → List LuaTask
  | .outside => []
  | .working _ lst => lst

/-- A task that `Update(co)` is through with: resumed, or discarded because its coroutine was not
suspended; then unreferenced and deleted. -/
structure Consumed where
  task : LuaTask
  co : LuaState
  resumed : Bool

structure Sys (W P U : Type) where
  worker : W → LuaThread
  poster : P → Poster W
  updater : U → Updater
  poolsRet : List LuaTask
  /-- Ids from here on are unused. -/
  next : Nat
  appended : W → List LuaTask
  executed : W → List LuaTask
  consumed : List Consumed
  /-- Executed tasks without a coroutine, deleted by their worker. -/
  deleted : List LuaTask

namespace Sys

variable {W P U : Type}

def start : Sys W P U where
  worker _ := .created
  poster _ := .outside
  updater _ := .outside
  poolsRet := []
  next := 0
  appended _ := []
  executed _ := []
  consumed := []
  deleted := []

variable [DecidableEq W] [DecidableEq P] [DecidableEq U]

def setWorker (s : Sys W P U) (w : W) (th : LuaThread) : Sys W P U :=
  { s with worker := Function.update s.worker w th }

def setPoster (s : Sys W P U) (p : P) (x : Poster W) : Sys W P U :=
  { s with poster := Function.update s.poster p x }

def setUpdater (s : Sys W P U) (u : U) (x : Updater) : Sys W P U :=
  { s with updater := Function.update s.updater u x }

/-- One step of one thread. `count₀` is the count a semaphore is created with: 0 from `sem_init`,
1 from `sem_open`. -/
inductive Step (count₀ : Nat) : Sys W P U → Sys W P U → Prop where
  -- WorkProc
  | semInit {s w} (h : (s.worker w).phase = .starting) :
      Step count₀ s (s.setWorker w { s.worker w with sem := some count₀, phase := .checking })
  | semInitFails {s w} (h : (s.worker w).phase = .starting) :
      Step count₀ s (s.setWorker w { s.worker w with phase := .checking })
  | pop {s w t rest} (h : (s.worker w).phase = .checking) (ht : (s.worker w).tasks = t :: rest) :
      Step count₀ s (s.setWorker w { s.worker w with tasks := rest, phase := .holding t })
  | popNone {s w} (h : (s.worker w).phase = .checking) (ht : (s.worker w).tasks = []) :
      Step count₀ s (s.setWorker w { s.worker w with phase := .idle })
  | waitNull {s w} (h : (s.worker w).phase = .idle) (hs : (s.worker w).sem = none) :
      Step count₀ s (s.setWorker w { s.worker w with phase := .exited })
  | semWait {s w n} (h : (s.worker w).phase = .idle) (hs : (s.worker w).sem = some n) :
      Step count₀ s (s.setWorker w { s.worker w with phase := .waiting })
  | wake {s w n} (h : (s.worker w).phase = .waiting) (hs : (s.worker w).sem = some (n + 1)) :
      Step count₀ s (s.setWorker w { s.worker w with sem := some n, phase := .checking })
  | execute {s w t} (h : (s.worker w).phase = .holding t) :
      Step count₀ s { s.setWorker w { s.worker w with phase := .executed t } with
        executed := Function.update s.executed w (s.executed w ++ [t]) }
  | postTaskReturn {s w t} (h : (s.worker w).phase = .executed t) (hco : t.co.isSome) :
      Step count₀ s { s.setWorker w { s.worker w with phase := .checking } with
        poolsRet := s.poolsRet ++ [t] }
  | deleteTask {s w t} (h : (s.worker w).phase = .executed t) (hco : ¬ t.co.isSome) :
      Step count₀ s { s.setWorker w { s.worker w with phase := .checking } with
        deleted := s.deleted ++ [t] }
  -- PostTask
  | getTaskCount {s p} (w : W) (co : Option LuaState) (main : LuaState)
      (h : s.poster p = .outside) :
      Step count₀ s (s.setPoster p (.counted w co main (s.worker w).tasks.length))
  | overflow {s p w co main n} (h : s.poster p = .counted w co main n)
      (hn : (s.worker w).maxTasks ≤ n) : Step count₀ s (s.setPoster p .outside)
  | belowLimit {s p w co main n} (h : s.poster p = .counted w co main n)
      (hn : n < (s.worker w).maxTasks) : Step count₀ s (s.setPoster p (.admitted w co main))
  | pushBack {s p w co main} (h : s.poster p = .admitted w co main) :
      Step count₀ s
        { (s.setWorker w { s.worker w with tasks := (s.worker w).tasks ++ [⟨s.next, co, main⟩] }
            ).setPoster p (.pushed w) with
          next := s.next + 1
          appended := Function.update s.appended w (s.appended w ++ [⟨s.next, co, main⟩]) }
  | setEventNull {s p w} (h : s.poster p = .pushed w) (hs : (s.worker w).sem = none) :
      Step count₀ s (s.setPoster p .outside)
  | setEvent {s p w n} (h : s.poster p = .pushed w) (hs : (s.worker w).sem = some n) :
      Step count₀ s (s.setPoster p (.posting w))
  | semPost {s p w n} (h : s.poster p = .posting w) (hs : (s.worker w).sem = some n) :
      Step count₀ s
        ((s.setWorker w { s.worker w with sem := some (n + 1) }).setPoster p .outside)
  | setMaxTask {s w} (maxTasks : Nat) :
      Step count₀ s (s.setWorker w { s.worker w with maxTasks })
  -- Update
  | swap {s u} (co : LuaState) (h : s.updater u = .outside) :
      Step count₀ s { s.setUpdater u (.working co s.poolsRet) with poolsRet := [] }
  | consume {s u co t rest} (resumed : Bool) (h : s.updater u = .working co (t :: rest)) :
      Step count₀ s { s.setUpdater u (.working co rest) with
        consumed := s.consumed ++ [⟨t, co, resumed⟩] }
  | finish {s u co} (h : s.updater u = .working co []) :
      Step count₀ s (s.setUpdater u .outside)

/-- The program: from the start, any thread may take the next step. -/
def lts (W P U : Type) [DecidableEq W] [DecidableEq P] [DecidableEq U] (count₀ : Nat) :
    Lts (Sys W P U) where
  init s := s = start
  step := Step count₀

end Sys
end EventServer.Threads
