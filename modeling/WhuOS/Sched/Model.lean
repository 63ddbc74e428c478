import Mathlib.Logic.Function.Basic
import WhuOS.Lib.Run
import WhuOS.Lib.Update

/-!
# WhuOS.Sched.Model

`proc_wait`, `proc_exit` (with `proc_reparent` and `proc_wakeup_one`), `proc_sleep` and the
scheduler of `kernel/proc/proc.c` as a step function over the process table.

An action is one atomic step of the source: a section under a process's spinlock `lk`, or a
single unlocked access (the reads and writes of `parent`). Only the thread of a process keeps its
own `lk` over several steps: during the scan of `proc_wait`, and in `proc_exit` from `ZOMBIE` to
the switch. Every other section on `lk` is taken and released within one step, so one bit
(`held`) says whether `lk` is taken. A thread that holds `lk` runs with interrupts off; every
other point can be preempted. Any number of processes may be `running` at once, so the number of
CPUs is not bounded.
-/

namespace WhuOS
namespace Sched

/-- `NPROC`: the size of `procs[]`. -/
abbrev NPROC : Nat := 64

abbrev Slot := Fin NPROC

/-- `proczero`: `proc_make_first` takes the first slot of the empty table. -/
def proczero : Slot := 0

/-- `enum proc_state`. -/
inductive PState where
  | unused
  | runnable
  | running
  | sleeping
  | zombie
  deriving DecidableEq

/-- Where the kernel thread of a process stands. -/
inductive Pc where
  /-- Outside `proc_wait` and `proc_exit`. -/
  | user
  /-- `proc_wait`, `lk` held: about to read `procs[i].parent`. -/
  | waitScan (i : Nat) (havekids : Bool)
  /-- `proc_wait`, `lk` held: `procs[i].parent == p` was read, `procs[i].lk` not yet taken. -/
  | waitCheck (i : Slot)
  /-- Switched away inside `proc_sleep(p, &p->lk)`. -/
  | waitSleep
  /-- `proc_reparent`: about to read `procs[i].parent`. -/
  | exitScan (i : Nat)
  /-- `proc_reparent`: `procs[i].parent == p` was read, `proczero` not yet stored. -/
  | exitGive (i : Slot)
  /-- `proc_exit`: about to read `p->parent` for `proc_wakeup_one`. -/
  | exitParent
  /-- In `proc_wakeup_one(q)`, before its section on `q->lk`. -/
  | exitWake (q : Slot)
  /-- `proc_wakeup_one` has returned; `p->lk` not yet taken, not yet `ZOMBIE`. -/
  | exitLock
  /-- `ZOMBIE`, `lk` held, before the switch of `proc_sched`. -/
  | exitSched
  /-- Switched away for good. -/
  | dead
  deriving DecidableEq

/-- The fields of `proc_t` the functions use, with the thread's place `pc`, its lock bit `held`,
the argument of a `proc_exit` in progress, and what its last call returned (`ret`; for
`proc_wait` also the `exit_state` that goes to the user's address). -/
structure Proc where
  state : PState
  parent : Option Slot
  pid : Int
  exitState : Int
  sleepSpace : Option Slot
  pc : Pc
  held : Bool
  exitArg : Int
  ret : Int
  status : Int
  deriving DecidableEq

/-- The process table and `global_pid`. -/
structure Table where
  procs : Slot → Proc
  globalPid : Int

def Table.set (t : Table) (p : Slot) (v : Proc) : Table :=
  { t with procs := Function.update t.procs p v }

/-- A slot after `proc_free` (and before its first use). -/
def Proc.free : Proc where
  state := .unused
  parent := none
  pid := 0
  exitState := 0
  sleepSpace := none
  pc := .user
  held := false
  exitArg := 0
  ret := 0
  status := 0

/-- A slot as `proc_fork` leaves it for the child of `p`. -/
def Proc.forked (p : Slot) (pid : Int) : Proc :=
  { Proc.free with state := .runnable, parent := some p, pid := pid }

/-- After `proc_make_first`: `proczero` with pid 0 is the only process; its `proc_alloc` took
pid 1. -/
def boot : Table where
  procs := Function.update (fun _ => Proc.free) proczero { Proc.free with state := .runnable }
  globalPid := 2

inductive Act where
  /-- A scheduler switches to `p`. -/
  | schedule (p : Slot)
  /-- A timer interrupt makes `p` call `proc_yield`. -/
  | preempt (p : Slot)
  /-- `p` calls `proc_fork`, and `proc_alloc` finds slot `np`. -/
  | fork (p np : Slot)
  /-- `p` calls `proc_fork`, and `proc_alloc` finds no slot. -/
  | forkFull (p : Slot)
  /-- `p` calls `proc_fork`, and there is no page for the trapframe of slot `np`, or, if `stack`,
  for its user stack. -/
  | forkStarved (p np : Slot) (stack : Bool)
  /-- `p` calls `proc_wait`. -/
  | callWait (p : Slot)
  /-- `p` calls `proc_exit(code)`. -/
  | callExit (p : Slot) (code : Int)
  /-- The next step of `p` inside `proc_wait` or `proc_exit`. -/
  | go (p : Slot)
  deriving DecidableEq

/-- What `proc_scheduler` leaves behind when it switches to `v`: a thread that slept in
`proc_wait` comes back from `proc_sched` with `lk` held, clears `sleep_space` and scans again;
every other thread releases `lk` and goes on where it was. -/
def resume (v : Proc) : Proc :=
  match v.pc with
  | .waitSleep =>
    { v with state := .running, sleepSpace := none, held := true, pc := .waitScan 0 false }
  | _ => { v with state := .running }

/-- One step of `proc_wait` at the scan index `i`. -/
def waitScanStep (t : Table) (p : Slot) (i : Nat) (havekids : Bool) : Table :=
  let v := t.procs p
  if h : i < NPROC then
    if (t.procs ⟨i, h⟩).parent = some p then
      t.set p { v with pc := .waitCheck ⟨i, h⟩ }
    else
      t.set p { v with pc := .waitScan (i + 1) havekids }
  else if havekids then
    -- proc_sleep(p, &p->lk): the condition lock is p's own, the scheduler releases it
    t.set p { v with sleepSpace := some p, state := .sleeping, held := false, pc := .waitSleep }
  else
    t.set p { v with held := false, ret := -1, pc := .user }

/-- The section of `proc_wait` under `procs[i].lk`: reap a zombie, or go on with the scan. -/
def waitCheckStep (t : Table) (p i : Slot) : Option Table :=
  let v := t.procs p
  let pp := t.procs i
  if pp.held then none
  else if pp.state = .zombie then
    some ((t.set i Proc.free).set p
      { v with held := false, ret := pp.pid, status := pp.exitState, pc := .user })
  else some (t.set p { v with pc := .waitScan (i.val + 1) true })

/-- The section of `proc_wakeup_one(q)`. -/
def wakeupOne (t : Table) (q : Slot) : Option Table :=
  let w := t.procs q
  if w.held then none
  else if w.state = .sleeping ∧ w.sleepSpace = some q then
    some (t.set q { w with state := .runnable })
  else some t

/-- The next step of the thread of `p` inside `proc_wait` or `proc_exit`. -/
def go (t : Table) (p : Slot) : Option Table :=
  let v := t.procs p
  match v.pc with
  | .user | .waitSleep | .dead => none
  | .waitScan i havekids => some (waitScanStep t p i havekids)
  | .waitCheck i => waitCheckStep t p i
  | .exitScan i =>
    if h : i < NPROC then
      if (t.procs ⟨i, h⟩).parent = some p then
        some (t.set p { v with pc := .exitGive ⟨i, h⟩ })
      else some (t.set p { v with pc := .exitScan (i + 1) })
    else some (t.set p { v with pc := .exitParent })
  | .exitGive i =>
    let t' := t.set i { t.procs i with parent := some proczero }
    some (t'.set p { t'.procs p with pc := .exitScan (i.val + 1) })
  | .exitParent =>
    match v.parent with
    | some q => some (t.set p { v with pc := .exitWake q })
    | none => none
  | .exitWake q =>
    match wakeupOne t q with
    | some t' => some (t'.set p { t'.procs p with pc := .exitLock })
    | none => none
  | .exitLock =>
    if v.held then none
    else some (t.set p
      { v with exitState := v.exitArg, state := .zombie, held := true, pc := .exitSched })
  | .exitSched => some (t.set p { v with held := false, pc := .dead })

/-- One atomic step. `none`: the action is not enabled (its lock is taken, the thread is not on
a CPU), or the source stops there (`proc_exit` of `proczero` panics). -/
def step (t : Table) : Act → Option Table
  | .schedule p =>
    let v := t.procs p
    if v.state = .runnable ∧ v.held = false then some (t.set p (resume v)) else none
  | .preempt p =>
    let v := t.procs p
    if v.state = .running ∧ v.held = false then some (t.set p { v with state := .runnable })
    else none
  | .fork p np =>
    let v := t.procs p
    let w := t.procs np
    if v.state = .running ∧ v.pc = .user ∧ w.state = .unused ∧ w.held = false then
      let t' := (t.set np (Proc.forked p t.globalPid)).set p { v with ret := t.globalPid }
      some { t' with globalPid := t.globalPid + 1 }
    else none
  | .forkFull p =>
    let v := t.procs p
    if v.state = .running ∧ v.pc = .user then some (t.set p { v with ret := -1 }) else none
  | .forkStarved p np stack =>
    let v := t.procs p
    let w := t.procs np
    if v.state = .running ∧ v.pc = .user ∧ w.state = .unused ∧ w.held = false then
      -- without a stack `proc_free` clears the slot, without a trapframe it keeps the pid
      let t' := (t.set np (if stack then Proc.free else { w with pid := t.globalPid })).set p
        { v with ret := -1 }
      some { t' with globalPid := t.globalPid + 1 }
    else none
  | .callWait p =>
    let v := t.procs p
    if v.state = .running ∧ v.pc = .user ∧ v.held = false then
      some (t.set p { v with held := true, pc := .waitScan 0 false })
    else none
  | .callExit p code =>
    let v := t.procs p
    if v.state = .running ∧ v.pc = .user ∧ p ≠ proczero then
      some (t.set p { v with exitArg := code, pc := .exitScan 0 })
    else none
  | .go p =>
    let v := t.procs p
    if v.state = .running ∨ v.pc = .exitSched then go t p else none

/-- `p` sleeps on itself inside `proc_wait`. -/
def SleepsInWait (t : Table) (p : Slot) : Prop :=
  (t.procs p).state = .sleeping ∧ (t.procs p).sleepSpace = some p ∧ (t.procs p).pc = .waitSleep

/-- `c` is a `ZOMBIE` whose `proc_exit` has switched away. -/
def GoneZombie (t : Table) (c : Slot) : Prop :=
  (t.procs c).state = .zombie ∧ (t.procs c).pc = .dead

instance (t : Table) (p : Slot) : Decidable (SleepsInWait t p) :=
  inferInstanceAs (Decidable (_ ∧ _ ∧ _))

instance (t : Table) (c : Slot) : Decidable (GoneZombie t c) :=
  inferInstanceAs (Decidable (_ ∧ _))

/-- No process sleeps in `proc_wait` while one of its children waits to be reaped. -/
def NoLostWakeup (t : Table) : Prop :=
  ∀ p c : Slot, SleepsInWait t p → (t.procs c).parent = some p → ¬ GoneZombie t c

end Sched
end WhuOS
