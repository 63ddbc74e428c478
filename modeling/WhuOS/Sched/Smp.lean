import WhuOS.Lib.Run
import WhuOS.Lib.Update
import WhuOS.Sched.Model

/-!
# WhuOS.Sched.Smp

Several CPUs, each in the loop of `proc_scheduler` or on the thread of a process, with every
spinlock of `kernel/proc/proc.c` and `kernel/lib/sleeplock.c` as a lock of its own. The threads call
`proc_yield`, `proc_fork`, `proc_wait`, `proc_exit`, `sleeplock_acquire` and `sleeplock_release`, and
other kernel code that takes a spinlock and calls `proc_sleep` or `proc_wakeup` under it.

A step takes a spinlock, gives one up, switches context, or does what stands between two such
points. A lock records the CPU that took it, as `spinlock_t` does; `swtch` leaves the CPU, and so
the owner of `p->lk`, as it is. Interrupts are off while a CPU holds a spinlock, so the timer makes
a thread yield only when it holds none.

`C` is the type of the CPUs and `K` that of the sleeplocks.
-/

namespace WhuOS
namespace Sched
namespace Smp

open Lib

/-- The address a process sleeps on. -/
inductive Chan (K : Type) where
  | proc (p : Slot)
  | lock (k : K)
  | other (m : Nat)
  deriving DecidableEq

/-- The spinlocks: that of a process, that inside a sleeplock, and those of other code. -/
inductive Lk (K : Type) where
  | proc (p : Slot)
  | lock (k : K)
  | other (n : Nat)
  deriving DecidableEq

/-- Who calls `proc_sleep`: `sleeplock_acquire(k)`, code that holds the spinlock `n` and waits for
`m`, or `proc_wait`. -/
inductive Sleep (K : Type) where
  | lock (k : K)
  | other (n m : Nat)
  | wait
  deriving DecidableEq

/-- Who calls `proc_wakeup`: `sleeplock_release(k)`, or code that holds the spinlock `n`. -/
inductive Wake (K : Type) where
  | lock (k : K)
  | other (n m : Nat)
  deriving DecidableEq

/-- Where the thread of a process stands. -/
inductive Pc (K : Type) where
  | user
  /-- Other kernel code that holds the spinlock `n`. -/
  | inSection (n : Nat)
  /-- `sleeplock_acquire`: takes `lk->lk`. -/
  | acqLock (k : K)
  /-- `while (lk->locked)`. -/
  | acqTest (k : K)
  | acqUnlock (k : K)
  /-- `sleeplock_release`: takes `lk->lk`. -/
  | relLock (k : K)
  /-- `lk->locked = 0`. -/
  | relClear (k : K)
  | relUnlock (k : K)
  /-- `proc_sleep`: takes `p->lk`. -/
  | sleepLock (w : Sleep K)
  /-- Gives up the condition lock. -/
  | sleepUnlock (w : Sleep K)
  /-- `p->sleep_space = ...; p->state = SLEEPING`. -/
  | sleepSet (w : Sleep K)
  | sleepSched (w : Sleep K)
  /-- Switched away. -/
  | asleep (w : Sleep K)
  /-- `p->sleep_space = NULL`. -/
  | woken (w : Sleep K)
  | sleepRelease (w : Sleep K)
  /-- Takes the condition lock again. -/
  | sleepRelock (w : Sleep K)
  /-- The loop of `proc_wakeup`: takes `procs[i].lk`. -/
  | wakeLock (w : Wake K) (i : Nat)
  | wakeTest (w : Wake K) (i : Slot)
  | wakeUnlock (w : Wake K) (i : Slot)
  /-- The loop of `proc_alloc`, called by `proc_fork`: takes `procs[i].lk`. -/
  | forkLock (i : Nat)
  | forkTest (i : Slot)
  /-- The slot is in use. -/
  | forkSkip (i : Slot)
  /-- The slot was taken: the child is ready, or there was no memory for it. -/
  | forkUnlock (i : Slot)
  /-- `proc_wait`: takes `p->lk`. -/
  | waitLock
  /-- Reads `procs[i].parent`. -/
  | waitScan (i : Nat) (havekids : Bool)
  | waitChildLock (i : Slot)
  | waitChildTest (i : Slot)
  | waitChildUnlock (i : Slot)
  /-- The child was freed: gives up its lock. -/
  | waitReaped (i : Slot)
  | waitUnlock
  /-- `proc_reparent`: reads `procs[i].parent`. -/
  | exitScan (i : Nat)
  /-- Stores `proczero` there. -/
  | exitGive (i : Slot)
  /-- Reads `p->parent`. -/
  | exitParent
  /-- `proc_wakeup_one(q)`: takes `q->lk`. -/
  | exitWakeLock (q : Slot)
  | exitWakeTest (q : Slot)
  | exitWakeUnlock (q : Slot)
  /-- Takes `p->lk`. -/
  | exitLock
  /-- `p->state = ZOMBIE`. -/
  | exitSet
  | exitSched
  /-- Switched away for good, or never started. -/
  | dead
  deriving DecidableEq

/-- Where the thread stands in the `proc_yield` of a timer interrupt, which can come anywhere. -/
inductive Yield where
  | no
  /-- Takes `p->lk`. -/
  | lock
  /-- `p->state = RUNNABLE`. -/
  | set
  | sched
  /-- Switched away. A new process is here too: it starts in `fork_return`. -/
  | away
  | unlock
  deriving DecidableEq

/-- Where the loop of `proc_scheduler` stands. -/
inductive Loop where
  /-- Takes `procs[i].lk`. -/
  | scan (i : Nat)
  | test (i : Slot)
  /-- `p->state = RUNNING` is done, `c->proc` and `swtch` follow. -/
  | switch (i : Slot)
  /-- `swtch` has returned. -/
  | back (i : Slot)
  | unlock (i : Slot)
  deriving DecidableEq

/-- What a CPU executes. -/
inductive Mode where
  | sched (l : Loop)
  | thread (p : Slot)
  deriving DecidableEq

structure State (C K : Type) where
  state : Slot → PState
  sleepSpace : Slot → Option (Chan K)
  parent : Slot → Option Slot
  pc : Slot → Pc K
  yield : Slot → Yield
  /-- `lk->locked` of the sleeplocks. -/
  locked : K → Bool
  /-- History variable: `p` is between a `sleeplock_acquire(k)` that has returned and its
  `sleeplock_release(k)`. -/
  inside : Slot → K → Bool
  mode : C → Mode
  /-- `c->proc`. -/
  proc : C → Option Slot
  lk : Lk K → Option C

variable {C K : Type} [DecidableEq C] [DecidableEq K]

namespace State

def setPc (s : State C K) (p : Slot) (pc : Pc K) : State C K := { s with pc := upd s.pc p pc }

def setYield (s : State C K) (p : Slot) (y : Yield) : State C K :=
  { s with yield := upd s.yield p y }

def setState (s : State C K) (p : Slot) (st : PState) : State C K :=
  { s with state := upd s.state p st }

def setMode (s : State C K) (c : C) (m : Mode) : State C K := { s with mode := upd s.mode c m }

/-- `spinlock_acquire`, once the lock is free. -/
def acquire (s : State C K) (c : C) (l : Lk K) : Option (State C K) :=
  if s.lk l = none then some { s with lk := upd s.lk l (some c) } else none

def release (s : State C K) (l : Lk K) : State C K := { s with lk := upd s.lk l none }

end State

/-! ## `proc_sleep` and `proc_wakeup` -/

def Sleep.chan (p : Slot) : Sleep K → Chan K
  | .lock k => .lock k
  | .other _ m => .other m
  | .wait => .proc p

def Sleep.lk (p : Slot) : Sleep K → Lk K
  | .lock k => .lock k
  | .other n _ => .other n
  | .wait => .proc p

def Sleep.ret : Sleep K → Pc K
  | .lock k => .acqTest k
  | .other n _ => .inSection n
  | .wait => .waitScan 0 false

def Wake.chan : Wake K → Chan K
  | .lock k => .lock k
  | .other _ m => .other m

/-- The spinlock that the caller holds. -/
def Wake.lk : Wake K → Lk K
  | .lock k => .lock k
  | .other n _ => .other n

def Wake.ret : Wake K → Pc K
  | .lock k => .relUnlock k
  | .other n _ => .inSection n

/-- `if (q->state == SLEEPING && q->sleep_space == chan) q->state = RUNNABLE`. -/
def wakeIf (s : State C K) (q : Slot) (chan : Chan K) : State C K :=
  if s.state q = .sleeping ∧ s.sleepSpace q = some chan then s.setState q .runnable else s

/-! ## The threads -/

/-- `swtch` to the scheduler of the CPU. -/
def toSched (s : State C K) (c : C) (p : Slot) : State C K := s.setMode c (.sched (.back p))

/-- The slot `i` as `proc_fork` leaves it for the child of `p`. -/
def newChild (s : State C K) (p i : Slot) : State C K :=
  { s with
    state := upd s.state i .runnable
    sleepSpace := upd s.sleepSpace i none
    parent := upd s.parent i (some p)
    pc := upd s.pc i .user
    yield := upd s.yield i .away
    inside := upd s.inside i fun _ => false }

def freeSlot (s : State C K) (i : Slot) : State C K :=
  { s with
    state := upd s.state i .unused
    sleepSpace := upd s.sleepSpace i none
    parent := upd s.parent i none }

def goYield (s : State C K) (c : C) (p : Slot) : Yield → Option (State C K)
  | .no | .away => none
  | .lock => (s.acquire c (.proc p)).map (·.setYield p .set)
  | .set => some ((s.setState p .runnable).setYield p .sched)
  | .sched => some (toSched (s.setYield p .away) c p)
  | .unlock => some ((s.release (.proc p)).setYield p .no)

/-- A step of the thread of `p`, outside of `proc_yield`. -/
def goThread (s : State C K) (c : C) (p : Slot) : Pc K → Option (State C K)
  | .user | .inSection _ | .asleep _ | .dead => none
  | .acqLock k => (s.acquire c (.lock k)).map (·.setPc p (.acqTest k))
  | .acqTest k =>
    if s.locked k then some (s.setPc p (.sleepLock (.lock k)))
    else some ({ s with locked := upd s.locked k true }.setPc p (.acqUnlock k))
  | .acqUnlock k =>
    some ({ s.release (.lock k) with
      inside := upd s.inside p (upd (s.inside p) k true) }.setPc p .user)
  | .relLock k => (s.acquire c (.lock k)).map (·.setPc p (.relClear k))
  | .relClear k =>
    some ({ s with locked := upd s.locked k false }.setPc p (.wakeLock (.lock k) 0))
  | .relUnlock k => some ((s.release (.lock k)).setPc p .user)
  | .sleepLock w => (s.acquire c (.proc p)).map (·.setPc p (.sleepUnlock w))
  | .sleepUnlock w => some ((s.release (w.lk p)).setPc p (.sleepSet w))
  | .sleepSet w =>
    some ({ s with sleepSpace := upd s.sleepSpace p (some (w.chan p)) }.setState p .sleeping
      |>.setPc p (.sleepSched w))
  | .sleepSched w => some (toSched (s.setPc p (.asleep w)) c p)
  | .woken w =>
    -- the condition lock of `proc_wait` is `p->lk` itself
    some ({ s with sleepSpace := upd s.sleepSpace p none }.setPc p
      (if w = Sleep.wait then w.ret else .sleepRelease w))
  | .sleepRelease w => some ((s.release (.proc p)).setPc p (.sleepRelock w))
  | .sleepRelock w => (s.acquire c (w.lk p)).map (·.setPc p w.ret)
  | .wakeLock w i =>
    if h : i < NPROC then
      if ⟨i, h⟩ = p then some (s.setPc p (.wakeLock w (i + 1)))
      else (s.acquire c (.proc ⟨i, h⟩)).map (·.setPc p (.wakeTest w ⟨i, h⟩))
    else some (s.setPc p w.ret)
  | .wakeTest w i => some ((wakeIf s i w.chan).setPc p (.wakeUnlock w i))
  | .wakeUnlock w i => some ((s.release (.proc i)).setPc p (.wakeLock w (i.val + 1)))
  | .forkLock i =>
    if h : i < NPROC then (s.acquire c (.proc ⟨i, h⟩)).map (·.setPc p (.forkTest ⟨i, h⟩))
    else some (s.setPc p .user)
  | .forkTest i =>
    if s.state i = .unused then some ((newChild s p i).setPc p (.forkUnlock i))
    else some (s.setPc p (.forkSkip i))
  | .forkSkip i => some ((s.release (.proc i)).setPc p (.forkLock (i.val + 1)))
  | .forkUnlock i => some ((s.release (.proc i)).setPc p .user)
  | .waitLock => (s.acquire c (.proc p)).map (·.setPc p (.waitScan 0 false))
  | .waitScan i havekids =>
    if h : i < NPROC then
      if s.parent ⟨i, h⟩ = some p then some (s.setPc p (.waitChildLock ⟨i, h⟩))
      else some (s.setPc p (.waitScan (i + 1) havekids))
    else if havekids then some (s.setPc p (.sleepSet .wait))
    else some (s.setPc p .waitUnlock)
  | .waitChildLock i => (s.acquire c (.proc i)).map (·.setPc p (.waitChildTest i))
  | .waitChildTest i =>
    if s.state i = .zombie then some ((freeSlot s i).setPc p (.waitReaped i))
    else some (s.setPc p (.waitChildUnlock i))
  | .waitChildUnlock i => some ((s.release (.proc i)).setPc p (.waitScan (i.val + 1) true))
  | .waitReaped i => some ((s.release (.proc i)).setPc p .waitUnlock)
  | .waitUnlock => some ((s.release (.proc p)).setPc p .user)
  | .exitScan i =>
    if h : i < NPROC then
      if s.parent ⟨i, h⟩ = some p then some (s.setPc p (.exitGive ⟨i, h⟩))
      else some (s.setPc p (.exitScan (i + 1)))
    else some (s.setPc p .exitParent)
  | .exitGive i =>
    some ({ s with parent := upd s.parent i (some proczero) }.setPc p (.exitScan (i.val + 1)))
  | .exitParent =>
    match s.parent p with
    | some q => some (s.setPc p (.exitWakeLock q))
    | none => none
  | .exitWakeLock q => (s.acquire c (.proc q)).map (·.setPc p (.exitWakeTest q))
  | .exitWakeTest q => some ((wakeIf s q (.proc q)).setPc p (.exitWakeUnlock q))
  | .exitWakeUnlock q => some ((s.release (.proc q)).setPc p .exitLock)
  | .exitLock => (s.acquire c (.proc p)).map (·.setPc p .exitSet)
  | .exitSet => some ((s.setState p .zombie).setPc p .exitSched)
  | .exitSched => some (toSched (s.setPc p .dead) c p)

/-- What the thread of `p` does first when `proc_scheduler` switches to it. -/
def resume (s : State C K) (p : Slot) : Option (State C K) :=
  match s.yield p, s.pc p with
  | .away, _ => some (s.setYield p .unlock)
  | .no, .asleep w => some (s.setPc p (.woken w))
  | _, _ => none

/-! ## The schedulers -/

def goSched (s : State C K) (c : C) : Loop → Option (State C K)
  | .scan i =>
    if h : i < NPROC then
      (s.acquire c (.proc ⟨i, h⟩)).map (·.setMode c (.sched (.test ⟨i, h⟩)))
    else some (s.setMode c (.sched (.scan 0)))
  | .test i =>
    if s.state i = .runnable then some ((s.setState i .running).setMode c (.sched (.switch i)))
    else some (s.setMode c (.sched (.unlock i)))
  | .switch i =>
    (resume s i).map fun s => { s with proc := upd s.proc c (some i) }.setMode c (.thread i)
  | .back i => some ({ s with proc := upd s.proc c none }.setMode c (.sched (.unlock i)))
  | .unlock i => some ((s.release (.proc i)).setMode c (.sched (.scan (i.val + 1))))

/-! ## Steps -/

/-- The next step of the CPU `c`. -/
def go (s : State C K) (c : C) : Option (State C K) :=
  match s.mode c with
  | .sched l => goSched s c l
  | .thread p =>
    match s.yield p with
    | .no => goThread s c p (s.pc p)
    | y => goYield s c p y

/-- The spinlocks that the thread of `p` holds at a place in its code. -/
def held (p : Slot) : Pc K → List (Lk K)
  | .user | .acqLock _ | .relLock _ | .asleep _ | .sleepRelock _ | .forkLock _ | .waitLock
  | .exitScan _ | .exitGive _ | .exitParent | .exitWakeLock _ | .exitLock | .dead => []
  | .inSection n => [.other n]
  | .acqTest k | .acqUnlock k | .relClear k | .relUnlock k => [.lock k]
  | .sleepLock w => [w.lk p]
  | .sleepUnlock w => [.proc p, w.lk p]
  | .sleepSet _ | .sleepSched _ | .woken _ | .sleepRelease _ => [.proc p]
  | .wakeLock w _ => [w.lk]
  | .wakeTest w i | .wakeUnlock w i => [.proc i, w.lk]
  | .forkTest i | .forkSkip i | .forkUnlock i => [.proc i]
  | .waitScan _ _ | .waitChildLock _ | .waitUnlock => [.proc p]
  | .waitChildTest i | .waitChildUnlock i | .waitReaped i => [.proc i, .proc p]
  | .exitWakeTest q | .exitWakeUnlock q => [.proc q]
  | .exitSet | .exitSched => [.proc p]

/-- The same inside `proc_yield`. -/
def heldIn (p : Slot) (pc : Pc K) : Yield → List (Lk K)
  | .no | .lock => held p pc
  | .set | .sched | .unlock => [.proc p]
  | .away => []

/-- The calls of a thread, in user code or in a section of other kernel code. -/
inductive Op (K : Type) where
  | acquire (k : K)
  | release (k : K)
  | fork
  | wait
  | exit
  /-- Take the spinlock `n`. -/
  | lock (n : Nat)
  | sleep (m : Nat)
  | wakeup (m : Nat)
  | unlock
  deriving DecidableEq

def call (s : State C K) (c : C) (p : Slot) : Pc K → Op K → Option (State C K)
  | .user, .acquire k => some (s.setPc p (.acqLock k))
  | .user, .release k =>
    if s.inside p k then
      some ({ s with inside := upd s.inside p (upd (s.inside p) k false) }.setPc p (.relLock k))
    else none
  | .user, .fork => some (s.setPc p (.forkLock 0))
  | .user, .wait => some (s.setPc p .waitLock)
  | .user, .exit => if p = proczero then none else some (s.setPc p (.exitScan 0))
  | .user, .lock n => (s.acquire c (.other n)).map (·.setPc p (.inSection n))
  | .inSection n, .sleep m => some (s.setPc p (.sleepLock (.other n m)))
  | .inSection n, .wakeup m => some (s.setPc p (.wakeLock (.other n m) 0))
  | .inSection n, .unlock => some ((s.release (.other n)).setPc p .user)
  | _, _ => none

inductive Act (C K : Type) where
  /-- The next step of the CPU. -/
  | go (c : C)
  /-- The thread on the CPU makes a call. -/
  | call (c : C) (op : Op K)
  /-- `proc_fork` finds a slot but no memory, for the trapframe or, if `stack`, for the stack. -/
  | starve (c : C) (stack : Bool)
  /-- A timer interrupt. -/
  | preempt (c : C)
  /-- A device interrupt: its `proc_wakeup` looks at slot `i`. -/
  | interrupt (c : C) (m : Nat) (i : Slot)
  deriving DecidableEq

/-- Can an interrupt come on the CPU now? -/
def interruptible (s : State C K) (c : C) : Bool :=
  match s.mode c with
  | .sched (.scan _) => true
  | .sched _ => false
  | .thread p => s.yield p = .no ∧ held p (s.pc p) = []

def step (s : State C K) : Act C K → Option (State C K)
  | .go c => go s c
  | .call c op =>
    match s.mode c with
    | .thread p => if s.yield p = .no then call s c p (s.pc p) op else none
    | .sched _ => none
  | .starve c stack =>
    match s.mode c with
    | .thread p =>
      match s.yield p, s.pc p with
      | .no, .forkTest i =>
        if s.state i = .unused then
          some ((if stack then freeSlot s i else s).setPc p (.forkUnlock i))
        else none
      | _, _ => none
    | .sched _ => none
  | .preempt c =>
    match s.mode c with
    | .thread p => if interruptible s c then some (s.setYield p .lock) else none
    | .sched _ => none
  | .interrupt c m i =>
    if interruptible s c ∧ s.lk (.proc i) = none then some (wakeIf s i (.other m)) else none

/-- After `proc_make_first`: `proczero` is ready to start in `fork_return`, and the CPUs enter
`proc_scheduler`. -/
def boot : State C K where
  state := upd (fun _ => .unused) proczero .runnable
  sleepSpace := fun _ => none
  parent := fun _ => none
  pc := upd (fun _ => .dead) proczero .user
  yield := upd (fun _ => .no) proczero .away
  locked := fun _ => false
  inside := fun _ _ => false
  mode := fun _ => .sched (.scan 0)
  proc := fun _ => none
  lk := fun _ => none

end Smp
end Sched
end WhuOS
