import WhuOS.Sched.Smp

/-!
# WhuOS.Sched.Intr

The interrupt flag under `spinlock_acquire` and `spinlock_release` of `kernel/lib/spinlock.c` and the
context switches of `proc_sched` and `proc_scheduler`.

`noff` and `origin` belong to a CPU, the nesting of the locks to a thread. Each CPU is in the loop of
`proc_scheduler` or on the thread of a process. A thread in the kernel, and the handler of an interrupt,
may take and give up spinlocks in any order, print, wake, start and free processes, and a thread may
call `proc_sched`; a handler returns, and a thread goes back to user mode, when it has given up its
spinlocks. `push_off` and the functions that call it go step by step: an interrupt may come wherever the
flag is set. A CPU that panics stops.

`done` is a history variable: the sequences of acquires and releases of the threads that began with
`noff == 0` and are balanced again, with the flag before the first and after the last.

`C` is the type of the CPUs and `K` that of the sleeplocks.
-/

namespace WhuOS
namespace Sched
namespace Intr

open Lib
open Smp (Lk)

abbrev PRINT : Nat := 1

/-- Why `push_off` is called: by `spinlock_acquire`, or by `uart_putc_sync`. -/
inductive Reason (K : Type) where
  | acquire (l : Lk K)
  | putc
  deriving DecidableEq

inductive Pc (K : Type) where
  /-- In no function of `spinlock.c`. -/
  | out
  /-- `push_off`: `old = intr_get()`. -/
  | pushGet (r : Reason K)
  /-- `intr_off()`. -/
  | pushOff (old : Bool) (r : Reason K)
  /-- `if (c->noff == 0) c->origin = old; c->noff++`. -/
  | pushCount (old : Bool) (r : Reason K)
  /-- `spinlock_acquire`: panics if the CPU holds the lock. -/
  | acqCheck (l : Lk K)
  | acqSpin (l : Lk K)
  /-- `lk->cpuid = mycpuid()`. -/
  | acqMark (l : Lk K)
  /-- `uart_putc_sync`, between `push_off` and `pop_off`. -/
  | putc
  /-- `spinlock_release`: panics if the CPU does not hold the lock. -/
  | relCheck (l : Lk K)
  /-- `lk->cpuid = -1`. -/
  | relUnmark (l : Lk K)
  | relUnlock (l : Lk K)
  /-- `pop_off`: its two panics. -/
  | popCheck
  | popCount
  /-- `proc_sched`, after `swtch`: `mycpu()->origin = intena`. -/
  | restore (intena : Bool)
  /-- `trap_user_return`, after `intr_off`. -/
  | leave
  | user
  deriving DecidableEq

/-- The code that a trap has not stopped, or one that it has. -/
structure Level (K : Type) where
  pc : Pc K
  /-- History variable: the sequence of acquires and releases that is not balanced yet, if it began with
  `noff == 0`: the flag before it, and how many are open. -/
  span : Option (Bool × Nat)
  deriving DecidableEq

inductive Ctx (C : Type) where
  | sched (c : C)
  | thread (t : Slot)
  deriving DecidableEq

/-- Where the loop of `proc_scheduler` goes on. -/
inductive Loop where
  /-- `intr_on()`. -/
  | head
  /-- Calls `spinlock_acquire(&procs[i].lk)`. -/
  | acquire (i : Nat)
  | test (i : Slot)
  /-- In a `printf`, with `print_lk`. -/
  | print (i : Slot)
  /-- `swtch` has returned. -/
  | back (i : Slot)
  /-- `intr_on()` and `wfi`. -/
  | tail
  deriving DecidableEq

/-- A balanced sequence of a thread, and the flag before and after it. -/
structure Span where
  thread : Slot
  before : Bool
  after : Bool
  deriving DecidableEq

structure State (C K : Type) where
  noff : C → Nat
  origin : C → Bool
  /-- `SSTATUS_SIE`. -/
  sie : C → Bool
  /-- The thread that the CPU executes, `c->proc`. -/
  on : C → Option Slot
  loop : C → Loop
  locked : Lk K → Bool
  cpuid : Lk K → Option C
  state : Slot → PState
  level : Ctx C → Level K
  /-- What traps have stopped, with `SSTATUS_SPIE`. -/
  under : Ctx C → List (Level K × Bool)
  done : List Span

variable {C K : Type} [DecidableEq C] [DecidableEq K]

namespace State

def ctx (s : State C K) (c : C) : Ctx C :=
  match s.on c with
  | none => .sched c
  | some t => .thread t

def pc (s : State C K) (c : C) : Pc K := (s.level (s.ctx c)).pc

def setPc (s : State C K) (x : Ctx C) (pc : Pc K) : State C K :=
  { s with level := upd s.level x { s.level x with pc := pc } }

def holding (s : State C K) (c : C) (l : Lk K) : Bool := s.locked l && s.cpuid l = some c

end State

/-! ## `spinlock.c` -/

/-- Where `push_off` returns to. -/
def Reason.next : Reason K → Pc K
  | .acquire l => .acqCheck l
  | .putc => .putc

/-- An acquire is called: a sequence begins if `noff` is 0. -/
def Level.enter (v : Level K) (noff : Nat) (sie : Bool) (r : Reason K) : Level K :=
  ⟨.pushGet r, if v.span = none ∧ noff = 0 then some (sie, 0) else v.span⟩

def Level.push (v : Level K) (pc : Pc K) : Level K := ⟨pc, v.span.map fun (f, d) => (f, d + 1)⟩

def Level.pop (v : Level K) : Level K :=
  ⟨.out, match v.span with
    | some (f, d + 2) => some (f, d + 1)
    | _ => none⟩

/-- The sequence that the end of `pop_off` balances. -/
def balanced : Ctx C → Level K → Bool → List Span
  | .thread t, ⟨_, some (f, 1)⟩, sie => [⟨t, f, sie⟩]
  | _, _, _ => []

/-- The flag after `pop_off`, with `noff` already decremented. -/
def popSie (noff : Nat) (origin sie : Bool) : Bool := if noff = 0 ∧ origin then true else sie

/-- The next step of what the CPU executes, `x`. -/
def goCall (s : State C K) (c : C) (x : Ctx C) : Pc K → Option (State C K)
  | .out | .user => none
  | .pushGet r => some (s.setPc x (.pushOff (s.sie c) r))
  | .pushOff old r => some ({ s with sie := upd s.sie c false }.setPc x (.pushCount old r))
  | .pushCount old r =>
    some { s with
      origin := upd s.origin c (if s.noff c = 0 then old else s.origin c)
      noff := upd s.noff c (s.noff c + 1)
      level := upd s.level x ((s.level x).push r.next) }
  | .acqCheck l => if s.holding c l then none else some (s.setPc x (.acqSpin l))
  | .acqSpin l =>
    if s.locked l then none
    else some ({ s with locked := upd s.locked l true }.setPc x (.acqMark l))
  | .acqMark l => some ({ s with cpuid := upd s.cpuid l (some c) }.setPc x .out)
  | .putc => some (s.setPc x .popCheck)
  | .relCheck l => if s.holding c l then some (s.setPc x (.relUnmark l)) else none
  | .relUnmark l => some ({ s with cpuid := upd s.cpuid l none }.setPc x (.relUnlock l))
  | .relUnlock l => some ({ s with locked := upd s.locked l false }.setPc x .popCheck)
  | .popCheck => if s.sie c ∨ s.noff c < 1 then none else some (s.setPc x .popCount)
  | .popCount =>
    let sie := popSie (s.noff c - 1) (s.origin c) (s.sie c)
    some { s with
      noff := upd s.noff c (s.noff c - 1)
      sie := upd s.sie c sie
      level := upd s.level x (s.level x).pop
      done := balanced x (s.level x) sie ++ s.done }
  | .restore intena => some ({ s with origin := upd s.origin c intena }.setPc x .out)
  | .leave => some ({ s with sie := upd s.sie c true }.setPc x .user)

/-! ## `proc_scheduler` -/

/-- The scheduler of `c` calls `f` and goes on at `l`. -/
def toCall (s : State C K) (c : C) (f : Pc K) (l : Loop) : State C K :=
  { s with loop := upd s.loop c l }.setPc (.sched c) f

def goLoop (s : State C K) (c : C) : Loop → State C K
  | .head => { s with sie := upd s.sie c true, loop := upd s.loop c (.acquire 0) }
  | .acquire i =>
    if h : i < NPROC then toCall s c (.pushGet (.acquire (.proc ⟨i, h⟩))) (.test ⟨i, h⟩)
    else { s with loop := upd s.loop c .tail }
  | .test i =>
    if s.state i = .runnable then
      { s with
        state := upd s.state i .running
        on := upd s.on c (some i)
        loop := upd s.loop c (.back i) }
    else toCall s c (.relCheck (.proc i)) (.acquire (i.val + 1))
  | .print i => toCall s c (.relCheck (.other PRINT)) (.test i)
  | .back i => toCall s c (.relCheck (.proc i)) (.acquire (i.val + 1))
  | .tail => { s with sie := upd s.sie c true, loop := upd s.loop c .head }

/-! ## The calls of threads and handlers -/

inductive Op (K : Type) where
  | acquire (l : Lk K)
  | release (l : Lk K)
  /-- `uart_putc_sync`. -/
  | putc
  /-- `p->state = st; proc_sched()`. -/
  | sched (st : PState)
  /-- Code that holds `procs[t].lk` wakes, starts or frees the process. -/
  | wakeup (t : Slot)
  | start (t : Slot)
  | free (t : Slot)
  /-- `trap_user_return`. -/
  | leave
  deriving DecidableEq

/-- The asserts of `proc_sched`. -/
def schedOk (s : State C K) (c : C) (t : Slot) (st : PState) : Bool :=
  s.holding c (.proc t) && s.noff c == 1 && st ≠ .running && !s.sie c

def call (s : State C K) (c : C) (x : Ctx C) : Op K → Option (State C K)
  | .acquire l =>
    some { s with level := upd s.level x ((s.level x).enter (s.noff c) (s.sie c) (.acquire l)) }
  | .putc => some { s with level := upd s.level x ((s.level x).enter (s.noff c) (s.sie c) .putc) }
  | .release l => some (s.setPc x (.relCheck l))
  | .sched st =>
    match x with
    | .sched _ => none
    | .thread t =>
      if schedOk s c t st then
        some ({ s with state := upd s.state t st, on := upd s.on c none }.setPc x
          (.restore (s.origin c)))
      else none
  | .wakeup t =>
    if s.holding c (.proc t) ∧ s.state t = .sleeping then
      some { s with state := upd s.state t .runnable }
    else none
  | .start t =>
    if s.holding c (.proc t) ∧ s.state t = .unused then
      some { s with
        state := upd s.state t .runnable
        level := upd s.level (.thread t) ⟨.out, none⟩
        under := upd s.under (.thread t) [] }
    else none
  | .free t =>
    if s.holding c (.proc t) ∧ s.state t = .zombie then
      some { s with state := upd s.state t .unused }
    else none
  | .leave =>
    match x with
    | .sched _ => none
    | .thread t =>
      if s.under (.thread t) = [] ∧ s.noff c = 0 then
        some ({ s with sie := upd s.sie c false }.setPc x .leave)
      else none

/-! ## Steps -/

inductive Act (C K : Type) where
  /-- The next step of the CPU. -/
  | go (c : C)
  /-- The thread on the CPU, or a handler, makes a call. -/
  | call (c : C) (op : Op K)
  /-- The scheduler prints, or goes on printing. -/
  | print (c : C)
  /-- An interrupt, into `trap_kernel_handler`. -/
  | interrupt (c : C)
  /-- `trap_kernel_handler` restores `sstatus` and returns. -/
  | sret (c : C)
  /-- A trap from user mode; a system call switches the interrupts on. -/
  | trap (c : C) (syscall : Bool)
  deriving DecidableEq

/-- Does the CPU execute the loop of `proc_scheduler` itself? -/
def inLoop (s : State C K) (c : C) : Bool := s.on c = none ∧ s.under (.sched c) = []

def step (s : State C K) : Act C K → Option (State C K)
  | .go c =>
    if s.pc c = .out then
      if inLoop s c then some (goLoop s c (s.loop c)) else none
    else goCall s c (s.ctx c) (s.pc c)
  | .call c op => if s.pc c = .out ∧ ¬ inLoop s c then call s c (s.ctx c) op else none
  | .print c =>
    if s.pc c = .out ∧ inLoop s c then
      match s.loop c with
      | .test i => some (toCall s c (.pushGet (.acquire (.other PRINT))) (.print i))
      | .print i => some (toCall s c (.pushGet .putc) (.print i))
      | _ => none
    else none
  | .interrupt c =>
    if s.sie c ∧ s.pc c ≠ .user then
      some { s with
        sie := upd s.sie c false
        level := upd s.level (s.ctx c) ⟨.out, none⟩
        under := upd s.under (s.ctx c) ((s.level (s.ctx c), s.sie c) :: s.under (s.ctx c)) }
    else none
  | .sret c =>
    match s.under (s.ctx c) with
    | [] => none
    | (v, spie) :: rest =>
      if s.pc c = .out ∧ s.noff c = 0 then
        some { s with
          sie := upd s.sie c spie
          level := upd s.level (s.ctx c) v
          under := upd s.under (s.ctx c) rest }
      else none
  | .trap c syscall =>
    if s.pc c = .user then
      some ({ s with sie := upd s.sie c syscall }.setPc (s.ctx c) .out)
    else none

/-- The CPUs enter `proc_scheduler`, and `proczero` is ready to start in `fork_return`. -/
def boot : State C K where
  noff := fun _ => 0
  origin := fun _ => false
  sie := fun _ => false
  on := fun _ => none
  loop := fun _ => .head
  locked := fun _ => false
  cpuid := fun _ => none
  state := upd (fun _ => .unused) proczero .runnable
  level := fun _ => ⟨.out, none⟩
  under := fun _ => []
  done := []

end Intr
end Sched
end WhuOS
