import WhuOS.Mem.Uvm
import WhuOS.Mem.Copy

/-!
# WhuOS.Proc.Model

`proc_alloc`, `proc_free`, `proc_make_first`, `proc_fork`, `proc_wait` and `proc_exit` of
`kernel/proc/proc.c`, and `sys_brk`, `sys_mmap` and `sys_munmap` of `kernel/syscall/sysfunc.c`, run
one call at a time. A call is made by a process `p` (`myproc()`), with the values of its argument
registers.
-/

namespace WhuOS
namespace Proc

open Lib Mem Sched

abbrev TF_SIZE : Nat := 288

abbrev MINUS_ONE : Nat := 2 ^ 64 - 1

def setExitState (L : Layout) (p : Slot) (v : Nat) : MemM Unit :=
  modify fun s => { s with mem := Bytes.store 4 s.mem (L.exitState p) v }

def kstack (p : Slot) : Nat := KSTACK p.val

/-! ## `proc.c` -/

/-- `x + 1` on `int`, which wraps in two's complement. -/
def incInt (x : Int) : Int := if x = 2 ^ 31 - 1 then -2 ^ 31 else x + 1

def allocPid : MemM Int := do
  let s ← get
  Kern.assert (0 ≤ s.globalPid) "alloc_pid: overflow"
  set { s with globalPid := incInt s.globalPid }
  return s.globalPid

def procInit : MemM Unit :=
  modify fun s => { s with procs := fun i => { s.procs i with state := .unused } }

def procPgtblInit (L : Layout) (trapframe : Nat) : MemM Nat := do
  let pgtbl ← pmemAlloc false
  if pgtbl = 0 then Kern.panic "proc_pgtbl_init: failed to allocate page table"
  memset pgtbl 0 PGSIZE
  vmMappages pgtbl TRAMPOLINE L.trampoline PGSIZE (PTE_R ||| PTE_X)
  vmMappages pgtbl TRAPFRAME trapframe PGSIZE (PTE_R ||| PTE_W)
  return pgtbl

def findUnused (s : Machine) : Option Slot :=
  (List.finRange NPROC).find? fun i => (s.procs i).state = .unused

/-- `proc_alloc`; `none` for `NULL`. -/
def procAlloc (L : Layout) : MemM (Option Slot) := do
  match findUnused (← get) with
  | none => return none
  | some p =>
    let pid ← allocPid
    setProc p fun q => { q with pid }
    let tf ← pmemAlloc false
    setProc p fun q => { q with tf }
    if tf = 0 then return none
    memset tf 0 TF_SIZE
    let pgtbl ← procPgtblInit L tf
    setProc p fun q => { q with pgtbl }
    if pgtbl = 0 then
      pmemFree tf false
      setProc p fun q => { q with tf := 0 }
      return none
    setProc p fun q =>
      { q with parent := none, sleepSpace := none, heapTop := 0, ustackPages := 0, mmap := none }
    setExitState L p 0
    return some p

/-- The loop of `proc_free` along the mmap list. -/
def freeMmapList : Nat → Option NodeId → MemM Unit
  | _, none => return ()
  | 0, some _ => throw .hang
  | fuel + 1, some i => do
    let next := (← getNode i).next
    mmapRegionFree i
    freeMmapList fuel next

def procFree (L : Layout) (p : Slot) : MemM Unit := do
  let q ← getProc p
  if q.tf ≠ 0 then
    pmemFree q.tf false
    setProc p fun q => { q with tf := 0 }
  if q.pgtbl ≠ 0 then
    uvmDestroyPgtbl q.pgtbl
    setProc p fun q => { q with pgtbl := 0 }
  freeMmapList N_MMAP q.mmap
  setProc p fun q =>
    { q with mmap := none, pid := 0, state := .unused, parent := none, sleepSpace := none }
  setProc p fun q => { q with heapTop := 0, ustackPages := 0 }
  setExitState L p 0

/-- `proc_make_first` on the CPU `hartid`. -/
def procMakeFirst (L : Layout) (hartid : Nat) : MemM Unit := do
  match ← procAlloc L with
  | none => Kern.panic "proc_make_first: failed to allocate process"
  | some p =>
    modify fun s => { s with proczero := some p }
    setProc p fun q => { q with pid := 0 }
    let page ← pmemAlloc false
    if page = 0 then Kern.panic "proc_make_first: failed to allocate user stack"
    memset page 0 PGSIZE
    setProc p fun q => { q with ustackPages := 1 }
    let q ← getProc p
    let ustackVa := TRAPFRAME - PGSIZE
    vmMappages q.pgtbl ustackVa page PGSIZE (PTE_R ||| PTE_W ||| PTE_U)
    Kern.assert (L.initcode.length ≤ PGSIZE) "proc_make_first: initcode too big\n"
    let page ← pmemAlloc false
    if page = 0 then Kern.panic "proc_make_first: failed to allocate code page"
    memset page 0 PGSIZE
    modify fun s =>
      { s with mem := s.mem.write page L.initcode.length fun i => L.initcode.getD i 0 }
    vmMappages q.pgtbl PGSIZE page PGSIZE (PTE_R ||| PTE_W ||| PTE_X ||| PTE_U)
    setProc p fun q => { q with heapTop := 2 * PGSIZE, mmap := none }
    store64 (q.tf + 24) PGSIZE
    store64 (q.tf + 48) (ustackVa + PGSIZE)
    store64 (q.tf + 0) L.satp
    store64 (q.tf + 8) (kstack p + PGSIZE)
    store64 (q.tf + 16) L.trapUserHandler
    store64 (q.tf + 32) hartid
    setProc p fun q => { q with state := .runnable }

/-- The static data of the kernel, over any contents of the rest of the memory. -/
def reset (mem : Bytes) : Machine where
  mem := mem
  kern := ⟨0, 0, 0, 0⟩
  user := ⟨0, 0, 0, 0⟩
  nodes := fun _ => ⟨0, 0, none, none⟩
  procs := fun _ => ⟨0, .unused, none, none, 0, 0, 0, none, 0⟩
  proczero := none
  globalPid := 1
  accesses := []
  starved := false

/-- The part of the kernel's start that sets up this state, and the first process. -/
@[irreducible] def boot (L : Layout) (hartid : Nat) : MemM Unit := do
  pmemInit L.allocBegin ALLOC_END
  mmapInit
  procInit
  procMakeFirst L hartid

/-- The copy of the mmap list in `proc_fork`: `dst` is the node whose `next` is to be set, or `none`
for `np->mmap`. `mmap_region_alloc` panics rather than return `NULL`, so the branch for `NULL` is
never taken. -/
def copyMmapList (np : Slot) : Nat → Option NodeId → Option NodeId → MemM Unit
  | _, _, none => return ()
  | 0, _, some _ => throw .hang
  | fuel + 1, dst, some src => do
    let i ← mmapRegionAlloc
    let n ← getNode src
    setNode i fun m => { m with beginAddr := n.beginAddr, npages := n.npages, next := none }
    match dst with
    | none => setProc np fun q => { q with mmap := some i }
    | some j => setNode j fun m => { m with next := some i }
    copyMmapList np fuel (some i) (← getNode src).next

def procFork (L : Layout) (p : Slot) : MemM Int := do
  match ← procAlloc L with
  | none => return -1
  | some np =>
    let page ← pmemAlloc false
    if page = 0 then
      procFree L np
      return -1
    memset page 0 PGSIZE
    let q ← getProc p
    setProc np fun n => { n with ustackPages := q.ustackPages }
    let n ← getProc np
    vmMappages n.pgtbl (TRAPFRAME - PGSIZE) page PGSIZE (PTE_R ||| PTE_W ||| PTE_U)
    uvmCopyPgtbl L q.pgtbl n.pgtbl q.heapTop q.ustackPages
    setProc np fun n => { n with heapTop := q.heapTop }
    copyMmapList np N_MMAP none q.mmap
    memmove n.tf q.tf TF_SIZE
    store64 (n.tf + 112) 0
    store64 (n.tf + 8) (kstack np + PGSIZE)
    store64 (n.tf + 0) L.satp
    store64 (n.tf + 16) L.trapUserHandler
    setProc np fun n => { n with parent := some p }
    let pid := (← getProc np).pid
    setProc np fun n => { n with state := .runnable }
    return pid

/-- The first child of `p` that has exited. -/
def findZombie (s : Machine) (p : Slot) : Option Slot :=
  (List.finRange NPROC).find? fun i => (s.procs i).parent = some p ∧ (s.procs i).state = .zombie

def haveKids (s : Machine) (p : Slot) : Bool :=
  (List.finRange NPROC).any fun i => (s.procs i).parent = some p

/-- One pass of `proc_wait` over the table: the result, or `none` when `p` goes to sleep. -/
def procWait (L : Layout) (p : Slot) (addr : Nat) : MemM (Option Int) := do
  let s ← get
  match findZombie s p with
  | some pp =>
    let pid := (s.procs pp).pid
    if addr ≠ 0 then uvmCopyout L (s.procs p).pgtbl addr (L.exitState pp) 4
    procFree L pp
    return some pid
  | none =>
    if haveKids s p then
      setProc p fun q => { q with sleepSpace := some p, state := .sleeping }
      return none
    else return some (-1)

def procReparent (parent : Slot) : MemM Unit :=
  modify fun s => { s with
    procs := fun i =>
      if (s.procs i).parent = some parent then { s.procs i with parent := s.proczero }
      else s.procs i }

def procWakeupOne (p : Slot) : MemM Unit :=
  setProc p fun q =>
    if q.state = .sleeping ∧ q.sleepSpace = some p then { q with state := .runnable } else q

def procExit (L : Layout) (p : Slot) (exitState : Nat) : MemM Unit := do
  if (← get).proczero = some p then Kern.panic "proc_exit: proczero exiting"
  procReparent p
  match (← getProc p).parent with
  | none => throw .fault
  | some parent => procWakeupOne parent
  setExitState L p (exitState % 2 ^ 32)
  setProc p fun q => { q with state := .zombie }

/-! ## `sysfunc.c` -/

def sysBrk (p : Slot) (newHeapTop : Nat) : MemM Nat := do
  let q ← getProc p
  if newHeapTop = 0 then return q.heapTop
  if newHeapTop < 2 * PGSIZE then return MINUS_ONE
  if newHeapTop > sub64 (sub64 TRAPFRAME (PGSIZE * q.ustackPages % 2 ^ 64)) PGSIZE then
    return MINUS_ONE
  if newHeapTop > q.heapTop then
    let top ← uvmHeapGrow q.pgtbl q.heapTop ((newHeapTop - q.heapTop) % 2 ^ 32)
    setProc p fun q => { q with heapTop := top }
  else if newHeapTop < q.heapTop then
    let top ← uvmHeapUngrow q.pgtbl q.heapTop ((q.heapTop - newHeapTop) % 2 ^ 32)
    setProc p fun q => { q with heapTop := top }
  return (← getProc p).heapTop

/-- The search of `sys_mmap` for a region of at least `npages` pages: its start, 0 if there is
none. -/
def firstFit (npages : Nat) : Nat → Option NodeId → MemM Nat
  | _, none => return 0
  | 0, some _ => throw .hang
  | fuel + 1, some i => do
    let n ← getNode i
    if n.npages ≥ npages then return n.beginAddr else firstFit npages fuel n.next

/-- `sys_mmap` with the registers `a0` and `a1`; the length is read as `uint32`. -/
def sysMmap (p : Slot) (start a1 : Nat) : MemM Nat := do
  let len := a1 % 2 ^ 32
  if len = 0 ∨ len % PGSIZE ≠ 0 then return MINUS_ONE
  let npages := len / PGSIZE
  if start = 0 then
    let start ← firstFit npages N_MMAP (← getProc p).mmap
    if start = 0 then return MINUS_ONE
    uvmMmap p start npages (PTE_R ||| PTE_W)
    return start
  else if start % PGSIZE ≠ 0 then return MINUS_ONE
  else
    uvmMmap p start npages (PTE_R ||| PTE_W)
    return start

def sysMunmap (p : Slot) (start a1 : Nat) : MemM Nat := do
  let len := a1 % 2 ^ 32
  if start % PGSIZE ≠ 0 ∨ len = 0 ∨ len % PGSIZE ≠ 0 then return MINUS_ONE
  uvmMunmap p start (len / PGSIZE)
  return 0

/-! ## Runs of calls -/

/-- A call by a process. -/
inductive Call where
  | fork (p : Slot)
  | brk (p : Slot) (newHeapTop : Nat)
  | mmap (p : Slot) (start len : Nat)
  | munmap (p : Slot) (start len : Nat)
  | exit (p : Slot) (exitState : Nat)
  | wait (p : Slot) (addr : Nat)

def Call.caller : Call → Slot
  | .fork p | .brk p _ | .mmap p _ _ | .munmap p _ _ | .exit p _ | .wait p _ => p

/-- A `wait` that slept goes on after `proc_sleep`, which clears `sleep_space`, with another pass. -/
def Call.run (L : Layout) : Call → MemM Unit
  | .fork p => do let _ ← procFork L p
  | .brk p top => do let _ ← sysBrk p top
  | .mmap p start len => do let _ ← sysMmap p start len
  | .munmap p start len => do let _ ← sysMunmap p start len
  | .exit p v => procExit L p v
  | .wait p addr => do
    setProc p fun q => { q with sleepSpace := none }
    let _ ← procWait L p addr

/-- The state after a call by a process that is not asleep, unless it stops the kernel. -/
def step (L : Layout) (s : Machine) (c : Call) : Option Machine :=
  if (s.procs c.caller).state = .runnable then
    match c.run L s with
    | .ok _ s' => some s'
    | .error _ _ => none
  else none

end Proc
end WhuOS
