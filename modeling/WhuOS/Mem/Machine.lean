import Mathlib.Logic.Function.Basic
import WhuOS.Lib.Bytes
import WhuOS.Lib.Kern
import WhuOS.Sched.Model

/-!
# WhuOS.Mem.Machine

The state that the memory and process code works on, with the constants and macros of
`memlayout.h`, `riscv.h` and `vmem.h`. Addresses and registers are natural numbers; where a C
expression can wrap, the model takes it modulo `2^64` or `2^32`.

The linker decides where the kernel ends, so those addresses are the fields of `Layout`.
-/

namespace WhuOS
namespace Mem

open Lib Sched

/-! ## `memlayout.h`, `common.h` -/

abbrev PGSIZE : Nat := 4096
abbrev KERNEL_PAGES : Nat := 1024
abbrev KERNEL_BASE : Nat := 0x80000000
abbrev PHYSTOP : Nat := 0x88000000
abbrev ALLOC_END : Nat := 0x88000000
abbrev VA_MAX : Nat := 2 ^ 38
abbrev TRAMPOLINE : Nat := VA_MAX - PGSIZE
abbrev TRAPFRAME : Nat := TRAMPOLINE - PGSIZE
abbrev UART_BASE : Nat := 0x10000000
abbrev PLIC_BASE : Nat := 0x0c000000
abbrev CLINT_BASE : Nat := 0x2000000
abbrev VIRTIO_BASE : Nat := 0x10001000
abbrev NCPU : Nat := 2

def KSTACK (cpu : Nat) : Nat := TRAMPOLINE - (cpu + 1) * 2 * PGSIZE

/-- What the linker script decides: the trampoline page is the last one of the text, `etext` ends
it, and the static data ends at the page boundary `ALLOC_BEGIN`. -/
structure Layout where
  trampoline : Nat
  etext : Nat
  allocBegin : Nat
  /-- The address of `procs[i].exit_state`. -/
  exitState : Slot → Nat
  /-- The code of the first process. -/
  initcode : List UInt8
  /-- The address of `trap_user_handler`. -/
  trapUserHandler : Nat
  /-- The value of `satp` in the kernel. -/
  satp : Nat
  trampoline_aligned : trampoline % PGSIZE = 0
  trampoline_text : KERNEL_BASE ≤ trampoline
  etext_eq : PGSIZE + trampoline = etext
  allocBegin_aligned : allocBegin % PGSIZE = 0
  allocBegin_le : allocBegin ≤ ALLOC_END
  exitState_data : ∀ i, etext ≤ exitState i ∧ exitState i + 4 ≤ allocBegin

theorem Layout.trampoline_lt (L : Layout) : L.trampoline < L.etext := by
  rw [← L.etext_eq]; exact Nat.lt_add_of_pos_left (by decide)

/-! ## `riscv.h`, `vmem.h` -/

def pgRoundDown (a : Nat) : Nat := PGSIZE * (a / PGSIZE)

def pgRoundUp (a : Nat) : Nat := PGSIZE * ((a + (PGSIZE - 1)) % 2 ^ 64 / PGSIZE)

def vaToVpn (va level : Nat) : Nat := va / 2 ^ (12 + 9 * level) % 512

def paToPte (pa : Nat) : Nat := 2 ^ 10 * (pa / 2 ^ 12)

def pteToPa (pte : Nat) : Nat := 2 ^ 12 * (pte / 2 ^ 10) % 2 ^ 64

def pteFlags (pte : Nat) : Nat := pte % 2 ^ 10

abbrev PTE_V : Nat := 1
abbrev PTE_R : Nat := 2
abbrev PTE_W : Nat := 4
abbrev PTE_X : Nat := 8
abbrev PTE_U : Nat := 16

/-- `pte & mask`, as a condition. -/
def pteHas (pte mask : Nat) : Bool := pte &&& mask ≠ 0

/-- `PTE_CHECK(pte)`: a pointer to the next table, not a leaf. -/
def pteCheck (pte : Nat) : Bool := !pteHas pte (PTE_R ||| PTE_W ||| PTE_X)

def sub64 (a b : Nat) : Nat := (a + 2 ^ 64 - b) % 2 ^ 64

def add32 (a b : Nat) : Nat := (a + b) % 2 ^ 32

def sub32 (a b : Nat) : Nat := (2 ^ 32 + a - b) % 2 ^ 32

/-! ## What the kernel itself can access

`kvm_make` maps the devices and the memory at their own addresses, the text without `PTE_W`, and
above them the trampoline page and one stack per CPU. All of it is whole pages. -/

def inRange (a lo n : Nat) : Bool := lo ≤ a && a < lo + n

def kernelWrites (L : Layout) (a : Nat) : Bool :=
  inRange a UART_BASE PGSIZE || inRange a PLIC_BASE 0x400000 || inRange a CLINT_BASE 0x10000 ||
  inRange a VIRTIO_BASE PGSIZE || (L.etext ≤ a && a < PHYSTOP) ||
  inRange a (KSTACK 0) PGSIZE || inRange a (KSTACK 1) PGSIZE

def kernelReads (L : Layout) (a : Nat) : Bool :=
  kernelWrites L a || (KERNEL_BASE ≤ a && a < L.etext) || inRange a TRAMPOLINE PGSIZE

/-! ## The state -/

/-- `alloc_region_t` without its lock; `listHead` is `list_head.next`, 0 for `NULL`. -/
structure Region where
  beginAddr : Nat
  endAddr : Nat
  allocable : Nat
  listHead : Nat

abbrev N_MMAP : Nat := 256

/-- An index of `list_mmap_region_node[]`. -/
abbrev NodeId := Fin N_MMAP

/-- `mmap_region_node_t`: the region, and the link of the pool. -/
structure MmapNode where
  beginAddr : Nat
  npages : Nat
  next : Option NodeId
  poolNext : Option NodeId

/-- The fields of `proc_t` that the memory code uses; a null pointer is 0. `exit_state` is in
memory, where `proc_wait` copies it from. -/
structure Proc where
  pid : Int
  state : PState
  parent : Option Slot
  sleepSpace : Option Slot
  pgtbl : Nat
  heapTop : Nat
  ustackPages : Nat
  mmap : Option NodeId
  tf : Nat

/-- One `memmove` of a user copy: the page table entry it went through, and the bytes. -/
structure UserAccess where
  write : Bool
  pte : Nat
  addr : Nat
  len : Nat
  deriving DecidableEq

structure Machine where
  mem : Bytes
  kern : Region
  user : Region
  nodes : NodeId → MmapNode
  procs : Slot → Proc
  proczero : Option Slot
  globalPid : Int
  /-- History variable: the user memory touched by `uvm_copyin`, `uvm_copyout` and
  `uvm_copyin_str`. -/
  accesses : List UserAccess
  /-- History variable: `pmem_alloc` has returned `NULL`. -/
  starved : Bool

abbrev MemM := Kern Machine

def load64 (a : Nat) : MemM Nat := return Bytes.load 8 (← get).mem a

def store64 (a v : Nat) : MemM Unit := modify fun s => { s with mem := Bytes.store 8 s.mem a v }

def memset (dst : Nat) (c : UInt8) (n : Nat) : MemM Unit :=
  modify fun s => { s with mem := s.mem.write dst n (fun _ => c) }

/-- `memmove(dst, src, n)`; overlapping ranges are copied as if through a buffer. -/
def memmove (dst src n : Nat) : MemM Unit :=
  modify fun s => { s with mem := s.mem.write dst n (fun i => s.mem (src + i)) }

/-- An access inside the page `page` that the kernel's own page table must allow. -/
def touch (ok : Nat → Bool) (page : Nat) : MemM Unit :=
  if ok page then pure () else throw .fault

def getProc (p : Slot) : MemM Proc := return (← get).procs p

def setProc (p : Slot) (f : Proc → Proc) : MemM Unit :=
  modify fun s => { s with procs := Function.update s.procs p (f (s.procs p)) }

end Mem
end WhuOS
