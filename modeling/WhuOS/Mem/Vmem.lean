import WhuOS.Mem.Machine

/-!
# WhuOS.Mem.Vmem

The page allocator of `kernel/mem/pmem.c` and the page-table functions of `kernel/mem/kvm.c`.
A free page keeps the address of the next one in its first eight bytes. The locks of the regions
protect single list operations and are left out.
-/

namespace WhuOS
namespace Mem

open Lib

/-! ## `pmem.c` -/

def getRegion (inKernel : Bool) : MemM Region := do
  let s ← get
  return if inKernel then s.kern else s.user

def setRegion (inKernel : Bool) (r : Region) : MemM Unit :=
  modify fun s => if inKernel then { s with kern := r } else { s with user := r }

/-- Link `page` at the head of the region's list. -/
def pushPage (inKernel : Bool) (page : Nat) : MemM Unit := do
  let r ← getRegion inKernel
  store64 page r.listHead
  setRegion inKernel { r with listHead := page, allocable := add32 r.allocable 1 }

/-- The loop of `region_init`. The address of a page has `2^52` values, so a loop of more passes
goes round and never ends. -/
def regionLoop (inKernel : Bool) (stop : Nat) : Nat → Nat → MemM Unit
  | 0, _ => throw .hang
  | fuel + 1, p =>
    if (PGSIZE + p) % 2 ^ 64 ≤ stop then do
      pushPage inKernel p
      regionLoop inKernel stop fuel ((PGSIZE + p) % 2 ^ 64)
    else return ()

def regionInit (inKernel : Bool) (start stop : Nat) : MemM Unit := do
  setRegion inKernel { beginAddr := start, endAddr := stop, allocable := 0, listHead := 0 }
  regionLoop inKernel stop (2 ^ 52 + 1) (pgRoundUp start)

/-- Where `pmem_init` puts the end of the kernel's region. -/
def kernEnd (allocBegin allocEnd : Nat) : Nat :=
  let e := (KERNEL_PAGES * PGSIZE + allocBegin) % 2 ^ 64
  if e > allocEnd then allocEnd else e

/-- `pmem_init`, for any `ALLOC_BEGIN` and `ALLOC_END`. -/
def pmemInit (allocBegin allocEnd : Nat) : MemM Unit := do
  regionInit true allocBegin (kernEnd allocBegin allocEnd)
  regionInit false (kernEnd allocBegin allocEnd) allocEnd

def pmemAlloc (inKernel : Bool) : MemM Nat := do
  let r ← getRegion inKernel
  let page := r.listHead
  if page ≠ 0 then
    let next ← load64 page
    setRegion inKernel { r with listHead := next, allocable := sub32 r.allocable 1 }
    memset page 0 PGSIZE
  else
    modify fun s => { s with starved := true }
  return page

def pmemFree (page : Nat) (inKernel : Bool) : MemM Unit := do
  let r ← getRegion inKernel
  if page % PGSIZE ≠ 0 then Kern.panic "pmem_free: page not aligned"
  if page < r.beginAddr || page ≥ r.endAddr then
    Kern.panic "pmem_free: page out of region bounds"
  memset page 1 PGSIZE
  pushPage inKernel page

/-! ## `kvm.c` -/

/-- One level of the walk of `vm_getpte`: the next table, or `none` for `NULL`. -/
def walkLevel (pgtbl va level : Nat) (alloc : Bool) : MemM (Option Nat) := do
  let slot := pgtbl + 8 * vaToVpn va level
  let pte ← load64 slot
  if pteHas pte PTE_V then
    return some (pteToPa pte)
  else if !alloc then
    return none
  else
    let newTable ← pmemAlloc false
    if newTable = 0 then
      return none
    memset newTable 0 PGSIZE
    store64 slot (paToPte newTable ||| PTE_V)
    return some newTable

/-- `vm_getpte`: the address of the leaf entry, or `none` for `NULL`. -/
def vmGetpte (pgtbl va : Nat) (alloc : Bool) : MemM (Option Nat) := do
  if va ≥ VA_MAX then Kern.panic "vm_getpte: virtual address too large"
  match ← walkLevel pgtbl va 2 alloc with
  | none => return none
  | some pgtbl =>
    match ← walkLevel pgtbl va 1 alloc with
    | none => return none
    | some pgtbl => return some (pgtbl + 8 * vaToVpn va 0)

/-- The loop of `vm_mappages`. Every pass goes one page up and `vm_getpte` panics at `VA_MAX`, so
`VA_MAX / PGSIZE + 1` passes are enough. -/
def mapLoop (pgtbl endVa perm : Nat) : Nat → Nat → Nat → MemM Unit
  | 0, _, _ => throw .hang
  | fuel + 1, currentVa, pa => do
    match ← vmGetpte pgtbl currentVa true with
    | none => Kern.panic "vm_mappages: failed to get PTE"
    | some pte =>
      store64 pte (paToPte pa ||| perm ||| PTE_V)
      if currentVa = endVa then return ()
      else mapLoop pgtbl endVa perm fuel (currentVa + PGSIZE) ((PGSIZE + pa) % 2 ^ 64)

def vmMappages (pgtbl va pa len perm : Nat) : MemM Unit := do
  if len = 0 then Kern.panic "vm_mappages: size cannot be zero"
  let endVa := pgRoundDown ((va + len - 1) % 2 ^ 64)
  mapLoop pgtbl endVa perm (VA_MAX / PGSIZE + 1) (pgRoundDown va) pa

/-- One pass of `vm_unmappages`. -/
def unmapPage (pgtbl va : Nat) (freeit : Bool) : MemM Unit := do
  match ← vmGetpte pgtbl va false with
  | none => Kern.panic "vm_unmappages: walk failed"
  | some pte =>
    let v ← load64 pte
    if !pteHas v PTE_V then Kern.panic "vm_unmappages: page not mapped"
    if pteFlags v = PTE_V then Kern.panic "vm_unmappages: not a leaf page"
    if freeit then pmemFree (pteToPa v) false
    store64 pte 0

/-- `for (va = begin; va < end; va += PGSIZE) body(va)`: every body walks the table at `va` and
stops at `VA_MAX`, so `va` does not wrap. -/
def forPages (beginVa endVa : Nat) (body : Nat → MemM Unit) : MemM Unit :=
  Kern.forFrom (fun k => body (beginVa + PGSIZE * k)) 0 ((endVa - beginVa + (PGSIZE - 1)) / PGSIZE)

def vmUnmappages (pgtbl va len : Nat) (freeit : Bool) : MemM Unit := do
  if va % PGSIZE ≠ 0 then Kern.panic "vm_unmappages: address not page aligned"
  let npages := max (pgRoundUp len / PGSIZE) 1
  forPages va ((va + PGSIZE * npages) % 2 ^ 64) (fun va => unmapPage pgtbl va freeit)

def kvmMap (kpgtbl va pa sz perm : Nat) : MemM Unit := vmMappages kpgtbl va pa sz perm

/-- One pass of the loop of `kvm_make` over the stacks. -/
def kvmStack (kpgtbl i : Nat) : MemM Unit := do
  let pa ← pmemAlloc false
  if pa = 0 then Kern.panic "kvm_make: failed to allocate kernel stack"
  kvmMap kpgtbl (KSTACK i) pa PGSIZE (PTE_R ||| PTE_W)

/-- `kvm_make`, for any addresses of the symbols `etext` and `trampoline`. -/
def kvmMake (etext trampoline : Nat) : MemM Nat := do
  let kpgtbl ← pmemAlloc false
  if kpgtbl = 0 then Kern.panic "kvm_make: failed to allocate kernel page table"
  memset kpgtbl 0 PGSIZE
  kvmMap kpgtbl UART_BASE UART_BASE PGSIZE (PTE_R ||| PTE_W)
  kvmMap kpgtbl PLIC_BASE PLIC_BASE 0x400000 (PTE_R ||| PTE_W)
  kvmMap kpgtbl CLINT_BASE CLINT_BASE 0x10000 (PTE_R ||| PTE_W)
  kvmMap kpgtbl VIRTIO_BASE VIRTIO_BASE PGSIZE (PTE_R ||| PTE_W)
  kvmMap kpgtbl KERNEL_BASE KERNEL_BASE (sub64 etext KERNEL_BASE) (PTE_R ||| PTE_X)
  kvmMap kpgtbl etext etext (sub64 PHYSTOP etext) (PTE_R ||| PTE_W)
  kvmMap kpgtbl TRAMPOLINE trampoline PGSIZE (PTE_R ||| PTE_X)
  Kern.forFrom (kvmStack kpgtbl) 0 NCPU
  return kpgtbl

end Mem
end WhuOS
