import WhuOS.Lib.Kern
import WhuOS.Lib.Update
import WhuOS.Sched.Model
import WhuOS.Fs.Format

/-!
# WhuOS.Fs.Inode

The state of the file system and the code of `kernel/fs/bitmap.c` and `kernel/fs/inode.c`, one
call at a time. The code runs over any buffer cache (`BufLayer`); `Blocks` is the one in which a
buffer is the block itself.
-/

namespace WhuOS
namespace Fs

open Lib Sched

/-! ## State -/

/-- `inode_t`. The calls run one at a time, so `slk` only says whether the running one holds the
sleeplock. -/
structure Inode where
  d : Dinode
  inodeNum : UInt16
  ref : UInt32
  valid : Bool
  slk : Bool

abbrev N_INODE : Nat := 32
abbrev IId := Fin N_INODE

instance inodes_neZero : NeZero N_INODE := ⟨by decide⟩

inductive FdType where
  | unused | dir | file | device
  deriving DecidableEq

/-- `file_t`. -/
structure File where
  type : FdType
  readable : Bool
  writable : Bool
  ref : UInt32
  major : UInt16
  offset : UInt32
  ip : Option IId

abbrev N_FILE : Nat := 32
abbrev FileId := Fin N_FILE

abbrev FILE_PER_PROC : Nat := 16

/-- The fields of `proc_t` that belong to the file system. -/
structure FProc where
  filelist : Fin FILE_PER_PROC → Option FileId
  cwd : Option IId

structure FsState (σ : Type) where
  dev : σ
  icache : IId → Inode
  ftable : FileId → File
  procs : Slot → FProc

abbrev FsM (σ : Type) := Kern (FsState σ)

/-- `buf_read`, `buf_write` and `buf_release`, with access to the data of a buffer that is held. -/
class BufLayer (σ : Type) (η : outParam Type) where
  read : Nat → Kern σ η
  data : η → σ → Block
  setData : η → Block → σ → σ
  write : η → Kern σ Unit
  release : η → Kern σ Unit

/-- A coherent array of blocks. With `zeroed`, a data block reads as zeros from the moment its bit
in the data bitmap is set, which the code does not see to: some results hold under this assumption
on the blocks that are allocated. -/
def Blocks (_zeroed : Bool) := Nat → Block

namespace Blocks

variable {zeroed : Bool}

/-- Is `x` a data block whose bit is clear in the data bitmap and set in `bitmap`? -/
def fresh (d : Blocks zeroed) (bitmap : Block) (x : Nat) : Bool :=
  sb.dataStart ≤ x && bitmap.bit (x - sb.dataStart) &&
    !(d sb.dataBitmapStart).bit (x - sb.dataStart)

def store (d : Blocks zeroed) (b : Nat) (blk : Block) : Blocks zeroed := fun x =>
  if x = b then blk
  else if zeroed && b == sb.dataBitmapStart && d.fresh blk x then Block.zero
  else d x

end Blocks

instance {zeroed : Bool} : BufLayer (Blocks zeroed) Nat where
  read b := pure b
  data b d := d b
  setData b blk d := d.store b blk
  write _ := pure ()
  release _ := pure ()

abbrev Disk := Blocks false

variable {σ η α : Type}

def onDev (x : Kern σ α) : FsM σ α := fun s =>
  match x s.dev with
  | .ok a d => .ok a { s with dev := d }
  | .error e d => .error e { s with dev := d }

def getIp (ip : IId) : FsM σ Inode := do return (← get).icache ip

def modIp (ip : IId) (f : Inode → Inode) : FsM σ Unit :=
  modify fun s => { s with icache := upd s.icache ip (f (s.icache ip)) }

variable [BufLayer σ η]

def bufRead (block : Nat) : FsM σ η := onDev (BufLayer.read block)

def bufData (buf : η) : FsM σ Block := do return BufLayer.data buf (← get).dev

def bufSet (buf : η) (d : Block) : FsM σ Unit :=
  modify fun s => { s with dev := BufLayer.setData buf d s.dev }

def bufWrite (buf : η) : FsM σ Unit := onDev (BufLayer.write buf)

def bufRelease (buf : η) : FsM σ Unit := onDev (BufLayer.release buf)

/-! ## `bitmap.c` -/

def bitmapSearchAndSet (bitmapBlock : Nat) : FsM σ Nat := do
  let buf ← bufRead bitmapBlock
  let d ← bufData buf
  match d.searchAndSet with
  | some (n, d) =>
    bufSet buf d
    bufWrite buf
    bufRelease buf
    return n
  | none =>
    bufRelease buf
    Kern.panic "bitmap_search_and_set: no bit left"

def bitmapUnset (bitmapBlock num : Nat) : FsM σ Unit := do
  let buf ← bufRead bitmapBlock
  let d ← bufData buf
  -- a number outside the bitmap leads out of the buffer
  if BIT_PER_BLOCK ≤ num then throw .fault
  match d.unset num with
  | none => Kern.panic "bitmap_unset: bit already free"
  | some d =>
    bufSet buf d
    bufWrite buf
    bufRelease buf

def bitmapAllocBlock : FsM σ UInt32 := do
  let bitNum ← bitmapSearchAndSet sb.dataBitmapStart
  return UInt32.ofNat (sb.dataStart + bitNum)

def bitmapFreeBlock (blockNum : UInt32) : FsM σ Unit :=
  bitmapUnset sb.dataBitmapStart (blockNum - UInt32.ofNat sb.dataStart).toNat

def bitmapAllocInode : FsM σ UInt16 := do
  return UInt16.ofNat (← bitmapSearchAndSet sb.inodeBitmapStart)

def bitmapFreeInode (inodeNum : UInt16) : FsM σ Unit :=
  bitmapUnset sb.inodeBitmapStart inodeNum.toNat

/-! ## `inode.c`: inodes -/

def inodeBlock (inodeNum : UInt16) : Nat := sb.inodeStart + inodeNum.toNat / INODE_PER_BLOCK

def inodeRw (ip : IId) (write : Bool) : FsM σ Unit := do
  let n ← getIp ip
  Kern.assert n.slk "inode_rw: not holding lock"
  let buf ← bufRead (inodeBlock n.inodeNum)
  let d ← bufData buf
  if write then
    bufSet buf (d.putInode (n.inodeNum.toNat % INODE_PER_BLOCK) n.d)
    bufWrite buf
  else
    modIp ip fun n => { n with d := d.getInode (n.inodeNum.toNat % INODE_PER_BLOCK) }
  bufRelease buf

/-- The cached inode with the number, and the first free entry of `icache[]`. -/
def findCached (s : FsState σ) (inodeNum : UInt16) : Option IId :=
  (List.finRange N_INODE).find? fun i => 0 < (s.icache i).ref && (s.icache i).inodeNum == inodeNum

def findEmpty (s : FsState σ) : Option IId :=
  (List.finRange N_INODE).find? fun i => (s.icache i).ref == 0

def inodeAlloc (inodeNum : UInt16) : FsM σ IId := do
  let s ← get
  match findCached s inodeNum with
  | some i =>
    modIp i fun n => { n with ref := n.ref + 1 }
    return i
  | none =>
    match findEmpty s with
    | some i =>
      modIp i fun n => { n with inodeNum, ref := 1, valid := false }
      return i
    | none => Kern.panic "inode_alloc: no free inode"

/-- `sleeplock_acquire(&ip->slk)`: who waits for a lock of the only running call waits forever. -/
def slkAcquire (ip : IId) : FsM σ Unit := do
  if (← getIp ip).slk then throw .hang
  modIp ip fun n => { n with slk := true }

def slkRelease (ip : IId) : FsM σ Unit := modIp ip fun n => { n with slk := false }

def inodeLock (ip : IId) : FsM σ Unit := do
  Kern.assert (0 < (← getIp ip).ref) "inode_lock: invalid inode"
  slkAcquire ip
  if !(← getIp ip).valid then
    inodeRw ip false
    modIp ip fun n => { n with valid := true }

def inodeUnlock (ip : IId) : FsM σ Unit := do
  Kern.assert (← getIp ip).slk "inode_unlock: not holding lock"
  slkRelease ip

def inodeCreate (type major minor : UInt16) : FsM σ IId := do
  let inodeNum ← bitmapAllocInode
  let ip ← inodeAlloc inodeNum
  inodeLock ip
  modIp ip fun n =>
    { n with
      d := { type, major, minor, nlink := 1, size := 0, addrs := fun _ => 0 }
      valid := true }
  inodeRw ip true
  if type = FT_DIR then
    let block ← bitmapAllocBlock
    modIp ip fun n =>
      { n with d := { n.d with addrs := upd n.d.addrs 0 block, size := 0 } }
    inodeRw ip true
  inodeUnlock ip
  return ip

/-! ## `inode.c`: the data of an inode -/

/-- A `uint32 *entry`: an element of `ip->addrs`, or of an indirect block in a buffer. -/
inductive EntryRef (η : Type) where
  | addr (ip : IId) (k : Fin N_ADDRS)
  | slot (buf : η) (i : Nat)

def readEntry : EntryRef η → FsM σ UInt32
  | .addr ip k => do return (← getIp ip).d.addrs k
  | .slot buf i => do return (← bufData buf).u32 (4 * i)

def writeEntry : EntryRef η → UInt32 → FsM σ Unit
  | .addr ip k, v =>
    modIp ip fun n => { n with d := { n.d with addrs := upd n.d.addrs k v } }
  | .slot buf i, v => do bufSet buf ((← bufData buf).setU32 (4 * i) v)

/-- `if(*entry == 0) *entry = bitmap_alloc_block()`. -/
def allocEntry (entry : EntryRef η) : FsM σ Unit := do
  if (← readEntry entry) = 0 then
    writeEntry entry (← bitmapAllocBlock)

/-- `locate_block(entry, bn, 256 ^ level)`. -/
def locateBlock : Nat → EntryRef η → Nat → FsM σ UInt32
  | 0, entry, _ => do
    allocEntry entry
    readEntry entry
  | level + 1, entry, bn => do
    allocEntry entry
    let buf ← bufRead (← readEntry entry).toNat
    let ret ← locateBlock level (.slot buf (bn / ENTRY_PER_BLOCK ^ level)) (bn % ENTRY_PER_BLOCK ^ level)
    bufRelease buf
    return ret

def inodeLocateBlock (ip : IId) (bn : Nat) : FsM σ UInt32 :=
  if h : bn < N_ADDRS_1 then
    locateBlock 0 (.addr ip ⟨bn, direct_lt h⟩) bn
  else
    let bn := bn - N_ADDRS_1
    if h : bn < N_ADDRS_2 * ENTRY_PER_BLOCK then
      locateBlock 1 (.addr ip ⟨N_ADDRS_1 + bn / ENTRY_PER_BLOCK, indirect_lt h⟩) (bn % ENTRY_PER_BLOCK)
    else
      let bn := bn - N_ADDRS_2 * ENTRY_PER_BLOCK
      if bn < N_ADDRS_3 * ENTRY_PER_BLOCK * ENTRY_PER_BLOCK then
        locateBlock 2 (.addr ip ⟨N_ADDRS_1 + N_ADDRS_2, double_lt⟩)
          (bn % (ENTRY_PER_BLOCK * ENTRY_PER_BLOCK))
      else Kern.panic "inode_locate_block: overflow"

def INODE_MAXSIZE : UInt32 := 67643392

/-- The loop of `inode_read_data`; the bytes that were read so far are `acc`. -/
def readLoop (ip : IId) (len : UInt32) : Nat → UInt32 → UInt32 → List UInt8 → FsM σ (List UInt8)
  | 0, _, _, acc => return acc
  | fuel + 1, offset, total, acc => do
    if total < len then
      let blockNum ← inodeLocateBlock ip (offset.toNat / BLOCK_SIZE)
      let blockOffset := offset % 1024
      let readLen := if 1024 - blockOffset > len - total then len - total else 1024 - blockOffset
      let buf ← bufRead blockNum.toNat
      let d ← bufData buf
      bufRelease buf
      readLoop ip len fuel (offset + readLen) (total + readLen)
        (acc ++ (List.range readLen.toNat).map fun i => d.byte (blockOffset.toNat + i))
    else return acc

/-- `inode_read_data`; the result is what was copied to `dst`. Every pass reads at least one byte. -/
def inodeReadData (ip : IId) (offset len : UInt32) : FsM σ (List UInt8) := do
  let n ← getIp ip
  Kern.assert n.slk "inode_read_data: not holding lock"
  if offset > n.d.size then return []
  let len := if offset + len > n.d.size then n.d.size - offset else len
  readLoop ip len len.toNat offset 0 []

/-- The loop of `inode_write_data`; the result is the offset at the end. -/
def writeLoop (ip : IId) (len : UInt32) (src : Nat → UInt8) : Nat → UInt32 → UInt32 →
    FsM σ (UInt32 × UInt32)
  | 0, offset, total => return (offset, total)
  | fuel + 1, offset, total => do
    if total < len then
      let blockNum ← inodeLocateBlock ip (offset.toNat / BLOCK_SIZE)
      let blockOffset := offset % 1024
      let writeLen := if 1024 - blockOffset > len - total then len - total else 1024 - blockOffset
      let buf ← bufRead blockNum.toNat
      let d ← bufData buf
      bufSet buf (d.blit blockOffset.toNat writeLen.toNat fun i => src (total.toNat + i))
      bufWrite buf
      bufRelease buf
      writeLoop ip len src fuel (offset + writeLen) (total + writeLen)
    else return (offset, total)

/-- `inode_write_data`; `src` is what `memmove` or `uvm_copyin` brings into the buffers. -/
def inodeWriteData (ip : IId) (offset len : UInt32) (src : Nat → UInt8) : FsM σ UInt32 := do
  let n ← getIp ip
  Kern.assert n.slk "inode_write_data: not holding lock"
  if offset > n.d.size then return 0
  if offset + len > INODE_MAXSIZE then return 0
  let (offset, total) ← writeLoop ip len src len.toNat offset 0
  if offset > (← getIp ip).d.size then
    modIp ip fun n => { n with d := { n.d with size := offset } }
  inodeRw ip true
  return total

/-- The loop of `data_free` over the entries of an indirect block, up to the first zero. -/
def freeEntries (free : UInt32 → FsM σ Unit) (buf : η) : Nat → Nat → FsM σ Unit
  | _, 0 => return ()
  | i, k + 1 => do
    let addr := (← bufData buf).u32 (4 * i)
    if addr = 0 then return ()
    free addr
    freeEntries free buf (i + 1) k

def dataFree : Nat → UInt32 → FsM σ Unit
  | 0, blockNum => do
    Kern.assert (blockNum ≠ 0) "data_free: block_num = 0"
    bitmapFreeBlock blockNum
  | level + 1, blockNum => do
    Kern.assert (blockNum ≠ 0) "data_free: block_num = 0"
    let buf ← bufRead blockNum.toNat
    freeEntries (dataFree level) buf 0 ENTRY_PER_BLOCK
    bufRelease buf
    bitmapFreeBlock blockNum

/-- A loop of `inode_free_data` over elements of `addrs` of one level. -/
def freeAddrs (ip : IId) (level : Nat) : List (Fin N_ADDRS) → FsM σ Unit
  | [] => return ()
  | k :: ks => do
    let addr := (← getIp ip).d.addrs k
    if addr ≠ 0 then
      dataFree level addr
      modIp ip fun n => { n with d := { n.d with addrs := upd n.d.addrs k 0 } }
    freeAddrs ip level ks

def inodeFreeData (ip : IId) : FsM σ Unit := do
  Kern.assert (← getIp ip).slk "inode_free_data: not holding lock"
  freeAddrs ip 0 [0, 1, 2, 3, 4, 5, 6, 7, 8, 9]
  freeAddrs ip 1 [10, 11]
  freeAddrs ip 2 [12]
  modIp ip fun n => { n with d := { n.d with size := 0 } }
  inodeRw ip true

/-! ## `inode.c`: references -/

def inodeDestroy (ip : IId) : FsM σ Unit := do
  slkAcquire ip
  inodeFreeData ip
  modIp ip fun n => { n with d := { n.d with type := FT_UNUSED } }
  inodeRw ip true
  bitmapFreeInode (← getIp ip).inodeNum
  slkRelease ip
  modIp ip fun n => { n with valid := false }

def inodeFree (ip : IId) : FsM σ Unit := do
  let n ← getIp ip
  if n.ref = 1 ∧ n.valid ∧ n.d.nlink = 0 then inodeDestroy ip
  modIp ip fun n => { n with ref := n.ref - 1 }

def inodeDup (ip : IId) : FsM σ IId := do
  modIp ip fun n => { n with ref := n.ref + 1 }
  return ip

def inodeUnlockFree (ip : IId) : FsM σ Unit := do
  inodeUnlock ip
  inodeFree ip

end Fs
end WhuOS
