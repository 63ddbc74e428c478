import WhuOS.Lib.SlotMap
import WhuOS.Fs.Dir

/-!
# WhuOS.Fs.Disk

The code over an array of blocks, where each step changes one block (`put`) or one entry of the
inode cache (`setIp`).

* `inodeAt`          — the inode of a number, as it is on the disk.
* `Apart`            — which blocks a write leaves alone.
* `inodeRw_write`, `inodeRw_read` — between the cache and the disk.
-/

namespace WhuOS
namespace Fs

open Lib Sched Kern

variable {z : Bool}

/-! ## Blocks -/

namespace Blocks

@[simp] theorem store_same (d : Blocks z) (b : Nat) (blk : Block) : d.store b blk b = blk := by
  simp [store]

/-- A write to block `b` leaves block `x` alone: only one to the data bitmap can change another
block, and only under the assumption on allocated blocks. -/
def Apart (z : Bool) (b x : Nat) : Prop :=
  x ≠ b ∧ (z = false ∨ b ≠ sb.dataBitmapStart ∨ x < sb.dataStart)

theorem store_of_apart {d : Blocks z} {b x : Nat} {blk : Block} (h : Apart z b x) :
    d.store b blk x = d x := by
  obtain ⟨hx, h⟩ := h
  have h' : (z && b == sb.dataBitmapStart && d.fresh blk x) = false := by
    rcases h with h | h | h
    · simp [h]
    · simp [h]
    · have : ¬ sb.dataStart ≤ x := by omega
      simp [fresh, this]
  simp [store, hx, h']

end Blocks

namespace FsState

variable {σ : Type}

def put (s : FsState (Blocks z)) (b : Nat) (blk : Block) : FsState (Blocks z) :=
  { s with dev := s.dev.store b blk }

def setIp (s : FsState σ) (ip : IId) (n : Inode) : FsState σ :=
  { s with icache := upd s.icache ip n }

@[simp] theorem put_icache (s : FsState (Blocks z)) (b : Nat) (blk : Block) :
    (s.put b blk).icache = s.icache := rfl
@[simp] theorem put_dev (s : FsState (Blocks z)) (b : Nat) (blk : Block) :
    (s.put b blk).dev = s.dev.store b blk := rfl
@[simp] theorem put_ftable (s : FsState (Blocks z)) (b : Nat) (blk : Block) :
    (s.put b blk).ftable = s.ftable := rfl
@[simp] theorem put_procs (s : FsState (Blocks z)) (b : Nat) (blk : Block) :
    (s.put b blk).procs = s.procs := rfl
@[simp] theorem setIp_icache (s : FsState σ) (ip : IId) (n : Inode) :
    (s.setIp ip n).icache = upd s.icache ip n := rfl
@[simp] theorem setIp_dev (s : FsState σ) (ip : IId) (n : Inode) : (s.setIp ip n).dev = s.dev := rfl
@[simp] theorem setIp_ftable (s : FsState σ) (ip : IId) (n : Inode) :
    (s.setIp ip n).ftable = s.ftable := rfl
@[simp] theorem setIp_procs (s : FsState σ) (ip : IId) (n : Inode) :
    (s.setIp ip n).procs = s.procs := rfl

end FsState

/-! ## Single steps -/

section Steps

variable {σ : Type}

@[simp] theorem getIp_run (ip : IId) (s : FsState σ) : getIp ip s = .ok (s.icache ip) s := rfl

@[simp] theorem modIp_run (ip : IId) (f : Inode → Inode) (s : FsState σ) :
    modIp ip f s = .ok () (s.setIp ip (f (s.icache ip))) := rfl

variable (s : FsState (Blocks z)) (b : Nat) (blk : Block)

@[simp] theorem bufRead_run : (bufRead b : FsM (Blocks z) Nat) s = .ok b s := rfl

@[simp] theorem bufData_run : (bufData b : FsM (Blocks z) Block) s = .ok (s.dev b) s := rfl

@[simp] theorem bufSet_run : (bufSet b blk : FsM (Blocks z) Unit) s = .ok () (s.put b blk) := rfl

@[simp] theorem bufWrite_run : (bufWrite b : FsM (Blocks z) Unit) s = .ok () s := rfl

@[simp] theorem bufRelease_run : (bufRelease b : FsM (Blocks z) Unit) s = .ok () s := rfl

end Steps

/-! ## Inodes on the disk -/

/-- The inode with the number, as it is on the disk. -/
def inodeAt (d : Blocks z) (n : UInt16) : Dinode :=
  (d (inodeBlock n)).getInode (n.toNat % INODE_PER_BLOCK)

variable {s : FsState (Blocks z)} {ip : IId}

/-- The state after `inode_rw(ip, true)`. -/
def FsState.flush (s : FsState (Blocks z)) (ip : IId) : FsState (Blocks z) :=
  s.put (inodeBlock (s.icache ip).inodeNum)
    ((s.dev (inodeBlock (s.icache ip).inodeNum)).putInode
      ((s.icache ip).inodeNum.toNat % INODE_PER_BLOCK) (s.icache ip).d)

theorem inodeRw_write (h : (s.icache ip).slk = true) : inodeRw ip true s = .ok () (s.flush ip) := by
  simp [inodeRw, bind_run, h, FsState.flush]

theorem inodeRw_read (h : (s.icache ip).slk = true) :
    inodeRw ip false s =
      .ok () (s.setIp ip { s.icache ip with d := inodeAt s.dev (s.icache ip).inodeNum }) := by
  simp [inodeRw, bind_run, h, inodeAt]

end Fs
end WhuOS
