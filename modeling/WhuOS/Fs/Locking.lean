import WhuOS.Lib.Thread
import WhuOS.Fs.Buf
import WhuOS.Fs.File

/-!
# WhuOS.Fs.Locking

The locks of the file system: the code of `buf.c`, `bitmap.c`, `inode.c`, `dir.c` and `file.c` as
threads of `WhuOS.Lib.Thread`, with `kernel/lib/sleeplock.c`, `proc_sleep` and `virtio_disk_rw`.

The memory (`icache[]`, `ftable[]`, the sleeplocks) is modelled as it is. What is on the disk, which
buffer holds a block and whether a block is cached are open: every value that comes from there can be
anything, so the results hold for every content of the disk and of the buffer cache.

* `no_wait_under_spinlock` — nothing sleeps or waits for the disk with a spinlock held, as long as no
  last reference to an inode without links is dropped.
* `destroy_waits_under_lk_icache` — dropping one does.
-/

namespace WhuOS
namespace Fs
namespace Locking

open Lib Sched

inductive Sleeplock where
  | inode (ip : IId)
  | buf (b : BufId)
  deriving DecidableEq

inductive Spinlock where
  | icache
  | ftable
  | bufCache
  | vdisk
  /-- The spinlock inside a sleeplock. -/
  | slk (l : Sleeplock)
  /-- `p->lk`. -/
  | proc (p : Slot)
  deriving DecidableEq

/-- The fields of `inode_t` that decide what the code does to locks. -/
structure CInode where
  inodeNum : UInt16
  ref : UInt32
  valid : Bool
  type : UInt16
  nlink : UInt16

structure CFile where
  type : FdType
  readable : Bool
  writable : Bool
  ref : UInt32
  ip : Option IId

/-- The memory of the kernel; `slk l` is the process that has locked the sleeplock. -/
structure Mem where
  icache : IId → CInode
  ftable : FileId → CFile
  cwd : Slot → Option IId
  slk : Sleeplock → Option Slot

abbrev Code := Thread Mem Spinlock

def any : Code Nat := .any .ret
def get : Code Mem := .mem id .ret
def modify (f : Mem → Mem) : Code Unit := .mem f fun _ => .ret ()
def acquire (l : Spinlock) : Code Unit := .acquire l (.ret ())
def release (l : Spinlock) : Code Unit := .release l (.ret ())
def assert (b : Bool) : Code Unit := if b then pure () else .panic

/-- A section under the spinlock `l`. -/
def locked {α : Type} (l : Spinlock) (x : Code α) : Code α := do
  acquire l
  let a ← x
  release l
  return a

/-- `for (i = 0; i < n; i++) x`. -/
def times (x : Code Unit) : Nat → Code Unit
  | 0 => pure ()
  | n + 1 => do
    x
    times x n

/-- A loop whose number of passes is open. -/
def repeatAny (x : Code Unit) : Code Unit := do times x (← any)

def getIp (ip : IId) : Code CInode := do return (← get).icache ip

def modIp (ip : IId) (f : CInode → CInode) : Code Unit :=
  modify fun m => { m with icache := upd m.icache ip (f (m.icache ip)) }

/-! ## `proc.c`, `sleeplock.c`, `virtio.c`

`p` is the process that runs the code. -/

def wakeLoop (p : Slot) : List Slot → Code Unit
  | [] => pure ()
  | i :: is => do
    if i ≠ p then locked (.proc i) (pure ())
    wakeLoop p is

def procWakeup (p : Slot) : Code Unit := wakeLoop p (List.finRange NPROC)

def sleeplockAcquire (p : Slot) (l : Sleeplock) : Code Unit := do
  acquire (.slk l)
  .await .test (.proc p) (.slk l) (fun m => (m.slk l).isSome) (.ret ())
  modify fun m => { m with slk := upd m.slk l (some p) }
  release (.slk l)

def sleeplockRelease (p : Slot) (l : Sleeplock) : Code Unit :=
  locked (.slk l) do
    modify fun m => { m with slk := upd m.slk l none }
    procWakeup p

def sleeplockHolding (p : Slot) (l : Sleeplock) : Code Bool :=
  locked (.slk l) do return (← get).slk l == some p

/-- `virtio_disk_rw`: waits for descriptors, then for the end of the transfer. -/
def virtioDiskRw : Code Unit := do
  .io (.ret ())
  acquire .vdisk
  .poll .test .vdisk (.ret ())
  .poll .test .vdisk (.ret ())
  release .vdisk

/-! ## `buf.c`, `bitmap.c` -/

inductive Lookup where
  | hit (b : BufId)
  | miss (b : BufId)
  | full

/-- What `buf_read` finds in the cache. -/
def lookup : Code Lookup := do
  let b := Fin.ofNat N_BLOCK_BUF (← any)
  match ← any with
  | 0 => return .miss b
  | 1 => return .hit b
  | _ => return .full

def bufRead (p : Slot) : Code BufId := do
  match ← locked .bufCache lookup with
  | .hit b =>
    sleeplockAcquire p (.buf b)
    return b
  | .miss b =>
    sleeplockAcquire p (.buf b)
    virtioDiskRw
    return b
  | .full => .panic

def bufWrite (p : Slot) (b : BufId) : Code Unit := do
  assert (← sleeplockHolding p (.buf b))
  virtioDiskRw

def bufRelease (p : Slot) (b : BufId) : Code Unit := do
  assert (← sleeplockHolding p (.buf b))
  sleeplockRelease p (.buf b)
  locked .bufCache (pure ())

def bitmapSearchAndSet (p : Slot) : Code Nat := do
  let buf ← bufRead p
  match ← any with
  | 0 =>
    bufRelease p buf
    .panic
  | n + 1 =>
    bufWrite p buf
    bufRelease p buf
    return n

def bitmapUnset (p : Slot) : Code Unit := do
  let buf ← bufRead p
  if (← any) = 0 then .panic
  bufWrite p buf
  bufRelease p buf

def bitmapAllocBlock (p : Slot) : Code Unit := do let _ ← bitmapSearchAndSet p

def bitmapAllocInode (p : Slot) : Code UInt16 := do return UInt16.ofNat (← bitmapSearchAndSet p)

/-! ## `inode.c` -/

def inodeRw (p : Slot) (ip : IId) (write : Bool) : Code Unit := do
  assert (← sleeplockHolding p (.inode ip))
  let buf ← bufRead p
  if write then bufWrite p buf
  else
    let type := UInt16.ofNat (← any)
    let nlink := UInt16.ofNat (← any)
    modIp ip fun n => { n with type, nlink }
  bufRelease p buf

def findCached (m : Mem) (inodeNum : UInt16) : Option IId :=
  (List.finRange N_INODE).find? fun i => 0 < (m.icache i).ref && (m.icache i).inodeNum == inodeNum

def findEmpty (m : Mem) : Option IId :=
  (List.finRange N_INODE).find? fun i => (m.icache i).ref == 0

def inodeAlloc (inodeNum : UInt16) : Code IId :=
  locked .icache do
    let m ← get
    match findCached m inodeNum with
    | some i =>
      modIp i fun n => { n with ref := n.ref + 1 }
      return i
    | none =>
      match findEmpty m with
      | some i =>
        modIp i fun n => { n with inodeNum, ref := 1, valid := false }
        return i
      | none => .panic

def inodeDup (ip : IId) : Code IId :=
  locked .icache do
    modIp ip fun n => { n with ref := n.ref + 1 }
    return ip

def inodeLock (p : Slot) (ip : IId) : Code Unit := do
  assert (0 < (← getIp ip).ref)
  sleeplockAcquire p (.inode ip)
  if !(← getIp ip).valid then
    inodeRw p ip false
    modIp ip fun n => { n with valid := true }

def inodeUnlock (p : Slot) (ip : IId) : Code Unit := do
  assert (← sleeplockHolding p (.inode ip))
  sleeplockRelease p (.inode ip)

def inodeCreate (p : Slot) (type : UInt16) : Code IId := do
  let inodeNum ← bitmapAllocInode p
  let ip ← inodeAlloc inodeNum
  inodeLock p ip
  modIp ip fun n => { n with type, nlink := 1, valid := true }
  inodeRw p ip true
  if type = FT_DIR then
    bitmapAllocBlock p
    inodeRw p ip true
  inodeUnlock p ip
  return ip

/-- `locate_block` with `level` levels of indirect blocks. -/
def locateBlock (p : Slot) : Nat → Code Unit
  | 0 => do
    if (← any) = 0 then bitmapAllocBlock p
  | level + 1 => do
    if (← any) = 0 then bitmapAllocBlock p
    let buf ← bufRead p
    locateBlock p level
    bufRelease p buf

def inodeLocateBlock (p : Slot) : Code Unit := do
  match ← any with
  | 0 => locateBlock p 0
  | 1 => locateBlock p 1
  | 2 => locateBlock p 2
  | _ => .panic

def inodeReadData (p : Slot) (ip : IId) : Code Unit := do
  assert (← sleeplockHolding p (.inode ip))
  repeatAny do
    inodeLocateBlock p
    let buf ← bufRead p
    bufRelease p buf

def inodeWriteData (p : Slot) (ip : IId) : Code Unit := do
  assert (← sleeplockHolding p (.inode ip))
  if (← any) = 0 then return ()
  repeatAny do
    inodeLocateBlock p
    let buf ← bufRead p
    bufWrite p buf
    bufRelease p buf
  inodeRw p ip true

def dataFree (p : Slot) : Nat → Code Unit
  | 0 => bitmapUnset p
  | level + 1 => do
    let buf ← bufRead p
    repeatAny (dataFree p level)
    bufRelease p buf
    bitmapUnset p

/-- `inode_free_data`; `repeatAny` stands for the elements of `addrs` that are not zero. -/
def inodeFreeData (p : Slot) (ip : IId) : Code Unit := do
  assert (← sleeplockHolding p (.inode ip))
  repeatAny (dataFree p 0)
  repeatAny (dataFree p 1)
  repeatAny (dataFree p 2)
  inodeRw p ip true

def inodeDestroy (p : Slot) (ip : IId) : Code Unit := do
  sleeplockAcquire p (.inode ip)
  inodeFreeData p ip
  modIp ip fun n => { n with type := FT_UNUSED }
  inodeRw p ip true
  bitmapUnset p
  sleeplockRelease p (.inode ip)
  modIp ip fun n => { n with valid := false }

/-- `ip->ref == 1 && ip->valid && ip->nlink == 0`. -/
def lastUnlinked (ip : IId) (m : Mem) : Bool :=
  (m.icache ip).ref == 1 && (m.icache ip).valid && (m.icache ip).nlink == 0

def inodeFree (p : Slot) (ip : IId) : Code Unit := do
  acquire .icache
  let last ← .test (lastUnlinked ip) .ret
  if last then inodeDestroy p ip
  modIp ip fun n => { n with ref := n.ref - 1 }
  release .icache

def inodeUnlockFree (p : Slot) (ip : IId) : Code Unit := do
  inodeUnlock p ip
  inodeFree p ip

/-! ## `dir.c` -/

/-- The assertions of the functions on a directory. -/
def assertDir (p : Slot) (pip : IId) : Code Unit := do
  assert (← sleeplockHolding p (.inode pip))
  assert ((← getIp pip).type == FT_DIR)

def dirSearchEntry (p : Slot) (pip : IId) : Code UInt16 := do
  assertDir p pip
  let buf ← bufRead p
  bufRelease p buf
  return UInt16.ofNat (← any)

/-- `dir_add_entry`; `false` for `BLOCK_SIZE`. -/
def dirAddEntry (p : Slot) (pip : IId) : Code Bool := do
  assertDir p pip
  if (← dirSearchEntry p pip) ≠ INODE_NUM_UNUSED then return false
  let buf ← bufRead p
  if (← any) = 0 then
    bufRelease p buf
    return false
  bufWrite p buf
  bufRelease p buf
  if (← any) = 0 then inodeRw p pip true
  return true

def dirDeleteEntry (p : Slot) (pip : IId) : Code Unit := do
  assertDir p pip
  let buf ← bufRead p
  if (← any) = 0 then bufWrite p buf
  bufRelease p buf

def dirGetEntries (p : Slot) (pip : IId) : Code Nat := do
  assertDir p pip
  let buf ← bufRead p
  bufRelease p buf
  any

def searchLoop (p : Slot) (findParent : Bool) : Nat → IId → Option Name → List UInt8 →
    Code (Option (IId × Option Name))
  | 0, _, _, _ => .panic
  | fuel + 1, ip, name, path => do
    match skipElement path with
    | none =>
      if findParent then
        inodeFree p ip
        return none
      return some (ip, name)
    | some (name, path) =>
      inodeLock p ip
      if (← getIp ip).type ≠ FT_DIR then
        inodeUnlockFree p ip
        return none
      if findParent && atEnd path then
        inodeUnlock p ip
        return some (ip, some name)
      let inum ← dirSearchEntry p ip
      if inum = INODE_NUM_UNUSED then
        inodeUnlockFree p ip
        return none
      let next ← inodeAlloc inum
      inodeUnlockFree p ip
      searchLoop p findParent fuel next (some name) path

/-- `search_inode`. Every pass uses up at least one byte of the path. -/
def searchInode (p : Slot) (path : List UInt8) (findParent : Bool) :
    Code (Option (IId × Option Name)) := do
  let ip ←
    match path.head? == some SLASH, (← get).cwd p with
    | false, some cwd => inodeDup cwd
    | _, _ => inodeAlloc INODE_ROOT
  searchLoop p findParent (path.length + 1) ip none path

def pathToInode (p : Slot) (path : List UInt8) : Code (Option IId) := do
  return (← searchInode p path false).map (·.1)

def pathToPinode (p : Slot) (path : List UInt8) : Code (Option (IId × Name)) := do
  match ← searchInode p path true with
  | some (pip, some name) => return some (pip, name)
  | _ => return none

/-- `path_create_inode` when the parent has an entry with the name. -/
def createExisting (p : Slot) (pip : IId) (inum type : UInt16) : Code (Option IId) := do
  inodeUnlockFree p pip
  let ip ← inodeAlloc inum
  inodeLock p ip
  if type ≠ FT_DIR ∧ (← getIp ip).type = FT_DIR then
    inodeUnlockFree p ip
    return none
  inodeUnlock p ip
  return some ip

def addDots (p : Slot) (pip ip : IId) : Code Unit := do
  inodeLock p ip
  let _ ← dirAddEntry p ip
  let _ ← dirAddEntry p ip
  inodeUnlock p ip
  modIp pip fun n => { n with nlink := n.nlink + 1 }
  inodeRw p pip true

def createNew (p : Slot) (pip : IId) (type : UInt16) : Code (Option IId) := do
  let ip ← inodeCreate p type
  if !(← dirAddEntry p pip) then
    inodeLock p ip
    modIp ip fun n => { n with nlink := 0 }
    inodeUnlockFree p ip
    inodeUnlockFree p pip
    return none
  if type = FT_DIR then addDots p pip ip
  inodeUnlockFree p pip
  return some ip

def pathCreateInode (p : Slot) (path : List UInt8) (type : UInt16) : Code (Option IId) := do
  match ← pathToPinode p path with
  | none => return none
  | some (pip, _) =>
    inodeLock p pip
    let inum ← dirSearchEntry p pip
    if inum ≠ INODE_NUM_UNUSED then createExisting p pip inum type
    else createNew p pip type

def pathLink (p : Slot) (oldPath newPath : List UInt8) : Code Unit := do
  match ← pathToInode p oldPath with
  | none => return ()
  | some ip =>
    inodeLock p ip
    if (← getIp ip).type = FT_DIR then
      inodeUnlockFree p ip
      return ()
    match ← pathToPinode p newPath with
    | none => inodeUnlockFree p ip
    | some (pip, _) =>
      inodeLock p pip
      if !(← dirAddEntry p pip) then
        inodeUnlockFree p pip
        inodeUnlockFree p ip
        return ()
      modIp ip fun n => { n with nlink := n.nlink + 1 }
      inodeRw p ip true
      inodeUnlockFree p pip
      inodeUnlockFree p ip

def checkUnlink (p : Slot) (ip : IId) : Code Bool := do
  assert (← sleeplockHolding p (.inode ip))
  match ← dirGetEntries p ip with
  | 3 => return false
  | 2 => return true
  | _ => .panic

/-- The end of `path_unlink`, with both inodes locked. -/
def removeEntry (p : Slot) (pip ip : IId) : Code Unit := do
  dirDeleteEntry p pip
  if (← getIp ip).type = FT_DIR then
    modIp pip fun n => { n with nlink := n.nlink - 1 }
    inodeRw p pip true
  inodeUnlockFree p pip
  modIp ip fun n => { n with nlink := n.nlink - 1 }
  inodeRw p ip true
  inodeUnlockFree p ip

def pathUnlink (p : Slot) (path : List UInt8) : Code Unit := do
  match ← pathToPinode p path with
  | none => return ()
  | some (pip, name) =>
    inodeLock p pip
    if strncmp name.byte Name.dot.byte DIR_NAME_LEN || strncmp name.byte Name.dotdot.byte DIR_NAME_LEN then
      inodeUnlockFree p pip
      return ()
    let inum ← dirSearchEntry p pip
    if inum = INODE_NUM_UNUSED then
      inodeUnlockFree p pip
      return ()
    let ip ← inodeAlloc inum
    inodeLock p ip
    if (← getIp ip).type = FT_DIR then
      if !(← checkUnlink p ip) then
        inodeUnlockFree p ip
        inodeUnlockFree p pip
        return ()
    removeEntry p pip ip

def dirChange (p : Slot) (path : List UInt8) : Code Unit := do
  match ← pathToInode p path with
  | none => return ()
  | some ip =>
    inodeLock p ip
    if (← getIp ip).type ≠ FT_DIR then
      inodeUnlockFree p ip
      return ()
    inodeUnlock p ip
    match (← get).cwd p with
    | some cwd => inodeFree p cwd
    | none => pure ()
    modify fun m => { m with cwd := upd m.cwd p (some ip) }

/-! ## `file.c`, `sysfile.c` -/

def modFile (f : FileId) (g : CFile → CFile) : Code Unit :=
  modify fun m => { m with ftable := upd m.ftable f (g (m.ftable f)) }

def fileAlloc : Code FileId := do
  match ← locked .ftable (do
    let m ← get
    match (List.finRange N_FILE).find? fun i => (m.ftable i).ref == 0 with
    | some f =>
      modFile f fun _ => { ref := 1, type := .unused, readable := false, writable := false, ip := none }
      return some f
    | none => return none) with
  | some f => return f
  | none => .panic

def fileOpen (p : Slot) (path : List UInt8) (openMode : UInt32) : Code Unit := do
  let r ← if hasMode openMode MODE_CREATE then pathCreateInode p path FT_FILE else pathToInode p path
  match r with
  | none => return ()
  | some ip =>
    inodeLock p ip
    let f ← fileAlloc
    let n ← getIp ip
    modFile f fun file =>
      { file with
        type := if n.type = FT_DIR then .dir else if n.type = FT_DEVICE then .device else .file
        readable := hasMode openMode MODE_READ
        writable := hasMode openMode MODE_WRITE
        ip := some ip }
    inodeUnlock p ip

/-- `file_close`. The section under `lk_ftable` returns the inode of a file that is closed for good. -/
def fileClose (p : Slot) (f : FileId) : Code Unit := do
  let last ← locked .ftable (do
    let file := (← get).ftable f
    if file.ref < 1 then .panic
    modFile f fun file => { file with ref := file.ref - 1 }
    if file.ref = 1 then
      modFile f fun file => { file with type := .unused, ip := none }
      return file.ip
    else return none)
  match last with
  | some ip => inodeFree p ip
  | none => return ()

def fileDup (f : FileId) : Code Unit :=
  locked .ftable do
    assert (0 < ((← get).ftable f).ref)
    modFile f fun file => { file with ref := file.ref + 1 }

/-- An access to the inode of a file, with the inode locked. -/
def withInode (p : Slot) (f : FileId) (x : IId → Code Unit) : Code Unit := do
  match ((← get).ftable f).ip with
  | none => .panic
  | some ip =>
    inodeLock p ip
    x ip
    inodeUnlock p ip

def fileRead (p : Slot) (f : FileId) : Code Unit := do
  let file := (← get).ftable f
  if file.readable && (file.type == .file || file.type == .dir) then withInode p f (inodeReadData p)

def fileWrite (p : Slot) (f : FileId) : Code Unit := do
  let file := (← get).ftable f
  if file.writable && file.type == .file then withInode p f (inodeWriteData p)

def fileStat (p : Slot) (f : FileId) : Code Unit := do
  let file := (← get).ftable f
  if file.type == .file || file.type == .dir then withInode p f fun _ => pure ()

def sysGetdir (p : Slot) (f : FileId) : Code Unit := do
  let file := (← get).ftable f
  if file.type == .dir then withInode p f fun ip => do let _ ← dirGetEntries p ip

/-! ## The operations -/

inductive Op where
  | pathToInode (path : List UInt8)
  | pathCreateInode (path : List UInt8) (type : UInt16)
  | pathLink (oldPath newPath : List UInt8)
  | pathUnlink (path : List UInt8)
  | dirChange (path : List UInt8)
  | fileOpen (path : List UInt8) (openMode : UInt32)
  | fileClose (f : FileId)
  | fileDup (f : FileId)
  | fileRead (f : FileId)
  | fileWrite (f : FileId)
  | fileStat (f : FileId)
  | sysGetdir (f : FileId)
  | inodeFree (ip : IId)

def code (p : Slot) : Op → Code Unit
  | .pathToInode path => do let _ ← pathToInode p path
  | .pathCreateInode path type => do let _ ← pathCreateInode p path type
  | .pathLink oldPath newPath => pathLink p oldPath newPath
  | .pathUnlink path => pathUnlink p path
  | .dirChange path => dirChange p path
  | .fileOpen path openMode => fileOpen p path openMode
  | .fileClose f => fileClose p f
  | .fileDup f => fileDup f
  | .fileRead f => fileRead p f
  | .fileWrite f => fileWrite p f
  | .fileStat f => fileStat p f
  | .sysGetdir f => sysGetdir p f
  | .inodeFree ip => inodeFree p ip

/-! ## Every operation is clean -/

open Thread

variable {α : Type}

/-- Code that does not wait and gives back the spinlocks it takes, whatever is held. -/
def Balanced (x : Code α) : Prop := ∀ H, x.Safe H fun _ H' => H' = H

namespace Balanced

theorem clean {x : Code α} (h : Balanced x) : Clean x := h []

theorem bind {β : Type} {x : Code α} {g : α → Code β} (hx : Balanced x) (hg : ∀ a, Balanced (g a)) :
    Balanced (x >>= g) := fun H =>
  (safe_bind x H).mpr (Safe.conseq (fun a H' h => by subst h; exact hg a _) (hx H))

theorem pure (a : α) : Balanced (Pure.pure a : Code α) := fun _ => rfl

theorem panic : Balanced (.panic : Code α) := fun _ => trivial

theorem ite {c : Prop} [Decidable c] {x y : Code α} (hx : Balanced x) (hy : Balanced y) :
    Balanced (if c then x else y) := by
  split
  · exact hx
  · exact hy

end Balanced

theorem balanced_any : Balanced any := fun _ _ => rfl

theorem balanced_get : Balanced get := fun _ _ => rfl

theorem balanced_modify (f : Mem → Mem) : Balanced (modify f) := fun _ _ => rfl

theorem balanced_assert (b : Bool) : Balanced (assert b) := .ite (.pure _) .panic

theorem balanced_getIp (ip : IId) : Balanced (getIp ip) := .bind balanced_get fun _ => .pure _

theorem balanced_modIp (ip : IId) (f : CInode → CInode) : Balanced (modIp ip f) := balanced_modify _

theorem balanced_modFile (f : FileId) (g : CFile → CFile) : Balanced (modFile f g) := balanced_modify _

theorem balanced_locked {l : Spinlock} {x : Code α} (hx : Balanced x) : Balanced (locked l x) := by
  intro H
  unfold locked
  rw [safe_bind]
  intro _
  rw [Safe, safe_bind]
  refine Safe.conseq (fun a H' h => ?_) (hx (l :: H))
  subst h
  rw [safe_bind]
  intro _
  rw [Safe, List.erase_cons_head]
  rfl

theorem clean_any : Clean any := balanced_any.clean

theorem clean_get : Clean get := balanced_get.clean

theorem clean_assert (b : Bool) : Clean (assert b) := (balanced_assert b).clean

theorem clean_getIp (ip : IId) : Clean (getIp ip) := (balanced_getIp ip).clean

theorem clean_modIp (ip : IId) (f : CInode → CInode) : Clean (modIp ip f) := (balanced_modIp ip f).clean

theorem clean_times {x : Code Unit} (hx : Clean x) : ∀ n, Clean (times x n) := by
  intro n
  induction n with
  | zero => exact .pure _
  | succ n ih => exact .bind hx fun _ => ih

theorem clean_repeatAny {x : Code Unit} (hx : Clean x) : Clean (repeatAny x) :=
  .bind clean_any fun n => clean_times hx n

theorem balanced_wakeLoop (p : Slot) : ∀ is, Balanced (wakeLoop p is) := by
  intro is
  induction is with
  | nil => exact .pure _
  | cons i is ih => exact .ite (.bind (balanced_locked (.pure _)) fun _ => ih) ih

theorem clean_sleeplockAcquire (p : Slot) (l : Sleeplock) : Clean (sleeplockAcquire p l) := by
  unfold sleeplockAcquire Clean
  rw [safe_bind]
  intro _
  rw [Safe, safe_bind]
  refine ⟨rfl, Spinlock.noConfusion, ?_⟩
  rw [Safe, safe_bind]
  intro _
  rw [Safe]
  intro _
  rw [Safe, List.erase_cons_head]

theorem clean_sleeplockRelease (p : Slot) (l : Sleeplock) : Clean (sleeplockRelease p l) :=
  (balanced_locked (.bind (balanced_modify _) fun _ => balanced_wakeLoop p _)).clean

theorem clean_sleeplockHolding (p : Slot) (l : Sleeplock) : Clean (sleeplockHolding p l) :=
  (balanced_locked (.bind balanced_get fun _ => .pure _)).clean

/-- The disk is called with no spinlock, and `vdisk_lock` is given up while waiting. -/
theorem clean_virtioDiskRw : Clean virtioDiskRw := by
  unfold virtioDiskRw Clean
  rw [safe_bind]
  refine ⟨rfl, ?_⟩
  rw [Safe, safe_bind]
  intro _
  rw [Safe, safe_bind]
  refine ⟨rfl, ?_⟩
  rw [Safe, safe_bind]
  refine ⟨rfl, ?_⟩
  rw [Safe]
  intro _
  rw [Safe, List.erase_cons_head]

theorem clean_bufRead (p : Slot) : Clean (bufRead p) := by
  have hlookup : Balanced lookup := by
    refine .bind balanced_any fun _ => .bind balanced_any fun n => ?_
    split <;> exact .pure _
  refine .bind (balanced_locked hlookup).clean fun r => ?_
  cases r with
  | hit b => exact .bind (clean_sleeplockAcquire p _) fun _ => .pure _
  | miss b =>
    exact .bind (clean_sleeplockAcquire p _) fun _ => .bind clean_virtioDiskRw fun _ => .pure _
  | full => exact .panic

theorem clean_bufWrite (p : Slot) (b : BufId) : Clean (bufWrite p b) :=
  .bind (clean_sleeplockHolding p _) fun _ => .bind (clean_assert _) fun _ => clean_virtioDiskRw

theorem clean_bufRelease (p : Slot) (b : BufId) : Clean (bufRelease p b) :=
  .bind (clean_sleeplockHolding p _) fun _ => .bind (clean_assert _) fun _ =>
    .bind (clean_sleeplockRelease p _) fun _ => (balanced_locked (.pure _)).clean

theorem clean_bitmapSearchAndSet (p : Slot) : Clean (bitmapSearchAndSet p) := by
  refine .bind (clean_bufRead p) fun buf => .bind clean_any fun n => ?_
  cases n with
  | zero => exact .bind (clean_bufRelease p buf) fun _ => .panic
  | succ n =>
    exact .bind (clean_bufWrite p buf) fun _ => .bind (clean_bufRelease p buf) fun _ => .pure _

theorem clean_bitmapAllocBlock (p : Slot) : Clean (bitmapAllocBlock p) :=
  .bind (clean_bitmapSearchAndSet p) fun _ => .pure _

theorem clean_inodeRw (p : Slot) (ip : IId) (write : Bool) : Clean (inodeRw p ip write) := by
  refine .bind (clean_sleeplockHolding p _) fun _ => .bind (clean_assert _) fun _ =>
    .bind (clean_bufRead p) fun buf => .ite ?_ ?_
  · exact .bind (clean_bufWrite p buf) fun _ => clean_bufRelease p buf
  · exact .bind clean_any fun _ => .bind clean_any fun _ => .bind (clean_modIp ip _) fun _ =>
      clean_bufRelease p buf

theorem clean_inodeAlloc (inodeNum : UInt16) : Clean (inodeAlloc inodeNum) := by
  refine (balanced_locked (.bind balanced_get fun m => ?_)).clean
  cases findCached m inodeNum with
  | some i => exact .bind (balanced_modIp i _) fun _ => .pure _
  | none =>
    cases findEmpty m with
    | some i => exact .bind (balanced_modIp i _) fun _ => .pure _
    | none => exact .panic

theorem clean_inodeDup (ip : IId) : Clean (inodeDup ip) :=
  (balanced_locked (.bind (balanced_modIp ip _) fun _ => .pure _)).clean

theorem clean_inodeLock (p : Slot) (ip : IId) : Clean (inodeLock p ip) :=
  .bind (clean_getIp ip) fun _ => .bind (clean_assert _) fun _ =>
    .bind (clean_sleeplockAcquire p _) fun _ => .bind (clean_getIp ip) fun _ =>
      .ite (.bind (clean_inodeRw p ip false) fun _ => clean_modIp ip _) (.pure _)

theorem clean_inodeUnlock (p : Slot) (ip : IId) : Clean (inodeUnlock p ip) :=
  .bind (clean_sleeplockHolding p _) fun _ => .bind (clean_assert _) fun _ =>
    clean_sleeplockRelease p _

theorem clean_inodeCreate (p : Slot) (type : UInt16) : Clean (inodeCreate p type) := by
  refine .bind (.bind (clean_bitmapSearchAndSet p) fun _ => .pure _) fun _ =>
    .bind (clean_inodeAlloc _) fun ip => .bind (clean_inodeLock p ip) fun _ =>
      .bind (clean_modIp ip _) fun _ => .bind (clean_inodeRw p ip true) fun _ => ?_
  have hrest : Clean (do inodeUnlock p ip; return ip) := .bind (clean_inodeUnlock p ip) fun _ => .pure _
  exact .ite (.bind (clean_bitmapAllocBlock p) fun _ => .bind (clean_inodeRw p ip true) fun _ => hrest)
    hrest

theorem clean_locateBlock (p : Slot) : ∀ level, Clean (locateBlock p level) := by
  intro level
  induction level with
  | zero => exact .bind clean_any fun _ => .ite (clean_bitmapAllocBlock p) (.pure _)
  | succ level ih =>
    have hrest : Clean (do
        let buf ← bufRead p
        locateBlock p level
        bufRelease p buf) :=
      .bind (clean_bufRead p) fun buf => .bind ih fun _ => clean_bufRelease p buf
    exact .bind clean_any fun _ => .ite (.bind (clean_bitmapAllocBlock p) fun _ => hrest) hrest

theorem clean_inodeLocateBlock (p : Slot) : Clean (inodeLocateBlock p) := by
  refine .bind clean_any fun n => ?_
  split
  · exact clean_locateBlock p 0
  · exact clean_locateBlock p 1
  · exact clean_locateBlock p 2
  · exact .panic

theorem clean_inodeReadData (p : Slot) (ip : IId) : Clean (inodeReadData p ip) :=
  .bind (clean_sleeplockHolding p _) fun _ => .bind (clean_assert _) fun _ =>
    clean_repeatAny (.bind (clean_inodeLocateBlock p) fun _ => .bind (clean_bufRead p) fun buf =>
      clean_bufRelease p buf)

theorem clean_inodeWriteData (p : Slot) (ip : IId) : Clean (inodeWriteData p ip) :=
  .bind (clean_sleeplockHolding p _) fun _ => .bind (clean_assert _) fun _ => .bind clean_any fun _ =>
    .ite (.pure _) (.bind (clean_repeatAny (.bind (clean_inodeLocateBlock p) fun _ =>
      .bind (clean_bufRead p) fun buf => .bind (clean_bufWrite p buf) fun _ =>
        clean_bufRelease p buf)) fun _ => clean_inodeRw p ip true)

/-- A last reference to an inode without links would lead to `inode_destroy`, with `lk_icache` held. -/
theorem clean_inodeFree (p : Slot) (ip : IId) : Clean (inodeFree p ip) := by
  unfold inodeFree Clean
  rw [safe_bind]
  intro _
  rw [Safe, safe_bind]
  show Safe (do
    modIp ip fun n => { n with ref := n.ref - 1 }
    release .icache) [.icache] _
  rw [safe_bind]
  intro _
  rw [Safe]
  intro _
  rw [Safe, List.erase_cons_head]

theorem clean_inodeUnlockFree (p : Slot) (ip : IId) : Clean (inodeUnlockFree p ip) :=
  .bind (clean_inodeUnlock p ip) fun _ => clean_inodeFree p ip

theorem clean_assertDir (p : Slot) (pip : IId) : Clean (assertDir p pip) :=
  .bind (clean_sleeplockHolding p _) fun _ => .bind (clean_assert _) fun _ =>
    .bind (clean_getIp pip) fun _ => clean_assert _

theorem clean_dirSearchEntry (p : Slot) (pip : IId) : Clean (dirSearchEntry p pip) :=
  .bind (clean_assertDir p pip) fun _ => .bind (clean_bufRead p) fun buf =>
    .bind (clean_bufRelease p buf) fun _ => .bind clean_any fun _ => .pure _

theorem clean_dirAddEntry (p : Slot) (pip : IId) : Clean (dirAddEntry p pip) :=
  .bind (clean_assertDir p pip) fun _ => .bind (clean_dirSearchEntry p pip) fun _ => .ite (.pure _)
    (.bind (clean_bufRead p) fun buf => .bind clean_any fun _ => .ite
      (.bind (clean_bufRelease p buf) fun _ => .pure _)
      (.bind (clean_bufWrite p buf) fun _ => .bind (clean_bufRelease p buf) fun _ =>
        .bind clean_any fun _ => .ite (.bind (clean_inodeRw p pip true) fun _ => .pure _) (.pure _)))

theorem clean_dirDeleteEntry (p : Slot) (pip : IId) : Clean (dirDeleteEntry p pip) :=
  .bind (clean_assertDir p pip) fun _ => .bind (clean_bufRead p) fun buf => .bind clean_any fun _ =>
    .ite (.bind (clean_bufWrite p buf) fun _ => clean_bufRelease p buf) (clean_bufRelease p buf)

theorem clean_dirGetEntries (p : Slot) (pip : IId) : Clean (dirGetEntries p pip) :=
  .bind (clean_assertDir p pip) fun _ => .bind (clean_bufRead p) fun buf =>
    .bind (clean_bufRelease p buf) fun _ => clean_any

theorem clean_searchLoop (p : Slot) (findParent : Bool) :
    ∀ fuel ip name path, Clean (searchLoop p findParent fuel ip name path) := by
  intro fuel
  induction fuel with
  | zero => intro ip name path; exact .panic
  | succ fuel ih =>
    intro ip name path
    unfold searchLoop
    cases skipElement path with
    | none => exact .ite (.bind (clean_inodeFree p ip) fun _ => .pure _) (.pure _)
    | some x =>
      have hfail : Clean (do inodeUnlockFree p ip; return none : Code (Option (IId × Option Name))) :=
        .bind (clean_inodeUnlockFree p ip) fun _ => .pure _
      exact .bind (clean_inodeLock p ip) fun _ => .bind (clean_getIp ip) fun _ => .ite hfail
        (.ite (.bind (clean_inodeUnlock p ip) fun _ => .pure _)
          (.bind (clean_dirSearchEntry p ip) fun _ => .ite hfail
            (.bind (clean_inodeAlloc _) fun next => .bind (clean_inodeUnlockFree p ip) fun _ =>
              ih _ _ _)))

theorem clean_searchInode (p : Slot) (path : List UInt8) (findParent : Bool) :
    Clean (searchInode p path findParent) := by
  refine .bind clean_get fun m => ?_
  split
  · exact .bind (clean_inodeDup _) fun _ => clean_searchLoop p _ _ _ _ _
  · exact .bind (clean_inodeAlloc _) fun _ => clean_searchLoop p _ _ _ _ _

theorem clean_pathToInode (p : Slot) (path : List UInt8) : Clean (pathToInode p path) :=
  .bind (clean_searchInode p path false) fun _ => .pure _

theorem clean_pathToPinode (p : Slot) (path : List UInt8) : Clean (pathToPinode p path) := by
  refine .bind (clean_searchInode p path true) fun r => ?_
  split <;> exact .pure _

theorem clean_pathCreateInode (p : Slot) (path : List UInt8) (type : UInt16) :
    Clean (pathCreateInode p path type) := by
  refine .bind (clean_pathToPinode p path) fun r => ?_
  cases r with
  | none => exact .pure _
  | some x =>
    refine .bind (clean_inodeLock p _) fun _ => .bind (clean_dirSearchEntry p _) fun inum => .ite ?_ ?_
    · exact .bind (clean_inodeUnlockFree p _) fun _ => .bind (clean_inodeAlloc _) fun ip =>
        .bind (clean_inodeLock p ip) fun _ => .bind (clean_getIp ip) fun _ =>
          .ite (.bind (clean_inodeUnlockFree p ip) fun _ => .pure _)
            (.bind (clean_inodeUnlock p ip) fun _ => .pure _)
    · refine .bind (clean_inodeCreate p type) fun ip => .bind (clean_dirAddEntry p _) fun _ => .ite ?_ ?_
      · exact .bind (clean_inodeLock p ip) fun _ => .bind (clean_modIp ip _) fun _ =>
          .bind (clean_inodeUnlockFree p ip) fun _ => .bind (clean_inodeUnlockFree p _) fun _ => .pure _
      · have hdots : Clean (addDots p x.1 ip) :=
          .bind (clean_inodeLock p ip) fun _ => .bind (clean_dirAddEntry p ip) fun _ =>
            .bind (clean_dirAddEntry p ip) fun _ => .bind (clean_inodeUnlock p ip) fun _ =>
              .bind (clean_modIp _ _) fun _ => clean_inodeRw p _ true
        have hrest : Clean (do inodeUnlockFree p x.1; return some ip : Code (Option IId)) :=
          .bind (clean_inodeUnlockFree p _) fun _ => .pure _
        exact .ite (.bind hdots fun _ => hrest) hrest

theorem clean_pathLink (p : Slot) (oldPath newPath : List UInt8) : Clean (pathLink p oldPath newPath) := by
  refine .bind (clean_pathToInode p oldPath) fun r => ?_
  cases r with
  | none => exact .pure _
  | some ip =>
    refine .bind (clean_inodeLock p ip) fun _ => .bind (clean_getIp ip) fun _ =>
      .ite (.bind (clean_inodeUnlockFree p ip) fun _ => .pure _)
        (.bind (clean_pathToPinode p newPath) fun r => ?_)
    cases r with
    | none => exact clean_inodeUnlockFree p ip
    | some x =>
      exact .bind (clean_inodeLock p _) fun _ => .bind (clean_dirAddEntry p _) fun _ => .ite
        (.bind (clean_inodeUnlockFree p _) fun _ => .bind (clean_inodeUnlockFree p ip) fun _ => .pure _)
        (.bind (clean_modIp ip _) fun _ => .bind (clean_inodeRw p ip true) fun _ =>
          .bind (clean_inodeUnlockFree p _) fun _ => clean_inodeUnlockFree p ip)

theorem clean_checkUnlink (p : Slot) (ip : IId) : Clean (checkUnlink p ip) := by
  refine .bind (clean_sleeplockHolding p _) fun _ => .bind (clean_assert _) fun _ =>
    .bind (clean_dirGetEntries p ip) fun n => ?_
  split
  · exact .pure _
  · exact .pure _
  · exact .panic

theorem clean_removeEntry (p : Slot) (pip ip : IId) : Clean (removeEntry p pip ip) := by
  have hrest : Clean (do
      inodeUnlockFree p pip
      modIp ip fun n => { n with nlink := n.nlink - 1 }
      inodeRw p ip true
      inodeUnlockFree p ip) :=
    .bind (clean_inodeUnlockFree p pip) fun _ => .bind (clean_modIp ip _) fun _ =>
      .bind (clean_inodeRw p ip true) fun _ => clean_inodeUnlockFree p ip
  exact .bind (clean_dirDeleteEntry p pip) fun _ => .bind (clean_getIp ip) fun _ =>
    .ite (.bind (clean_modIp pip _) fun _ => .bind (clean_inodeRw p pip true) fun _ => hrest) hrest

theorem clean_pathUnlink (p : Slot) (path : List UInt8) : Clean (pathUnlink p path) := by
  refine .bind (clean_pathToPinode p path) fun r => ?_
  cases r with
  | none => exact .pure _
  | some x =>
    have hfail : Clean (inodeUnlockFree p x.1 >>= fun _ => (pure () : Code Unit)) :=
      .bind (clean_inodeUnlockFree p _) fun _ => .pure _
    refine .bind (clean_inodeLock p _) fun _ => .ite hfail
      (.bind (clean_dirSearchEntry p _) fun _ => .ite hfail
        (.bind (clean_inodeAlloc _) fun ip => .bind (clean_inodeLock p ip) fun _ =>
          .bind (clean_getIp ip) fun _ => .ite ?_ (clean_removeEntry p _ ip)))
    exact .bind (clean_checkUnlink p ip) fun _ => .ite
      (.bind (clean_inodeUnlockFree p ip) fun _ => .bind (clean_inodeUnlockFree p _) fun _ => .pure _)
      (clean_removeEntry p _ ip)

theorem clean_dirChange (p : Slot) (path : List UInt8) : Clean (dirChange p path) := by
  refine .bind (clean_pathToInode p path) fun r => ?_
  cases r with
  | none => exact .pure _
  | some ip =>
    refine .bind (clean_inodeLock p ip) fun _ => .bind (clean_getIp ip) fun _ =>
      .ite (.bind (clean_inodeUnlockFree p ip) fun _ => .pure _)
        (.bind (clean_inodeUnlock p ip) fun _ => .bind clean_get fun m => ?_)
    split
    · exact .bind (clean_inodeFree p _) fun _ => (balanced_modify _).clean
    · exact (balanced_modify _).clean

theorem clean_fileAlloc : Clean fileAlloc := by
  refine .bind (balanced_locked (.bind balanced_get fun m => ?_)).clean fun r => ?_
  · cases (List.finRange N_FILE).find? fun i => (m.ftable i).ref == 0 with
    | some f => exact .bind (balanced_modFile f _) fun _ => .pure _
    | none => exact .pure _
  · cases r with
    | some f => exact .pure _
    | none => exact .panic

theorem clean_fileOpen (p : Slot) (path : List UInt8) (openMode : UInt32) :
    Clean (fileOpen p path openMode) := by
  have hrest : ∀ r, Clean (match r with
      | none => return ()
      | some ip => do
        inodeLock p ip
        let f ← fileAlloc
        let n ← getIp ip
        modFile f fun file =>
          { file with
            type := if n.type = FT_DIR then .dir else if n.type = FT_DEVICE then .device else .file
            readable := hasMode openMode MODE_READ
            writable := hasMode openMode MODE_WRITE
            ip := some ip }
        inodeUnlock p ip : Code Unit) := by
    intro r
    cases r with
    | none => exact .pure _
    | some ip =>
      exact .bind (clean_inodeLock p ip) fun _ => .bind clean_fileAlloc fun f =>
        .bind (clean_getIp ip) fun _ => .bind (balanced_modFile f _).clean fun _ => clean_inodeUnlock p ip
  exact .ite (.bind (clean_pathCreateInode p path _) hrest) (.bind (clean_pathToInode p path) hrest)

theorem clean_fileClose (p : Slot) (f : FileId) : Clean (fileClose p f) := by
  refine .bind (balanced_locked (.bind balanced_get fun m => ?_)).clean fun r => ?_
  · have hrest : Balanced (do
        modFile f fun file => { file with ref := file.ref - 1 }
        if (m.ftable f).ref = 1 then
          modFile f fun file => { file with type := .unused, ip := none }
          return (m.ftable f).ip
        else return none) :=
      .bind (balanced_modFile f _) fun _ =>
        .ite (.bind (balanced_modFile f _) fun _ => .pure _) (.pure _)
    exact .ite (.bind .panic fun _ => hrest) hrest
  · cases r with
    | some ip => exact clean_inodeFree p ip
    | none => exact .pure _

theorem clean_fileDup (f : FileId) : Clean (fileDup f) :=
  (balanced_locked (.bind balanced_get fun _ => .bind (balanced_assert _) fun _ =>
    balanced_modFile f _)).clean

theorem clean_withInode (p : Slot) (f : FileId) {x : IId → Code Unit} (hx : ∀ ip, Clean (x ip)) :
    Clean (withInode p f x) := by
  refine .bind clean_get fun m => ?_
  cases (m.ftable f).ip with
  | none => exact .panic
  | some ip => exact .bind (clean_inodeLock p ip) fun _ => .bind (hx ip) fun _ => clean_inodeUnlock p ip

theorem clean_code (p : Slot) (op : Op) : Clean (code p op) := by
  cases op with
  | pathToInode path => exact .bind (clean_pathToInode p path) fun _ => .pure _
  | pathCreateInode path type => exact .bind (clean_pathCreateInode p path type) fun _ => .pure _
  | pathLink oldPath newPath => exact clean_pathLink p oldPath newPath
  | pathUnlink path => exact clean_pathUnlink p path
  | dirChange path => exact clean_dirChange p path
  | fileOpen path openMode => exact clean_fileOpen p path openMode
  | fileClose f => exact clean_fileClose p f
  | fileDup f => exact clean_fileDup f
  | fileRead f =>
    exact .bind clean_get fun _ => .ite (clean_withInode p f (clean_inodeReadData p)) (.pure _)
  | fileWrite f =>
    exact .bind clean_get fun _ => .ite (clean_withInode p f (clean_inodeWriteData p)) (.pure _)
  | fileStat f =>
    exact .bind clean_get fun _ => .ite (clean_withInode p f fun _ => .pure _) (.pure _)
  | sysGetdir f =>
    exact .bind clean_get fun _ => .ite (clean_withInode p f fun ip =>
      .bind (clean_dirGetEntries p ip) fun _ => .pure _) (.pure _)
  | inodeFree ip => exact clean_inodeFree p ip

/-! ## Runs -/

/-- No process is in the kernel. -/
def idle (m : Mem) : Sys Mem Spinlock Slot where
  mem := m
  spin := fun _ => false
  held := fun _ => []
  thread := fun _ => .ret ()

/-- After `inode_init` and `file_init`. -/
def bootMem : Mem where
  icache := fun _ => ⟨0, 0, false, 0, 0⟩
  ftable := fun _ => ⟨.unused, false, false, 0, none⟩
  cwd := fun _ => none
  slk := fun _ => none

theorem safeAt_idle (m : Mem) (p : Slot) : (idle m).SafeAt p := rfl

/-- In every run from any memory in which no last reference to an inode without links is dropped, a
process calls `virtio_disk_rw` with no spinlock held and waits for the disk with interrupts on, it
calls `proc_sleep` with no other spinlock than the one that it passes, and `proc_sched` with `noff`
at 1. -/
theorem no_wait_under_spinlock (m : Mem) (as : List (Sys.Act Slot Op)) (s : Sys Mem Spinlock Slot)
    (hok : RunOk (Sys.step code) Sys.ActOk (idle m) as) (hrun : run (Sys.step code) (idle m) as = some s) :
    ∀ p, s.Calm p :=
  Sys.calm_of_run clean_code (safeAt_idle m) as hok hrun

/-- Steps of `p`: each pair is a number of steps and then one with an open value. -/
def acts (p : Slot) : List (Nat × Nat) → List (Sys.Act Slot Op)
  | [] => []
  | (n, a) :: rest => List.replicate n (.step p 0) ++ .step p a :: acts p rest

/-- One process waits for the disk while another opens a file. -/
theorem no_wait_under_spinlock_two : ∃ s, run (Sys.step code) (idle bootMem)
    (.start 0 (.pathUnlink [SLASH, 97]) :: acts 0 [(15, 63), (0, 0), (6, 0)] ++
      .start 1 (.fileOpen [SLASH, 97] MODE_READ) :: acts 1 [(9, 0)]) = some s ∧ ∀ p, s.Calm p := by
  obtain ⟨s, hs, -⟩ := exists_of_any (P := fun _ => True) (o := run (Sys.step code) (idle bootMem)
    (.start 0 (.pathUnlink [SLASH, 97]) :: acts 0 [(15, 63), (0, 0), (6, 0)] ++
      .start 1 (.fileOpen [SLASH, 97] MODE_READ) :: acts 1 [(9, 0)])) (by decide +kernel)
  exact ⟨s, hs, no_wait_under_spinlock bootMem _ s (by decide +kernel) hs⟩

/-- `path_unlink("/a")` for a file with one link that nobody has open. The values are those of the disk:
the root directory and the file are inodes 0 and 1, in one block, which goes to the last buffer.
`inode_free` calls `inode_destroy` with `lk_icache` held, which writes the inode to the disk. -/
theorem destroy_waits_under_lk_icache : ∃ s, run (Sys.step code) (idle bootMem)
    (.start 0 (.pathUnlink [SLASH, 97]) :: acts 0
      [(15, 63), (0, 0), (10, 1), (0, 1), (280, 62), (0, 0), (144, 1), (14, 63), (0, 1), (5, 2),
      (0, 1), (142, 62), (0, 1), (5, 0), (284, 63), (0, 1), (288, 0), (0, 0), (0, 0), (4, 63),
      (0, 1), (7, 0)]) = some s ∧ ¬ s.Calm 0 :=
  exists_of_any (by decide +kernel)

end Locking
end Fs
end WhuOS
