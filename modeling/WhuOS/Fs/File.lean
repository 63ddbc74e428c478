import WhuOS.Fs.Dir

/-!
# WhuOS.Fs.File

`kernel/fs/file.c` and the calls of `kernel/syscall/sysfile.c` on it. A call gets its arguments as
the values in the registers; a path is the string that `arg_str` copied. What a device returns is
an argument of the call.
-/

namespace WhuOS
namespace Fs

open Lib Sched

variable {σ η : Type} [BufLayer σ η]

def MODE_CREATE : UInt32 := 0x1
def MODE_READ : UInt32 := 0x2
def MODE_WRITE : UInt32 := 0x4

def hasMode (openMode mode : UInt32) : Bool := openMode &&& mode != 0

def getFile (f : FileId) : FsM σ File := do return (← get).ftable f

def modFile (f : FileId) (g : File → File) : FsM σ Unit :=
  modify fun s => { s with ftable := upd s.ftable f (g (s.ftable f)) }

/-! ## `file.c` -/

def findFile (s : FsState σ) : Option FileId :=
  (List.finRange N_FILE).find? fun i => (s.ftable i).ref == 0

def fileAlloc : FsM σ FileId := do
  match findFile (← get) with
  | some f =>
    modFile f fun file =>
      { file with
        ref := 1, type := .unused, readable := false, writable := false, offset := 0, ip := none }
    return f
  | none => Kern.panic "file_alloc: no free file"

/-- The inode that `file_open` opens. -/
def openInode (p : Slot) (path : List UInt8) (openMode : UInt32) : FsM σ (Option IId) :=
  if hasMode openMode MODE_CREATE then pathCreateInode p path FT_FILE 0 0 else pathToInode p path

/-- The type of a file by that of its inode. -/
def setType (n : Dinode) (file : File) : File :=
  if n.type = FT_DIR then { file with type := .dir }
  else if n.type = FT_DEVICE then { file with type := .device, major := n.major }
  else { file with type := .file }

def fileOpen (p : Slot) (path : List UInt8) (openMode : UInt32) : FsM σ (Option FileId) := do
  match ← openInode p path openMode with
  | none => return none
  | some ip =>
    inodeLock ip
    let f ← fileAlloc
    let n ← getIp ip
    modFile f (setType n.d)
    modFile f fun file =>
      { file with
        readable := hasMode openMode MODE_READ
        writable := hasMode openMode MODE_WRITE
        offset := 0
        ip := some ip }
    inodeUnlock ip
    return some f

def fileClose (f : FileId) : FsM σ Unit := do
  let file ← getFile f
  if file.ref < 1 then Kern.panic "file_close: ref < 1"
  modFile f fun file => { file with ref := file.ref - 1 }
  if file.ref = 1 then
    modFile f fun file => { file with type := .unused, ip := none }
    match file.ip with
    | some ip => inodeFree ip
    | none => return ()

def fileDup (f : FileId) : FsM σ Unit := do
  Kern.assert (0 < (← getFile f).ref) "file_dup: ref"
  modFile f fun file => { file with ref := file.ref + 1 }

def fileRead (f : FileId) (len dev : UInt32) : FsM σ UInt32 := do
  let file ← getFile f
  if !file.readable then return 0
  match file.type, file.ip with
  | .unused, _ => return 0
  | .device, _ => return dev
  | _, none => throw .fault
  | _, some ip =>
    inodeLock ip
    let bytes ← inodeReadData ip file.offset len
    modFile f fun file => { file with offset := file.offset + UInt32.ofNat bytes.length }
    inodeUnlock ip
    return UInt32.ofNat bytes.length

def fileWrite (f : FileId) (len : UInt32) (src : Nat → UInt8) (dev : UInt32) : FsM σ UInt32 := do
  let file ← getFile f
  if !file.writable then return 0
  match file.type, file.ip with
  | .device, _ => return dev
  | .file, none => throw .fault
  | .file, some ip =>
    inodeLock ip
    let ret ← inodeWriteData ip file.offset len src
    modFile f fun file => { file with offset := file.offset + ret }
    inodeUnlock ip
    return ret
  | _, _ => return 0

/-! ## `sysfile.c` -/

abbrev MINUS_ONE : Int := -1

def setFd (p : Slot) (fd : Fin FILE_PER_PROC) (f : Option FileId) : FsM σ Unit :=
  modify fun s =>
    { s with
      procs := upd s.procs p
        { s.procs p with filelist := upd (s.procs p).filelist fd f } }

def argFd (s : FsState σ) (p : Slot) (fd : Int) : Option (Fin FILE_PER_PROC × FileId) :=
  if h : 0 ≤ fd ∧ fd < FILE_PER_PROC then
    let i : Fin FILE_PER_PROC := ⟨fd.toNat, by omega⟩
    ((s.procs p).filelist i).map fun f => (i, f)
  else none

def freeFd (s : FsState σ) (p : Slot) : Option (Fin FILE_PER_PROC) :=
  (List.finRange FILE_PER_PROC).find? fun fd => ((s.procs p).filelist fd).isNone

def fdAlloc (p : Slot) (f : FileId) : FsM σ Int := do
  match freeFd (← get) p with
  | some fd =>
    setFd p fd (some f)
    return fd.val
  | none => return MINUS_ONE

def sysOpen (p : Slot) (path : List UInt8) (openMode : UInt32) : FsM σ Int := do
  match ← fileOpen p path openMode with
  | none => return MINUS_ONE
  | some f =>
    let fd ← fdAlloc p f
    if fd = MINUS_ONE then fileClose f
    return fd

def sysClose (p : Slot) (fd : Int) : FsM σ Int := do
  match argFd (← get) p fd with
  | none => return MINUS_ONE
  | some (i, f) =>
    setFd p i none
    fileClose f
    return 0

def sysRead (p : Slot) (fd : Int) (len dev : UInt32) : FsM σ Int := do
  match argFd (← get) p fd with
  | none => return MINUS_ONE
  | some (_, f) => return (← fileRead f len dev).toNat

def sysWrite (p : Slot) (fd : Int) (len : UInt32) (src : Nat → UInt8) (dev : UInt32) :
    FsM σ Int := do
  match argFd (← get) p fd with
  | none => return MINUS_ONE
  | some (_, f) => return (← fileWrite f len src dev).toNat

def sysDup (p : Slot) (fd : Int) : FsM σ Int := do
  match argFd (← get) p fd with
  | none => return MINUS_ONE
  | some (_, f) =>
    let newFd ← fdAlloc p f
    fileDup f
    return newFd

def sysMkdir (p : Slot) (path : List UInt8) : FsM σ Int := do
  match ← pathCreateInode p path FT_DIR 0 0 with
  | none => return MINUS_ONE
  | some _ => return 0

/-- A `uint32` result `0` or `-1`, as the call returns it in 64 bits. -/
def retOf (ok : Bool) : Int := if ok then 0 else 0xFFFFFFFF

def sysChdir (p : Slot) (path : List UInt8) : FsM σ Int := do
  return retOf (← dirChange p path)

def sysLink (p : Slot) (oldPath newPath : List UInt8) : FsM σ Int := do
  return retOf (← pathLink p oldPath newPath)

def sysUnlink (p : Slot) (path : List UInt8) : FsM σ Int := do
  return retOf (← pathUnlink p path)

/-! ## Runs of system calls -/

inductive Call where
  | sysOpen (p : Slot) (path : List UInt8) (openMode : UInt32)
  | sysClose (p : Slot) (fd : Int)
  | sysDup (p : Slot) (fd : Int)
  | sysRead (p : Slot) (fd : Int) (len dev : UInt32)
  | sysWrite (p : Slot) (fd : Int) (len : UInt32) (src : Nat → UInt8) (dev : UInt32)
  | sysMkdir (p : Slot) (path : List UInt8)
  | sysChdir (p : Slot) (path : List UInt8)
  | sysLink (p : Slot) (oldPath newPath : List UInt8)
  | sysUnlink (p : Slot) (path : List UInt8)

def Call.exec : Call → FsM σ Int
  | .sysOpen p path openMode => Fs.sysOpen p path openMode
  | .sysClose p fd => Fs.sysClose p fd
  | .sysDup p fd => Fs.sysDup p fd
  | .sysRead p fd len dev => Fs.sysRead p fd len dev
  | .sysWrite p fd len src dev => Fs.sysWrite p fd len src dev
  | .sysMkdir p path => Fs.sysMkdir p path
  | .sysChdir p path => Fs.sysChdir p path
  | .sysLink p oldPath newPath => Fs.sysLink p oldPath newPath
  | .sysUnlink p path => Fs.sysUnlink p path

/-- The state after a call that returns. -/
def callStep (s : FsState σ) (c : Call) : Option (FsState σ) :=
  match c.exec s with
  | .ok _ s' => some s'
  | .error _ _ => none

/-- After `inode_init` and `file_init`: nothing is open. -/
def booted (dev : σ) : FsState σ where
  dev := dev
  icache := fun _ =>
    { d := { type := 0, major := 0, minor := 0, nlink := 0, size := 0, addrs := fun _ => 0 }
      inodeNum := 0, ref := 0, valid := false, slk := false }
  ftable := fun _ =>
    { type := .unused, readable := false, writable := false, ref := 0, major := 0, offset := 0,
      ip := none }
  procs := fun _ => { filelist := fun _ => none, cwd := none }

end Fs
end WhuOS
