import WhuOS.Fs.Inode

/-!
# WhuOS.Fs.Dir

`kernel/fs/dir.c`: the entries of a directory, which fill one block, and the operations on paths.
`p` is the process that makes the call (`myproc()`).
-/

namespace WhuOS
namespace Fs

open Lib Sched

variable {σ η : Type} [BufLayer σ η]

/-! ## Directories -/

/-- The first entry of the block for which `q` holds. -/
def findEntry (q : Nat → Bool) : Option Nat := (List.range DIRENT_PER_BLOCK).find? q

def dirSearchEntry (pip : IId) (name : CharPtr) : FsM σ UInt16 := do
  let n ← getIp pip
  Kern.assert n.slk "dir_search_entry: not holding lock"
  Kern.assert (n.d.type == FT_DIR) "dir_search_entry: not a directory"
  let buf ← bufRead (n.d.addrs 0).toNat
  let d ← bufData buf
  bufRelease buf
  match findEntry fun k => d.matchesName k name with
  | some k => return d.entInum k
  | none => return INODE_NUM_UNUSED

/-- `dir_add_entry`; the result is the offset of the new entry, or `BLOCK_SIZE`. -/
def dirAddEntry (pip : IId) (inodeNum : UInt16) (name : CharPtr) : FsM σ Nat := do
  let n ← getIp pip
  Kern.assert n.slk "dir_add_entry: not holding lock"
  Kern.assert (n.d.type == FT_DIR) "dir_add_entry: not a directory"
  if (← dirSearchEntry pip name) ≠ INODE_NUM_UNUSED then return BLOCK_SIZE
  let buf ← bufRead (n.d.addrs 0).toNat
  let d ← bufData buf
  match findEntry fun k => d.entByte k 0 == 0 || d.entInum k == INODE_NUM_UNUSED with
  | some k =>
    bufSet buf (d.putEntry k inodeNum name)
    bufWrite buf
    bufRelease buf
    if UInt32.ofNat (DIRENT_SIZE * k + DIRENT_SIZE) > n.d.size then
      modIp pip fun n =>
        { n with d := { n.d with size := UInt32.ofNat (DIRENT_SIZE * k + DIRENT_SIZE) } }
      inodeRw pip true
    return DIRENT_SIZE * k
  | none =>
    bufRelease buf
    return BLOCK_SIZE

def dirDeleteEntry (pip : IId) (name : CharPtr) : FsM σ UInt16 := do
  let n ← getIp pip
  Kern.assert n.slk "dir_delete_entry: not holding lock"
  Kern.assert (n.d.type == FT_DIR) "dir_delete_entry: not a directory"
  let buf ← bufRead (n.d.addrs 0).toNat
  let d ← bufData buf
  match findEntry fun k => d.matchesName k name with
  | some k =>
    bufSet buf (d.clearEntry k)
    bufWrite buf
    bufRelease buf
    return d.entInum k
  | none =>
    bufRelease buf
    return INODE_NUM_UNUSED

/-- The loop of `dir_get_entries` over the entries in the places `ks`. `mem` is the memory that
`dst` points into: the kernel's, or for `user` the one that `uvm_copyout` writes. -/
def getEntries (d : Block) (len : UInt32) (dst : Nat) : List Nat → UInt32 → Bytes → UInt32 × Bytes
  | [], total, mem => (total, mem)
  | k :: ks, total, mem =>
    if total < len then
      if d.entByte k 0 ≠ 0 ∧ d.entInum k ≠ INODE_NUM_UNUSED then
        getEntries d len dst ks (total + UInt32.ofNat DIRENT_SIZE)
          (mem.write (dst + total.toNat) DIRENT_SIZE fun j => d.byte (DIRENT_SIZE * k + j))
      else getEntries d len dst ks total mem
    else (total, mem)

def dirGetEntries (pip : IId) (len : UInt32) (dst : Nat) (mem : Bytes) : FsM σ (UInt32 × Bytes) := do
  let n ← getIp pip
  Kern.assert n.slk "dir_get_entries: not holding lock"
  Kern.assert (n.d.type == FT_DIR) "dir_get_entries: not a directory"
  let buf ← bufRead (n.d.addrs 0).toNat
  let d ← bufData buf
  bufRelease buf
  return getEntries d len dst (List.range DIRENT_PER_BLOCK) 0 mem

/-! ## Paths -/

/-- The loop of `search_inode`; `name` is what the last `skip_element` left there. -/
def searchLoop (findParent : Bool) : Nat → IId → Option Name → List UInt8 →
    FsM σ (Option (IId × Option Name))
  | 0, _, _, _ => throw .hang
  | fuel + 1, ip, name, path => do
    match skipElement path with
    | none =>
      -- the path is used up
      if findParent then
        inodeFree ip
        return none
      return some (ip, name)
    | some (name, path) =>
      inodeLock ip
      if (← getIp ip).d.type ≠ FT_DIR then
        inodeUnlockFree ip
        return none
      if findParent && atEnd path then
        inodeUnlock ip
        return some (ip, some name)
      let inum ← dirSearchEntry ip name.byte
      if inum = INODE_NUM_UNUSED then
        inodeUnlockFree ip
        return none
      let next ← inodeAlloc inum
      inodeUnlockFree ip
      searchLoop findParent fuel next (some name) path

/-- `search_inode`. Every pass uses up at least one byte of the path. -/
def searchInode (p : Slot) (path : List UInt8) (findParent : Bool) :
    FsM σ (Option (IId × Option Name)) := do
  let ip ←
    match path.head? == some SLASH, ((← get).procs p).cwd with
    | false, some cwd => inodeDup cwd
    | _, _ => inodeAlloc INODE_ROOT
  searchLoop findParent (path.length + 1) ip none path

def pathToInode (p : Slot) (path : List UInt8) : FsM σ (Option IId) := do
  return (← searchInode p path false).map (·.1)

/-- `path_to_pinode`, with the last element of the path. -/
def pathToPinode (p : Slot) (path : List UInt8) : FsM σ (Option (IId × Name)) := do
  match ← searchInode p path true with
  | some (pip, some name) => return some (pip, name)
  | _ => return none

/-- `path_create_inode` when the parent has an entry with the name. -/
def createExisting (pip : IId) (inum type : UInt16) : FsM σ (Option IId) := do
  inodeUnlockFree pip
  let ip ← inodeAlloc inum
  inodeLock ip
  if type ≠ FT_DIR ∧ (← getIp ip).d.type = FT_DIR then
    inodeUnlockFree ip
    return none
  inodeUnlock ip
  return some ip

/-- The entries of a new directory. -/
def addDots (pip ip : IId) : FsM σ Unit := do
  inodeLock ip
  let _ ← dirAddEntry ip (← getIp ip).inodeNum Name.dot.byte
  let _ ← dirAddEntry ip (← getIp pip).inodeNum Name.dotdot.byte
  inodeUnlock ip
  modIp pip fun n => { n with d := { n.d with nlink := n.d.nlink + 1 } }
  inodeRw pip true

/-- `path_create_inode` when the parent has no entry with the name. -/
def createNew (pip : IId) (name : Name) (type major minor : UInt16) : FsM σ (Option IId) := do
  let ip ← inodeCreate type major minor
  if (← dirAddEntry pip (← getIp ip).inodeNum name.byte) = BLOCK_SIZE then
    inodeLock ip
    modIp ip fun n => { n with d := { n.d with nlink := 0 } }
    inodeUnlockFree ip
    inodeUnlockFree pip
    return none
  if type = FT_DIR then addDots pip ip
  inodeUnlockFree pip
  return some ip

def pathCreateInode (p : Slot) (path : List UInt8) (type major minor : UInt16) :
    FsM σ (Option IId) := do
  match ← pathToPinode p path with
  | none => return none
  | some (pip, name) =>
    inodeLock pip
    let inum ← dirSearchEntry pip name.byte
    if inum ≠ INODE_NUM_UNUSED then createExisting pip inum type
    else createNew pip name type major minor

/-- `path_link`; `false` for `-1`. -/
def pathLink (p : Slot) (oldPath newPath : List UInt8) : FsM σ Bool := do
  match ← pathToInode p oldPath with
  | none => return false
  | some ip =>
    inodeLock ip
    if (← getIp ip).d.type = FT_DIR then
      inodeUnlockFree ip
      return false
    match ← pathToPinode p newPath with
    | none =>
      inodeUnlockFree ip
      return false
    | some (pip, name) =>
      inodeLock pip
      if (← dirAddEntry pip (← getIp ip).inodeNum name.byte) = BLOCK_SIZE then
        inodeUnlockFree pip
        inodeUnlockFree ip
        return false
      modIp ip fun n => { n with d := { n.d with nlink := n.d.nlink + 1 } }
      inodeRw ip true
      inodeUnlockFree pip
      inodeUnlockFree ip
      return true

def checkUnlink (ip : IId) : FsM σ Bool := do
  Kern.assert (← getIp ip).slk "check_unlink: slk"
  -- `tmp` is a memory of its own
  let (readLen, _) ← dirGetEntries ip (UInt32.ofNat (DIRENT_SIZE * 3)) 0 fun _ => 0
  if readLen = UInt32.ofNat (DIRENT_SIZE * 3) then return false
  else if readLen = UInt32.ofNat (DIRENT_SIZE * 2) then return true
  else Kern.panic "check_unlink: read_len"

/-- The end of `path_unlink`, with both inodes locked. -/
def removeEntry (pip ip : IId) (name : Name) : FsM σ Unit := do
  let _ ← dirDeleteEntry pip name.byte
  if (← getIp ip).d.type = FT_DIR then
    modIp pip fun n => { n with d := { n.d with nlink := n.d.nlink - 1 } }
    inodeRw pip true
  inodeUnlockFree pip
  modIp ip fun n => { n with d := { n.d with nlink := n.d.nlink - 1 } }
  inodeRw ip true
  inodeUnlockFree ip

/-- `path_unlink`; `false` for `-1`. -/
def pathUnlink (p : Slot) (path : List UInt8) : FsM σ Bool := do
  match ← pathToPinode p path with
  | none => return false
  | some (pip, name) =>
    inodeLock pip
    if strncmp name.byte Name.dot.byte DIR_NAME_LEN || strncmp name.byte Name.dotdot.byte DIR_NAME_LEN then
      inodeUnlockFree pip
      return false
    let inum ← dirSearchEntry pip name.byte
    if inum = INODE_NUM_UNUSED then
      inodeUnlockFree pip
      return false
    let ip ← inodeAlloc inum
    inodeLock ip
    if (← getIp ip).d.type = FT_DIR then
      if !(← checkUnlink ip) then
        inodeUnlockFree ip
        inodeUnlockFree pip
        return false
    removeEntry pip ip name
    return true

def setCwd (p : Slot) (cwd : Option IId) : FsM σ Unit :=
  modify fun s => { s with procs := upd s.procs p { s.procs p with cwd } }

/-- `if(p->cwd != NULL) inode_free(p->cwd)`. -/
def freeCwd : Option IId → FsM σ Unit
  | some cwd => inodeFree cwd
  | none => return ()

/-- `dir_change`; `false` for `-1`. -/
def dirChange (p : Slot) (path : List UInt8) : FsM σ Bool := do
  match ← pathToInode p path with
  | none => return false
  | some ip =>
    inodeLock ip
    if (← getIp ip).d.type ≠ FT_DIR then
      inodeUnlockFree ip
      return false
    inodeUnlock ip
    freeCwd ((← get).procs p).cwd
    setCwd p (some ip)
    return true

end Fs
end WhuOS
