import WhuOS.Fs.Disk

/-!
# WhuOS.Fs.Mkfs

`mkfs/mkfs.c`: the program on the host that builds the disk image. Its `open`, `read`, `lseek` and
`write` act on plain files, so the image is an array of blocks and an input file is its bytes.
-/

namespace WhuOS
namespace Fs
namespace Mkfs

open Lib

abbrev MkM := Kern Disk

def blockRead (b : Nat) : MkM Block := do return (← get) b

def blockWrite (b : Nat) (d : Block) : MkM Unit := modify fun img => upd img b d

/-- `(bit_cmp & c) == 0`: `char` is signed, and both operands are promoted to `int`. -/
def isClear (bitCmp : UInt8) (c : Int8) : Bool := bitCmp.toUInt32.toInt32 &&& c.toInt32 = 0

def orBit (c : Int8) (bitCmp : UInt8) : Int8 := (c.toInt32 ||| bitCmp.toUInt32.toInt32).toInt8

/-- The loop over `shift`, with `n` passes left. -/
def shiftLoop (c : Int8) : Nat → Nat → UInt8 → Option (Nat × UInt8)
  | 0, _, _ => none
  | n + 1, shift, bitCmp =>
    if isClear bitCmp c then some (shift, bitCmp) else shiftLoop c n (shift + 1) (bitCmp <<< 1)

/-- The loop over `byte`, with `n` passes left. -/
def byteLoop (buf : Block) : Nat → Nat → Option (Nat × Block)
  | 0, _ => none
  | n + 1, byte =>
    let c := (buf.byte byte).toInt8
    match shiftLoop c 8 0 1 with
    | some (shift, bitCmp) => some (byte * 8 + shift, buf.setByte byte (orBit c bitCmp).toUInt8)
    | none => byteLoop buf n (byte + 1)

/-- The search of `block_alloc` and `inode_alloc` in a bitmap. -/
def bitAlloc (bitmapBlock : Nat) : MkM Nat := do
  let buf ← blockRead bitmapBlock
  match byteLoop buf BLOCK_SIZE 0 with
  | some (n, buf) =>
    blockWrite bitmapBlock buf
    return n
  | none => throw .hang

def blockAlloc : MkM UInt32 := do
  return UInt32.ofNat ((← bitAlloc sb.dataBitmapStart) + sb.dataStart)

def inodeAlloc : MkM UInt16 := do return UInt16.ofNat (← bitAlloc sb.inodeBitmapStart)

def inodeWrite (inum : UInt16) (n : Dinode) : MkM Unit := do
  let b := inodeBlock inum
  blockWrite b ((← blockRead b).putInode (inum.toNat % INODE_PER_BLOCK) n)

def newInode (inum type : UInt16) : MkM Dinode := do
  let n : Dinode := { type, major := 0, minor := 0, nlink := 1, size := 0, addrs := fun _ => 0 }
  inodeWrite inum n
  return n

/-- `dirent_create`. `strcpy` leaves the bytes of `de` after the name as they were on the stack;
they are `g`. -/
def direntCreate (g : Nat → UInt8) (dirBlock : UInt32) (offset : Nat) (name : List UInt8)
    (inum : UInt16) : MkM Nat := do
  if 30 ≤ name.length then throw (.panic "strlen(name) < 30")
  let d ← blockRead dirBlock.toNat
  blockWrite dirBlock.toNat (d.blit offset DIRENT_SIZE fun j =>
    if j < 2 then leByte inum.toNat j
    else if j - 2 < name.length then name.getD (j - 2) 0
    else if j - 2 = name.length then 0
    else g j)
  return offset + DIRENT_SIZE

def allocIfZero (e : UInt32) : MkM UInt32 := if e = 0 then blockAlloc else return e

/-- `locate_block(entry, bn, 256 ^ level)`: the value of `*entry` afterwards, and the block. The
entries of an indirect block are changed in a copy on the stack only. -/
def locateBlock : Nat → UInt32 → Nat → MkM (UInt32 × UInt32)
  | 0, e, _ => do
    let e ← allocIfZero e
    return (e, e)
  | level + 1, e, bn => do
    let e ← allocIfZero e
    let d ← blockRead e.toNat
    let (_, ret) ← locateBlock level (d.u32 (4 * (bn / ENTRY_PER_BLOCK ^ level)))
      (bn % ENTRY_PER_BLOCK ^ level)
    return (e, ret)

def locateAddr (n : Dinode) (k : Fin N_ADDRS) (level bn : Nat) : MkM (Dinode × UInt32) := do
  let (e, ret) ← locateBlock level (n.addrs k) bn
  return ({ n with addrs := upd n.addrs k e }, ret)

def inodeLocateBlock (n : Dinode) (bn : Nat) : MkM (Dinode × UInt32) :=
  if h : bn < N_ADDRS_1 then
    locateAddr n ⟨bn, direct_lt h⟩ 0 bn
  else
    let bn := bn - N_ADDRS_1
    if h : bn < N_ADDRS_2 * ENTRY_PER_BLOCK then
      locateAddr n ⟨N_ADDRS_1 + bn / ENTRY_PER_BLOCK, indirect_lt h⟩ 1 (bn % ENTRY_PER_BLOCK)
    else
      let bn := bn - N_ADDRS_2 * ENTRY_PER_BLOCK
      if bn < N_ADDRS_3 * ENTRY_PER_BLOCK * ENTRY_PER_BLOCK then
        locateAddr n ⟨N_ADDRS_1 + N_ADDRS_2, double_lt⟩ 2 (bn % (ENTRY_PER_BLOCK * ENTRY_PER_BLOCK))
      else throw .hang

/-- The copy loop over the rest of an input file; `buf` and `bn` go on from file to file. -/
def copyFile : Nat → List UInt8 → Block → Nat → Dinode → MkM (Block × Nat × Dinode)
  | 0, _, buf, bn, n => return (buf, bn, n)
  | fuel + 1, rest, buf, bn, n => do
    let readLen := min BLOCK_SIZE rest.length
    let buf := buf.blit 0 readLen fun i => rest.getD i 0
    let (n, blockNum) ← inodeLocateBlock n bn
    blockWrite blockNum.toNat buf
    let n := { n with size := n.size + UInt32.ofNat readLen }
    if readLen < BLOCK_SIZE then return (buf, bn + 1, n)
    copyFile fuel (rest.drop BLOCK_SIZE) buf (bn + 1) n

/-- The loop over the input files, given by their short names and contents. -/
def addFiles (g : Nat → UInt8) (rootBlock : UInt32) :
    List (List UInt8 × List UInt8) → Nat → Block → Nat → MkM Unit
  | [], _, _, _ => return ()
  | (name, bytes) :: files, offset, buf, bn => do
    let inum ← inodeAlloc
    let n ← newInode inum FT_FILE
    let offset ← direntCreate g rootBlock offset name inum
    let (buf, bn, n) ← copyFile (bytes.length / BLOCK_SIZE + 1) bytes buf bn n
    inodeWrite inum n
    addFiles g rootBlock files offset buf bn

/-- `sb` as it is written to block 0. -/
def superBlock : Block :=
  Block.zero.blit 0 36 fun i =>
    leByte ([0x12345678, BLOCK_SIZE, sb.inodeBitmapStart, sb.inodeStart, sb.dataBitmapStart,
      sb.dataStart, sb.inodeBlocks, sb.dataBlocks, sb.dataBlocks + sb.inodeBlocks + 3].getD (i / 4) 0)
      (i % 4)

/-- `main`, from an image of zeros. -/
def main (g : Nat → UInt8) (files : List (List UInt8 × List UInt8)) : MkM Unit := do
  blockWrite 0 superBlock
  let rootInum ← inodeAlloc
  let rootBlock ← blockAlloc
  if rootInum ≠ 0 then throw .hang
  let root ← newInode rootInum FT_DIR
  let offset ← direntCreate g rootBlock 0 Name.dot.bytes rootInum
  let offset ← direntCreate g rootBlock offset Name.dotdot.bytes rootInum
  addFiles g rootBlock files offset superBlock 0
  inodeWrite rootInum
    { root with
      addrs := upd root.addrs 0 rootBlock
      size := UInt32.ofNat (DIRENT_SIZE * (2 + files.length)) }

/-- The image without input files, as the Makefile builds it. -/
def image (g : Nat → UInt8) : Disk := Kern.after (main g []) fun _ => Block.zero

end Mkfs
end Fs
end WhuOS
