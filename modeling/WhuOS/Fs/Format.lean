import Mathlib.Data.Nat.Bitwise
import Mathlib.Data.List.TakeWhile
import WhuOS.Lib.Bytes
import WhuOS.Fs.Block

/-!
# WhuOS.Fs.Format

What the file system keeps in a block, as views of its bytes: bitmaps, disk inodes (64 bytes),
directory entries (32 bytes) and block numbers. Each view has a reader and a writer, and lemmas
that say what is read back after a write and what the write leaves alone.

* `bit`, `setBit`, `clearBit`            — the bitmaps, and `searchAndSet`, `unset` with the masks of
  the code.
* `getInode`, `putInode`                 — `struct inode` up to `addrs`.
* `entry`, `putEntry`, `clearEntry`      — `dirent_t`; an entry with an empty name is unused.
* `cstr`, `strncmp`, `strncpy`           — strings, and the names they stand for (`Name.of`).
* `skipElement`                          — paths.
-/

namespace WhuOS
namespace Fs

open Lib

/-! ## The layout `mkfs` writes -/

structure SuperBlock where
  inodeBitmapStart : Nat
  inodeStart : Nat
  dataBitmapStart : Nat
  dataStart : Nat
  inodeBlocks : Nat
  dataBlocks : Nat

/-- The super block of `mkfs`, which `fs_init` reads. -/
def sb : SuperBlock where
  inodeBitmapStart := 1
  inodeStart := 2
  dataBitmapStart := 130
  dataStart := 131
  inodeBlocks := 128
  dataBlocks := 8192

abbrev INODE_DISK_SIZE : Nat := 64
abbrev INODE_PER_BLOCK : Nat := BLOCK_SIZE / INODE_DISK_SIZE
abbrev N_ADDRS_1 : Nat := 10
abbrev N_ADDRS_2 : Nat := 2
abbrev N_ADDRS_3 : Nat := 1
abbrev N_ADDRS : Nat := N_ADDRS_1 + N_ADDRS_2 + N_ADDRS_3
abbrev ENTRY_PER_BLOCK : Nat := BLOCK_SIZE / 4
abbrev BIT_PER_BLOCK : Nat := 8 * BLOCK_SIZE

abbrev DIR_NAME_LEN : Nat := 30
abbrev DIRENT_SIZE : Nat := 32
abbrev DIRENT_PER_BLOCK : Nat := BLOCK_SIZE / DIRENT_SIZE

def INODE_ROOT : UInt16 := 0
def INODE_NUM_UNUSED : UInt16 := 0xFFFF

def FT_UNUSED : UInt16 := 0
def FT_DIR : UInt16 := 1
def FT_FILE : UInt16 := 2
def FT_DEVICE : UInt16 := 3

instance addrs_neZero : NeZero N_ADDRS := ⟨by decide⟩

/-! The place in `addrs` of a direct block, an indirect block and the doubly indirect one. -/

theorem direct_lt {bn : Nat} (h : bn < N_ADDRS_1) : bn < N_ADDRS := by
  simp only [N_ADDRS, N_ADDRS_1] at *
  omega

theorem indirect_lt {bn : Nat} (h : bn < N_ADDRS_2 * ENTRY_PER_BLOCK) :
    N_ADDRS_1 + bn / ENTRY_PER_BLOCK < N_ADDRS := by
  simp only [N_ADDRS, N_ADDRS_1, N_ADDRS_2, ENTRY_PER_BLOCK, BLOCK_SIZE] at *
  omega

theorem double_lt : N_ADDRS_1 + N_ADDRS_2 < N_ADDRS := by decide

namespace Block

variable {d : Block} {n m : Nat}

theorem byte_blit {off : Nat} {src : Nat → UInt8} (h : off + n ≤ BLOCK_SIZE) :
    (d.blit off n src).byte = Bytes.write d.byte off n src := by
  funext x
  by_cases hx : x < BLOCK_SIZE
  · simp [byte, blit, Bytes.write, hx]
  · have : ¬ (off ≤ x ∧ x < off + n) := by omega
    simp [byte, Bytes.write, hx, this]

theorem byte_zero (i : Nat) : zero.byte i = 0 := by
  unfold byte zero; split <;> rfl

/-! ## Bitmaps -/

def bit (d : Block) (n : Nat) : Bool := (d.byte (n / 8)).toNat.testBit (n % 8)

def setBit (d : Block) (n : Nat) : Block :=
  d.blit (n / 8) 1 fun _ => UInt8.ofNat ((d.byte (n / 8)).toNat ||| 2 ^ (n % 8))

def clearBit (d : Block) (n : Nat) : Block :=
  d.blit (n / 8) 1 fun _ => UInt8.ofNat ((d.byte (n / 8)).toNat &&& (255 ^^^ 2 ^ (n % 8)))

private theorem testBit_ofNat (x i : Nat) (hi : i < 8) :
    (UInt8.ofNat x).toNat.testBit i = x.testBit i := by
  rw [UInt8.toNat_ofNat', show (2 : Nat) ^ 8 = 2 ^ 8 from rfl, Nat.testBit_mod_two_pow]
  simp [hi]

/-- One byte is replaced: a bit in it is read from the new byte, all others are as before. -/
theorem bit_blit_one {v : UInt8} (hn : n < BIT_PER_BLOCK) :
    (d.blit (n / 8) 1 fun _ => v).bit m =
      if m / 8 = n / 8 then v.toNat.testBit (m % 8) else d.bit m := by
  unfold bit
  rw [byte_blit (by simp only [BIT_PER_BLOCK, BLOCK_SIZE] at *; omega)]
  by_cases h : m / 8 = n / 8
  · have h0 := @Bytes.write_inside d.byte (n / 8) 1 0 (fun _ => v) (by omega)
    rw [Nat.add_zero] at h0
    rw [if_pos h, h, h0]
  · rw [if_neg h, Bytes.write_outside (by omega)]

theorem bit_setBit (hn : n < BIT_PER_BLOCK) :
    (d.setBit n).bit m = (d.bit m || decide (m = n)) := by
  rw [setBit, bit_blit_one hn]
  by_cases h : m / 8 = n / 8
  · rw [if_pos h, testBit_ofNat _ _ (by omega), Nat.testBit_or, Nat.testBit_two_pow, ← h]
    have : (n % 8 = m % 8) ↔ m = n := by omega
    simp [bit, this]
  · have : m ≠ n := fun e => h (by rw [e])
    simp [h, this]

theorem bit_clearBit (hn : n < BIT_PER_BLOCK) :
    (d.clearBit n).bit m = (d.bit m && decide (m ≠ n)) := by
  rw [clearBit, bit_blit_one hn]
  by_cases h : m / 8 = n / 8
  · rw [if_pos h, testBit_ofNat _ _ (by omega), Nat.testBit_and, Nat.testBit_xor,
      Nat.testBit_two_pow, show (255 : Nat) = 2 ^ 8 - 1 from rfl, Nat.testBit_two_pow_sub_one, ← h]
    have h8 : m % 8 < 8 := by omega
    have : (n % 8 = m % 8) ↔ m = n := by omega
    simp [bit, this, h8]
  · have : m ≠ n := fun e => h (by rw [e])
    simp [h, this]

/-- The first clear bit at or after `n`, of `fuel` bits. -/
def clearFrom (d : Block) : Nat → Nat → Option Nat
  | _, 0 => none
  | n, fuel + 1 => if d.bit n then clearFrom d (n + 1) fuel else some n

/-- The search of `bitmap_search_and_set`. -/
def firstClear (d : Block) : Option Nat := clearFrom d 0 BIT_PER_BLOCK

theorem clearFrom_some : ∀ {fuel n m : Nat}, clearFrom d n fuel = some m →
    n ≤ m ∧ m < n + fuel ∧ d.bit m = false ∧ ∀ i, n ≤ i → i < m → d.bit i = true := by
  intro fuel
  induction fuel with
  | zero => intro n m h; cases h
  | succ fuel ih =>
    intro n m h
    simp only [clearFrom] at h
    cases hb : d.bit n with
    | false =>
      simp only [hb, Bool.false_eq_true, if_false, Option.some.injEq] at h
      subst h
      exact ⟨Nat.le_refl n, by omega, hb, fun i h1 h2 => by omega⟩
    | true =>
      simp only [hb, if_true] at h
      obtain ⟨h1, h2, h3, h4⟩ := ih h
      refine ⟨by omega, by omega, h3, fun i hi hlt => ?_⟩
      by_cases e : i = n
      · rw [e, hb]
      · exact h4 i (by omega) hlt

theorem clearFrom_none : ∀ {fuel n : Nat}, clearFrom d n fuel = none →
    ∀ i, n ≤ i → i < n + fuel → d.bit i = true := by
  intro fuel
  induction fuel with
  | zero => intro n _ i h1 h2; omega
  | succ fuel ih =>
    intro n h i hi hlt
    simp only [clearFrom] at h
    cases hb : d.bit n with
    | false => simp [hb] at h
    | true =>
      simp only [hb, if_true] at h
      by_cases e : i = n
      · rw [e, hb]
      · exact ih h i (by omega) (by omega)

theorem firstClear_some (h : d.firstClear = some m) :
    m < BIT_PER_BLOCK ∧ d.bit m = false ∧ ∀ i, i < m → d.bit i = true := by
  obtain ⟨-, h2, h3, h4⟩ := clearFrom_some h
  exact ⟨by omega, h3, fun i hi => h4 i (Nat.zero_le i) hi⟩

/-! The bitmap code works with a mask that it shifts through the bits of a byte. -/

def setByte (d : Block) (i : Nat) (v : UInt8) : Block := d.blit i 1 fun _ => v

/-- The loop over `shift`, with `n` passes left: where `data[byte] & bit_cmp` is 0. -/
def shiftLoop (b : UInt8) : Nat → Nat → UInt8 → Option (Nat × UInt8)
  | 0, _, _ => none
  | n + 1, shift, bitCmp =>
    if bitCmp &&& b = 0 then some (shift, bitCmp) else shiftLoop b n (shift + 1) (bitCmp <<< 1)

/-- The loop over `byte`, with `n` passes left: the number found, and the block with its bit set. -/
def byteLoop (d : Block) : Nat → Nat → Option (Nat × Block)
  | 0, _ => none
  | n + 1, byte =>
    match shiftLoop (d.byte byte) 8 0 1 with
    | some (shift, bitCmp) => some (byte * 8 + shift, d.setByte byte (d.byte byte ||| bitCmp))
    | none => byteLoop d n (byte + 1)

/-- What `bitmap_search_and_set` does with the data of the buffer. -/
def searchAndSet (d : Block) : Option (Nat × Block) := byteLoop d BLOCK_SIZE 0

/-- What `bitmap_unset` does with it; `none` if the bit is already free. -/
def unset (d : Block) (num : Nat) : Option Block :=
  let bitCmp : UInt8 := 1 <<< UInt8.ofNat (num % 8)
  if d.byte (num / 8) &&& bitCmp = 0 then none
  else some (d.setByte (num / 8) (d.byte (num / 8) &&& ~~~bitCmp))

def mask (i : Nat) : UInt8 := UInt8.ofNat (2 ^ i)

theorem mask_cases : ∀ (i : Fin 8) (x : Fin 256),
    1 <<< UInt8.ofNat i.val = mask i.val ∧ mask i.val <<< 1 = mask (i.val + 1) ∧
    ((mask i.val &&& UInt8.ofNat x.val = 0) ↔ x.val.testBit i.val = false) ∧
    UInt8.ofNat x.val ||| mask i.val = UInt8.ofNat (x.val ||| 2 ^ i.val) ∧
    UInt8.ofNat x.val &&& ~~~mask i.val = UInt8.ofNat (x.val &&& (255 ^^^ 2 ^ i.val)) := by
  decide +kernel

theorem mask_spec {i : Nat} (hi : i < 8) (b : UInt8) :
    1 <<< UInt8.ofNat i = mask i ∧ mask i <<< 1 = mask (i + 1) ∧
    ((mask i &&& b = 0) ↔ b.toNat.testBit i = false) ∧
    b ||| mask i = UInt8.ofNat (b.toNat ||| 2 ^ i) ∧
    b &&& ~~~mask i = UInt8.ofNat (b.toNat &&& (255 ^^^ 2 ^ i)) := by
  have h := mask_cases ⟨i, hi⟩ ⟨b.toNat, b.toNat_lt⟩
  rwa [UInt8.ofNat_toNat] at h

theorem clearFrom_add (d : Block) : ∀ (n a k : Nat),
    clearFrom d a (n + k) = (clearFrom d a n).or (clearFrom d (a + n) k) := by
  intro n
  induction n with
  | zero => intro a k; rw [Nat.zero_add, Nat.add_zero]; rfl
  | succ n ih =>
    intro a k
    rw [show n + 1 + k = (n + k) + 1 by omega]
    simp only [clearFrom]
    split
    · rw [ih, show a + 1 + n = a + (n + 1) by omega]
    · rfl

theorem shiftLoop_eq (d : Block) (byte : Nat) : ∀ (n shift : Nat), shift + n = 8 →
    shiftLoop (d.byte byte) n shift (mask shift) =
      (clearFrom d (byte * 8 + shift) n).map fun m => (m - byte * 8, mask (m - byte * 8)) := by
  intro n
  induction n with
  | zero => intro shift _; rfl
  | succ n ih =>
    intro shift hs
    obtain ⟨-, hnext, hzero, -⟩ := mask_spec (show shift < 8 by omega) (d.byte byte)
    have hbit : d.bit (byte * 8 + shift) = (d.byte byte).toNat.testBit shift := by
      rw [bit, show (byte * 8 + shift) / 8 = byte by omega,
        show (byte * 8 + shift) % 8 = shift by omega]
    simp only [shiftLoop, clearFrom, hbit, hzero]
    cases (d.byte byte).toNat.testBit shift with
    | false => simp
    | true =>
      simp only [Bool.true_eq_false, if_false, if_true]
      rw [hnext, ih (shift + 1) (by omega), Nat.add_assoc]

theorem byteLoop_eq (d : Block) : ∀ (n byte : Nat),
    byteLoop d n byte = (clearFrom d (byte * 8) (n * 8)).map fun m => (m, d.setBit m) := by
  intro n
  induction n with
  | zero => intro byte; rw [Nat.zero_mul]; rfl
  | succ n ih =>
    intro byte
    have hbyte := shiftLoop_eq d byte 8 0 rfl
    rw [show mask 0 = 1 from rfl, Nat.add_zero] at hbyte
    rw [byteLoop, hbyte, Nat.succ_mul, Nat.add_comm (n * 8) 8, clearFrom_add, ih,
      Nat.succ_mul byte 8]
    cases hc : clearFrom d (byte * 8) 8 with
    | none => rfl
    | some m =>
      obtain ⟨h1, h2, -⟩ := clearFrom_some hc
      have hm : m / 8 = byte := by omega
      have hs : m - byte * 8 = m % 8 := by omega
      have hor := (mask_spec (show m % 8 < 8 by omega) (d.byte byte)).2.2.2.1
      simp only [Option.map_some, Option.some_or, Option.some.injEq, Prod.mk.injEq]
      refine ⟨by omega, ?_⟩
      rw [hs, hor, setBit, hm]
      rfl

theorem searchAndSet_eq (d : Block) :
    d.searchAndSet = d.firstClear.map fun m => (m, d.setBit m) := byteLoop_eq d BLOCK_SIZE 0

theorem unset_eq (d : Block) (num : Nat) :
    d.unset num = if d.bit num then some (d.clearBit num) else none := by
  obtain ⟨hm, -, hzero, -, hand⟩ := mask_spec (show num % 8 < 8 by omega) (d.byte (num / 8))
  rw [unset, hm]
  simp only [UInt8.and_comm (d.byte (num / 8)) (mask (num % 8)), hzero]
  rw [hand, bit]
  cases (d.byte (num / 8)).toNat.testBit (num % 8) with
  | false => rfl
  | true => rfl

/-! ## Numbers -/

def u16 (d : Block) (off : Nat) : UInt16 := UInt16.ofNat (Bytes.load 2 d.byte off)

def u32 (d : Block) (off : Nat) : UInt32 := UInt32.ofNat (Bytes.load 4 d.byte off)

def setU32 (d : Block) (off : Nat) (v : UInt32) : Block := d.blit off 4 (leByte v.toNat)

end Block

theorem le_u16 (v : UInt16) : UInt16.ofNat (le (leByte v.toNat) 2) = v := by
  have hlt : v.toNat < 256 ^ 2 := v.toNat_lt
  rw [le_leByte, Nat.mod_eq_of_lt hlt, UInt16.ofNat_toNat]

theorem le_u32 (v : UInt32) : UInt32.ofNat (le (leByte v.toNat) 4) = v := by
  have hlt : v.toNat < 256 ^ 4 := v.toNat_lt
  rw [le_leByte, Nat.mod_eq_of_lt hlt, UInt32.ofNat_toNat]

namespace Block

theorem u32_setU32 {d : Block} {off : Nat} {v : UInt32} (h : off + 4 ≤ BLOCK_SIZE) :
    (d.setU32 off v).u32 off = v := by
  rw [u32, setU32, byte_blit h, ← le_u32 v]
  congr 1
  exact le_congr fun i hi => by rw [Bytes.write_inside hi, le_u32]

theorem u32_setU32_other {d : Block} {off a : Nat} {v : UInt32} (h : off + 4 ≤ BLOCK_SIZE)
    (ha : a + 4 ≤ off ∨ off + 4 ≤ a) : (d.setU32 off v).u32 a = d.u32 a := by
  rw [u32, u32, setU32, byte_blit h, Bytes.load_write_other ha]

end Block

/-! ## Inodes -/

/-- The part of `inode_t` that is on the disk. -/
@[ext] structure Dinode where
  type : UInt16
  major : UInt16
  minor : UInt16
  nlink : UInt16
  size : UInt32
  addrs : Fin N_ADDRS → UInt32

namespace Dinode

/-- The 64 bytes from `&ip->type` on. -/
def bytes (n : Dinode) (j : Nat) : UInt8 :=
  if j < 2 then leByte n.type.toNat j
  else if j < 4 then leByte n.major.toNat (j - 2)
  else if j < 6 then leByte n.minor.toNat (j - 4)
  else if j < 8 then leByte n.nlink.toNat (j - 6)
  else if j < 12 then leByte n.size.toNat (j - 8)
  else if h : (j - 12) / 4 < N_ADDRS then leByte (n.addrs ⟨(j - 12) / 4, h⟩).toNat ((j - 12) % 4)
  else 0

theorem bytes_addr (n : Dinode) (k : Fin N_ADDRS) {i : Nat} (hi : i < 4) :
    n.bytes (12 + 4 * k.val + i) = leByte (n.addrs k).toNat i := by
  have hk := k.isLt
  have h1 : (12 + 4 * k.val + i - 12) / 4 = k.val := by omega
  have h2 : (12 + 4 * k.val + i - 12) % 4 = i := by omega
  unfold bytes
  rw [if_neg (by omega), if_neg (by omega), if_neg (by omega), if_neg (by omega),
    if_neg (by omega), dif_pos (by rw [h1]; exact hk), h2]
  have hfin : (⟨(12 + 4 * k.val + i - 12) / 4, by rw [h1]; exact hk⟩ : Fin N_ADDRS) = k := Fin.ext h1
  rw [hfin]

end Dinode

namespace Block

/-- The inode in place `i` of the block. -/
def getInode (d : Block) (i : Nat) : Dinode where
  type := d.u16 (INODE_DISK_SIZE * i)
  major := d.u16 (INODE_DISK_SIZE * i + 2)
  minor := d.u16 (INODE_DISK_SIZE * i + 4)
  nlink := d.u16 (INODE_DISK_SIZE * i + 6)
  size := d.u32 (INODE_DISK_SIZE * i + 8)
  addrs := fun k => d.u32 (INODE_DISK_SIZE * i + 12 + 4 * k.val)

def putInode (d : Block) (i : Nat) (n : Dinode) : Block :=
  d.blit (INODE_DISK_SIZE * i) INODE_DISK_SIZE n.bytes

variable {d : Block} {i : Nat} {n : Dinode}

private theorem load_putInode (hi : i < INODE_PER_BLOCK)
    {k a : Nat} {f : Nat → UInt8} (hk : a + k ≤ INODE_DISK_SIZE)
    (hf : ∀ j, j < k → n.bytes (a + j) = f j) :
    Bytes.load k (d.putInode i n).byte (INODE_DISK_SIZE * i + a) = le f k := by
  rw [putInode, byte_blit (by simp only [INODE_PER_BLOCK, INODE_DISK_SIZE, BLOCK_SIZE] at *; omega)]
  refine le_congr fun j hj => ?_
  rw [Nat.add_assoc, Bytes.write_inside (by omega), hf j hj]

theorem getInode_putInode (hi : i < INODE_PER_BLOCK) :
    (d.putInode i n).getInode i = n := by
  have h16 : ∀ {a : Nat} {v : UInt16}, a + 2 ≤ INODE_DISK_SIZE →
      (∀ j, j < 2 → n.bytes (a + j) = leByte v.toNat j) →
      (d.putInode i n).u16 (INODE_DISK_SIZE * i + a) = v := fun ha hf => by
    rw [u16, load_putInode hi ha hf, le_u16]
  have h32 : ∀ {a : Nat} {v : UInt32}, a + 4 ≤ INODE_DISK_SIZE →
      (∀ j, j < 4 → n.bytes (a + j) = leByte v.toNat j) →
      (d.putInode i n).u32 (INODE_DISK_SIZE * i + a) = v := fun ha hf => by
    rw [u32, load_putInode hi ha hf, le_u32]
  apply Dinode.ext
  · refine h16 (a := 0) (by decide) fun j hj => ?_
    simp [Dinode.bytes, hj]
  · refine h16 (a := 2) (by decide) fun j hj => ?_
    rw [Dinode.bytes, if_neg (by omega), if_pos (by omega), Nat.add_sub_cancel_left]
  · refine h16 (a := 4) (by decide) fun j hj => ?_
    rw [Dinode.bytes, if_neg (by omega), if_neg (by omega), if_pos (by omega),
      Nat.add_sub_cancel_left]
  · refine h16 (a := 6) (by decide) fun j hj => ?_
    rw [Dinode.bytes, if_neg (by omega), if_neg (by omega), if_neg (by omega), if_pos (by omega),
      Nat.add_sub_cancel_left]
  · refine h32 (a := 8) (by decide) fun j hj => ?_
    rw [Dinode.bytes, if_neg (by omega), if_neg (by omega), if_neg (by omega), if_neg (by omega),
      if_pos (by omega), Nat.add_sub_cancel_left]
  · funext k
    have hk := k.isLt
    show (d.putInode i n).u32 (INODE_DISK_SIZE * i + 12 + 4 * k.val) = n.addrs k
    rw [Nat.add_assoc]
    exact h32 (by simp only [N_ADDRS, N_ADDRS_1, N_ADDRS_2, N_ADDRS_3, INODE_DISK_SIZE] at *; omega)
      fun j hj => Dinode.bytes_addr _ k hj

theorem bytes_getInode (d : Block) (i : Nat) {j : Nat} (hj : j < INODE_DISK_SIZE) :
    (d.getInode i).bytes j = d.byte (INODE_DISK_SIZE * i + j) := by
  have h16 : ∀ a k, k < 2 → leByte (d.u16 a).toNat k = d.byte (a + k) := fun a k hk => by
    have hlt : Bytes.load 2 d.byte a < 2 ^ 16 := Bytes.load_lt 2 _ _
    rw [u16, UInt16.toNat_ofNat', Nat.mod_eq_of_lt hlt]
    exact leByte_le _ hk
  have h32 : ∀ a k, k < 4 → leByte (d.u32 a).toNat k = d.byte (a + k) := fun a k hk => by
    have hlt : Bytes.load 4 d.byte a < 2 ^ 32 := Bytes.load_lt 4 _ _
    rw [u32, UInt32.toNat_ofNat', Nat.mod_eq_of_lt hlt]
    exact leByte_le _ hk
  simp only [INODE_DISK_SIZE] at hj
  unfold Dinode.bytes getInode
  simp only
  split_ifs with h1 h2 h3 h4 h5 h6
  · rw [h16 _ _ h1]
  · rw [h16 _ _ (by omega)]; congr 1; omega
  · rw [h16 _ _ (by omega)]; congr 1; omega
  · rw [h16 _ _ (by omega)]; congr 1; omega
  · rw [h32 _ _ (by omega)]; congr 1; omega
  · rw [h32 _ _ (by omega)]; congr 1; omega
  · simp only [N_ADDRS, N_ADDRS_1, N_ADDRS_2, N_ADDRS_3] at h6; omega

theorem putInode_getInode : d.putInode i (d.getInode i) = d := by
  funext x
  simp only [putInode, blit]
  split
  · rename_i h
    rw [bytes_getInode d i (by omega), show INODE_DISK_SIZE * i + (x.val - INODE_DISK_SIZE * i) = x.val
      by omega, byte, dif_pos x.isLt]
  · rfl

theorem putInode_putInode (d : Block) (i : Nat) (n n' : Dinode) :
    (d.putInode i n).putInode i n' = d.putInode i n' := by
  funext x
  simp only [putInode, blit]
  split <;> rfl

theorem getInode_congr {d' : Block}
    (h : ∀ j, j < INODE_DISK_SIZE → d'.byte (INODE_DISK_SIZE * i + j) = d.byte (INODE_DISK_SIZE * i + j)) :
    d'.getInode i = d.getInode i := by
  have hl : ∀ {k a : Nat}, a + k ≤ INODE_DISK_SIZE →
      Bytes.load k d'.byte (INODE_DISK_SIZE * i + a) = Bytes.load k d.byte (INODE_DISK_SIZE * i + a) :=
    fun ha => Bytes.load_congr fun j hj => by rw [Nat.add_assoc]; exact h _ (by omega)
  apply Dinode.ext
  · exact congrArg UInt16.ofNat (hl (k := 2) (a := 0) (by decide))
  · exact congrArg UInt16.ofNat (hl (k := 2) (a := 2) (by decide))
  · exact congrArg UInt16.ofNat (hl (k := 2) (a := 4) (by decide))
  · exact congrArg UInt16.ofNat (hl (k := 2) (a := 6) (by decide))
  · exact congrArg UInt32.ofNat (hl (k := 4) (a := 8) (by decide))
  · funext k
    have hk := k.isLt
    show UInt32.ofNat (Bytes.load 4 d'.byte _) = UInt32.ofNat (Bytes.load 4 d.byte _)
    rw [Nat.add_assoc,
      hl (by simp only [N_ADDRS, N_ADDRS_1, N_ADDRS_2, N_ADDRS_3, INODE_DISK_SIZE] at *; omega)]

theorem getInode_putInode_other {j : Nat} (hi : i < INODE_PER_BLOCK)
    (hj : j ≠ i) : (d.putInode i n).getInode j = d.getInode j := by
  refine getInode_congr fun b hb => ?_
  rw [putInode, byte_blit (by simp only [INODE_PER_BLOCK, INODE_DISK_SIZE, BLOCK_SIZE] at *; omega),
    Bytes.write_outside (by simp only [INODE_DISK_SIZE] at *; omega)]

end Block

/-! ## Names -/

/-- `char *`: the bytes from the pointer on. -/
abbrev CharPtr := Nat → UInt8

/-- The C string in the `n` bytes of `p` from `i` on. -/
def cstrFrom (p : CharPtr) : Nat → Nat → List UInt8
  | _, 0 => []
  | i, n + 1 => if p i = 0 then [] else p i :: cstrFrom p (i + 1) n

def cstr (p : CharPtr) (n : Nat) : List UInt8 := cstrFrom p 0 n

def strncmpFrom (p q : CharPtr) : Nat → Nat → Bool
  | _, 0 => true
  | i, n + 1 => if p i ≠ 0 ∧ p i = q i then strncmpFrom p q (i + 1) n else p i = q i

def strncmp (p q : CharPtr) (n : Nat) : Bool := strncmpFrom p q 0 n

/-- The first loop of `strncpy` copies up to the zero byte, the second one fills the rest. -/
def strncpyFrom (t : CharPtr) : Nat → Nat → List UInt8
  | _, 0 => []
  | i, n + 1 => if t i = 0 then 0 :: List.replicate n 0 else t i :: strncpyFrom t (i + 1) n

/-- The `n` bytes that `strncpy(s, t, n)` leaves in `s`. -/
def strncpy (t : CharPtr) (n : Nat) : List UInt8 := strncpyFrom t 0 n

theorem getD_strncpyFrom (t : CharPtr) : ∀ n i j,
    (strncpyFrom t i n).getD j 0 = (cstrFrom t i n).getD j 0 := by
  intro n
  induction n with
  | zero => intro i j; rfl
  | succ n ih =>
    intro i j
    simp only [strncpyFrom, cstrFrom]
    split
    · cases j with
      | zero => rfl
      | succ j => simp [List.getD_eq_getElem?_getD, List.getElem?_replicate]; split <;> rfl
    · cases j with
      | zero => rfl
      | succ j => exact ih (i + 1) j

variable {p q : CharPtr}

theorem strncmpFrom_iff : ∀ {n i : Nat},
    strncmpFrom p q i n = true ↔ cstrFrom p i n = cstrFrom q i n := by
  intro n
  induction n with
  | zero => intro i; simp [strncmpFrom, cstrFrom]
  | succ n ih =>
    intro i
    simp only [strncmpFrom, cstrFrom]
    by_cases hp : p i = 0
    · by_cases hq : q i = 0
      · simp [hp, hq]
      · simp [hp, hq, Ne.symm hq]
    · by_cases he : p i = q i
      · rw [← he]; simp [hp, ih]
      · by_cases hq : q i = 0
        · simp [hp, hq]
        · simp [hp, hq, he]

/-- A name as `skip_element` leaves it in `name[DIR_NAME_LEN]`: the bytes before the first zero
byte, or all 30. -/
structure Name where
  bytes : List UInt8
  nonempty : bytes ≠ []
  length_le : bytes.length ≤ DIR_NAME_LEN
  noNul : 0 ∉ bytes
  deriving DecidableEq

namespace Name

def byte (n : Name) : CharPtr := fun i => n.bytes.getD i 0

def dot : Name := ⟨[46], by decide, by decide, by decide⟩

def dotdot : Name := ⟨[46, 46], by decide, by decide, by decide⟩

end Name

theorem cstrFrom_noNul (p : CharPtr) : ∀ n i, 0 ∉ cstrFrom p i n := by
  intro n
  induction n with
  | zero => intro i; simp [cstrFrom]
  | succ n ih =>
    intro i
    simp only [cstrFrom]
    split
    · simp
    · rename_i h
      simp [ih (i + 1), Ne.symm h]

theorem length_cstrFrom (p : CharPtr) : ∀ n i, (cstrFrom p i n).length ≤ n := by
  intro n
  induction n with
  | zero => intro i; simp [cstrFrom]
  | succ n ih =>
    intro i
    simp only [cstrFrom]
    split
    · simp
    · have := ih (i + 1); simp only [List.length_cons]; omega

/-- A list without zero bytes, padded with them, is read back as far as the string goes. -/
theorem cstrFrom_getD {l : List UInt8} (h0 : 0 ∉ l) : ∀ n i,
    cstrFrom (fun j => l.getD j 0) i n = (l.drop i).take n := by
  intro n
  induction n with
  | zero => intro i; rfl
  | succ n ih =>
    intro i
    simp only [cstrFrom]
    by_cases hi : i < l.length
    · have hne : l[i] ≠ 0 := fun e => h0 (e ▸ List.getElem_mem hi)
      rw [List.getD_eq_getElem?_getD, List.getElem?_eq_getElem hi, Option.getD_some, if_neg hne,
        ih (i + 1), List.drop_eq_getElem_cons hi, List.take_succ_cons]
    · rw [List.getD_eq_getElem?_getD, List.getElem?_eq_none (by omega), Option.getD_none, if_pos rfl,
        List.drop_eq_nil_of_le (by omega), List.take_nil]

theorem Name.cstr_byte (n : Name) : cstr n.byte DIR_NAME_LEN = n.bytes := by
  have := cstrFrom_getD n.noNul DIR_NAME_LEN 0
  rwa [List.drop_zero, List.take_of_length_le n.length_le] at this

theorem cstrFrom_congr : ∀ n i, (∀ j, i ≤ j → j < i + n → p j = q j) →
    cstrFrom p i n = cstrFrom q i n := by
  intro n
  induction n with
  | zero => intro i _; rfl
  | succ n ih =>
    intro i h
    simp only [cstrFrom]
    rw [h i (Nat.le_refl i) (by omega), ih (i + 1) fun j h1 h2 => h j (by omega) (by omega)]

/-- The name that a string stands for in a directory; the empty string stands for none. -/
def Name.of (p : CharPtr) : Option Name :=
  if h : cstr p DIR_NAME_LEN ≠ [] then
    some ⟨_, h, length_cstrFrom _ _ _, cstrFrom_noNul _ _ _⟩
  else none

theorem Name.of_eq_some {n : Name} :
    Name.of p = some n ↔ cstr p DIR_NAME_LEN = n.bytes := by
  unfold Name.of
  constructor
  · intro h
    split at h
    · cases h; rfl
    · cases h
  · intro h
    simp only [h, ne_eq, n.nonempty, not_false_eq_true, dif_pos]

theorem Name.of_eq_none : Name.of p = none ↔ p 0 = 0 := by
  unfold Name.of
  by_cases h : p 0 = 0
  · simp [cstr, cstrFrom, h]
  · simp [cstr, cstrFrom, h]

@[simp] theorem Name.of_byte (n : Name) : Name.of n.byte = some n :=
  Name.of_eq_some.mpr n.cstr_byte

/-! ## Directory entries -/

namespace Block

/-- `de->name` of the entry in place `k`. -/
def entByte (d : Block) (k i : Nat) : UInt8 := d.byte (DIRENT_SIZE * k + 2 + i)

def entInum (d : Block) (k : Nat) : UInt16 := d.u16 (DIRENT_SIZE * k)

/-- The entry in place `k`, if its name is not empty. -/
def entry (d : Block) (k : Nat) : Option (Name × UInt16) :=
  if h : cstr (d.entByte k) DIR_NAME_LEN ≠ [] then
    some (⟨_, h, length_cstrFrom _ _ _, cstrFrom_noNul _ _ _⟩, d.entInum k)
  else none

/-- `de->inode_num = inum; strncpy(de->name, name, DIR_NAME_LEN)`. -/
def putEntry (d : Block) (k : Nat) (inum : UInt16) (name : CharPtr) : Block :=
  d.blit (DIRENT_SIZE * k) DIRENT_SIZE fun j =>
    if j < 2 then leByte inum.toNat j else (strncpy name DIR_NAME_LEN).getD (j - 2) 0

/-- `memset(de, 0, sizeof(dirent_t))`. -/
def clearEntry (d : Block) (k : Nat) : Block := d.blit (DIRENT_SIZE * k) DIRENT_SIZE fun _ => 0

variable {d : Block} {k j : Nat}

theorem entry_congr {d' : Block}
    (h : ∀ j, j < DIRENT_SIZE → d'.byte (DIRENT_SIZE * k + j) = d.byte (DIRENT_SIZE * k + j)) :
    d'.entry k = d.entry k := by
  have hn : cstr (d'.entByte k) DIR_NAME_LEN = cstr (d.entByte k) DIR_NAME_LEN :=
    cstrFrom_congr _ _ fun j _ hj => by
      unfold entByte; rw [Nat.add_assoc]; exact h _ (by simp only [DIRENT_SIZE, DIR_NAME_LEN] at *; omega)
  have hi : d'.entInum k = d.entInum k := by
    unfold entInum u16
    rw [Bytes.load_congr fun j hj => h j (by simp only [DIRENT_SIZE]; omega)]
  unfold entry
  simp only [hn, hi]

theorem byte_blit_entry {src : Nat → UInt8} (hk : k < DIRENT_PER_BLOCK) :
    (d.blit (DIRENT_SIZE * k) DIRENT_SIZE src).byte =
      Bytes.write d.byte (DIRENT_SIZE * k) DIRENT_SIZE src :=
  byte_blit (by simp only [DIRENT_PER_BLOCK, DIRENT_SIZE, BLOCK_SIZE] at *; omega)

theorem entry_blit_other {src : Nat → UInt8}
    (hk : k < DIRENT_PER_BLOCK) (hj : j ≠ k) :
    (d.blit (DIRENT_SIZE * k) DIRENT_SIZE src).entry j = d.entry j := by
  refine entry_congr fun b hb => ?_
  rw [byte_blit_entry hk, Bytes.write_outside (by simp only [DIRENT_SIZE] at *; omega)]

theorem entry_putEntry {d : Block} {k : Nat} {inum : UInt16} {name : CharPtr} {n : Name}
    (hk : k < DIRENT_PER_BLOCK) (hn : Name.of name = some n) :
    (d.putEntry k inum name).entry k = some (n, inum) := by
  have hb : ∀ i, i < DIR_NAME_LEN → (d.putEntry k inum name).entByte k i = n.byte i := by
    intro i hi
    have h2 : ¬ 2 + i < 2 := by omega
    unfold entByte putEntry
    rw [byte_blit_entry hk, Nat.add_assoc,
      Bytes.write_inside (by simp only [DIRENT_SIZE, DIR_NAME_LEN] at *; omega), if_neg h2,
      Nat.add_sub_cancel_left, strncpy, getD_strncpyFrom, ← cstr, Name.of_eq_some.mp hn, Name.byte]
  have hn : cstr ((d.putEntry k inum name).entByte k) DIR_NAME_LEN = n.bytes := by
    rw [← n.cstr_byte]
    exact cstrFrom_congr _ _ fun j _ hj => hb j (by omega)
  have hi : (d.putEntry k inum name).entInum k = inum := by
    unfold entInum u16 putEntry
    rw [byte_blit_entry hk, ← le_u16 inum]
    congr 1
    refine le_congr fun j hj => ?_
    rw [Bytes.write_inside (by simp only [DIRENT_SIZE]; omega), if_pos hj, le_u16]
  unfold entry
  simp only [hn, hi, ne_eq, n.nonempty, not_false_eq_true, dif_pos]

theorem entry_putEntry_other {inum : UInt16} {name : CharPtr}
    (hk : k < DIRENT_PER_BLOCK) (hj : j ≠ k) : (d.putEntry k inum name).entry j = d.entry j :=
  entry_blit_other hk hj

theorem entry_clearEntry (hk : k < DIRENT_PER_BLOCK) :
    (d.clearEntry k).entry k = none := by
  have h0 : (d.clearEntry k).entByte k 0 = 0 := by
    unfold entByte clearEntry
    rw [byte_blit_entry hk, Nat.add_assoc, Bytes.write_inside (by decide)]
  have : cstr ((d.clearEntry k).entByte k) DIR_NAME_LEN = [] := by
    simp [cstr, cstrFrom, h0]
  unfold entry
  simp [this]

theorem entry_clearEntry_other (hk : k < DIRENT_PER_BLOCK) (hj : j ≠ k) :
    (d.clearEntry k).entry j = d.entry j := entry_blit_other hk hj

theorem entry_zero (k : Nat) : zero.entry k = none := by
  have h0 : zero.entByte k 0 = 0 := byte_zero _
  have : cstr (zero.entByte k) DIR_NAME_LEN = [] := by simp [cstr, cstrFrom, h0]
  unfold entry
  simp [this]

theorem entry_eq (d : Block) (k : Nat) :
    d.entry k = (Name.of (d.entByte k)).map fun n => (n, d.entInum k) := by
  unfold entry Name.of
  split <;> rfl

theorem entry_none_iff : d.entry k = none ↔ d.entByte k 0 = 0 := by
  rw [entry_eq, Option.map_eq_none_iff, Name.of_eq_none]

/-- `de->name[0] != 0 && strncmp(de->name, name, DIR_NAME_LEN) == 0`. -/
def matchesName (d : Block) (k : Nat) (name : CharPtr) : Bool :=
  d.entByte k 0 != 0 && strncmp (d.entByte k) name DIR_NAME_LEN

theorem matchesName_iff {name : CharPtr} :
    d.matchesName k name = true ↔
      ∃ n, Name.of name = some n ∧ d.entry k = some (n, d.entInum k) := by
  have hs : strncmp (d.entByte k) name DIR_NAME_LEN = true ↔
      cstr (d.entByte k) DIR_NAME_LEN = cstr name DIR_NAME_LEN := strncmpFrom_iff
  unfold matchesName
  rw [Bool.and_eq_true, hs, entry_eq, bne_iff_ne, ne_eq, ← Name.of_eq_none]
  constructor
  · rintro ⟨h0, h⟩
    obtain ⟨n, hn⟩ := Option.ne_none_iff_exists'.mp h0
    exact ⟨n, by rw [Name.of_eq_some, ← h, ← Name.of_eq_some, hn], by rw [hn]; rfl⟩
  · rintro ⟨n, hn, he⟩
    have he' : Name.of (d.entByte k) = some n := by
      cases h : Name.of (d.entByte k) with
      | none => rw [h] at he; cases he
      | some n' => rw [h] at he; cases he; rfl
    exact ⟨by simp [he'], by rw [Name.of_eq_some.mp he', Name.of_eq_some.mp hn]⟩

end Block

/-! ## Paths -/

abbrev SLASH : UInt8 := 47

/-- `skip_element`: the first element of the path and the path after it, `none` when there is no
element. A path ends at its first zero byte. -/
def skipElement (path : List UInt8) : Option (Name × List UInt8) :=
  let path := path.dropWhile (· == SLASH)
  let s := path.takeWhile fun c => c != SLASH && c != 0
  if h : s ≠ [] then
    some (⟨s.take DIR_NAME_LEN, by simpa [DIR_NAME_LEN] using h, List.length_take_le _ _,
        fun h0 => by simpa using List.mem_takeWhile_imp (List.mem_of_mem_take h0)⟩,
      (path.drop s.length).dropWhile (· == SLASH))
  else none

def atEnd : List UInt8 → Bool
  | [] => true
  | c :: _ => c == 0

end Fs
end WhuOS
