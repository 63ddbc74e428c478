import Mathlib.Data.Finset.Lattice.Fold
import WhuOS.Lib.Paths
import WhuOS.Fs.Bitmap

/-!
# WhuOS.Fs.BlockMap

The blocks of a file as a tree: the 13 entries of `addrs`, with one or two levels of indirect blocks
below the last three. A position in the tree is the path of entries that leads to it.

* `path`              — where `inode_locate_block` looks for a block of the file.
* `Sound`             — the blocks of the tree are distinct data blocks that are taken.
* `Grows`             — positions were filled with blocks that were free, and nothing else changed.
* `wp_locate`         — `inode_locate_block` fills the positions on its path that are empty.
-/

namespace WhuOS
namespace Fs

open Lib Kern

variable {z : Bool}

/-! ## Positions -/

/-- How many indirect blocks are on the way from entry `k` of `addrs` to the data. -/
def level (k : Nat) : Nat := if k < N_ADDRS_1 then 0 else if k < N_ADDRS_1 + N_ADDRS_2 then 1 else 2

def IsPos : List Nat → Prop
  | [] => True
  | k :: q => k < N_ADDRS ∧ q.length ≤ level k ∧ ∀ i ∈ q, i < ENTRY_PER_BLOCK

/-- The position of a data block. -/
def IsLeaf : List Nat → Prop
  | [] => False
  | k :: q => q.length = level k

/-- The entries that `locate_block(entry, bn, 256 ^ level)` goes through below `entry`. -/
def digits : Nat → Nat → List Nat
  | 0, _ => []
  | l + 1, bn => bn / ENTRY_PER_BLOCK ^ l :: digits l (bn % ENTRY_PER_BLOCK ^ l)

/-- The blocks of the largest file. -/
abbrev MAX_BLOCKS : Nat := N_ADDRS_1 + N_ADDRS_2 * ENTRY_PER_BLOCK + N_ADDRS_3 * ENTRY_PER_BLOCK ^ 2

/-- The position of block `bn` of a file. -/
def path (bn : Nat) : List Nat :=
  if bn < N_ADDRS_1 then bn :: digits 0 bn
  else if bn - N_ADDRS_1 < N_ADDRS_2 * ENTRY_PER_BLOCK then
    (N_ADDRS_1 + (bn - N_ADDRS_1) / ENTRY_PER_BLOCK) ::
      digits 1 ((bn - N_ADDRS_1) % ENTRY_PER_BLOCK)
  else (N_ADDRS_1 + N_ADDRS_2) ::
    digits 2 ((bn - N_ADDRS_1 - N_ADDRS_2 * ENTRY_PER_BLOCK) % (ENTRY_PER_BLOCK * ENTRY_PER_BLOCK))

theorem length_digits : ∀ (l bn : Nat), (digits l bn).length = l := by
  intro l
  induction l with
  | zero => intro bn; rfl
  | succ l ih => intro bn; simp [digits, ih]

theorem digits_lt : ∀ (l bn : Nat), bn < ENTRY_PER_BLOCK ^ l → ∀ i ∈ digits l bn, i < ENTRY_PER_BLOCK := by
  intro l
  induction l with
  | zero => intro bn _ i hi; cases hi
  | succ l ih =>
    intro bn hbn i hi
    rcases List.mem_cons.mp hi with rfl | hi
    · exact Nat.div_lt_of_lt_mul (by rwa [Nat.pow_succ] at hbn)
    · exact ih _ (Nat.mod_lt _ (Nat.pow_pos (by decide))) i hi

theorem isPos_closed : Paths.Closed IsPos := by
  intro p i h
  cases p with
  | nil => trivial
  | cons k q =>
    have hlen : (q ++ [i]).length ≤ level k := h.2.1
    rw [List.length_append, List.length_singleton] at hlen
    exact ⟨h.1, by omega, fun j hj => h.2.2 j (List.mem_append_left _ hj)⟩

theorem IsPos.of_append {p : List Nat} : ∀ {q : List Nat}, IsPos (p ++ q) → IsPos p := by
  intro q
  induction q using List.reverseRecOn with
  | nil => intro h; rwa [List.append_nil] at h
  | append_singleton q i ih =>
    intro h
    rw [← List.append_assoc] at h
    exact ih (isPos_closed _ _ h)

theorem IsPos.not_leaf {p : List Nat} {i : Nat} (h : IsPos (p ++ [i])) : ¬ IsLeaf p := by
  cases p with
  | nil => exact id
  | cons k q =>
    have hlen : (q ++ [i]).length ≤ level k := h.2.1
    rw [List.length_append, List.length_singleton] at hlen
    intro hleaf
    simp only [IsLeaf] at hleaf
    omega

theorem IsPos.index {p : List Nat} {i : Nat} (h : IsPos (p ++ [i])) :
    if p = [] then i < N_ADDRS else i < ENTRY_PER_BLOCK := by
  cases p with
  | nil => exact h.1
  | cons k q => exact h.2.2 i (by simp)

theorem path_spec {bn : Nat} (h : bn < MAX_BLOCKS) : IsPos (path bn) ∧ IsLeaf (path bn) := by
  simp only [MAX_BLOCKS, N_ADDRS_1, N_ADDRS_2, N_ADDRS_3, ENTRY_PER_BLOCK, BLOCK_SIZE] at h
  unfold path
  split
  · rename_i h1
    simp only [N_ADDRS_1] at h1
    exact ⟨⟨by simp only [N_ADDRS, N_ADDRS_1]; omega, by simp [digits],
      fun i hi => by cases hi⟩, by simp [IsLeaf, digits, level, h1]⟩
  · rename_i h1
    simp only [N_ADDRS_1] at h1
    split
    · rename_i h2
      simp only [N_ADDRS_1, N_ADDRS_2, ENTRY_PER_BLOCK, BLOCK_SIZE] at h2
      have hl : level (N_ADDRS_1 + (bn - N_ADDRS_1) / ENTRY_PER_BLOCK) = 1 := by
        simp only [level, N_ADDRS_1, N_ADDRS_2, ENTRY_PER_BLOCK, BLOCK_SIZE]
        rw [if_neg (by omega), if_pos (by omega)]
      refine ⟨⟨?_, ?_, digits_lt _ _ (by rw [Nat.pow_one]; exact Nat.mod_lt _ (by decide))⟩, ?_⟩
      · simp only [N_ADDRS, N_ADDRS_1, N_ADDRS_2, N_ADDRS_3, ENTRY_PER_BLOCK, BLOCK_SIZE]
        omega
      · rw [length_digits, hl]
      · rw [IsLeaf, length_digits, hl]
    · refine ⟨⟨by decide, ?_, digits_lt _ _ ?_⟩, ?_⟩
      · rw [length_digits]; decide
      · rw [Nat.pow_two]; exact Nat.mod_lt _ (by decide)
      · rw [IsLeaf, length_digits]; decide

theorem path_injective {a b : Nat} (ha : a < MAX_BLOCKS) (hb : b < MAX_BLOCKS) (h : path a = path b) :
    a = b := by
  simp only [MAX_BLOCKS, N_ADDRS_1, N_ADDRS_2, N_ADDRS_3, ENTRY_PER_BLOCK, BLOCK_SIZE] at ha hb
  simp only [path, digits, N_ADDRS_1, N_ADDRS_2, ENTRY_PER_BLOCK, BLOCK_SIZE] at h
  split at h <;> split at h <;> (try split at h) <;> (try split at h) <;>
    simp at h <;> omega

/-! ## Trees of blocks -/

/-- What holds entries: the inode with its `addrs`, or an indirect block. -/
inductive TreeNode where
  | inode
  | block (b : Nat)
  deriving DecidableEq

def toNode (v : UInt32) : Option TreeNode := if v = 0 then none else some (.block v.toNat)

def rawEntry (addrs : Fin N_ADDRS → UInt32) (d : Blocks z) : TreeNode → Nat → UInt32
  | .inode, k => addrs (Fin.ofNat N_ADDRS k)
  | .block b, i => (d b).u32 (4 * i)

def entries (addrs : Fin N_ADDRS → UInt32) (d : Blocks z) (x : TreeNode) (i : Nat) : Option TreeNode :=
  toNode (rawEntry addrs d x i)

def nodeAt (addrs : Fin N_ADDRS → UInt32) (d : Blocks z) (p : List Nat) : Option TreeNode :=
  Paths.walk (entries addrs d) .inode p

/-- Block `b` is a data block and is taken. -/
def InUse (d : Blocks z) (b : Nat) : Prop :=
  sb.dataStart ≤ b ∧ b - sb.dataStart ∈ (d sb.dataBitmapStart).taken

/-- The blocks of a file are distinct, and taken. -/
structure Sound (addrs : Fin N_ADDRS → UInt32) (d : Blocks z) : Prop where
  sep : Paths.Sep (entries addrs d) .inode IsPos
  inUse : ∀ p b, IsPos p → nodeAt addrs d p = some (.block b) → InUse d b

/-- A data block reads as zeros when it is allocated: by the assumption on the disk, or since all
free data blocks do. -/
def FreshZero (d : Blocks z) : Prop :=
  z = true ∨ ∀ n, n < BIT_PER_BLOCK → n ∉ (d sb.dataBitmapStart).taken →
    d (sb.dataStart + n) = Block.zero

section Trees

variable {addrs : Fin N_ADDRS → UInt32} {d : Blocks z} {p : List Nat} {b : Nat}

theorem toNode_block {v : UInt32} {x : TreeNode} (h : toNode v = some x) :
    v ≠ 0 ∧ x = .block v.toNat := by
  unfold toNode at h
  split at h
  · cases h
  · rename_i hv; cases h; exact ⟨hv, rfl⟩

theorem toNode_none {v : UInt32} : toNode v = none ↔ v = 0 := by
  unfold toNode
  split <;> simp_all

theorem InUse.ne_bitmap (h : InUse d b) : b ≠ sb.dataBitmapStart := by
  intro he
  have := h.1
  rw [he] at this
  exact absurd this (by decide)

theorem nodeAt_inode (h : nodeAt addrs d p = some .inode) : p = [] := by
  cases p using List.reverseRecOn with
  | nil => rfl
  | append_singleton q i =>
    rw [nodeAt, Paths.walk_snoc] at h
    obtain ⟨x, -, hx⟩ := Option.bind_eq_some_iff.mp h
    cases (toNode_block hx).2

theorem nodeAt_block (h : nodeAt addrs d p = some (.block b)) : p ≠ [] := by
  rintro rfl
  cases h

/-- Only the blocks of the tree matter. -/
theorem nodeAt_congr {d' : Blocks z}
    (h : ∀ p b, IsPos p → nodeAt addrs d p = some (.block b) → d' b = d b) (hp : IsPos p) :
    nodeAt addrs d' p = nodeAt addrs d p := by
  refine Paths.walk_congr isPos_closed (fun q j y hq hy => ?_) _ hp
  unfold entries
  cases y with
  | inode => rfl
  | block b =>
    simp only [rawEntry]
    rw [h q b (isPos_closed _ _ hq) hy]

theorem Sound.congr {d' : Blocks z} (h : Sound addrs d) (hd : ∀ b, InUse d b → d' b = d b)
    (hbit : d' sb.dataBitmapStart = d sb.dataBitmapStart) :
    Sound addrs d' ∧ ∀ p, IsPos p → nodeAt addrs d' p = nodeAt addrs d p := by
  have hnode : ∀ p, IsPos p → nodeAt addrs d' p = nodeAt addrs d p := fun p hp =>
    nodeAt_congr (fun q b hq hb => hd b (h.inUse q b hq hb)) hp
  refine ⟨⟨h.sep.congr hnode, fun p b hp hb => ?_⟩, hnode⟩
  rw [hnode p hp] at hb
  obtain ⟨h1, h2⟩ := h.inUse p b hp hb
  exact ⟨h1, by rwa [hbit]⟩

end Trees

/-! ## One step of the code -/

/-- The entry `i` of a node, as the code points at it. -/
def ref (ip : IId) : TreeNode → Nat → EntryRef Nat
  | .inode, k => .addr ip (Fin.ofNat N_ADDRS k)
  | .block b, i => .slot b i

namespace FsState

variable (s : FsState (Blocks z)) (ip : IId)

/-- The block at a position of the file of `ip`. -/
def node (p : List Nat) : Option TreeNode := nodeAt (s.icache ip).d.addrs s.dev p

def takeBlock (n : Nat) : FsState (Blocks z) :=
  s.put sb.dataBitmapStart ((s.dev sb.dataBitmapStart).setBit n)

def link : TreeNode → Nat → UInt32 → FsState (Blocks z)
  | .inode, k, v => s.setIp ip { s.icache ip with
      d := { (s.icache ip).d with addrs := upd (s.icache ip).d.addrs (Fin.ofNat N_ADDRS k) v } }
  | .block b, i, v => s.put b ((s.dev b).setU32 (4 * i) v)

/-- The state after `*entry = bitmap_alloc_block()`, where `n` was the first free block. -/
def grow (x : TreeNode) (i n : Nat) : FsState (Blocks z) :=
  (s.takeBlock n).link ip x i (UInt32.ofNat (sb.dataStart + n))

end FsState

def noBit : Stop := .panic "bitmap_search_and_set: no bit left"

section Steps

variable (s : FsState (Blocks z)) (ip : IId)

theorem bitmapAllocBlock_run :
    bitmapAllocBlock s = match (s.dev sb.dataBitmapStart).firstClear with
      | some n => .ok (UInt32.ofNat (sb.dataStart + n)) (s.takeBlock n)
      | none => .error noBit s := by
  rw [bitmapAllocBlock, bind_run, bitmapSearchAndSet_run, Block.searchAndSet_eq]
  cases (s.dev sb.dataBitmapStart).firstClear with
  | none => rfl
  | some n => rfl

theorem readEntry_ref (x : TreeNode) (i : Nat) :
    readEntry (ref ip x i) s = .ok (rawEntry (s.icache ip).d.addrs s.dev x i) s := by
  cases x with
  | inode => rfl
  | block b => rfl

theorem writeEntry_ref (x : TreeNode) (i : Nat) (v : UInt32) :
    writeEntry (ref ip x i) v s = .ok () (s.link ip x i v) := by
  cases x with
  | inode => rfl
  | block b => rfl

theorem allocEntry_run (x : TreeNode) (i : Nat) :
    allocEntry (ref ip x i) s =
      if rawEntry (s.icache ip).d.addrs s.dev x i = 0 then
        match (s.dev sb.dataBitmapStart).firstClear with
        | some n => .ok () (s.grow ip x i n)
        | none => .error noBit s
      else .ok () s := by
  rw [allocEntry, bind_run, readEntry_ref]
  simp only
  split
  · rw [bind_run, bitmapAllocBlock_run]
    cases (s.dev sb.dataBitmapStart).firstClear with
    | none => rfl
    | some n => exact writeEntry_ref _ _ _ _ _
  · rfl

end Steps

/-! ## Growing trees -/

/-- Byte `pos` of the file; bytes of blocks that are not there read as zero. -/
def byteAt (addrs : Fin N_ADDRS → UInt32) (d : Blocks z) (pos : Nat) : UInt8 :=
  match nodeAt addrs d (path (pos / BLOCK_SIZE)) with
  | some (.block b) => (d b).byte (pos % BLOCK_SIZE)
  | _ => 0

/-- The file of `ip` is sound, and new blocks read as zeros. -/
structure FsState.Wf (s : FsState (Blocks z)) (ip : IId) : Prop where
  sound : Sound (s.icache ip).d.addrs s.dev
  fresh : FreshZero s.dev

def FsState.taken (s : FsState (Blocks z)) : Set Nat := (s.dev sb.dataBitmapStart).taken

/-- The empty positions `N` of the file of `ip` were filled with free data blocks, and the data blocks
outside the file are as before. -/
structure Grows (s s' : FsState (Blocks z)) (ip : IId) (N : Finset (List Nat)) : Prop where
  old : ∀ p, IsPos p → p ∉ N → s'.node ip p = s.node ip p
  empty : ∀ p ∈ N, IsPos p ∧ s.node ip p = none
  new : ∀ p ∈ N, ∃ n, s'.node ip p = some (.block (sb.dataStart + n)) ∧ n ∉ s.taken
  taken : ∀ n, n ∈ s'.taken ↔
    n ∈ s.taken ∨ ∃ p ∈ N, s'.node ip p = some (.block (sb.dataStart + n))
  others : ∀ x, sb.dataStart ≤ x → (∀ p, IsPos p → s'.node ip p ≠ some (.block x)) →
    s'.dev x = s.dev x

namespace Grows

variable {s s' s'' : FsState (Blocks z)} {ip : IId} {N N' : Finset (List Nat)}

theorem refl (s : FsState (Blocks z)) (ip : IId) : Grows s s ip ∅ where
  old := fun _ _ _ => rfl
  empty := by simp
  new := by simp
  taken := by simp
  others := fun _ _ _ => rfl

theorem keeps (h : Grows s s' ip N) {p : List Nat} (hp : IsPos p) {x : TreeNode}
    (hx : s.node ip p = some x) : s'.node ip p = some x := by
  rw [h.old p hp, hx]
  intro hN
  rw [(h.empty p hN).2] at hx
  cases hx

theorem trans (h : Grows s s' ip N) (h' : Grows s' s'' ip N') : Grows s s'' ip (N ∪ N') where
  old := fun p hp hN => by
    rw [Finset.mem_union, not_or] at hN
    rw [h'.old p hp hN.2, h.old p hp hN.1]
  empty := fun p hN => by
    rcases Finset.mem_union.mp hN with hN | hN
    · exact h.empty p hN
    · obtain ⟨hp, hnone⟩ := h'.empty p hN
      refine ⟨hp, ?_⟩
      cases hs : s.node ip p with
      | none => rfl
      | some x => rw [h.keeps hp hs] at hnone; cases hnone
  new := fun p hN => by
    rcases Finset.mem_union.mp hN with hN | hN
    · obtain ⟨n, hn, hfree⟩ := h.new p hN
      exact ⟨n, h'.keeps (h.empty p hN).1 hn, hfree⟩
    · obtain ⟨n, hn, hfree⟩ := h'.new p hN
      exact ⟨n, hn, fun hm => hfree ((h.taken n).mpr (.inl hm))⟩
  taken := fun n => by
    rw [h'.taken, h.taken]
    simp only [Finset.mem_union]
    constructor
    · rintro ((hn | ⟨p, hp, hn⟩) | ⟨p, hp, hn⟩)
      · exact .inl hn
      · exact .inr ⟨p, .inl hp, h'.keeps (h.empty p hp).1 hn⟩
      · exact .inr ⟨p, .inr hp, hn⟩
    · rintro (hn | ⟨p, hp | hp, hn⟩)
      · exact .inl (.inl hn)
      · refine .inl (.inr ⟨p, hp, ?_⟩)
        obtain ⟨m, hm, -⟩ := h.new p hp
        rw [h'.keeps (h.empty p hp).1 hm] at hn
        rw [hm, hn]
      · exact .inr ⟨p, hp, hn⟩
  others := fun x hx hout => by
    rw [h'.others x hx hout, h.others x hx]
    exact fun p hp hm => hout p hp (h'.keeps hp hm)

end Grows

/-- Outside the data and its bitmap nothing changed, and of the inode `ip` only `addrs`. -/
structure OnlyAddrs (s s' : FsState (Blocks z)) (ip : IId) : Prop where
  low : ∀ x, x < sb.dataBitmapStart → s'.dev x = s.dev x
  inode : s' = { s with
    dev := s'.dev
    icache := upd s.icache ip { s.icache ip with
      d := { (s.icache ip).d with addrs := (s'.icache ip).d.addrs } } }

namespace OnlyAddrs

variable {s s' s'' : FsState (Blocks z)} {ip : IId}

theorem refl (s : FsState (Blocks z)) (ip : IId) : OnlyAddrs s s ip where
  low := fun _ _ => rfl
  inode := by
    show s = { s with icache := upd s.icache ip (s.icache ip) }
    rw [upd_self]

theorem trans (h : OnlyAddrs s s' ip) (h' : OnlyAddrs s' s'' ip) : OnlyAddrs s s'' ip where
  low := fun x hx => (h'.low x hx).trans (h.low x hx)
  inode := by
    have h1 := h.inode
    rw [h'.inode]
    conv_lhs => rw [h1]
    simp only [upd_upd, upd_same]

end OnlyAddrs

section TakeBlock

variable {s : FsState (Blocks z)} {ip : IId} {n x : Nat}

theorem takeBlock_other (hn : n < BIT_PER_BLOCK) (hx : x ≠ sb.dataBitmapStart)
    (hx' : x ≠ sb.dataStart + n) : (s.takeBlock n).dev x = s.dev x := by
  have hfresh : s.dev.fresh ((s.dev sb.dataBitmapStart).setBit n) x = false := by
    unfold Blocks.fresh
    rw [Block.bit_setBit hn]
    by_cases hle : sb.dataStart ≤ x
    · have : x - sb.dataStart ≠ n := by omega
      cases (s.dev sb.dataBitmapStart).bit (x - sb.dataStart) <;> simp [this]
    · simp [hle]
  simp [FsState.takeBlock, Blocks.store, hx, hfresh]

theorem takeBlock_new (hf : FreshZero s.dev) (hn : n < BIT_PER_BLOCK)
    (hfree : (s.dev sb.dataBitmapStart).bit n = false) :
    (s.takeBlock n).dev (sb.dataStart + n) = Block.zero := by
  have hne : sb.dataStart + n ≠ sb.dataBitmapStart := by simp only [sb]; omega
  rcases hf with rfl | hf
  · have : s.dev.fresh ((s.dev sb.dataBitmapStart).setBit n) (sb.dataStart + n) = true := by
      simp [Blocks.fresh, Block.bit_setBit hn, hfree]
    simp [FsState.takeBlock, Blocks.store, hne, this]
  · have hold := hf n hn fun hm => by rw [hm.2] at hfree; cases hfree
    simp only [FsState.takeBlock, FsState.put_dev, Blocks.store, if_neg hne, hold]
    split <;> rfl

theorem takeBlock_taken (hn : n < BIT_PER_BLOCK) : (s.takeBlock n).taken = insert n s.taken := by
  simp only [FsState.taken, FsState.takeBlock, FsState.put_dev, Blocks.store_same]
  exact Block.taken_setBit hn

end TakeBlock

/-! ## Filling one position -/

theorem toNat_dataBlock {n : Nat} (hn : n < BIT_PER_BLOCK) :
    (UInt32.ofNat (sb.dataStart + n)).toNat = sb.dataStart + n := by
  rw [UInt32.toNat_ofNat']
  simp only [sb, BIT_PER_BLOCK, BLOCK_SIZE] at *
  omega

theorem toNode_dataBlock {n : Nat} (hn : n < BIT_PER_BLOCK) :
    toNode (UInt32.ofNat (sb.dataStart + n)) = some (.block (sb.dataStart + n)) := by
  have ht := toNat_dataBlock hn
  have hne : UInt32.ofNat (sb.dataStart + n) ≠ 0 := by
    intro h0
    rw [h0] at ht
    simp only [sb, UInt32.toNat_zero] at ht
    omega
  rw [toNode, if_neg hne, ht]

section Grow

variable {s : FsState (Blocks z)} {ip : IId} {p : List Nat} {x : TreeNode} {i n : Nat}

theorem addrs_grow : ((s.grow ip x i n).icache ip).d.addrs = match x with
    | .inode => upd (s.icache ip).d.addrs (Fin.ofNat N_ADDRS i) (UInt32.ofNat (sb.dataStart + n))
    | .block _ => (s.icache ip).d.addrs := by
  cases x with
  | inode => simp [FsState.grow, FsState.link, FsState.takeBlock]
  | block b => rfl

/-- The position `p ++ [i]` is empty and its node `x` is there; `n` is a free data block. -/
structure Growable (s : FsState (Blocks z)) (ip : IId) (p : List Nat) (x : TreeNode) (i n : Nat) : Prop where
  wf : s.Wf ip
  node : s.node ip p = some x
  pos : IsPos (p ++ [i])
  empty : s.node ip (p ++ [i]) = none
  lt : n < BIT_PER_BLOCK
  free : (s.dev sb.dataBitmapStart).bit n = false

namespace Growable

variable (h : Growable s ip p x i n)
include h

theorem not_taken : n ∉ s.taken := fun hm => by
  have h1 := hm.2
  rw [h.free] at h1
  cases h1

theorem ne_new {b : Nat} (hb : InUse s.dev b) : b ≠ sb.dataStart + n := by
  rintro rfl
  have hm := hb.2
  rw [Nat.add_sub_cancel_left] at hm
  exact h.not_taken hm

theorem inUse {q : List Nat} {b : Nat} (hq : IsPos q) (hb : s.node ip q = some (.block b)) :
    InUse s.dev b := h.wf.sound.inUse q b hq hb

theorem node_inUse {b : Nat} (hx : x = .block b) : InUse s.dev b :=
  h.inUse (isPos_closed _ _ h.pos) (hx ▸ h.node)

theorem index {b : Nat} (hx : x = .block b) : 4 * i + 4 ≤ BLOCK_SIZE := by
  have hlt := h.pos.index
  rw [if_neg (nodeAt_block (hx ▸ h.node))] at hlt
  simp only [ENTRY_PER_BLOCK, BLOCK_SIZE] at *
  omega

theorem dev_other {y : Nat} (hy : y ≠ sb.dataBitmapStart) (hy' : y ≠ sb.dataStart + n)
    (hx : x ≠ .block y) : (s.grow ip x i n).dev y = s.dev y := by
  cases x with
  | inode => exact takeBlock_other h.lt hy hy'
  | block b =>
    have hne : y ≠ b := fun he => hx (he ▸ rfl)
    show ((s.takeBlock n).put b _).dev y = _
    rw [FsState.put_dev, Blocks.store_of_apart ⟨hne, .inr (.inl (h.node_inUse rfl).ne_bitmap)⟩]
    exact takeBlock_other h.lt hy hy'

theorem dev_new : (s.grow ip x i n).dev (sb.dataStart + n) = Block.zero := by
  have hnew := takeBlock_new h.wf.fresh h.lt h.free
  cases x with
  | inode => exact hnew
  | block b =>
    have hb := h.node_inUse rfl
    show ((s.takeBlock n).put b _).dev _ = _
    rw [FsState.put_dev,
      Blocks.store_of_apart ⟨(h.ne_new hb).symm, .inr (.inl hb.ne_bitmap)⟩, hnew]

theorem dev_node {b : Nat} (hx : x = .block b) : (s.grow ip x i n).dev b =
    (s.dev b).setU32 (4 * i) (UInt32.ofNat (sb.dataStart + n)) := by
  subst hx
  have hb := h.node_inUse rfl
  show ((s.takeBlock n).put b _).dev b = _
  rw [FsState.put_dev, Blocks.store_same, takeBlock_other h.lt hb.ne_bitmap (h.ne_new hb)]

theorem taken_grow : (s.grow ip x i n).taken = insert n s.taken := by
  rw [← takeBlock_taken h.lt]
  cases x with
  | inode => rfl
  | block b =>
    have hb := h.node_inUse rfl
    show (((s.takeBlock n).put b _).dev _).taken = _
    rw [FsState.put_dev, Blocks.store_of_apart ⟨hb.ne_bitmap.symm, .inr (.inl hb.ne_bitmap)⟩]
    rfl

theorem entry_new : entries ((s.grow ip x i n).icache ip).d.addrs (s.grow ip x i n).dev x i =
    some (.block (sb.dataStart + n)) := by
  rw [← toNode_dataBlock h.lt, addrs_grow, entries]
  cases hx : x with
  | inode => simp only [rawEntry, upd_same]
  | block b =>
    have hdev := h.dev_node hx
    rw [hx] at hdev
    simp only [rawEntry]
    rw [hdev, Block.u32_setU32 (h.index hx)]

theorem entry_old {q : List Nat} {j : Nat} {y : TreeNode} (hq : IsPos (q ++ [j]))
    (hy : s.node ip q = some y) (hne : ¬ (q = p ∧ j = i)) :
    entries ((s.grow ip x i n).icache ip).d.addrs (s.grow ip x i n).dev y j =
      entries (s.icache ip).d.addrs s.dev y j := by
  have hpq : y = x → q = p := fun he =>
    h.wf.sound.sep q p y (isPos_closed _ _ hq) (isPos_closed _ _ h.pos) hy (he ▸ h.node)
  unfold entries
  congr 1
  cases y with
  | inode =>
    simp only [rawEntry]
    rw [addrs_grow]
    cases x with
    | block b => rfl
    | inode =>
      have hqn := nodeAt_inode hy
      have hpn := nodeAt_inode h.node
      subst hqn hpn
      have hj := hq.index
      have hi := h.pos.index
      rw [if_pos rfl] at hj hi
      simp only
      rw [upd_of_ne]
      intro he
      have := congrArg Fin.val he
      simp only [Fin.ofNat, Nat.mod_eq_of_lt hj, Nat.mod_eq_of_lt hi] at this
      exact hne ⟨rfl, this⟩
  | block c =>
    have hc := h.inUse (isPos_closed _ _ hq) hy
    simp only [rawEntry]
    by_cases hxc : x = .block c
    · have hij : j ≠ i := fun he => hne ⟨hpq hxc.symm, he⟩
      rw [h.dev_node hxc, Block.u32_setU32_other (h.index hxc) (by omega)]
    · rw [h.dev_other hc.ne_bitmap (h.ne_new hc) hxc]

theorem node_grow {q : List Nat} (hq : IsPos q) : (s.grow ip x i n).node ip q =
    if q = p ++ [i] then some (.block (sb.dataStart + n)) else s.node ip q := by
  refine Paths.walk_link isPos_closed h.node ?_ h.entry_new ?_ ?_ q hq
  · rw [← Paths.walk_snoc_of h.node]
    exact h.empty
  · intro j
    have hz : Block.zero.u32 (4 * j) = 0 := by
      rw [Block.u32, Bytes.load, show (fun k => Block.zero.byte (4 * j + k)) = fun _ => 0 from
        funext fun k => Block.byte_zero _, le_zero]
      rfl
    rw [entries, rawEntry, h.dev_new, hz]
    rfl
  · exact fun q j y hq hy hne => h.entry_old hq hy hne

theorem not_node {q : List Nat} (hq : IsPos q) : s.node ip q ≠ some (.block (sb.dataStart + n)) :=
  fun hm => h.ne_new (h.inUse hq hm) rfl

theorem grows : Grows s (s.grow ip x i n) ip {p ++ [i]} where
  old := fun q hq hN => by rw [h.node_grow hq, if_neg (by simpa using hN)]
  empty := fun q hN => by
    rw [Finset.mem_singleton.mp hN]
    exact ⟨h.pos, h.empty⟩
  new := fun q hN => by
    rw [Finset.mem_singleton.mp hN, h.node_grow h.pos, if_pos rfl]
    exact ⟨n, rfl, h.not_taken⟩
  taken := fun m => by
    rw [h.taken_grow, Set.mem_insert_iff, or_comm]
    refine or_congr_right ⟨?_, ?_⟩
    · rintro rfl
      exact ⟨_, Finset.mem_singleton_self _, by rw [h.node_grow h.pos, if_pos rfl]⟩
    · rintro ⟨q, hq, hm⟩
      rw [Finset.mem_singleton.mp hq, h.node_grow h.pos, if_pos rfl] at hm
      simpa using hm.symm
  others := fun y hy hout => by
    refine h.dev_other (fun he => absurd (he ▸ hy) (by decide)) ?_ ?_
    · rintro rfl
      exact hout _ h.pos (by rw [h.node_grow h.pos, if_pos rfl])
    · rintro rfl
      have hp := isPos_closed _ _ h.pos
      refine hout p hp ?_
      rw [h.node_grow hp, if_neg (by simp), h.node]

theorem onlyAddrs : OnlyAddrs s (s.grow ip x i n) ip where
  low := fun y hy => by
    have hlt : y < sb.dataStart := Nat.lt_trans hy (by decide)
    refine h.dev_other (Nat.ne_of_lt hy) (by omega) fun hx => ?_
    have := (h.node_inUse hx).1
    omega
  inode := by
    cases x with
    | inode => simp [FsState.grow, FsState.link, FsState.takeBlock, FsState.setIp, FsState.put]
    | block b =>
      show _ = { s with dev := _, icache := upd s.icache ip (s.icache ip) }
      rw [upd_self]
      rfl

theorem wf_grow : (s.grow ip x i n).Wf ip where
  sound :=
    { sep := h.wf.sound.sep.link (fun q hq => h.not_node hq) fun q hq => h.node_grow hq
      inUse := fun q b hq hb => by
        have ht : ∀ m, m ∈ ((s.grow ip x i n).dev sb.dataBitmapStart).taken ↔
          m = n ∨ m ∈ s.taken := fun m => by
            have := h.taken_grow
            rw [FsState.taken] at this
            rw [this, Set.mem_insert_iff]
        change (s.grow ip x i n).node ip q = _ at hb
        rw [h.node_grow hq] at hb
        split at hb
        · cases hb
          exact ⟨Nat.le_add_right _ _, (ht _).mpr (.inl (by simp))⟩
        · obtain ⟨h1, h2⟩ := h.inUse hq hb
          exact ⟨h1, (ht _).mpr (.inr h2)⟩ }
  fresh := by
    rcases h.wf.fresh with hz | hf
    · exact .inl hz
    · refine .inr fun m hm hfree => ?_
      have ht := h.taken_grow
      rw [FsState.taken] at ht
      rw [ht, Set.mem_insert_iff, not_or] at hfree
      rw [h.dev_other (by simp only [sb]; omega) (by omega), hf m hm hfree.2]
      rintro rfl
      have hm' := (h.node_inUse rfl).2
      rw [Nat.add_sub_cancel_left] at hm'
      exact hfree.2 hm'

theorem byteAt_grow {pos : Nat} (hpos : pos / BLOCK_SIZE < MAX_BLOCKS) :
    byteAt ((s.grow ip x i n).icache ip).d.addrs (s.grow ip x i n).dev pos =
      byteAt (s.icache ip).d.addrs s.dev pos := by
  obtain ⟨hq, hleaf⟩ := path_spec hpos
  have hnode := h.node_grow hq
  unfold byteAt
  change (match (s.grow ip x i n).node ip _ with | some (.block b) => _ | _ => _) =
    match s.node ip _ with | some (.block b) => _ | _ => _
  rw [hnode]
  split_ifs with he
  · simp only
    rw [h.dev_new, he, h.empty, Block.byte_zero]
  · cases hc : s.node ip (path (pos / BLOCK_SIZE)) with
    | none => rfl
    | some y =>
      cases y with
      | inode => rfl
      | block c =>
        have huse := h.inUse hq hc
        simp only
        rw [h.dev_other huse.ne_bitmap (h.ne_new huse)]
        rintro rfl
        -- the block at `p` is an indirect one
        have := h.wf.sound.sep p _ _ (isPos_closed _ _ h.pos) hq h.node hc
        exact h.pos.not_leaf (this ▸ hleaf)

end Growable

end Grow

/-! ## `inode_locate_block` -/

/-- Positions on the way to `full` were filled; no byte of the file changed. -/
structure Fills (s s' : FsState (Blocks z)) (ip : IId) (full : List Nat) (N : Finset (List Nat)) :
    Prop where
  wf : s'.Wf ip
  grows : Grows s s' ip N
  frame : OnlyAddrs s s' ip
  onPath : ∀ q ∈ N, q <+: full
  bytes : ∀ pos, pos / BLOCK_SIZE < MAX_BLOCKS →
    byteAt (s'.icache ip).d.addrs s'.dev pos = byteAt (s.icache ip).d.addrs s.dev pos

/-- No data block is left for a position on the way to `full`. -/
def RunsOut (s : FsState (Blocks z)) (ip : IId) (full : List Nat) (e : Stop)
    (s' : FsState (Blocks z)) : Prop :=
  e = noBit ∧ (∃ N, Fills s s' ip full N) ∧ (∀ n, n < BIT_PER_BLOCK → n ∈ s'.taken) ∧
    ∃ q, IsPos q ∧ q <+: full ∧ s'.node ip q = none

section Locate

variable {s s' s'' : FsState (Blocks z)} {ip : IId} {full : List Nat} {N N' : Finset (List Nat)}

theorem Fills.refl (hw : s.Wf ip) (full : List Nat) : Fills s s ip full ∅ :=
  ⟨hw, .refl s ip, .refl s ip, by simp, fun _ _ => rfl⟩

theorem Fills.trans (h : Fills s s' ip full N) (h' : Fills s' s'' ip full N') :
    Fills s s'' ip full (N ∪ N') where
  wf := h'.wf
  grows := h.grows.trans h'.grows
  frame := h.frame.trans h'.frame
  onPath := fun q hq => (Finset.mem_union.mp hq).elim (h.onPath q) (h'.onPath q)
  bytes := fun pos hpos => (h'.bytes pos hpos).trans (h.bytes pos hpos)

theorem RunsOut.trans {e : Stop} (h : Fills s s' ip full N) (h' : RunsOut s' ip full e s'') :
    RunsOut s ip full e s'' := by
  obtain ⟨he, ⟨N', hN'⟩, hall, hq⟩ := h'
  exact ⟨he, ⟨_, h.trans hN'⟩, hall, hq⟩

theorem wp_allocEntry {p rest : List Nat} {x : TreeNode} {i : Nat} (hw : s.Wf ip)
    (hp : s.node ip p = some x) (hpos : IsPos (p ++ [i])) (hfull : full = p ++ [i] ++ rest) :
    wp (allocEntry (ref ip x i))
      (fun _ s' => (∃ N, Fills s s' ip full N) ∧ s'.node ip p = some x ∧
        ∃ b, s'.node ip (p ++ [i]) = some (.block b))
      (RunsOut s ip full) s := by
  have hnode : s.node ip (p ++ [i]) = entries (s.icache ip).d.addrs s.dev x i :=
    Paths.walk_snoc_of hp
  have hon : p ++ [i] <+: full := ⟨rest, hfull.symm⟩
  unfold wp
  rw [allocEntry_run]
  by_cases h0 : rawEntry (s.icache ip).d.addrs s.dev x i = 0
  · have hempty : s.node ip (p ++ [i]) = none := by rw [hnode, entries, toNode_none]; exact h0
    rw [if_pos h0]
    cases hc : (s.dev sb.dataBitmapStart).firstClear with
    | none =>
      refine ⟨rfl, ⟨∅, .refl hw full⟩, fun n hn => ⟨hn, ?_⟩, p ++ [i], hpos, hon, hempty⟩
      exact Block.clearFrom_none hc n (Nat.zero_le n) (by rw [Nat.zero_add]; exact hn)
    | some n =>
      obtain ⟨hn, hfree, -⟩ := Block.firstClear_some hc
      have hg : Growable s ip p x i n := ⟨hw, hp, hpos, hempty, hn, hfree⟩
      refine ⟨⟨_, hg.wf_grow, hg.grows, hg.onlyAddrs, ?_, fun pos hpos => hg.byteAt_grow hpos⟩,
        hg.grows.keeps (isPos_closed _ _ hpos) hp, _, by rw [hg.node_grow hpos, if_pos rfl]⟩
      intro q hq
      rw [Finset.mem_singleton.mp hq]
      exact hon
  · rw [if_neg h0]
    exact ⟨⟨∅, .refl hw full⟩, hp, _, by rw [hnode, entries, toNode, if_neg h0]⟩

theorem rawEntry_of_node {p : List Nat} {x : TreeNode} {i b : Nat} (hp : s.node ip p = some x)
    (hb : s.node ip (p ++ [i]) = some (.block b)) :
    (rawEntry (s.icache ip).d.addrs s.dev x i).toNat = b := by
  have h : entries (s.icache ip).d.addrs s.dev x i = some (.block b) := by
    rw [← hb]
    exact (Paths.walk_snoc_of hp).symm
  have := (toNode_block h).2
  simpa using this.symm

theorem wp_locateBlock : ∀ (l : Nat) {s : FsState (Blocks z)} {p : List Nat} {x : TreeNode} {i bn : Nat},
    s.Wf ip → s.node ip p = some x → full = p ++ i :: digits l bn → IsPos full →
    wp (locateBlock l (ref ip x i) bn)
      (fun v s' => (∃ N, Fills s s' ip full N) ∧ s'.node ip full = some (.block v.toNat))
      (RunsOut s ip full) s := by
  intro l
  induction l with
  | zero =>
    intro s p x i bn hw hp hfull hpos
    have hfull' : full = p ++ [i] := hfull
    have hnil : full = p ++ [i] ++ [] := by rw [List.append_nil, hfull']
    simp only [locateBlock, wp_bind]
    refine wp_conseq (wp_allocEntry hw hp (hfull' ▸ hpos) hnil) ?_ fun _ _ h => h
    rintro _ s' ⟨hN, hp', b, hb⟩
    refine wp_of_ok (readEntry_ref _ _ _ _) ⟨hN, ?_⟩
    rw [rawEntry_of_node hp' hb, hfull', hb]
  | succ l ih =>
    intro s p x i bn hw hp hfull hpos
    have hfull' : full = p ++ [i] ++ bn / ENTRY_PER_BLOCK ^ l :: digits l (bn % ENTRY_PER_BLOCK ^ l) := by
      rw [hfull, digits, List.append_assoc, List.singleton_append]
    have hpos' : IsPos (p ++ [i]) := (hfull' ▸ hpos).of_append
    simp only [locateBlock, wp_bind]
    refine wp_conseq (wp_allocEntry hw hp hpos' hfull') ?_ fun _ _ h => h
    rintro _ s1 ⟨⟨N1, h1⟩, hp1, b, hb⟩
    refine wp_of_ok (readEntry_ref _ _ _ _) ?_
    rw [rawEntry_of_node hp1 hb]
    refine wp_of_ok (bufRead_run _ _) (wp_conseq (ih h1.wf hb hfull' hpos) ?_ ?_)
    · rintro v s2 ⟨⟨N2, h2⟩, hv⟩
      exact wp_of_ok (bufRelease_run _ _) ⟨⟨_, h1.trans h2⟩, hv⟩
    · exact fun e s2 h2 => .trans h1 h2

theorem locateBlock_there : ∀ (l : Nat) {p : List Nat} {x : TreeNode} {i bn b : Nat},
    s.node ip p = some x → s.node ip (p ++ i :: digits l bn) = some (.block b) →
    ∃ v : UInt32, v.toNat = b ∧ locateBlock l (ref ip x i) bn s = .ok v s := by
  intro l
  -- the entry is filled, so the first step does nothing
  have hstep : ∀ {p rest : List Nat} {x y : TreeNode} {i : Nat}, s.node ip p = some x →
      s.node ip (p ++ [i] ++ rest) = some y →
      (∃ b, s.node ip (p ++ [i]) = some (.block b)) ∧ allocEntry (ref ip x i) s = .ok () s := by
    intro p rest x y i hp hb
    obtain ⟨w, hw⟩ := Paths.walk_of_append hb
    have hent : entries (s.icache ip).d.addrs s.dev x i = some w := by
      rw [← hw]; exact (Paths.walk_snoc_of hp).symm
    obtain ⟨h0, rfl⟩ := toNode_block hent
    exact ⟨⟨_, hw⟩, by rw [allocEntry_run, if_neg h0]⟩
  induction l with
  | zero =>
    intro p x i bn b hp hb
    have hnil : s.node ip (p ++ [i] ++ []) = some (.block b) := by rwa [List.append_nil]
    obtain ⟨-, hrun⟩ := hstep hp hnil
    refine ⟨_, rawEntry_of_node hp hb, ?_⟩
    rw [locateBlock, bind_of_ok hrun]
    exact readEntry_ref _ _ _ _
  | succ l ih =>
    intro p x i bn b hp hb
    rw [digits, ← List.singleton_append, ← List.append_assoc] at hb
    obtain ⟨⟨c, hc⟩, hrun⟩ := hstep hp hb
    obtain ⟨v, hv, hlocate⟩ := ih hc hb
    refine ⟨v, hv, ?_⟩
    rw [locateBlock, bind_of_ok hrun, bind_of_ok (readEntry_ref _ _ _ _), rawEntry_of_node hp hc,
      bind_of_ok (bufRead_run _ _)]
    exact (bind_of_ok hlocate).trans rfl

theorem inodeLocateBlock_eq {bn : Nat} (hbn : bn < MAX_BLOCKS) :
    ∃ l k r, path bn = [] ++ k :: digits l r ∧
      (inodeLocateBlock ip bn : FsM (Blocks z) UInt32) = locateBlock l (ref ip .inode k) r := by
  have hlt := hbn
  simp only [MAX_BLOCKS, N_ADDRS_1, N_ADDRS_2, N_ADDRS_3, ENTRY_PER_BLOCK, BLOCK_SIZE] at hlt
  have hof : ∀ {k : Nat} (hk : k < N_ADDRS), (⟨k, hk⟩ : Fin N_ADDRS) = Fin.ofNat N_ADDRS k :=
    fun hk => Fin.ext (Nat.mod_eq_of_lt hk).symm
  unfold inodeLocateBlock path
  by_cases h1 : bn < N_ADDRS_1
  · rw [dif_pos h1, if_pos h1, hof]
    exact ⟨0, _, _, rfl, rfl⟩
  · rw [dif_neg h1, if_neg h1]
    simp only
    by_cases h2 : bn - N_ADDRS_1 < N_ADDRS_2 * ENTRY_PER_BLOCK
    · rw [dif_pos h2, if_pos h2, hof]
      exact ⟨1, _, _, rfl, rfl⟩
    · rw [dif_neg h2, if_neg h2, if_pos (by
        simp only [N_ADDRS_1, N_ADDRS_2, N_ADDRS_3, ENTRY_PER_BLOCK, BLOCK_SIZE] at *; omega), hof]
      exact ⟨2, _, _, rfl, rfl⟩

theorem inodeLocateBlock_overflow {bn : Nat} (hbn : MAX_BLOCKS ≤ bn) (s : FsState (Blocks z)) :
    inodeLocateBlock ip bn s = .error (.panic "inode_locate_block: overflow") s := by
  simp only [MAX_BLOCKS, N_ADDRS_1, N_ADDRS_2, N_ADDRS_3, ENTRY_PER_BLOCK, BLOCK_SIZE] at hbn
  unfold inodeLocateBlock
  rw [dif_neg (by simp only [N_ADDRS_1]; omega)]
  simp only
  rw [dif_neg (by simp only [N_ADDRS_1, N_ADDRS_2, ENTRY_PER_BLOCK, BLOCK_SIZE]; omega),
    if_neg (by simp only [N_ADDRS_1, N_ADDRS_2, N_ADDRS_3, ENTRY_PER_BLOCK, BLOCK_SIZE]; omega)]
  rfl

/-- `inode_locate_block` fills the empty positions on its path, and returns the block at its end. -/
theorem wp_locate {bn : Nat} (hw : s.Wf ip) (hbn : bn < MAX_BLOCKS) :
    wp (inodeLocateBlock ip bn)
      (fun v s' => (∃ N, Fills s s' ip (path bn) N) ∧
        s'.node ip (path bn) = some (.block v.toNat))
      (RunsOut s ip (path bn)) s := by
  obtain ⟨l, k, r, hpath, hrun⟩ := @inodeLocateBlock_eq z ip bn hbn
  rw [hrun]
  exact wp_locateBlock l hw rfl hpath (path_spec hbn).1

theorem locate_there {bn b : Nat} (hbn : bn < MAX_BLOCKS)
    (hb : s.node ip (path bn) = some (.block b)) :
    ∃ v : UInt32, v.toNat = b ∧ inodeLocateBlock ip bn s = .ok v s := by
  obtain ⟨l, k, r, hpath, hrun⟩ := @inodeLocateBlock_eq z ip bn hbn
  rw [hrun]
  exact locateBlock_there l rfl (hpath ▸ hb)

end Locate

end Fs
end WhuOS
