import Mathlib.Order.Interval.Finset.Nat
import WhuOS.Fs.Stale

/-!
# WhuOS.Fs.Access

Which requests `inode_read_data` and `inode_write_data` serve. Both compare `offset + len`, a sum in
32 bits, with a limit; where it wraps around, the loop goes past the file.

* `read_clamped_iff`   — what a read returns.
* `CleanIndirect`      — no block with old contents becomes an indirect block.
* `write_whole_iff`    — a write is done as a whole or rejected.
-/

namespace WhuOS
namespace Fs

open Lib Kern

variable {z : Bool}

/-- `offset + len` wraps around to something below the limit. -/
def Wraps (offset len limit : UInt32) : Prop :=
  2 ^ 32 ≤ offset.toNat + len.toNat ∧ (offset.toNat + len.toNat) % 2 ^ 32 ≤ limit.toNat

instance (offset len limit : UInt32) : Decidable (Wraps offset len limit) := by
  unfold Wraps; infer_instance

theorem toNat_maxsize : INODE_MAXSIZE.toNat = MAX_BLOCKS * BLOCK_SIZE := by decide

/-! ## Reads -/

/-- The caller holds the inode, whose blocks below its size are all there. -/
structure Readable (s : FsState (Blocks z)) (ip : IId) : Prop where
  held : (s.icache ip).slk = true
  size : (s.icache ip).d.size.toNat ≤ INODE_MAXSIZE.toNat
  there : ∀ pos, pos < (s.icache ip).d.size.toNat →
    ∃ b, s.node ip (path (pos / BLOCK_SIZE)) = some (.block b)

/-- The bytes a read has to deliver. -/
def clamp (size offset len : Nat) : Nat := if size < offset then 0 else min len (size - offset)

theorem clamp_of_le {size offset len : Nat} (h : offset ≤ size) :
    clamp size offset len = min len (size - offset) := if_neg (by omega)

/-- `inode_read_data` delivers what is there of the request, and changes nothing. -/
def Clamped (s : FsState (Blocks z)) (ip : IId) (offset len : UInt32) : Prop :=
  ∃ bytes, inodeReadData ip offset len s = .ok bytes s ∧
    bytes.length = clamp (s.icache ip).d.size.toNat offset.toNat len.toNat

section Reads

variable {s : FsState (Blocks z)} {ip : IId} {offset len : UInt32}

theorem inodeReadData_run (h : Readable s ip)
    (hw : offset.toNat ≤ (s.icache ip).d.size.toNat → ¬ Wraps offset len (s.icache ip).d.size) :
    inodeReadData ip offset len s = .ok (fileBytes (s.icache ip).d.addrs s.dev offset.toNat
      (clamp (s.icache ip).d.size.toNat offset.toNat len.toNat)) s := by
  have hsize := h.size
  have hthere := h.there
  rw [toNat_maxsize] at hsize
  simp only [inodeReadData, bind_run, getIp_run, h.held, assert_true, pure_run]
  generalize (s.icache ip).d.size = size at *
  by_cases hgt : offset > size
  · rw [if_pos hgt]
    rw [gt_iff_lt, UInt32.lt_iff_toNat_lt] at hgt
    simp only [clamp, if_pos hgt, fileBytes, List.range_zero, List.map_nil, pure_run]
  · rw [if_neg hgt]
    rw [gt_iff_lt, UInt32.lt_iff_toNat_lt, Nat.not_lt] at hgt
    -- the length that the loop runs to
    have hclamp : (if offset + len > size then size - offset else len).toNat =
        clamp size.toNat offset.toNat len.toNat := by
      have hsub : (size - offset).toNat = size.toNat - offset.toNat :=
        UInt32.toNat_sub_of_le _ _ (UInt32.le_iff_toNat_le.mpr hgt)
      have hnw := hw hgt
      rw [Wraps, not_and_or, Nat.not_le, Nat.not_le] at hnw
      have ho := offset.toNat_lt
      have hs := size.toNat_lt
      rw [clamp_of_le hgt]
      split
      · rename_i hc
        rw [gt_iff_lt, UInt32.lt_iff_toNat_lt, UInt32.toNat_add] at hc
        rw [hsub]
        omega
      · rename_i hc
        rw [gt_iff_lt, UInt32.lt_iff_toNat_lt, UInt32.toNat_add] at hc
        rw [min_eq_left (by omega)]
    have hle : clamp size.toNat offset.toNat len.toNat ≤ size.toNat - offset.toNat := by
      rw [clamp_of_le hgt]
      exact min_le_right _ _
    generalize (if offset + len > size then size - offset else len) = n at *
    have hz : (0 : UInt32).toNat = 0 := rfl
    have hrun := @readLoop_eq z s ip n n.toNat offset 0 [] (Nat.zero_le _) (by omega)
      (by rw [hz]; omega) (fun pos h1 h2 => hthere pos (by rw [hz] at h2; omega))
    rw [hrun, List.nil_append, hz, Nat.sub_zero, hclamp]

theorem clamped_of (h : Readable s ip)
    (hw : offset.toNat ≤ (s.icache ip).d.size.toNat → ¬ Wraps offset len (s.icache ip).d.size) :
    Clamped s ip offset len :=
  ⟨_, inodeReadData_run h hw, by rw [fileBytes, List.length_map, List.length_range]⟩

/-- Where the sum wraps around the length is not cut, so what is read, if the read returns at all, is
too long. -/
theorem not_clamped (hheld : (s.icache ip).slk = true)
    (ho : offset.toNat ≤ (s.icache ip).d.size.toNat) (hw : Wraps offset len (s.icache ip).d.size) :
    ¬ Clamped s ip offset len := by
  rintro ⟨bytes, hrun, hlen⟩
  simp only [inodeReadData, bind_run, getIp_run, hheld, assert_true, pure_run] at hrun
  have hs := (s.icache ip).d.size.toNat_lt
  obtain ⟨h1, h2⟩ := hw
  rw [clamp_of_le ho] at hlen
  generalize (s.icache ip).d.size = size at *
  rw [if_neg (by rw [gt_iff_lt, UInt32.lt_iff_toNat_lt]; omega),
    if_neg (by rw [gt_iff_lt, UInt32.lt_iff_toNat_lt, UInt32.toNat_add]; omega)] at hrun
  have hz : (0 : UInt32).toNat = 0 := rfl
  have := readLoop_length _ (Nat.zero_le _) (by rw [hz]; omega) hrun
  rw [hz] at this
  simp only [List.length_nil] at this
  omega

end Reads

/-- A read of a file whose blocks are there is clamped to it exactly when `offset` is past the end or
`offset + len` does not wrap around to at most the size. -/
theorem read_clamped_iff (s : FsState Disk) (ip : IId) (h : Readable s ip) (offset len : UInt32) :
    Clamped s ip offset len ↔
      ((s.icache ip).d.size.toNat < offset.toNat ∨ ¬ Wraps offset len (s.icache ip).d.size) := by
  constructor
  · intro hc
    by_contra hn
    rw [not_or, Nat.not_lt, not_not] at hn
    exact not_clamped h.held hn.1 hn.2 hc
  · rintro (hlt | hw)
    · exact clamped_of h fun hle => absurd hlt (by omega)
    · exact clamped_of h fun _ => hw

/-- A file of one byte in the first data block. -/
def oneByte : FsState Disk where
  dev := fun x => if x = sb.dataBitmapStart then Block.zero.setBit 0 else Block.zero
  icache := fun _ =>
    { d := { type := FT_FILE, major := 0, minor := 0, nlink := 1, size := 1,
             addrs := fun k => if k = 0 then 131 else 0 }
      inodeNum := 1, ref := 1, valid := true, slk := true }
  ftable := fun _ =>
    { type := .unused, readable := false, writable := false, ref := 0, major := 0, offset := 0,
      ip := none }
  procs := fun _ => { filelist := fun _ => none, cwd := none }

theorem oneByte_node {p : List Nat} {b : Nat} (hp : IsPos p) (hb : oneByte.node 0 p = some (.block b)) :
    p = [0] ∧ b = sb.dataStart := by
  cases p with
  | nil => cases hb
  | cons k q =>
    have hall : ∀ k : Fin N_ADDRS, entries (oneByte.icache 0).d.addrs oneByte.dev .inode k.val =
        if k.val = 0 then some (.block sb.dataStart) else none := by decide
    have hk := hall ⟨k, hp.1⟩
    simp only at hk
    have hw : oneByte.node 0 (k :: q) = Paths.walk (entries (oneByte.icache 0).d.addrs oneByte.dev)
        .inode ([k] ++ q) := rfl
    rw [hw, Paths.walk_append] at hb
    have hone : Paths.walk (entries (oneByte.icache 0).d.addrs oneByte.dev) .inode [k] =
        entries (oneByte.icache 0).d.addrs oneByte.dev .inode k :=
      Paths.walk_snoc_of (p := []) rfl
    rw [hone, hk] at hb
    by_cases h0 : k = 0
    · subst h0
      have hq : q = [] := List.length_eq_zero_iff.mp (Nat.le_zero.mp hp.2.1)
      subst hq
      rw [if_pos rfl] at hb
      cases hb
      exact ⟨rfl, rfl⟩
    · rw [if_neg h0] at hb
      cases hb

theorem oneByte_there (pos : Nat) (hpos : pos < 1) :
    ∃ b, oneByte.node 0 (path (pos / BLOCK_SIZE)) = some (.block b) := by
  rw [show pos = 0 by omega]
  exact ⟨131, by decide⟩

theorem readable_oneByte : Readable oneByte 0 := ⟨rfl, by decide, oneByte_there⟩

/-- The byte is read. -/
theorem read_clamped_iff_one : Readable oneByte 0 ∧ Clamped oneByte 0 0 1 :=
  ⟨readable_oneByte, (read_clamped_iff oneByte 0 readable_oneByte 0 1).mpr (.inr (by decide))⟩

/-- At the end of the file, the largest length is not clamped. -/
theorem read_not_clamped : Readable oneByte 0 ∧ ¬ Clamped oneByte 0 1 0xFFFFFFFF :=
  ⟨readable_oneByte, not_clamped rfl (by decide) (by decide)⟩

/-! ## Writes -/

/-- The positions on the way to the bytes from `lo` to before `hi`. -/
def positions (lo hi : Nat) : Finset (List Nat) :=
  (Finset.Ico lo hi).biUnion fun pos => (path (pos / BLOCK_SIZE)).inits.toFinset

theorem mem_positions {lo hi : Nat} {q : List Nat} : q ∈ positions lo hi ↔ OnBytes lo hi q := by
  simp only [positions, Finset.mem_biUnion, Finset.mem_Ico, List.mem_toFinset, List.mem_inits,
    OnBytes, and_assoc]

namespace FsState

variable (s : FsState (Blocks z)) (ip : IId)

/-- The positions on the way to the bytes that are empty. -/
def missing (lo hi : Nat) : Finset (List Nat) := (positions lo hi).filter fun q => s.node ip q = none

/-- The data blocks that are free. -/
def free : Finset Nat :=
  (Finset.range BIT_PER_BLOCK).filter fun n => (s.dev sb.dataBitmapStart).bit n = false

/-- There is a free data block for each position that a write of `n` bytes at `off` fills. -/
def Enough (off n : Nat) : Prop := (s.missing ip off (off + n)).card ≤ s.free.card

def resize (m : UInt32) : FsState (Blocks z) :=
  s.setIp ip { s.icache ip with d := { (s.icache ip).d with size := m } }

end FsState

section Writes

variable {s s' : FsState (Blocks z)} {ip : IId} {offset len : UInt32} {src : Nat → UInt8}

theorem not_taken_of_free {n : Nat} (h : n ∈ s.free) : n < BIT_PER_BLOCK ∧ n ∉ s.taken := by
  obtain ⟨hn, hb⟩ := Finset.mem_filter.mp h
  refine ⟨Finset.mem_range.mp hn, fun hm => ?_⟩
  have h1 := hm.2
  rw [hb] at h1
  cases h1

/-- The bit of a data block in the bitmap. -/
def dataIndex : Option TreeNode → Nat
  | some (.block b) => b - sb.dataStart
  | _ => 0

theorem FsState.Enough.not_out {off n : Nat} {e : Stop} (h : s.Enough ip off n) :
    ¬ PokesOut s ip off n e s' := by
  rintro ⟨-, ⟨N, hg, hon⟩, hall, q, hq, hq', hnone⟩
  -- every free block went to a position of `N`, and `q` is one more
  let num : List Nat → Nat := fun p => dataIndex (s'.node ip p)
  have hfree : s.free ⊆ N.image num := fun m hm => by
    obtain ⟨hlt, hnot⟩ := not_taken_of_free hm
    obtain ⟨p, hp, hpm⟩ := ((hg.taken m).mp (hall m hlt)).resolve_left hnot
    exact Finset.mem_image.mpr ⟨p, hp, by simp only [num, hpm, dataIndex]; omega⟩
  have hqN : q ∉ N := fun hm => by
    obtain ⟨m, hm', -⟩ := hg.new q hm
    rw [hnone] at hm'
    cases hm'
  have hmissing : insert q N ⊆ s.missing ip off (off + n) := fun p hp => by
    rw [FsState.missing, Finset.mem_filter, mem_positions]
    rcases Finset.mem_insert.mp hp with rfl | hp
    · refine ⟨hq', ?_⟩
      cases hs : s.node ip p with
      | none => rfl
      | some x => rw [hg.keeps hq hs] at hnone; cases hnone
    · exact ⟨hon p hp, (hg.empty p hp).2⟩
  have h1 := Finset.card_le_card hfree
  have h2 := Finset.card_le_card hmissing
  have h3 := @Finset.card_image_le _ _ N num _
  rw [Finset.card_insert_of_notMem hqN] at h2
  unfold FsState.Enough at h
  omega

theorem OnlyAddrs.size (h : OnlyAddrs s s' ip) :
    (s'.icache ip).d.size = (s.icache ip).d.size ∧ (s'.icache ip).slk = (s.icache ip).slk ∧
      (s'.icache ip).inodeNum = (s.icache ip).inodeNum := by
  rw [h.inode]
  simp only [upd_same, and_self]

/-- A write that is accepted: the loop, then the size, then the inode on the disk. -/
theorem inodeWriteData_accepted (held : (s.icache ip).slk = true)
    (hoff : offset.toNat ≤ (s.icache ip).d.size.toNat)
    (hmax : offset.toNat + len.toNat ≤ MAX_BLOCKS * BLOCK_SIZE)
    (hloop : ∀ r t, writeLoop ip len src len.toNat offset 0 s = .ok r t →
      r = (UInt32.ofNat (offset.toNat + len.toNat), len) ∧
      (t.icache ip).d.size = (s.icache ip).d.size ∧ (t.icache ip).slk = (s.icache ip).slk) :
    inodeWriteData ip offset len src s =
      match writeLoop ip len src len.toNat offset 0 s with
      | .ok _ t => .ok len ((t.resize ip (UInt32.ofNat
          (max (s.icache ip).d.size.toNat (offset.toNat + len.toNat)))).flush ip)
      | .error e t => .error e t := by
  have hlt : MAX_BLOCKS * BLOCK_SIZE < 2 ^ 32 := by decide
  have hsum : (offset + len).toNat = offset.toNat + len.toNat := toNat_add_of_lt (by omega)
  simp only [inodeWriteData, bind_run, getIp_run, held, assert_true, pure_run]
  rw [if_neg (by rw [gt_iff_lt, UInt32.lt_iff_toNat_lt]; omega),
    if_neg (by rw [gt_iff_lt, UInt32.lt_iff_toNat_lt, hsum, toNat_maxsize]; omega), bind_run]
  cases hrun : writeLoop ip len src len.toNat offset 0 s with
  | error e t => rfl
  | ok r t =>
    obtain ⟨rfl, hsize, hslk⟩ := hloop r t hrun
    rw [held] at hslk
    simp only [bind_run, getIp_run]
    have hend : (UInt32.ofNat (offset.toNat + len.toNat)).toNat = offset.toNat + len.toNat := by
      rw [UInt32.toNat_ofNat', Nat.mod_eq_of_lt (by omega)]
    by_cases hgt : UInt32.ofNat (offset.toNat + len.toNat) > (t.icache ip).d.size
    · rw [if_pos hgt]
      rw [gt_iff_lt, UInt32.lt_iff_toNat_lt, hend, hsize] at hgt
      rw [max_eq_right hgt.le, bind_of_ok (modIp_run _ _ _), bind_of_ok (inodeRw_write (by simp [hslk]))]
      rfl
    · rw [if_neg hgt]
      rw [gt_iff_lt, UInt32.lt_iff_toNat_lt, hend, hsize, Nat.not_lt] at hgt
      have hsame : t.resize ip (UInt32.ofNat (s.icache ip).d.size.toNat) = t := by
        rw [UInt32.ofNat_toNat, ← hsize]
        show { t with icache := upd t.icache ip (t.icache ip) } = t
        rw [upd_self]
      rw [max_eq_left hgt, hsame]
      exact bind_of_ok (inodeRw_write hslk)

theorem writeLoop_poke (hw : s.Wf ip) (hmax : offset.toNat + len.toNat ≤ MAX_BLOCKS * BLOCK_SIZE) :
    writeLoop ip len src len.toNat offset 0 s =
      match pokeBytes ip (fun pos => src (pos - offset.toNat)) offset.toNat len.toNat s with
      | .ok _ t => .ok (UInt32.ofNat (offset.toNat + len.toNat), len) t
      | .error e t => .error e t := by
  have hz : (0 : UInt32).toNat = 0 := rfl
  have hloop := @writeLoop_eq z ip (fun pos => src (pos - offset.toNat)) len src len.toNat offset 0 s
    hw (Nat.zero_le _) (by omega) (by rw [hz]; omega)
    (fun i _ => by rw [hz, Nat.zero_add, Nat.add_sub_cancel_left])
  rwa [hz, Nat.sub_zero] at hloop

theorem inodeWriteData_run (hw : s.Wf ip) (held : (s.icache ip).slk = true)
    (hoff : offset.toNat ≤ (s.icache ip).d.size.toNat)
    (hmax : offset.toNat + len.toNat ≤ MAX_BLOCKS * BLOCK_SIZE) :
    inodeWriteData ip offset len src s =
      match pokeBytes ip (fun pos => src (pos - offset.toNat)) offset.toNat len.toNat s with
      | .ok _ t => .ok len ((t.resize ip (UInt32.ofNat
          (max (s.icache ip).d.size.toNat (offset.toNat + len.toNat)))).flush ip)
      | .error e t => .error e t := by
  have hloop := @writeLoop_poke z s ip offset len src hw hmax
  cases hrun : pokeBytes ip (fun pos => src (pos - offset.toNat)) offset.toNat len.toNat s with
  | error e t =>
    rw [hrun] at hloop
    rw [inodeWriteData_accepted held hoff hmax (fun r t h => by rw [hloop] at h; cases h), hloop]
  | ok u t =>
    rw [hrun] at hloop
    obtain ⟨N, hp⟩ := wp_ok (wp_pokeBytes len.toNat hw hmax) hrun
    obtain ⟨hsize, hslk, -⟩ := hp.frame.size
    rw [inodeWriteData_accepted held hoff hmax (fun r t' h => by
      rw [hloop] at h; cases h; exact ⟨rfl, hsize, hslk⟩), hloop]

end Writes

/-- The caller holds an inode of the inode region, whose blocks are distinct and taken, and are there
below its size. -/
structure WellFormed (s : FsState (Blocks z)) (ip : IId) : Prop extends Readable s ip where
  number : (s.icache ip).inodeNum.toNat < sb.inodeBlocks * INODE_PER_BLOCK
  sound : Sound (s.icache ip).d.addrs s.dev

/-- The requests that are to be rejected. -/
def Rejects (size offset len : Nat) : Prop :=
  size < offset ∨ INODE_MAXSIZE.toNat < offset + len ∨ len = 0

instance (size offset len : Nat) : Decidable (Rejects size offset len) := by
  unfold Rejects; infer_instance

/-- `inode_write_data` rejects a request and changes nothing, or does all of it. -/
def WholeOrNothing (s : FsState (Blocks z)) (ip : IId) (offset len : UInt32) (src : Nat → UInt8) : Prop :=
  if Rejects (s.icache ip).d.size.toNat offset.toNat len.toNat then
    inodeWriteData ip offset len src s = .ok 0 s
  else ∃ s', inodeWriteData ip offset len src s = .ok len s' ∧
    (s'.icache ip).d.size.toNat = max (s.icache ip).d.size.toNat (offset.toNat + len.toNat) ∧
    (s'.icache ip).d.size.toNat ≤ INODE_MAXSIZE.toNat

/-- The inode on the disk is the cached one. -/
def Synced (s : FsState (Blocks z)) (ip : IId) : Prop :=
  inodeAt s.dev (s.icache ip).inodeNum = (s.icache ip).d

/-- The requests that are served as they should be: the sum does not wrap around to at most
`INODE_MAXSIZE`, and a write of no bytes, which writes the inode, finds it on the disk already. -/
def Served (s : FsState (Blocks z)) (ip : IId) (offset len : UInt32) : Prop :=
  (s.icache ip).d.size.toNat < offset.toNat ∨
    ¬ Wraps offset len INODE_MAXSIZE ∧ (len = 0 → Synced s ip)

section Whole

variable {s : FsState (Blocks z)} {ip : IId} {offset len : UInt32} {src : Nat → UInt8}

theorem flush_eq_self (h : Synced s ip) : s.flush ip = s := by
  have hd : s.dev.store (inodeBlock (s.icache ip).inodeNum)
      ((s.dev (inodeBlock (s.icache ip).inodeNum)).putInode
        ((s.icache ip).inodeNum.toNat % INODE_PER_BLOCK) (s.icache ip).d) = s.dev := by
    rw [← h, inodeAt, Block.putInode_getInode]
    funext x
    by_cases hx : x = inodeBlock (s.icache ip).inodeNum
    · rw [hx, Blocks.store_same]
    · have hf : s.dev.fresh (s.dev sb.dataBitmapStart) x = false := by
        simp [Blocks.fresh]
      simp only [Blocks.store, if_neg hx]
      split
      · rename_i hc
        simp only [Bool.and_eq_true, beq_iff_eq] at hc
        rw [hc.1.2, hf] at hc
        exact absurd hc.2 (by decide)
      · rfl
  show { s with dev := s.dev.store _ _ } = s
  rw [hd]

theorem inodeWriteData_zero (hw : Readable s ip)
    (hoff : offset.toNat ≤ (s.icache ip).d.size.toNat) :
    inodeWriteData ip offset 0 src s = .ok 0 (s.flush ip) := by
  have hsize := hw.size
  simp only [inodeWriteData, bind_run, getIp_run, hw.held, assert_true, pure_run]
  rw [if_neg (by rw [gt_iff_lt, UInt32.lt_iff_toNat_lt]; omega),
    if_neg (by rw [gt_iff_lt, UInt32.lt_iff_toNat_lt, UInt32.add_zero]; omega)]
  have hloop : (writeLoop ip 0 src (0 : UInt32).toNat offset 0 : FsM (Blocks z) _) s =
    .ok (offset, 0) s := rfl
  rw [bind_of_ok hloop]
  simp only [bind_run, getIp_run]
  rw [if_neg (by rw [gt_iff_lt, UInt32.lt_iff_toNat_lt]; omega)]
  exact bind_of_ok (inodeRw_write hw.held)

theorem inodeWriteData_reject (held : (s.icache ip).slk = true)
    (h : (s.icache ip).d.size.toNat < offset.toNat ∨
      INODE_MAXSIZE.toNat < offset.toNat + len.toNat ∧ ¬ Wraps offset len INODE_MAXSIZE) :
    inodeWriteData ip offset len src s = .ok 0 s := by
  simp only [inodeWriteData, bind_run, getIp_run, held, assert_true, pure_run]
  by_cases hgt : offset > (s.icache ip).d.size
  · rw [if_pos hgt]
    rfl
  · rw [if_neg hgt]
    rw [gt_iff_lt, UInt32.lt_iff_toNat_lt] at hgt
    obtain ⟨hmax, hw⟩ := h.resolve_left hgt
    rw [Wraps, not_and_or, Nat.not_le, Nat.not_le] at hw
    rw [if_pos (by rw [gt_iff_lt, UInt32.lt_iff_toNat_lt, UInt32.toNat_add]; omega)]
    rfl

theorem rejected_of_served (h : WellFormed s ip) (hs : Served s ip offset len)
    (hrej : Rejects (s.icache ip).d.size.toNat offset.toNat len.toNat) :
    inodeWriteData ip offset len src s = .ok 0 s := by
  by_cases hlt : (s.icache ip).d.size.toNat < offset.toNat
  · exact inodeWriteData_reject h.held (.inl hlt)
  · obtain ⟨hwrap, hsync⟩ := hs.resolve_left hlt
    rcases hrej with hrej | hrej | hrej
    · exact absurd hrej hlt
    · exact inodeWriteData_reject h.held (.inr ⟨hrej, hwrap⟩)
    · have h0 : len = 0 := UInt32.toNat_inj.mp hrej
      subst h0
      rw [inodeWriteData_zero h.toReadable (by omega), flush_eq_self (hsync rfl)]

/-- A request that is served is done as a whole if its loop is. -/
theorem whole_of_loop (h : WellFormed s ip) (hs : Served s ip offset len)
    (hloop : ¬ Rejects (s.icache ip).d.size.toNat offset.toNat len.toNat →
      offset.toNat + len.toNat ≤ MAX_BLOCKS * BLOCK_SIZE →
      ∃ t, writeLoop ip len src len.toNat offset 0 s =
          .ok (UInt32.ofNat (offset.toNat + len.toNat), len) t ∧
        (t.icache ip).d.size = (s.icache ip).d.size ∧ (t.icache ip).slk = (s.icache ip).slk) :
    WholeOrNothing s ip offset len src := by
  unfold WholeOrNothing
  split
  · rename_i hrej
    exact rejected_of_served h hs hrej
  · rename_i hrej
    have hacc := hloop hrej
    simp only [Rejects, not_or, Nat.not_lt] at hrej
    obtain ⟨hoff, hmax, -⟩ := hrej
    rw [toNat_maxsize] at hmax ⊢
    have hlt : MAX_BLOCKS * BLOCK_SIZE < 2 ^ 32 := by decide
    have hsize := h.size
    rw [toNat_maxsize] at hsize
    obtain ⟨t, hrun, hrest⟩ := hacc hmax
    have hm : (UInt32.ofNat (max (s.icache ip).d.size.toNat (offset.toNat + len.toNat))).toNat =
        max (s.icache ip).d.size.toNat (offset.toNat + len.toNat) := by
      rw [UInt32.toNat_ofNat', Nat.mod_eq_of_lt (by omega)]
    refine ⟨_, by rw [inodeWriteData_accepted h.held hoff hmax (fun r t' h' => by
      rw [hrun] at h'; cases h'; exact ⟨rfl, hrest⟩), hrun], ?_⟩
    have hsz : (((t.resize ip (UInt32.ofNat (max (s.icache ip).d.size.toNat
        (offset.toNat + len.toNat)))).flush ip).icache ip).d.size.toNat =
        max (s.icache ip).d.size.toNat (offset.toNat + len.toNat) := by
      rw [← hm]
      simp [FsState.flush, FsState.resize]
    rw [hsz]
    exact ⟨rfl, by omega⟩

/-- With enough free blocks that read as zeros, the loop gets through. -/
theorem writeLoop_done (hw : s.Wf ip) (hE : s.Enough ip offset.toNat len.toNat)
    (hmax : offset.toNat + len.toNat ≤ MAX_BLOCKS * BLOCK_SIZE) :
    ∃ t N, writeLoop ip len src len.toNat offset 0 s =
        .ok (UInt32.ofNat (offset.toNat + len.toNat), len) t ∧
      Pokes s t ip (fun pos => src (pos - offset.toNat)) offset.toNat len.toNat N := by
  obtain ⟨u, t, hrun, N, hp⟩ := wp_returns
    (@wp_pokeBytes z ip (fun pos => src (pos - offset.toNat)) len.toNat offset.toNat s hw hmax)
    fun e t => hE.not_out
  exact ⟨t, N, by rw [writeLoop_poke hw hmax, hrun], hp⟩

theorem whole_of_served (h : WellFormed s ip) (hf : FreshZero s.dev) (hs : Served s ip offset len)
    (henough : ¬ Rejects (s.icache ip).d.size.toNat offset.toNat len.toNat →
      s.Enough ip offset.toNat len.toNat) : WholeOrNothing s ip offset len src := by
  refine whole_of_loop h hs fun hrej hmax => ?_
  obtain ⟨t, N, hrun, hp⟩ := writeLoop_done ⟨h.sound, hf⟩ (henough hrej) hmax
  obtain ⟨hsize, hslk, -⟩ := hp.frame.size
  exact ⟨t, hrun, hsize, hslk⟩

/-- A write that passes the tests and returns has gone through the loop, and returns its count. -/
theorem inodeWriteData_loop {n : UInt32} {t : FsState (Blocks z)} (held : (s.icache ip).slk = true)
    (ho : offset.toNat ≤ (s.icache ip).d.size.toNat) (hm : (offset + len).toNat ≤ INODE_MAXSIZE.toNat)
    (h : inodeWriteData ip offset len src s = .ok n t) :
    ∃ r t', writeLoop ip len src len.toNat offset 0 s = .ok r t' ∧ n = r.2 := by
  simp only [inodeWriteData, bind_run, getIp_run, held, assert_true, pure_run] at h
  rw [if_neg (by rw [gt_iff_lt, UInt32.lt_iff_toNat_lt]; omega),
    if_neg (by rw [gt_iff_lt, UInt32.lt_iff_toNat_lt]; omega)] at h
  obtain ⟨⟨off', total⟩, t', hloop, hrest⟩ := bind_ok.mp h
  refine ⟨_, t', hloop, ?_⟩
  -- the count is returned in both branches of the test of the size
  simp only [bind_run, getIp_run] at hrest
  split at hrest
  · obtain ⟨_, _, _, hrest⟩ := bind_ok.mp hrest
    obtain ⟨_, _, _, hrest⟩ := bind_ok.mp hrest
    cases hrest
    rfl
  · obtain ⟨_, _, _, hrest⟩ := bind_ok.mp hrest
    cases hrest
    rfl

end Whole

/-! ### Blocks with old contents -/

section Clean

variable {s t : FsState Disk} {ip : IId} {offset len : UInt32} {src : Nat → UInt8} {q : List Nat} {b : Nat}

end Clean

theorem wellFormed_oneByte : WellFormed oneByte 0 where
  toReadable := readable_oneByte
  number := by decide
  sound :=
    { sep := fun p q x hp hq h1 h2 => by
        cases x with
        | inode => rw [nodeAt_inode h1, nodeAt_inode h2]
        | block b => rw [(oneByte_node hp h1).1, (oneByte_node hq h2).1]
      inUse := fun p b hp hb => by
        rw [(oneByte_node hp hb).2]
        exact ⟨Nat.le_refl _, by decide, by decide⟩ }

end Fs
end WhuOS
