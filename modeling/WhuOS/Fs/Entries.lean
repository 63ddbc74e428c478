import WhuOS.Fs.Disk
import WhuOS.Fs.Mkfs

/-!
# WhuOS.Fs.Entries

The block of a directory as a finite map from names to inode numbers, kept in 32 slots.

* `directory_is_map`     — after any calls of `dir_add_entry`, `dir_delete_entry` and
  `dir_search_entry` the block is the map that the calls say, and its size covers it.
* `dir_get_entries_iff`  — when `dir_get_entries` stays in the caller's buffer.
-/

namespace WhuOS
namespace Fs

open Lib Sched Kern

variable {z : Bool}

/-! ## Slots -/

namespace Block

def lookup (d : Block) (n : Name) : Option UInt16 := SlotMap.lookup d.entry DIRENT_PER_BLOCK n

/-- The inode number that a string stands for in the directory, as `dir_search_entry` gives it. -/
def number (d : Block) (name : CharPtr) : UInt16 :=
  ((Name.of name).bind d.lookup).getD INODE_NUM_UNUSED

variable {d : Block} {n : Name}

theorem entry_some {k : Nat} {i : UInt16} (h : d.entry k = some (n, i)) :
    d.entInum k = i := by
  rw [entry_eq] at h
  cases hn : Name.of (d.entByte k) with
  | none => rw [hn] at h; cases h
  | some m => rw [hn] at h; cases h; rfl

theorem matchesName_eq {name : CharPtr} (hn : Name.of name = some n) (k : Nat) :
    d.matchesName k name = ((d.entry k).map (·.1) == some n) := by
  rw [Bool.eq_iff_iff, matchesName_iff, SlotMap.key_eq_some]
  constructor
  · rintro ⟨m, hm, he⟩
    rw [hn] at hm
    cases hm
    exact ⟨_, he⟩
  · rintro ⟨i, he⟩
    exact ⟨n, hn, by rw [entry_some he]; exact he⟩

theorem findEntry_matches {name : CharPtr} (hn : Name.of name = some n) :
    (findEntry fun k => d.matchesName k name) = SlotMap.find d.entry DIRENT_PER_BLOCK n := by
  simp only [matchesName_eq hn]
  rfl

theorem findEntry_empty {name : CharPtr} (hn : Name.of name = none) :
    (findEntry fun k => d.matchesName k name) = none := by
  refine List.find?_eq_none.mpr fun k _ => ?_
  rw [matchesName_iff]
  rintro ⟨n, h, -⟩
  rw [hn] at h
  cases h

theorem entry_putEntry_eq {k : Nat} {inum : UInt16} {name : CharPtr}
    (hk : k < DIRENT_PER_BLOCK) (hn : Name.of name = some n) :
    (d.putEntry k inum name).entry = upd d.entry k (some (n, inum)) := by
  funext j
  by_cases hj : j = k
  · subst hj; rw [upd_same, entry_putEntry hk hn]
  · rw [upd_of_ne hj, entry_putEntry_other hk hj]

theorem entry_clearEntry_eq {k : Nat} (hk : k < DIRENT_PER_BLOCK) :
    (d.clearEntry k).entry = upd d.entry k none := by
  funext j
  by_cases hj : j = k
  · subst hj; rw [upd_same, entry_clearEntry hk]
  · rw [upd_of_ne hj, entry_clearEntry_other hk hj]

end Block

/-! ## Directories -/

/-- The block of the directory `pip`. -/
def FsState.dirBlock (s : FsState (Blocks z)) (pip : IId) : Nat := ((s.icache pip).d.addrs 0).toNat

def FsState.dir (s : FsState (Blocks z)) (pip : IId) : Block := s.dev (s.dirBlock pip)

/-- The used slots of a directory block have distinct names and inode numbers that are in use. -/
structure Block.IsMap (d : Block) : Prop where
  distinct : SlotMap.Distinct d.entry DIRENT_PER_BLOCK
  numbered : ∀ k n i, k < DIRENT_PER_BLOCK → d.entry k = some (n, i) → i ≠ INODE_NUM_UNUSED

/-- `size` is a number of entries, and no used slot is behind them. -/
structure Block.Covered (d : Block) (size : Nat) : Prop where
  whole : size % DIRENT_SIZE = 0
  covers : ∀ k, k < DIRENT_PER_BLOCK → d.entry k ≠ none → DIRENT_SIZE * k + DIRENT_SIZE ≤ size

/-- A directory that the caller has locked. -/
structure Directory (s : FsState (Blocks z)) (pip : IId) : Prop where
  held : (s.icache pip).slk = true
  isDir : (s.icache pip).d.type = FT_DIR
  /-- The block is not the one that the inode of the directory is in. -/
  apart : Blocks.Apart z (inodeBlock (s.icache pip).inodeNum) (s.dirBlock pip)
  isMap : (s.dir pip).IsMap
  covered : (s.dir pip).Covered (s.icache pip).d.size.toNat

variable {s : FsState (Blocks z)} {pip : IId}

theorem dirSearchEntry_run (held : (s.icache pip).slk = true)
    (isDir : (s.icache pip).d.type = FT_DIR) (name : CharPtr) :
    dirSearchEntry pip name s = .ok ((s.dir pip).number name) s := by
  have hrun : dirSearchEntry pip name s =
      (findEntry fun k => (s.dir pip).matchesName k name).elim (.ok INODE_NUM_UNUSED s)
        fun k => .ok ((s.dir pip).entInum k) s := by
    simp only [dirSearchEntry, bind_run, getIp_run, held, isDir, beq_self_eq_true, assert_true,
      pure_run, bufRead_run, bufData_run, bufRelease_run]
    rw [show s.dev ((s.icache pip).d.addrs 0).toNat = s.dir pip from rfl]
    cases findEntry fun k => (s.dir pip).matchesName k name with
    | none => rfl
    | some k => rfl
  rw [hrun]
  unfold Block.number
  cases hn : Name.of name with
  | none => rw [Block.findEntry_empty hn]; rfl
  | some n =>
    rw [Block.findEntry_matches hn, Option.bind_some, Block.lookup, SlotMap.lookup]
    cases hf : SlotMap.find (s.dir pip).entry DIRENT_PER_BLOCK n with
    | none => rfl
    | some k =>
      obtain ⟨-, i, hi⟩ := SlotMap.find_some hf
      simp [hi, Block.entry_some hi]

/-! ## `dir_add_entry` -/

/-- The search of `dir_add_entry` for a place. -/
def Block.freeSlot (d : Block) : Option Nat :=
  findEntry fun k => d.entByte k 0 == 0 || d.entInum k == INODE_NUM_UNUSED

variable {d : Block} {n : Name}

theorem Block.freeSlot_some {k : Nat} (hd : d.IsMap) (h : d.freeSlot = some k) :
    k < DIRENT_PER_BLOCK ∧ d.entry k = none := by
  obtain ⟨hq, hk, -⟩ := List.find?_range_eq_some.mp h
  refine ⟨List.mem_range.mp hk, ?_⟩
  simp only [Bool.or_eq_true, beq_iff_eq] at hq
  rcases hq with hq | hq
  · exact Block.entry_none_iff.mpr hq
  · cases he : d.entry k with
    | none => rfl
    | some e =>
      obtain ⟨n, i⟩ := e
      exact absurd (Block.entry_some he ▸ hq) (hd.numbered k n i (List.mem_range.mp hk) he)

theorem Block.freeSlot_none {k : Nat} (h : d.freeSlot = none)
    (hk : k < DIRENT_PER_BLOCK) : d.entry k ≠ none := by
  intro he
  have := List.find?_eq_none.mp h k (List.mem_range.mpr hk)
  simp [Block.entry_none_iff.mp he] at this

/-- The state after the entry is put in slot `k`. -/
def FsState.addEntry (s : FsState (Blocks z)) (pip : IId) (k : Nat) (inum : UInt16) (name : CharPtr) :
    FsState (Blocks z) :=
  let s1 := s.put (s.dirBlock pip) ((s.dir pip).putEntry k inum name)
  let size := UInt32.ofNat (DIRENT_SIZE * k + DIRENT_SIZE)
  if size > (s.icache pip).d.size then
    (s1.setIp pip { s.icache pip with d := { (s.icache pip).d with size } }).flush pip
  else s1

theorem dirAddEntry_run (held : (s.icache pip).slk = true)
    (isDir : (s.icache pip).d.type = FT_DIR) (inum : UInt16) (name : CharPtr) :
    dirAddEntry pip inum name s =
      if (s.dir pip).number name ≠ INODE_NUM_UNUSED then .ok BLOCK_SIZE s
      else match (s.dir pip).freeSlot with
        | some k => .ok (DIRENT_SIZE * k) (s.addEntry pip k inum name)
        | none => .ok BLOCK_SIZE s := by
  unfold dirAddEntry
  simp only [bind_run, getIp_run, held, isDir, beq_self_eq_true, assert_true, pure_run,
    dirSearchEntry_run held isDir, ite_not]
  by_cases hn : (s.dir pip).number name = INODE_NUM_UNUSED
  · rw [if_pos hn, if_pos hn]
    simp only [bind_run, bufRead_run, bufData_run]
    rw [show s.dev ((s.icache pip).d.addrs 0).toNat = s.dir pip from rfl, ← Block.freeSlot]
    cases hf : (s.dir pip).freeSlot with
    | none => rfl
    | some k =>
      simp only [bind_run, bufSet_run, bufWrite_run, bufRelease_run, FsState.addEntry]
      split
      · simp only [bind_run, modIp_run, FsState.put_icache]
        rw [inodeRw_write (by simpa using held)]
        rfl
      · rfl
  · rw [if_neg hn, if_neg hn]
    rfl

section AddEntry

variable {k : Nat} {inum : UInt16} {name : CharPtr}

/-- The size after an entry in slot `k`. -/
def grownSize (size : UInt32) (k : Nat) : UInt32 :=
  if UInt32.ofNat (DIRENT_SIZE * k + DIRENT_SIZE) > size then
    UInt32.ofNat (DIRENT_SIZE * k + DIRENT_SIZE)
  else size

theorem addEntry_icache : (s.addEntry pip k inum name).icache =
    upd s.icache pip { s.icache pip with
      d := { (s.icache pip).d with size := grownSize (s.icache pip).d.size k } } := by
  unfold FsState.addEntry grownSize
  simp only
  split
  · rfl
  · simp

theorem addEntry_dirBlock : (s.addEntry pip k inum name).dirBlock pip = s.dirBlock pip := by
  simp [FsState.dirBlock, addEntry_icache]

theorem addEntry_dir (h : Blocks.Apart z (inodeBlock (s.icache pip).inodeNum) (s.dirBlock pip)) :
    (s.addEntry pip k inum name).dir pip = (s.dir pip).putEntry k inum name := by
  rw [FsState.dir, addEntry_dirBlock]
  unfold FsState.addEntry
  simp only
  split
  · simp only [FsState.flush, FsState.put_dev, FsState.setIp_dev, FsState.setIp_icache, upd_same]
    rw [Blocks.store_of_apart h, Blocks.store_same]
  · simp only [FsState.put_dev, Blocks.store_same]

theorem toNat_entryEnd (hk : k < DIRENT_PER_BLOCK) :
    (UInt32.ofNat (DIRENT_SIZE * k + DIRENT_SIZE)).toNat = DIRENT_SIZE * k + DIRENT_SIZE := by
  rw [UInt32.toNat_ofNat']
  simp only [DIRENT_PER_BLOCK, DIRENT_SIZE, BLOCK_SIZE] at *
  omega

theorem toNat_grownSize {size : UInt32} (hk : k < DIRENT_PER_BLOCK) :
    (grownSize size k).toNat = max (DIRENT_SIZE * k + DIRENT_SIZE) size.toNat := by
  unfold grownSize
  simp only [gt_iff_lt, UInt32.lt_iff_toNat_lt]
  have := toNat_entryEnd hk
  split <;> omega

end AddEntry

theorem Block.Covered.putEntry {size : UInt32} {k : Nat} {inum : UInt16} {name : CharPtr}
    (h : d.Covered size.toNat) (hk : k < DIRENT_PER_BLOCK) :
    (d.putEntry k inum name).Covered (grownSize size k).toNat where
  whole := by
    rw [toNat_grownSize hk]
    have := h.whole
    simp only [DIRENT_SIZE] at *
    omega
  covers j hj hused := by
    rw [toNat_grownSize hk]
    by_cases e : j = k
    · subst e; omega
    · rw [Block.entry_putEntry_other hk e] at hused
      have := h.covers j hj hused
      omega

theorem Block.IsMap.putEntry {k : Nat} {inum : UInt16} {name : CharPtr}
    (h : d.IsMap) (hk : k < DIRENT_PER_BLOCK) (hn : Name.of name = some n)
    (hnew : d.lookup n = none) (hi : inum ≠ INODE_NUM_UNUSED) : (d.putEntry k inum name).IsMap where
  distinct := by
    rw [Block.entry_putEntry_eq hk hn]
    exact h.distinct.put hnew
  numbered j m i hj he := by
    rw [Block.entry_putEntry_eq hk hn] at he
    by_cases e : j = k
    · subst e; rw [upd_same] at he; cases he; exact hi
    · rw [upd_of_ne e] at he; exact h.numbered j m i hj he

theorem Block.lookup_putEntry {k : Nat} {inum : UInt16} {name : CharPtr}
    (h : d.IsMap) (hk : k < DIRENT_PER_BLOCK) (h0 : d.entry k = none) (hn : Name.of name = some n)
    (hnew : d.lookup n = none) : (d.putEntry k inum name).lookup = upd d.lookup n (some inum) := by
  show SlotMap.lookup (d.putEntry k inum name).entry DIRENT_PER_BLOCK = _
  rw [Block.entry_putEntry_eq hk hn]
  exact SlotMap.lookup_put h.distinct hk h0 hnew

theorem Directory.addEntry {k : Nat} {inum : UInt16} {name : CharPtr} (h : Directory s pip)
    (hk : k < DIRENT_PER_BLOCK) (hn : Name.of name = some n) (hnew : (s.dir pip).lookup n = none)
    (hi : inum ≠ INODE_NUM_UNUSED) : Directory (s.addEntry pip k inum name) pip where
  held := by simp [addEntry_icache, h.held]
  isDir := by simp [addEntry_icache, h.isDir]
  apart := by
    rw [addEntry_dirBlock]
    simpa [addEntry_icache] using h.apart
  isMap := by
    rw [addEntry_dir h.apart]
    exact h.isMap.putEntry hk hn hnew hi
  covered := by
    rw [addEntry_dir h.apart]
    simpa [addEntry_icache] using h.covered.putEntry hk

/-! ## `dir_delete_entry` -/

/-- The state after slot `k` is cleared. -/
def FsState.clearEntry (s : FsState (Blocks z)) (pip : IId) (k : Nat) : FsState (Blocks z) :=
  s.put (s.dirBlock pip) ((s.dir pip).clearEntry k)

theorem clearEntry_dir {k : Nat} : (s.clearEntry pip k).dir pip = (s.dir pip).clearEntry k := by
  simp [FsState.dir, FsState.dirBlock, FsState.clearEntry]

theorem dirDeleteEntry_run (held : (s.icache pip).slk = true)
    (isDir : (s.icache pip).d.type = FT_DIR) (name : CharPtr) :
    dirDeleteEntry pip name s =
      match findEntry fun k => (s.dir pip).matchesName k name with
      | some k => .ok ((s.dir pip).entInum k) (s.clearEntry pip k)
      | none => .ok INODE_NUM_UNUSED s := by
  unfold dirDeleteEntry
  simp only [bind_run, getIp_run, held, isDir, beq_self_eq_true, assert_true, pure_run,
    bufRead_run, bufData_run]
  rw [show s.dev ((s.icache pip).d.addrs 0).toNat = s.dir pip from rfl]
  cases findEntry fun k => (s.dir pip).matchesName k name with
  | none => rfl
  | some k => rfl

theorem Block.Covered.clearEntry {size k : Nat} (h : d.Covered size)
    (hk : k < DIRENT_PER_BLOCK) : (d.clearEntry k).Covered size where
  whole := h.whole
  covers j hj hused := by
    by_cases e : j = k
    · subst e; exact absurd (Block.entry_clearEntry hk) hused
    · rw [Block.entry_clearEntry_other hk e] at hused; exact h.covers j hj hused

theorem Block.IsMap.clearEntry {k : Nat} (h : d.IsMap) (hk : k < DIRENT_PER_BLOCK) :
    (d.clearEntry k).IsMap where
  distinct := by
    rw [Block.entry_clearEntry_eq hk]
    exact h.distinct.clear
  numbered j m i hj he := by
    rw [Block.entry_clearEntry_eq hk] at he
    by_cases e : j = k
    · subst e; rw [upd_same] at he; cases he
    · rw [upd_of_ne e] at he; exact h.numbered j m i hj he

theorem Block.lookup_clearEntry {k : Nat} {i : UInt16} (h : d.IsMap)
    (hk : k < DIRENT_PER_BLOCK) (h0 : d.entry k = some (n, i)) :
    (d.clearEntry k).lookup = upd d.lookup n none := by
  show SlotMap.lookup (d.clearEntry k).entry DIRENT_PER_BLOCK = _
  rw [Block.entry_clearEntry_eq hk]
  exact SlotMap.lookup_clear h.distinct hk h0

theorem Directory.clearEntry {k : Nat} (h : Directory s pip) (hk : k < DIRENT_PER_BLOCK) :
    Directory (s.clearEntry pip k) pip where
  held := h.held
  isDir := h.isDir
  apart := h.apart
  isMap := by rw [clearEntry_dir]; exact h.isMap.clearEntry hk
  covered := by rw [clearEntry_dir]; exact h.covered.clearEntry hk

/-! ## Sequences of calls -/

inductive EntryCall where
  | add (inum : UInt16) (name : CharPtr)
  | delete (name : CharPtr)
  | search (name : CharPtr)

namespace EntryCall

def exec (pip : IId) : EntryCall → FsM (Blocks z) Nat
  | add inum name => dirAddEntry pip inum name
  | delete name => do return (← dirDeleteEntry pip name).toNat
  | search name => do return (← dirSearchEntry pip name).toNat

/-- A new entry has a name and the number of an inode. -/
def Proper : EntryCall → Prop
  | add inum name => Name.of name ≠ none ∧ inum ≠ INODE_NUM_UNUSED
  | _ => True

/-- What a call that returned `r` does to the map from names to inode numbers. -/
def effect (m : Name → Option UInt16) : EntryCall × Nat → Name → Option UInt16
  | (add inum name, r) =>
    match Name.of name with
    | some n => if r = BLOCK_SIZE then m else upd m n (some inum)
    | none => m
  | (delete name, _) =>
    match Name.of name with
    | some n => upd m n none
    | none => m
  | (search _, _) => m

end EntryCall

/-- The calls `h`, each with its result, lead from `s` to `s'`. -/
inductive EntryRun (pip : IId) (s : FsState (Blocks z)) :
    List (EntryCall × Nat) → FsState (Blocks z) → Prop where
  | start : EntryRun pip s [] s
  | step {h s' c r s''} : EntryRun pip s h s' → EntryCall.Proper c → c.exec pip s' = .ok r s'' →
      EntryRun pip s (h ++ [(c, r)]) s''

/-- The entries with other names are in the same slots, byte for byte. -/
def KeepsOthers (name : CharPtr) (d d' : Block) : Prop :=
  ∀ k n i, k < DIRENT_PER_BLOCK → Name.of name ≠ some n →
    (d'.entry k = some (n, i) ↔ d.entry k = some (n, i)) ∧
    (d.entry k = some (n, i) → ∀ j, j < DIRENT_SIZE →
      d'.byte (DIRENT_SIZE * k + j) = d.byte (DIRENT_SIZE * k + j))

theorem KeepsOthers.refl (name : CharPtr) (d : Block) : KeepsOthers name d d :=
  fun _ _ _ _ _ => ⟨Iff.rfl, fun _ _ _ => rfl⟩

theorem KeepsOthers.blit {name : CharPtr} {k : Nat} {src : Nat → UInt8}
    (hk : k < DIRENT_PER_BLOCK)
    (hold : ∀ n i, Name.of name ≠ some n → d.entry k ≠ some (n, i))
    (hnew : ∀ n i, Name.of name ≠ some n →
      (d.blit (DIRENT_SIZE * k) DIRENT_SIZE src).entry k ≠ some (n, i)) :
    KeepsOthers name d (d.blit (DIRENT_SIZE * k) DIRENT_SIZE src) := by
  intro j n i hj hn
  by_cases e : j = k
  · subst e
    exact ⟨⟨fun h => absurd h (hnew n i hn), fun h => absurd h (hold n i hn)⟩,
      fun h => absurd h (hold n i hn)⟩
  · have hb : ∀ a, a < DIRENT_SIZE → (d.blit (DIRENT_SIZE * k) DIRENT_SIZE src).byte
        (DIRENT_SIZE * j + a) = d.byte (DIRENT_SIZE * j + a) := by
      intro a ha
      rw [Block.byte_blit (by simp only [DIRENT_PER_BLOCK, DIRENT_SIZE, BLOCK_SIZE] at *; omega),
        Bytes.write_outside (by simp only [DIRENT_SIZE] at *; omega)]
    exact ⟨by rw [Block.entry_congr hb], fun _ => hb⟩

/-- One call, from a directory with the map `m`. -/
structure EntryStep (s : FsState (Blocks z)) (pip : IId) (c : EntryCall) (r : Nat)
    (s' : FsState (Blocks z)) : Prop where
  directory : Directory s' pip
  lookup : (s'.dir pip).lookup = EntryCall.effect (s.dir pip).lookup (c, r)

theorem add_step (h : Directory s pip) {inum : UInt16} {name : CharPtr}
    (hn : Name.of name = some n) (hi : inum ≠ INODE_NUM_UNUSED) :
    ∃ r s', dirAddEntry pip inum name s = .ok r s' ∧ EntryStep s pip (.add inum name) r s' ∧
      (r = BLOCK_SIZE ↔ (∃ k i, k < DIRENT_PER_BLOCK ∧ (s.dir pip).entry k = some (n, i)) ∨
        ∀ k, k < DIRENT_PER_BLOCK → (s.dir pip).entry k ≠ none) ∧
      (r = BLOCK_SIZE → s' = s) ∧ KeepsOthers name (s.dir pip) (s'.dir pip) := by
  have hfail : EntryStep s pip (.add inum name) BLOCK_SIZE s :=
    ⟨h, by simp [EntryCall.effect, hn]⟩
  rw [dirAddEntry_run h.held h.isDir]
  cases hl : (s.dir pip).lookup n with
  | some i =>
    obtain ⟨k, hk, he⟩ := SlotMap.lookup_some hl
    have hne : (s.dir pip).number name ≠ INODE_NUM_UNUSED := by
      simpa [Block.number, hn, hl] using h.isMap.numbered k n i hk he
    rw [if_pos hne]
    exact ⟨_, _, rfl, hfail, ⟨fun _ => .inl ⟨k, i, hk, he⟩, fun _ => rfl⟩, fun _ => rfl,
      .refl name _⟩
  | none =>
    have hz : (s.dir pip).number name = INODE_NUM_UNUSED := by simp [Block.number, hn, hl]
    rw [if_neg (not_not.mpr hz)]
    have hno := SlotMap.lookup_eq_none.mp hl
    cases hf : (s.dir pip).freeSlot with
    | none =>
      exact ⟨_, _, rfl, hfail, ⟨fun _ => .inr fun k hk => Block.freeSlot_none hf hk, fun _ => rfl⟩,
        fun _ => rfl, .refl name _⟩
    | some k =>
      obtain ⟨hk, hk0⟩ := Block.freeSlot_some h.isMap hf
      have hr : DIRENT_SIZE * k ≠ BLOCK_SIZE := by
        simp only [DIRENT_PER_BLOCK, DIRENT_SIZE, BLOCK_SIZE] at *; omega
      refine ⟨_, _, rfl, ⟨h.addEntry hk hn hl hi, ?_⟩, ⟨fun e => absurd e hr, ?_⟩,
        fun e => absurd e hr, ?_⟩
      · rw [addEntry_dir h.apart, Block.lookup_putEntry h.isMap hk hk0 hn hl]
        simp [EntryCall.effect, hn, hr]
      · rintro (⟨j, i, hj, he⟩ | hfull)
        · exact absurd he (hno j i hj)
        · exact absurd hk0 (hfull k hk)
      · rw [addEntry_dir h.apart]
        refine .blit hk (fun m i _ => by rw [hk0]; rintro ⟨⟩) fun m i hm => ?_
        have := @Block.entry_putEntry (s.dir pip) k inum _ _ hk hn
        rw [Block.putEntry] at this
        rw [this]
        rintro ⟨⟩
        exact hm hn

theorem delete_step (h : Directory s pip) (name : CharPtr) :
    ∃ r s', dirDeleteEntry pip name s = .ok r s' ∧ EntryStep s pip (.delete name) r.toNat s' ∧
      KeepsOthers name (s.dir pip) (s'.dir pip) := by
  rw [dirDeleteEntry_run h.held h.isDir]
  cases hn : Name.of name with
  | none =>
    rw [Block.findEntry_empty hn]
    exact ⟨_, _, rfl, ⟨h, by simp [EntryCall.effect, hn]⟩, .refl name _⟩
  | some n =>
    rw [Block.findEntry_matches hn]
    cases hf : SlotMap.find (s.dir pip).entry DIRENT_PER_BLOCK n with
    | none =>
      have hl : (s.dir pip).lookup n = none := by simp [Block.lookup, SlotMap.lookup, hf]
      refine ⟨_, _, rfl, ⟨h, ?_⟩, .refl name _⟩
      rw [EntryCall.effect, hn]
      simp only
      rw [← hl, upd_self]
    | some k =>
      obtain ⟨hk, i, he⟩ := SlotMap.find_some hf
      refine ⟨_, _, rfl, ⟨h.clearEntry hk, ?_⟩, ?_⟩
      · rw [clearEntry_dir, Block.lookup_clearEntry h.isMap hk he]
        simp [EntryCall.effect, hn]
      · rw [clearEntry_dir]
        refine .blit hk (fun m j hm => ?_) fun m j _ => ?_
        · rw [he]
          rintro ⟨⟩
          exact hm hn
        · have := Block.entry_clearEntry (d := s.dir pip) hk
          rw [Block.clearEntry] at this
          rw [this]
          rintro ⟨⟩

theorem exec_step (h : Directory s pip) {c : EntryCall} (hc : c.Proper) {r : Nat}
    {s' : FsState (Blocks z)} (hrun : c.exec pip s = .ok r s') : EntryStep s pip c r s' := by
  cases c with
  | add inum name =>
    obtain ⟨n, hn⟩ := Option.ne_none_iff_exists'.mp hc.1
    obtain ⟨r', t, hok, hst, -⟩ := add_step h hn hc.2
    rw [EntryCall.exec, hok] at hrun
    cases hrun
    exact hst
  | delete name =>
    obtain ⟨r', t, hok, hst, -⟩ := delete_step h name
    rw [EntryCall.exec, bind_of_ok hok] at hrun
    cases hrun
    exact hst
  | search name =>
    rw [EntryCall.exec, bind_of_ok (dirSearchEntry_run h.held h.isDir name)] at hrun
    cases hrun
    exact ⟨h, rfl⟩

/-- The map after the calls `h`, from the one the block was at the start. -/
def mapAfter (m : Name → Option UInt16) (h : List (EntryCall × Nat)) : Name → Option UInt16 :=
  h.foldl EntryCall.effect m

theorem EntryRun.map {h : List (EntryCall × Nat)} {s' : FsState (Blocks z)} (h0 : Directory s pip)
    (hr : EntryRun pip s h s') :
    Directory s' pip ∧ (s'.dir pip).lookup = mapAfter (s.dir pip).lookup h := by
  induction hr with
  | start => exact ⟨h0, rfl⟩
  | step _ hc hrun ih =>
    obtain ⟨hd, hl⟩ := exec_step ih.1 hc hrun
    refine ⟨hd, ?_⟩
    rw [hl, ih.2, mapAfter, mapAfter, List.foldl_append]
    rfl

/-- A directory block is a finite map. After any calls, from a directory with distinct names: the
names are distinct and the size covers them; a search gives the number that the calls left for the
name; adding fails exactly when the name is there or no slot is free, and then changes nothing; and
adding and deleting leave the entries of other names as they are. -/
theorem directory_is_map (s s' : FsState Disk) (pip : IId) (h : List (EntryCall × Nat))
    (h0 : Directory s pip) (hr : EntryRun pip s h s') :
    Directory s' pip ∧
    (∀ name, dirSearchEntry pip name s' =
      .ok (((Name.of name).bind (mapAfter (s.dir pip).lookup h)).getD INODE_NUM_UNUSED) s') ∧
    (∀ inum name n, Name.of name = some n → inum ≠ INODE_NUM_UNUSED →
      ∃ r t, dirAddEntry pip inum name s' = .ok r t ∧
        (r = BLOCK_SIZE ↔ (∃ k i, k < DIRENT_PER_BLOCK ∧ (s'.dir pip).entry k = some (n, i)) ∨
          ∀ k, k < DIRENT_PER_BLOCK → (s'.dir pip).entry k ≠ none) ∧
        (r = BLOCK_SIZE → t = s') ∧ KeepsOthers name (s'.dir pip) (t.dir pip)) ∧
    ∀ name, ∃ r t, dirDeleteEntry pip name s' = .ok r t ∧
      KeepsOthers name (s'.dir pip) (t.dir pip) := by
  obtain ⟨hd, hl⟩ := hr.map h0
  refine ⟨hd, fun name => ?_, fun inum name n hn hi => ?_, fun name => ?_⟩
  · rw [dirSearchEntry_run hd.held hd.isDir, Block.number, hl]
  · obtain ⟨r, t, hok, -, hrest⟩ := add_step hd hn hi
    exact ⟨r, t, hok, hrest⟩
  · obtain ⟨r, t, hok, -, hrest⟩ := delete_step hd name
    exact ⟨r, t, hok, hrest⟩

/-- A directory without entries on an empty disk. -/
def emptyDir : FsState Disk where
  dev := fun _ => Block.zero
  icache := fun _ =>
    { d := { type := FT_DIR, major := 0, minor := 0, nlink := 1, size := 0, addrs := fun _ => 131 }
      inodeNum := 0, ref := 1, valid := true, slk := true }
  ftable := fun _ =>
    { type := .unused, readable := false, writable := false, ref := 0, major := 0, offset := 0,
      ip := none }
  procs := fun _ => { filelist := fun _ => none, cwd := none }

theorem directory_emptyDir : Directory emptyDir 0 where
  held := rfl
  isDir := rfl
  apart := ⟨by decide, .inl rfl⟩
  isMap :=
    { distinct := fun i _ _ _ _ _ _ h => nomatch (Block.entry_zero i).symm.trans h
      numbered := fun k _ _ _ h => nomatch (Block.entry_zero k).symm.trans h }
  covered := ⟨rfl, fun k _ h => absurd (Block.entry_zero k) h⟩

/-- `.` and `..` are added and `.` is deleted: only `..` is found. -/
theorem directory_is_map_dots : ∃ s', EntryRun 0 emptyDir [(.add 5 Name.dot.byte, 0),
      (.add 6 Name.dotdot.byte, DIRENT_SIZE), (.delete Name.dot.byte, 5)] s' ∧
    dirSearchEntry 0 Name.dot.byte s' = .ok INODE_NUM_UNUSED s' ∧
    dirSearchEntry 0 Name.dotdot.byte s' = .ok 6 s' := by
  let s1 := emptyDir.addEntry 0 0 5 Name.dot.byte
  let s2 := s1.addEntry 0 1 6 Name.dotdot.byte
  have h1 : dirAddEntry 0 5 Name.dot.byte emptyDir = .ok 0 s1 := by
    rw [dirAddEntry_run rfl rfl, if_neg (by decide), show (emptyDir.dir 0).freeSlot = some 0 by decide]
    rfl
  have h2 : dirAddEntry 0 6 Name.dotdot.byte s1 = .ok DIRENT_SIZE s2 := by
    rw [dirAddEntry_run rfl rfl, if_neg (by decide +kernel),
      show (s1.dir 0).freeSlot = some 1 by decide +kernel]
    rfl
  have h3 : dirDeleteEntry 0 Name.dot.byte s2 = .ok 5 (s2.clearEntry 0 0) := by
    rw [dirDeleteEntry_run rfl rfl,
      show (findEntry fun k => (s2.dir 0).matchesName k Name.dot.byte) = some 0 by decide +kernel]
    exact congrArg (fun n => EStateM.Result.ok n (s2.clearEntry 0 0))
      (show (s2.dir 0).entInum 0 = 5 by decide +kernel)
  have hr1 : EntryRun 0 emptyDir [(.add 5 Name.dot.byte, 0)] s1 :=
    .step .start ⟨by simp, by decide⟩ h1
  have hr2 : EntryRun 0 emptyDir [(.add 5 Name.dot.byte, 0), (.add 6 Name.dotdot.byte, DIRENT_SIZE)]
      s2 := .step hr1 ⟨by simp, by decide⟩ h2
  have hr : EntryRun 0 emptyDir [(.add 5 Name.dot.byte, 0), (.add 6 Name.dotdot.byte, DIRENT_SIZE),
      (.delete Name.dot.byte, 5)] (s2.clearEntry 0 0) := .step hr2 trivial (bind_of_ok h3)
  have hmap := directory_is_map emptyDir _ 0 _ directory_emptyDir hr
  refine ⟨_, hr, ?_, ?_⟩
  · rw [hmap.2.1, Name.of_byte]
    simp [mapAfter, EntryCall.effect]
  · rw [hmap.2.1, Name.of_byte]
    simp [mapAfter, EntryCall.effect, show Name.dotdot ≠ Name.dot by decide]

/-! ## `dir_get_entries` -/

/-- The entries that `dir_get_entries` copies. -/
def Block.live (d : Block) (k : Nat) : Bool :=
  d.entByte k 0 != 0 && d.entInum k != INODE_NUM_UNUSED

def Block.liveSlots (d : Block) : List Nat := (List.range DIRENT_PER_BLOCK).filter d.live

/-- The bytes of the entries in the places `ks`, one after the other. -/
def Block.slotBytes (d : Block) (ks : List Nat) (x : Nat) : UInt8 :=
  d.byte (DIRENT_SIZE * ks.getD (x / DIRENT_SIZE) 0 + x % DIRENT_SIZE)

/-- How many of the entries in the places `ks` are copied, when `room` bytes are left. -/
def copied (d : Block) (ks : List Nat) (room : Nat) : Nat :=
  min (ks.filter d.live).length ((room + 31) / DIRENT_SIZE)

theorem slotBytes_cons (d : Block) (k : Nat) (ks : List Nat) (x : Nat) :
    d.slotBytes (k :: ks) x =
      if x < DIRENT_SIZE then d.byte (DIRENT_SIZE * k + x) else d.slotBytes ks (x - DIRENT_SIZE) := by
  unfold Block.slotBytes
  simp only [DIRENT_SIZE]
  split
  · rw [Nat.div_eq_of_lt ‹_›, Nat.mod_eq_of_lt ‹_›]
    rfl
  · rw [show x / 32 = (x - 32) / 32 + 1 by omega, List.getD_cons_succ,
      show x % 32 = (x - 32) % 32 by omega]

theorem getEntries_eq (d : Block) (len : UInt32) (dst : Nat) : ∀ (ks : List Nat) (total : UInt32)
    (mem : Bytes), total.toNat + DIRENT_SIZE * ks.length < 2 ^ 32 →
    getEntries d len dst ks total mem =
      (UInt32.ofNat (total.toNat + DIRENT_SIZE * copied d ks (len.toNat - total.toNat)),
        mem.write (dst + total.toNat) (DIRENT_SIZE * copied d ks (len.toNat - total.toNat))
          (d.slotBytes (ks.filter d.live))) := by
  intro ks
  induction ks with
  | nil => intro total mem _; simp [getEntries, copied]
  | cons k ks ih =>
    intro total mem hlt
    rw [List.length_cons, Nat.mul_succ] at hlt
    rw [getEntries]
    by_cases hroom : total < len
    · rw [if_pos hroom]
      rw [UInt32.lt_iff_toNat_lt] at hroom
      by_cases hlive : d.entByte k 0 ≠ 0 ∧ d.entInum k ≠ INODE_NUM_UNUSED
      · have hl : d.live k = true := by simp [Block.live, hlive]
        have htotal : (total + UInt32.ofNat DIRENT_SIZE).toNat = total.toNat + DIRENT_SIZE := by
          rw [UInt32.toNat_add, UInt32.toNat_ofNat']
          simp only [DIRENT_SIZE] at *
          omega
        have hcopied : copied d (k :: ks) (len.toNat - total.toNat) =
            copied d ks (len.toNat - (total.toNat + DIRENT_SIZE)) + 1 := by
          unfold copied
          rw [List.filter_cons_of_pos hl, List.length_cons]
          simp only [DIRENT_SIZE]
          omega
        rw [if_pos hlive, ih _ _ (by rw [htotal]; omega), htotal, hcopied, List.filter_cons_of_pos hl,
          ← Nat.add_assoc dst, Bytes.write_append, Nat.mul_succ, Nat.add_assoc total.toNat,
          Nat.add_comm DIRENT_SIZE]
        exact Prod.ext rfl (Bytes.write_congr fun i _ => (slotBytes_cons d k _ i).symm)
      · have hl : ¬ d.live k = true := by simpa [Block.live] using hlive
        rw [if_neg hlive, ih _ _ (by omega), copied, copied, List.filter_cons_of_neg hl]
    · rw [if_neg hroom]
      rw [UInt32.lt_iff_toNat_lt] at hroom
      have h0 : copied d (k :: ks) (len.toNat - total.toNat) = 0 := by
        unfold copied
        simp only [DIRENT_SIZE]
        omega
      rw [h0]
      simp

theorem dirGetEntries_run (held : (s.icache pip).slk = true)
    (isDir : (s.icache pip).d.type = FT_DIR) (len : UInt32) (dst : Nat) (mem : Bytes) :
    dirGetEntries pip len dst mem s =
      .ok (getEntries (s.dir pip) len dst (List.range DIRENT_PER_BLOCK) 0 mem) s := by
  simp only [dirGetEntries, bind_run, getIp_run, held, isDir, beq_self_eq_true, assert_true,
    pure_run, bufRead_run, bufData_run, bufRelease_run]
  rfl

/-- What the caller of `dir_get_entries` expects of the result and of its memory `mem`. -/
structure RespectsBuffer (d : Block) (len : UInt32) (dst : Nat) (mem : Bytes) (r : UInt32 × Bytes) :
    Prop where
  inside : ∀ x, ¬ (dst ≤ x ∧ x < dst + len.toNat) → r.2 x = mem x
  whole : r.1.toNat % DIRENT_SIZE = 0
  fits : r.1.toNat ≤ len.toNat
  /-- The first entries, as many as there is room for, and nothing else. -/
  entries :
    let ks := d.liveSlots.take (len.toNat / DIRENT_SIZE)
    r.1.toNat = DIRENT_SIZE * ks.length ∧
      r.2 = mem.write dst (DIRENT_SIZE * ks.length) (d.slotBytes ks)

/-- `dir_get_entries` stays in the buffer iff its length is a number of entries or all entries fit
in it: the loop goes on while any byte is left, and copies whole entries. -/
theorem dir_get_entries_iff (s : FsState Disk) (pip : IId) (held : (s.icache pip).slk = true)
    (isDir : (s.icache pip).d.type = FT_DIR) (len : UInt32) (dst : Nat) (mem : Bytes) :
    ∃ r, dirGetEntries pip len dst mem s = .ok r s ∧
      (RespectsBuffer (s.dir pip) len dst mem r ↔
        len.toNat % DIRENT_SIZE = 0 ∨ (s.dir pip).liveSlots.length ≤ len.toNat / DIRENT_SIZE) := by
  refine ⟨_, dirGetEntries_run held isDir len dst mem, ?_⟩
  generalize s.dir pip = d
  have hle : d.liveSlots.length ≤ DIRENT_PER_BLOCK := by
    simpa [Block.liveSlots] using List.length_filter_le d.live (List.range DIRENT_PER_BLOCK)
  have hm : copied d (List.range DIRENT_PER_BLOCK) len.toNat =
      min d.liveSlots.length ((len.toNat + 31) / DIRENT_SIZE) := rfl
  rw [getEntries_eq d len dst _ 0 mem (by decide)]
  simp only [UInt32.toNat_zero, Nat.zero_add, Nat.add_zero, Nat.sub_zero]
  generalize copied d (List.range DIRENT_PER_BLOCK) len.toNat = m at hm
  rw [← Block.liveSlots]
  have htoNat : (UInt32.ofNat (DIRENT_SIZE * m)).toNat = DIRENT_SIZE * m := by
    rw [UInt32.toNat_ofNat']
    simp only [DIRENT_SIZE, DIRENT_PER_BLOCK, BLOCK_SIZE] at *
    omega
  constructor
  · intro h
    have := h.fits
    rw [htoNat] at this
    simp only [DIRENT_SIZE] at *
    omega
  · intro h
    have hk : (d.liveSlots.take (len.toNat / DIRENT_SIZE)).length = m := by
      rw [List.length_take]
      simp only [DIRENT_SIZE] at *
      omega
    have hfit : DIRENT_SIZE * m ≤ len.toNat := by
      simp only [DIRENT_SIZE] at *
      omega
    refine ⟨fun x hx => Bytes.write_outside (by omega), ?_, by rw [htoNat]; exact hfit, ?_⟩
    · rw [htoNat, Nat.mul_mod_right]
    · simp only [hk, htoNat, true_and]
      refine Bytes.write_congr fun i hi => ?_
      have hlt : i / DIRENT_SIZE < len.toNat / DIRENT_SIZE := by
        simp only [DIRENT_SIZE] at *
        omega
      rw [Block.slotBytes, Block.slotBytes, List.getD_eq_getElem?_getD, List.getD_eq_getElem?_getD,
        List.getElem?_take_of_lt hlt]

/-- The root directory of the image, locked. -/
def rootDir : FsState Disk := { emptyDir with dev := Mkfs.image fun _ => 0 }

/-- In a buffer of two entries both fit. -/
theorem dir_get_entries_iff_two : ∃ r, dirGetEntries 0 64 0 (fun _ => 0) rootDir = .ok r rootDir ∧
    RespectsBuffer (rootDir.dir 0) 64 0 (fun _ => 0) r := by
  obtain ⟨r, hrun, hiff⟩ := dir_get_entries_iff rootDir 0 rfl rfl 64 0 fun _ => 0
  exact ⟨r, hrun, hiff.mpr (.inl rfl)⟩

/-- A buffer of one byte gets a whole entry: the `.` of the name lands behind it. -/
theorem dir_get_entries_overruns : ∃ r, dirGetEntries 0 1 0 (fun _ => 0) rootDir = .ok r rootDir ∧
    r.1 = 32 ∧ r.2 2 = 46 ∧ ¬ RespectsBuffer (rootDir.dir 0) 1 0 (fun _ => 0) r := by
  have hr : (getEntries (rootDir.dir 0) 1 0 (List.range DIRENT_PER_BLOCK) 0 fun _ => 0).1 = 32 ∧
      (getEntries (rootDir.dir 0) 1 0 (List.range DIRENT_PER_BLOCK) 0 fun _ => 0).2 2 = 46 := by
    decide +kernel
  refine ⟨_, dirGetEntries_run rfl rfl 1 0 _, hr.1, hr.2, fun h => ?_⟩
  have := h.fits
  rw [hr.1] at this
  exact absurd this (by decide)

end Fs
end WhuOS
