import Mathlib.Order.Bounds.Basic
import WhuOS.Fs.Disk
import WhuOS.Fs.Mkfs

/-!
# WhuOS.Fs.Bitmap

A bitmap block as a set of numbers (`taken`), and the bitmap code of the kernel and of `mkfs` as
operations on it.

* `searchAndSet_cases`, `unset_cases` — each function on the set.
* `BitRun`           — any sequence of calls on one bitmap block.
* `Mkfs.bitAlloc_run` — the search of `mkfs`, which works on signed characters.
* `bitmap_is_set`    — the allocator.
-/

namespace WhuOS
namespace Fs

open Lib Kern

/-! ## The set of a block -/

namespace Block

/-- The numbers whose bit is set. -/
def taken (d : Block) : Set Nat := {n | n < BIT_PER_BLOCK ∧ d.bit n = true}

theorem ext_bit {d d' : Block} (h : ∀ n, n < BIT_PER_BLOCK → d.bit n = d'.bit n) : d = d' := by
  funext i
  have hbyte : ∀ e : Block, e.byte i.val = e i := fun e => dif_pos i.isLt
  rw [← hbyte d, ← hbyte d', ← UInt8.toNat_inj]
  refine Nat.eq_of_testBit_eq fun k => ?_
  by_cases hk : k < 8
  · have hi := i.isLt
    have hb := h (8 * i.val + k) (by simp only [BIT_PER_BLOCK, BLOCK_SIZE] at *; omega)
    unfold bit at hb
    rwa [show (8 * i.val + k) / 8 = i.val by omega, show (8 * i.val + k) % 8 = k by omega] at hb
  · have hlt : ∀ b : UInt8, b.toNat < 2 ^ k := fun b =>
      Nat.lt_of_lt_of_le b.toNat_lt (Nat.pow_le_pow_right (by decide) (by omega))
    rw [Nat.testBit_lt_two_pow (hlt _), Nat.testBit_lt_two_pow (hlt _)]

variable {d : Block} {n : Nat}

theorem taken_setBit (hn : n < BIT_PER_BLOCK) : (d.setBit n).taken = insert n d.taken := by
  ext m
  simp only [taken, Set.mem_ofPred_eq, Set.mem_insert_iff, bit_setBit hn, Bool.or_eq_true,
    decide_eq_true_eq]
  constructor
  · rintro ⟨hm, hb | rfl⟩
    · exact .inr ⟨hm, hb⟩
    · exact .inl rfl
  · rintro (rfl | ⟨hm, hb⟩)
    · exact ⟨hn, .inr rfl⟩
    · exact ⟨hm, .inl hb⟩

theorem taken_clearBit (hn : n < BIT_PER_BLOCK) : (d.clearBit n).taken = d.taken \ {n} := by
  ext m
  simp only [taken, Set.mem_ofPred_eq, Set.mem_sdiff, Set.mem_singleton_iff, bit_clearBit hn,
    Bool.and_eq_true, decide_eq_true_eq, and_assoc]

theorem clearBit_setBit (hn : n < BIT_PER_BLOCK) (hb : d.bit n = false) :
    (d.setBit n).clearBit n = d := by
  refine ext_bit fun m _ => ?_
  rw [bit_clearBit hn, bit_setBit hn]
  by_cases hm : m = n
  · simp [hm, hb]
  · simp [hm]

theorem searchAndSet_cases (d : Block) :
    (∃ n d', d.searchAndSet = some (n, d') ∧ IsLeast {m | m < BIT_PER_BLOCK ∧ m ∉ d.taken} n ∧
      d'.taken = insert n d.taken ∧ d'.unset n = some d) ∨
    d.searchAndSet = none ∧ d.taken = {n | n < BIT_PER_BLOCK} := by
  rw [searchAndSet_eq]
  cases h : d.firstClear with
  | some n =>
    obtain ⟨hn, hb, hleast⟩ := firstClear_some h
    refine .inl ⟨n, d.setBit n, rfl, ⟨⟨hn, fun hm => ?_⟩, fun m hm => ?_⟩, taken_setBit hn, ?_⟩
    · have h1 := hm.2
      rw [hb] at h1
      cases h1
    · exact Nat.le_of_not_lt fun hlt => hm.2 ⟨hm.1, hleast m hlt⟩
    · rw [unset_eq, if_pos (by rw [bit_setBit hn]; simp), clearBit_setBit hn hb]
  | none =>
    refine .inr ⟨rfl, Set.ext fun n => ⟨fun hm => hm.1, fun hm => ⟨hm, ?_⟩⟩⟩
    exact clearFrom_none h n (Nat.zero_le n) (by rw [Nat.zero_add]; exact hm)

theorem unset_cases (h : n ∈ d.taken) : ∃ d', d.unset n = some d' ∧ d'.taken = d.taken \ {n} :=
  ⟨_, by rw [unset_eq, if_pos h.2], taken_clearBit h.1⟩

theorem unset_none (h : n < BIT_PER_BLOCK) (hn : n ∉ d.taken) : d.unset n = none := by
  rw [unset_eq, if_neg fun hb => hn ⟨h, hb⟩]

end Block

/-! ## The calls -/

section Calls

variable {z : Bool} (s : FsState (Blocks z)) (b : Nat)

theorem bitmapSearchAndSet_run :
    bitmapSearchAndSet b s = match (s.dev b).searchAndSet with
      | some (n, d) => .ok n (s.put b d)
      | none => .error (.panic "bitmap_search_and_set: no bit left") s := by
  simp only [bitmapSearchAndSet, bind_run, bufRead_run, bufData_run]
  cases (s.dev b).searchAndSet with
  | none => rfl
  | some r => rfl

theorem bitmapUnset_run {n : Nat} (hn : n < BIT_PER_BLOCK) :
    bitmapUnset b n s = match (s.dev b).unset n with
      | some d => .ok () (s.put b d)
      | none => .error (.panic "bitmap_unset: bit already free") s := by
  have hle : ¬ BIT_PER_BLOCK ≤ n := by omega
  simp only [bitmapUnset, bind_run, bufRead_run, bufData_run, if_neg hle]
  cases (s.dev b).unset n with
  | none => rfl
  | some d => rfl

end Calls

theorem FsState.put_put (s : FsState Disk) (b : Nat) (d : Block) :
    (s.put b d).put b (s.dev b) = s := by
  have hd : (s.dev.store b d).store b (s.dev b) = s.dev := by
    funext x
    by_cases hx : x = b
    · subst hx; rw [Blocks.store_same]
    · rw [Blocks.store_of_apart ⟨hx, .inl rfl⟩, Blocks.store_of_apart ⟨hx, .inl rfl⟩]
  show { s with dev := (s.dev.store b d).store b (s.dev b) } = s
  rw [hd]

/-- A call on a bitmap block that has returned. -/
inductive BitCall where
  /-- `bitmap_search_and_set` returned `n`. -/
  | got (n : Nat)
  /-- `bitmap_unset` of `n`. -/
  | freed (n : Nat)
  deriving DecidableEq

/-- The calls `l` on bitmap block `b`, one after the other. -/
inductive BitRun (b : Nat) : FsState Disk → List BitCall → FsState Disk → Prop
  | nil (s : FsState Disk) : BitRun b s [] s
  | search {s s' t : FsState Disk} {n : Nat} {l : List BitCall} :
      bitmapSearchAndSet b s = .ok n s' → BitRun b s' l t → BitRun b s (.got n :: l) t
  | unset {s s' t : FsState Disk} {n : Nat} {l : List BitCall} :
      bitmapUnset b n s = .ok () s' → BitRun b s' l t → BitRun b s (.freed n :: l) t

section Runs

variable {b n : Nat} {s s' t : FsState Disk}

theorem search_ok (h : bitmapSearchAndSet b s = .ok n s') :
    IsLeast {m | m < BIT_PER_BLOCK ∧ m ∉ (s.dev b).taken} n ∧
      (s'.dev b).taken = insert n (s.dev b).taken ∧ (∀ x, x ≠ b → s'.dev x = s.dev x) ∧
      bitmapUnset b n s' = .ok () s := by
  rw [bitmapSearchAndSet_run] at h
  rcases (s.dev b).searchAndSet_cases with ⟨m, d, hd, hleast, htaken, hback⟩ | ⟨hd, -⟩
  · rw [hd] at h
    cases h
    refine ⟨hleast, by simpa using htaken, fun x hx => Blocks.store_of_apart ⟨hx, .inl rfl⟩, ?_⟩
    rw [bitmapUnset_run _ _ hleast.1.1, FsState.put_dev, Blocks.store_same, hback]
    simp only
    rw [FsState.put_put]
  · rw [hd] at h; cases h

theorem unset_ok (h : bitmapUnset b n s = .ok () s') :
    n ∈ (s.dev b).taken ∧ (s'.dev b).taken = (s.dev b).taken \ {n} ∧
      ∀ x, x ≠ b → s'.dev x = s.dev x := by
  by_cases hn : n < BIT_PER_BLOCK
  · rw [bitmapUnset_run _ _ hn] at h
    by_cases hm : n ∈ (s.dev b).taken
    · obtain ⟨d, hd, htaken⟩ := Block.unset_cases hm
      rw [hd] at h
      cases h
      exact ⟨hm, by simpa using htaken, fun x hx => Blocks.store_of_apart ⟨hx, .inl rfl⟩⟩
    · rw [Block.unset_none hn hm] at h; cases h
  · have hle : BIT_PER_BLOCK ≤ n := by omega
    simp [bitmapUnset, bind_run, hle] at h

theorem bitRun_append {l₂ : List BitCall} : ∀ {l₁ : List BitCall} {s : FsState Disk},
    BitRun b s (l₁ ++ l₂) t → ∃ u, BitRun b s l₁ u ∧ BitRun b u l₂ t := by
  intro l₁
  induction l₁ with
  | nil => intro s h; exact ⟨s, .nil s, h⟩
  | cons c l₁ ih =>
    intro s h
    cases h with
    | search hs h =>
      obtain ⟨u, h1, h2⟩ := ih h
      exact ⟨u, .search hs h1, h2⟩
    | unset hs h =>
      obtain ⟨u, h1, h2⟩ := ih h
      exact ⟨u, .unset hs h1, h2⟩

theorem BitRun.not_got {l : List BitCall} (h : BitRun b s l t) (hn : n ∈ (s.dev b).taken)
    (hfree : .freed n ∉ l) : .got n ∉ l := by
  induction h with
  | nil s => simp
  | @search s s' t m l hs h ih =>
    obtain ⟨hleast, htaken, -⟩ := search_ok hs
    have hne : n ≠ m := fun he => hleast.1.2 (he ▸ hn)
    have hrest := ih (by rw [htaken]; exact .inr hn) fun hm => hfree (List.mem_cons_of_mem _ hm)
    simpa [hne] using hrest
  | @unset s s' t m l hs h ih =>
    obtain ⟨-, htaken, -⟩ := unset_ok hs
    have hne : n ≠ m := fun he => hfree (by rw [he]; exact List.mem_cons_self)
    have hrest := ih (by rw [htaken]; exact ⟨hn, hne⟩) fun hm => hfree (List.mem_cons_of_mem _ hm)
    simpa using hrest

theorem freed_between {l₁ l₂ l₃ : List BitCall}
    (h : BitRun b s (l₁ ++ .got n :: (l₂ ++ .got n :: l₃)) t) : .freed n ∈ l₂ := by
  obtain ⟨u, -, h⟩ := bitRun_append h
  cases h with
  | @search _ u' _ _ _ hs h =>
    have hn : n ∈ (u'.dev b).taken := by rw [(search_ok hs).2.1]; exact .inl rfl
    rw [List.append_cons] at h
    obtain ⟨v, h, -⟩ := bitRun_append h
    by_contra hno
    exact h.not_got hn (by simpa using hno) (by simp)

end Runs

/-! ## `mkfs` -/

namespace Mkfs

theorem signed_cases : ∀ (i : Fin 8) (x : Fin 256),
    isClear (Block.mask i.val) (UInt8.ofNat x.val).toInt8 =
      decide (Block.mask i.val &&& UInt8.ofNat x.val = 0) ∧
    (orBit (UInt8.ofNat x.val).toInt8 (Block.mask i.val)).toUInt8 =
      UInt8.ofNat x.val ||| Block.mask i.val := by
  decide +kernel

theorem signed_spec {i : Nat} (hi : i < 8) (b : UInt8) :
    isClear (Block.mask i) b.toInt8 = decide (Block.mask i &&& b = 0) ∧
      (orBit b.toInt8 (Block.mask i)).toUInt8 = b ||| Block.mask i := by
  have h := signed_cases ⟨i, hi⟩ ⟨b.toNat, b.toNat_lt⟩
  rwa [UInt8.ofNat_toNat] at h

theorem shiftLoop_same (b : UInt8) : ∀ (n i : Nat), i + n = 8 →
    shiftLoop b.toInt8 n i (Block.mask i) = Block.shiftLoop b n i (Block.mask i) := by
  intro n
  induction n with
  | zero => intro i _; rfl
  | succ n ih =>
    intro i hi
    rw [shiftLoop, Block.shiftLoop, (signed_spec (by omega) b).1,
      (Block.mask_spec (show i < 8 by omega) b).2.1, ih (i + 1) (by omega)]
    simp only [decide_eq_true_eq]

theorem shiftLoop_mask (b : UInt8) : ∀ (n i : Nat) {k : Nat} {bitCmp : UInt8}, i + n = 8 →
    Block.shiftLoop b n i (Block.mask i) = some (k, bitCmp) → k < 8 ∧ bitCmp = Block.mask k := by
  intro n
  induction n with
  | zero => intro i k bitCmp _ h; cases h
  | succ n ih =>
    intro i k bitCmp hi h
    rw [Block.shiftLoop] at h
    split at h
    · cases h; exact ⟨by omega, rfl⟩
    · rw [(Block.mask_spec (show i < 8 by omega) b).2.1] at h
      exact ih (i + 1) (by omega) h

theorem byteLoop_same (d : Block) : ∀ (n byte : Nat), byteLoop d n byte = Block.byteLoop d n byte := by
  intro n
  induction n with
  | zero => intro byte; rfl
  | succ n ih =>
    intro byte
    have hsame := shiftLoop_same (d.byte byte) 8 0 rfl
    have hmask := @shiftLoop_mask (d.byte byte) 8 0
    rw [show Block.mask 0 = 1 from rfl] at hsame hmask
    rw [byteLoop, Block.byteLoop, hsame]
    cases hc : Block.shiftLoop (d.byte byte) 8 0 1 with
    | none => exact ih (byte + 1)
    | some r =>
      obtain ⟨hk, hr⟩ := @hmask r.1 r.2 rfl hc
      simp only
      rw [hr, (signed_spec hk (d.byte byte)).2]

/-- `mkfs` finds the number that the kernel would find, and leaves the same block. -/
theorem bitAlloc_run (b : Nat) (img : Disk) :
    bitAlloc b img = match (img b).searchAndSet with
      | some (n, d) => .ok n (upd img b d)
      | none => .error .hang img := by
  simp only [bitAlloc, bind_run, blockRead, get_run, pure_run, byteLoop_same]
  show (match (img b).searchAndSet with
    | some (n, buf) => (do blockWrite b buf; return n)
    | none => throw .hang : MkM Nat) img = _
  cases (img b).searchAndSet with
  | none => rfl
  | some r => rfl

/-- `mkfs` allocates what the kernel would allocate on the same disk, with the same bitmap
afterwards; where the kernel panics, it hangs. -/
def AllocatesSame {α : Type} (kernel : FsM Disk α) (mkfs : MkM α) (s : FsState Disk) : Prop :=
  match kernel s with
  | .ok a s' => mkfs s.dev = .ok a s'.dev
  | .error _ _ => mkfs s.dev = .error .hang s.dev

theorem upd_eq_store (d : Disk) (b : Nat) (blk : Block) : upd d b blk = d.store b blk := by
  funext x
  simp only [Blocks.store, Bool.false_and, Bool.false_eq_true, if_false]
  rfl

theorem allocatesSame {α : Type} {b : Nat} {f g : Nat → α} (hfg : ∀ n, f n = g n)
    (s : FsState Disk) : AllocatesSame (do return f (← bitmapSearchAndSet b))
      (do return g (← bitAlloc b)) s := by
  simp only [AllocatesSame, bind_run, bitmapSearchAndSet_run, bitAlloc_run]
  cases (s.dev b).searchAndSet with
  | none => rfl
  | some r =>
    simp only [pure_run]
    rw [hfg, upd_eq_store]
    rfl

end Mkfs

/-- The bitmap code on block `b` is an allocator of the numbers below 8192: the search returns the
least one that is not taken and takes it, unless all are taken; an unset of a taken number frees it,
and right after the search it restores the disk; no number is returned twice without an unset in
between. `mkfs` allocates the same blocks and inodes. -/
theorem bitmap_is_set (b : Nat) :
    (∀ s : FsState Disk,
      (∃ n s', bitmapSearchAndSet b s = .ok n s' ∧
        IsLeast {m | m < BIT_PER_BLOCK ∧ m ∉ (s.dev b).taken} n ∧
        (s'.dev b).taken = insert n (s.dev b).taken ∧ bitmapUnset b n s' = .ok () s) ∨
      bitmapSearchAndSet b s = .error (.panic "bitmap_search_and_set: no bit left") s ∧
        (s.dev b).taken = {n | n < BIT_PER_BLOCK}) ∧
    (∀ (s : FsState Disk) (n : Nat), n ∈ (s.dev b).taken →
      ∃ s', bitmapUnset b n s = .ok () s' ∧ (s'.dev b).taken = (s.dev b).taken \ {n}) ∧
    (∀ (s t : FsState Disk) (n : Nat) (l₁ l₂ l₃ : List BitCall),
      BitRun b s (l₁ ++ .got n :: (l₂ ++ .got n :: l₃)) t → .freed n ∈ l₂) ∧
    ∀ s : FsState Disk, Mkfs.AllocatesSame bitmapAllocBlock Mkfs.blockAlloc s ∧
      Mkfs.AllocatesSame bitmapAllocInode Mkfs.inodeAlloc s := by
  refine ⟨fun s => ?_, fun s n hn => ?_, fun s t n l₁ l₂ l₃ h => freed_between h, fun s => ?_⟩
  · rcases (s.dev b).searchAndSet_cases with ⟨n, d, hd, -⟩ | ⟨hd, hall⟩
    · have hrun : bitmapSearchAndSet b s = .ok n (s.put b d) := by
        rw [bitmapSearchAndSet_run, hd]
      obtain ⟨hleast, htaken, -, hback⟩ := search_ok hrun
      exact .inl ⟨n, _, hrun, hleast, htaken, hback⟩
    · exact .inr ⟨by rw [bitmapSearchAndSet_run, hd], hall⟩
  · obtain ⟨d, hd, -⟩ := Block.unset_cases hn
    have hrun : bitmapUnset b n s = .ok () (s.put b d) := by rw [bitmapUnset_run _ _ hn.1, hd]
    exact ⟨_, hrun, (unset_ok hrun).2.1⟩
  · exact ⟨Mkfs.allocatesSame (fun n => by rw [Nat.add_comm]) s, Mkfs.allocatesSame (fun _ => rfl) s⟩

end Fs
end WhuOS
