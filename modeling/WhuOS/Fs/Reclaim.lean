import Mathlib.Data.Set.Card
import WhuOS.Fs.Contents

/-!
# WhuOS.Fs.Reclaim

The end of a file. `data_free` frees the entries of an indirect block up to the first zero, so it
relies on files being filled from the left.

* `Dense`               — in every indirect block the entries in use come first.
* `Freed`               — the blocks at a set of positions were given back.
* `inodeDestroy_run`    — `inode_destroy` gives back all blocks of a dense file, and its number.
* `lifetime_conserves`  — creating, writing and dropping a file leaves both bitmaps as they were.
-/

namespace WhuOS
namespace Fs

open Lib Kern

variable {z : Bool}

/-! ## Files are filled from the left -/

theorem path_single {k i : Nat} (hk : k < 2) (hi : i < 256) : path (10 + 256 * k + i) = [10 + k, i] := by
  simp only [path, digits, N_ADDRS_1, N_ADDRS_2, ENTRY_PER_BLOCK, BLOCK_SIZE]
  rw [if_neg (by omega), if_pos (by omega)]
  simp
  omega

theorem path_double {a b : Nat} (ha : a < 256) (hb : b < 256) :
    path (522 + 256 * a + b) = [12, a, b] := by
  simp only [path, digits, N_ADDRS_1, N_ADDRS_2, ENTRY_PER_BLOCK, BLOCK_SIZE]
  rw [if_neg (by omega), if_neg (by omega)]
  simp
  omega

theorem path_cases {bn : Nat} (hbn : bn < MAX_BLOCKS) :
    path bn = [bn] ∨ (∃ k i, k < 2 ∧ i < 256 ∧ bn = 10 + 256 * k + i) ∨
      ∃ a b, a < 256 ∧ b < 256 ∧ bn = 522 + 256 * a + b := by
  simp only [MAX_BLOCKS, N_ADDRS_1, N_ADDRS_2, N_ADDRS_3, ENTRY_PER_BLOCK, BLOCK_SIZE] at hbn
  by_cases h1 : bn < 10
  · exact .inl (by simp [path, digits, N_ADDRS_1, h1])
  by_cases h2 : bn < 522
  · exact .inr (.inl ⟨(bn - 10) / 256, (bn - 10) % 256, by omega, by omega, by omega⟩)
  · exact .inr (.inr ⟨(bn - 522) / 256, (bn - 522) % 256, by omega, by omega, by omega⟩)

/-- What is left of a position on the way to block `bn` is on the way to a block before it. -/
theorem path_left {p : List Nat} {i j bn : Nat} (hp : p ≠ []) (h : p ++ [j] <+: path bn)
    (hij : i ≤ j) (hbn : bn < MAX_BLOCKS) : ∃ bn', bn' ≤ bn ∧ p ++ [i] <+: path bn' := by
  obtain ⟨k, q, rfl⟩ := List.exists_cons_of_ne_nil hp
  rw [List.cons_append] at h ⊢
  rcases path_cases hbn with hpath | ⟨k', i', hk, hi, rfl⟩ | ⟨a, b, ha, hb, rfl⟩
  · -- a direct block has no position below it
    rw [hpath] at h
    simp [List.cons_prefix_cons] at h
  · rw [path_single hk hi, List.cons_prefix_cons] at h
    obtain ⟨rfl, h⟩ := h
    cases q with
    | nil =>
      obtain ⟨rfl, -⟩ := List.cons_prefix_cons.mp h
      exact ⟨10 + 256 * k' + i, by omega, by rw [path_single hk (by omega)]; simp⟩
    | cons a q => simp [List.cons_prefix_cons] at h
  · rw [path_double ha hb, List.cons_prefix_cons] at h
    obtain ⟨rfl, h⟩ := h
    cases q with
    | nil =>
      obtain ⟨rfl, -⟩ := List.cons_prefix_cons.mp h
      exact ⟨522 + 256 * i + b, by omega, by rw [path_double (by omega) hb]; simp⟩
    | cons a' q =>
      rw [List.cons_append, List.cons_prefix_cons] at h
      obtain ⟨rfl, h⟩ := h
      cases q with
      | nil =>
        obtain ⟨rfl, -⟩ := List.cons_prefix_cons.mp h
        exact ⟨522 + 256 * a' + i, by omega, by rw [path_double ha (by omega)]; simp⟩
      | cons c q => simp [List.cons_prefix_cons] at h

/-- In every indirect block the entries that are in use come first. -/
def Dense (addrs : Fin N_ADDRS → UInt32) (d : Blocks z) : Prop :=
  ∀ p i j, p ≠ [] → IsPos (p ++ [j]) → i ≤ j → nodeAt addrs d (p ++ [i]) = none →
    nodeAt addrs d (p ++ [j]) = none

theorem Holding.dense {s t : FsState (Blocks z)} {ip : IId} {r : List UInt8} {N : Finset (List Nat)}
    (h : Holding s t ip r N) (hempty : ∀ p, p ≠ [] → s.node ip p = none) :
    Dense (t.icache ip).d.addrs t.dev := by
  intro p i j hp hpos hij hnone
  by_contra hsome
  have hN : p ++ [j] ∈ N := by
    by_contra hN
    exact hsome ((h.grows.old _ hpos hN).trans (hempty _ (by simp)))
  obtain ⟨pos, -, hlt, hpre⟩ := h.onPaths _ hN
  have hbound := h.bound
  have hbn : pos / BLOCK_SIZE < MAX_BLOCKS := Nat.div_lt_of_lt_mul (by rw [Nat.mul_comm]; omega)
  obtain ⟨bn, hle, q, hq⟩ := path_left hp hpre hij hbn
  -- the first byte of that block is in the file, so its position is filled
  obtain ⟨b, hb⟩ := h.there (bn * BLOCK_SIZE) (by
    have := Nat.div_mul_le_self pos BLOCK_SIZE
    have := Nat.mul_le_mul_right BLOCK_SIZE hle
    omega)
  rw [Nat.mul_div_cancel _ (by decide), ← hq] at hb
  obtain ⟨x, hx⟩ := Paths.walk_of_append hb
  rw [nodeAt, hx] at hnone
  cases hnone

/-! ## Giving blocks back -/

/-- The blocks at the positions `P` of a tree were freed. -/
structure Freed (addrs : Fin N_ADDRS → UInt32) (d d' : Blocks z) (P : Set (List Nat)) : Prop where
  others : ∀ x, x ≠ sb.dataBitmapStart → d' x = d x
  taken : ∀ n, n ∈ (d' sb.dataBitmapStart).taken ↔ n ∈ (d sb.dataBitmapStart).taken ∧
    ∀ q ∈ P, IsPos q → nodeAt addrs d q ≠ some (.block (sb.dataStart + n))

section Free

variable {addrs : Fin N_ADDRS → UInt32} {d : Blocks z} {s : FsState (Blocks z)} {ip : IId}
  {P P' : Set (List Nat)} {p : List Nat} {v : UInt32}

theorem Freed.congr {d' : Blocks z} (h : Freed addrs d d' P)
    (hP : ∀ q x, IsPos q → nodeAt addrs d q = some x → (q ∈ P ↔ q ∈ P')) : Freed addrs d d' P' where
  others := h.others
  taken := fun n => by
    rw [h.taken]
    refine and_congr_right fun _ => forall_congr' fun q => ?_
    constructor
    · intro hq hm hpos hb
      exact hq ((hP q _ hpos hb).mpr hm) hpos hb
    · intro hq hm hpos hb
      exact hq ((hP q _ hpos hb).mp hm) hpos hb

theorem store_clearBit {n x : Nat} (hn : n < BIT_PER_BLOCK) (hx : x ≠ sb.dataBitmapStart) :
    d.store sb.dataBitmapStart ((d sb.dataBitmapStart).clearBit n) x = d x := by
  have hf : d.fresh ((d sb.dataBitmapStart).clearBit n) x = false := by
    unfold Blocks.fresh
    rw [Block.bit_clearBit hn]
    cases (d sb.dataBitmapStart).bit (x - sb.dataStart) <;> simp
  simp [Blocks.store, hx, hf]

theorem bitmapFreeBlock_run (hs : Sound addrs d) (h : Freed addrs d s.dev P) (hp : IsPos p)
    (hv : nodeAt addrs d p = some (.block v.toNat)) (hnew : p ∉ P) :
    ∃ d', bitmapFreeBlock v s = .ok () { s with dev := d' } ∧ Freed addrs d d' (insert p P) := by
  obtain ⟨hle, htaken⟩ := hs.inUse p _ hp hv
  have hsub : (v - UInt32.ofNat sb.dataStart).toNat = v.toNat - sb.dataStart := by
    rw [UInt32.toNat_sub_of_le _ _ (by rw [UInt32.le_iff_toNat_le]; exact hle)]
    rfl
  have hback : sb.dataStart + (v.toNat - sb.dataStart) = v.toNat := by omega
  have hlt := htaken.1
  -- the block is still taken: no position that was freed has it
  have hnow : v.toNat - sb.dataStart ∈ (s.dev sb.dataBitmapStart).taken := by
    refine (h.taken _).mpr ⟨htaken, fun q hq hpos hb => ?_⟩
    rw [hback] at hb
    exact hnew (hs.sep p q _ hp hpos hv hb ▸ hq)
  refine ⟨s.dev.store sb.dataBitmapStart
    ((s.dev sb.dataBitmapStart).clearBit (v.toNat - sb.dataStart)), ?_, ?_, ?_⟩
  · rw [bitmapFreeBlock, hsub, bitmapUnset_run s _ hlt, Block.unset_eq, if_pos hnow.2]
    rfl
  · intro x hx
    rw [store_clearBit hlt hx, h.others x hx]
  · intro n
    rw [Blocks.store_same, Block.taken_clearBit hlt, Set.mem_sdiff, h.taken, and_assoc,
      Set.mem_singleton_iff]
    refine and_congr_right fun _ => ?_
    constructor
    · rintro ⟨hq, hne⟩ q hm hpos hb
      rcases hm with rfl | hm
      · rw [hv] at hb
        injection hb with hb
        injection hb with hb
        omega
      · exact hq q hm hpos hb
    · intro hq
      refine ⟨fun q hm => hq q (.inr hm), fun hn => hq p (.inl rfl) hp ?_⟩
      rw [hv, hn, hback]

/-- The positions at or below one. -/
def below (p : List Nat) : Set (List Nat) := {q | p <+: q}

theorem below_snoc_disjoint {i j : Nat} {q : List Nat} (hi : q ∈ below (p ++ [i]))
    (hj : q ∈ below (p ++ [j])) : i = j := by
  obtain ⟨a, rfl⟩ := hi
  obtain ⟨b, hb⟩ := hj
  rw [List.append_assoc, List.append_assoc, List.append_cancel_left_eq] at hb
  exact (List.cons.inj hb).1.symm

theorem below_snoc {i : Nat} {q : List Nat} (h : q ∈ below (p ++ [i])) : q ∈ below p :=
  (List.prefix_append p [i]).trans h

theorem nodeAt_below {q : List Nat} {x : TreeNode} (hq : q ∈ below p) (hx : nodeAt addrs d q = some x) :
    nodeAt addrs d p ≠ none := by
  obtain ⟨a, rfl⟩ := hq
  obtain ⟨y, hy⟩ := Paths.walk_of_append hx
  rw [nodeAt, hy]
  exact Option.some_ne_none y

/-- What `data_free` does at the level `l`, from any state of the bitmap. -/
def Frees (addrs : Fin N_ADDRS → UInt32) (d : Blocks z) (l : Nat) : Prop :=
  ∀ (p : List Nat) (v : UInt32) (s : FsState (Blocks z)) (P : Set (List Nat)), IsPos p →
    (∃ k q, p = k :: q ∧ q.length + l = level k) → nodeAt addrs d p = some (.block v.toNat) →
    Freed addrs d s.dev P → (∀ q ∈ P, q ∉ below p) →
    ∃ d', dataFree l v s = .ok () { s with dev := d' } ∧ Freed addrs d d' (P ∪ below p)

/-- The positions below the entries of `p` before `i`. -/
def belowTo (p : List Nat) (i : Nat) : Set (List Nat) := {q | ∃ j < i, q ∈ below (p ++ [j])}

theorem belowTo_succ (p : List Nat) (i : Nat) : belowTo p i ∪ below (p ++ [i]) = belowTo p (i + 1) := by
  ext q
  constructor
  · rintro (⟨j, hj, hq⟩ | hq)
    · exact ⟨j, by omega, hq⟩
    · exact ⟨i, by omega, hq⟩
  · rintro ⟨j, hj, hq⟩
    rcases Nat.lt_succ_iff_lt_or_eq.mp hj with hj | rfl
    · exact .inl ⟨j, hj, hq⟩
    · exact .inr hq

theorem freeEntries_run (hdense : Dense addrs d) {l b : Nat} (hl : Frees addrs d l) (hp : IsPos p)
    (hlevel : ∃ k q, p = k :: q ∧ q.length + (l + 1) = level k)
    (hb : nodeAt addrs d p = some (.block b)) (hne : b ≠ sb.dataBitmapStart)
    (hP : ∀ q ∈ P, q ∉ below p) : ∀ (n i : Nat) {s : FsState (Blocks z)}, i + n = ENTRY_PER_BLOCK →
    Freed addrs d s.dev (P ∪ belowTo p i) →
    ∃ d', freeEntries (dataFree l) b i n s = .ok () { s with dev := d' } ∧
      Freed addrs d d' (P ∪ belowTo p ENTRY_PER_BLOCK) := by
  obtain ⟨k, q, rfl, hlen⟩ := hlevel
  have hpos : ∀ i, i < ENTRY_PER_BLOCK → IsPos (k :: q ++ [i]) := fun i hi => by
    refine ⟨hp.1, by rw [List.append_eq, List.length_append, List.length_singleton]; omega, ?_⟩
    intro j hj
    rcases List.mem_append.mp hj with hj | hj
    · exact hp.2.2 j hj
    · rw [List.mem_singleton.mp hj]; exact hi
  intro n
  induction n with
  | zero =>
    intro i s hi h
    rw [Nat.add_zero] at hi
    subst hi
    exact ⟨s.dev, rfl, h⟩
  | succ n ih =>
    intro i s hi h
    have hnode : nodeAt addrs d (k :: q ++ [i]) = toNode ((s.dev b).u32 (4 * i)) := by
      rw [h.others b hne]
      exact Paths.walk_snoc_of hb
    rw [freeEntries]
    simp only [bind_run, bufData_run]
    by_cases h0 : (s.dev b).u32 (4 * i) = 0
    · -- the first zero: the entries from here on are empty
      rw [if_pos h0]
      refine ⟨s.dev, rfl, h.congr fun r x hr hx => or_congr_right ?_⟩
      refine ⟨fun ⟨j, hj, hrj⟩ => ⟨j, by omega, hrj⟩, fun ⟨j, hj, hrj⟩ => ⟨j, ?_, hrj⟩⟩
      by_contra hge
      exact nodeAt_below hrj hx (hdense _ i j (List.cons_ne_nil _ _) (hpos j hj) (by omega)
        (by rw [hnode, toNode_none.mpr h0]))
    · rw [if_neg h0]
      rw [toNode, if_neg h0] at hnode
      obtain ⟨d1, hrun, hd1⟩ := hl (k :: q ++ [i]) _ s _ (hpos i (by omega))
        ⟨k, q ++ [i], rfl, by rw [List.length_append, List.length_singleton]; omega⟩ hnode h (by
          rintro r (hr | ⟨j, hj, hrj⟩) hri
          · exact hP r hr (below_snoc hri)
          · exact absurd (below_snoc_disjoint hrj hri) (by omega))
      have hnext : P ∪ belowTo (k :: q) i ∪ below (k :: q ++ [i]) = P ∪ belowTo (k :: q) (i + 1) := by
        rw [Set.union_assoc, belowTo_succ]
      rw [hnext] at hd1
      obtain ⟨d2, hrun2, hd2⟩ := @ih (i + 1) { s with dev := d1 } (by omega) hd1
      exact ⟨d2, by rw [bind_of_ok hrun, hrun2], hd2⟩

theorem dataFree_run (hs : Sound addrs d) (hdense : Dense addrs d) : ∀ l, Frees addrs d l := by
  intro l
  induction l with
  | zero =>
    rintro p v s P hp ⟨k, q, rfl, hlen⟩ hv h hP
    have h0 : v ≠ 0 := by
      rintro rfl
      exact absurd (hs.inUse _ _ hp hv).1 (by decide)
    obtain ⟨d', hrun, hd'⟩ := bitmapFreeBlock_run hs h hp hv fun hm => hP _ hm List.prefix_rfl
    refine ⟨d', ?_, hd'.congr fun r x hr _ => ?_⟩
    · rw [dataFree, bind_run]
      simp only [h0, ne_eq, not_false_eq_true, decide_true, assert_true, pure_run]
      exact hrun
    · -- nothing is below a data block
      rw [Set.mem_insert_iff, Set.mem_union, or_comm]
      refine or_congr_right ⟨fun he => he ▸ List.prefix_rfl, fun ⟨a, ha⟩ => ?_⟩
      subst ha
      have := hr.2.1
      rw [List.append_eq, List.length_append] at this
      rw [List.length_eq_zero_iff.mp (show a.length = 0 by omega), List.append_nil]
  | succ l ih =>
    intro p v s P hp hlevel hv h hP
    have hu := hs.inUse _ _ hp hv
    have h0 : v ≠ 0 := by
      rintro rfl
      exact absurd hu.1 (by decide)
    obtain ⟨d1, hrun1, hd1⟩ := freeEntries_run hdense ih hp hlevel hv hu.ne_bitmap hP
      ENTRY_PER_BLOCK 0 (Nat.zero_add _) (h.congr fun r x _ _ => by
        simp [belowTo])
    have hnot : p ∉ P ∪ belowTo p ENTRY_PER_BLOCK := by
      rintro (hm | ⟨j, -, hj⟩)
      · exact hP p hm List.prefix_rfl
      · have := hj.length_le
        rw [List.length_append, List.length_singleton] at this
        omega
    obtain ⟨d2, hrun2, hd2⟩ := @bitmapFreeBlock_run z addrs d { s with dev := d1 } _ p v hs hd1 hp hv hnot
    refine ⟨d2, ?_, hd2.congr fun r x hr _ => ?_⟩
    · rw [dataFree, bind_run]
      simp only [h0, ne_eq, not_false_eq_true, decide_true, assert_true, pure_run, bind_run, bufRead_run,
        hrun1, bufRelease_run]
      exact hrun2
    · rw [Set.mem_insert_iff, Set.mem_union, Set.mem_union]
      constructor
      · rintro (rfl | hm | ⟨j, -, hj⟩)
        · exact .inr List.prefix_rfl
        · exact .inl hm
        · exact .inr (below_snoc hj)
      · rintro (hm | ⟨a, rfl⟩)
        · exact .inr (.inl hm)
        · cases a with
          | nil => exact .inl (List.append_nil p)
          | cons j a =>
            rw [show p ++ j :: a = p ++ [j] ++ a by simp] at hr ⊢
            obtain ⟨k, q, rfl, -⟩ := hlevel
            exact .inr (.inr ⟨j, hr.2.2 j (by simp), List.prefix_append _ _⟩)

/-- The inode without the entries `ks` of `addrs`. -/
def Inode.without (n : Inode) (ks : List (Fin N_ADDRS)) : Inode :=
  { n with d := { n.d with addrs := fun k => if k ∈ ks then 0 else n.d.addrs k } }

/-- The positions below entries of `addrs`. -/
def belowAll (ks : List (Fin N_ADDRS)) : Set (List Nat) := {q | ∃ k ∈ ks, q ∈ below [k.val]}

theorem freeAddrs_run (hs : Sound addrs d) (hdense : Dense addrs d) {l : Nat} :
    ∀ (ks : List (Fin N_ADDRS)) {s : FsState (Blocks z)} {P : Set (List Nat)},
    (∀ k ∈ ks, level k.val = l) → ks.Nodup → (∀ k ∈ ks, (s.icache ip).d.addrs k = addrs k) →
    Freed addrs d s.dev P → (∀ k ∈ ks, ∀ q ∈ P, q ∉ below [k.val]) →
    ∃ d', freeAddrs ip l ks s =
        .ok () ({ s with dev := d' }.setIp ip ((s.icache ip).without ks)) ∧
      Freed addrs d d' (P ∪ belowAll ks) := by
  intro ks
  induction ks with
  | nil =>
    intro s P _ _ _ h _
    refine ⟨s.dev, ?_, ?_⟩
    · rw [freeAddrs, pure_run, FsState.setIp]
      simp [Inode.without, upd_self]
    · rw [show P ∪ belowAll [] = P by simp [belowAll]]
      exact h
  | cons k ks ih =>
    intro s P hlevel hnd haddrs h hP
    obtain ⟨hk, hnd⟩ := List.nodup_cons.mp hnd
    have hnode : nodeAt addrs d [k.val] = toNode (addrs k) := by
      have h1 : nodeAt addrs d ([] ++ [k.val]) = entries addrs d .inode k.val := Paths.walk_snoc_of rfl
      rw [List.nil_append] at h1
      rw [h1]
      simp [entries, rawEntry]
    have hpos : IsPos [k.val] := ⟨k.isLt, Nat.zero_le _, by simp⟩
    have hunion : P ∪ below [k.val] ∪ belowAll ks = P ∪ belowAll (k :: ks) := by
      rw [Set.union_assoc]
      congr 1
      ext q
      simp [belowAll]
    rw [freeAddrs]
    simp only [bind_run, getIp_run]
    rw [haddrs k (by simp)]
    by_cases h0 : addrs k = 0
    · rw [if_neg (by simp [h0])]
      obtain ⟨d', hrun, hd'⟩ := ih (fun j hj => hlevel j (by simp [hj])) hnd
        (fun j hj => haddrs j (by simp [hj])) h fun j hj => hP j (by simp [hj])
      refine ⟨d', ?_, hd'.congr fun r x hr hx => ?_⟩
      · rw [hrun]
        congr 2
        simp only [Inode.without]
        congr 2
        funext j
        by_cases hj : j = k
        · subst hj
          simp [hk, haddrs j (by simp), h0]
        · simp [hj]
      · rw [← hunion, Set.union_assoc, Set.mem_union, Set.mem_union]
        refine or_congr_right ⟨.inr, fun hm => hm.resolve_left fun hm => ?_⟩
        exact nodeAt_below hm hx (by rw [hnode, toNode_none.mpr h0])
    · rw [if_pos h0]
      rw [toNode, if_neg h0] at hnode
      obtain ⟨d1, hrun1, hd1⟩ := dataFree_run hs hdense l [k.val] (addrs k) s P hpos
        ⟨k.val, [], rfl, by rw [hlevel k (by simp)]; simp⟩ hnode h (hP k (by simp))
      obtain ⟨d2, hrun2, hd2⟩ := @ih ({ s with dev := d1 }.setIp ip { s.icache ip with
          d := { (s.icache ip).d with addrs := upd (s.icache ip).d.addrs k 0 } }) _
        (fun j hj => hlevel j (by simp [hj])) hnd
        (fun j hj => by
          have hjk : j ≠ k := fun he => hk (he ▸ hj)
          simp [hjk, haddrs j (by simp [hj])]) hd1 (by
          rintro j hj q (hq | hq) hqj
          · exact hP j (by simp [hj]) q hq hqj
          · have hjk : j ≠ k := fun he => hk (he ▸ hj)
            exact hjk (Fin.ext (below_snoc_disjoint (p := []) hqj hq)))
      refine ⟨d2, ?_, hunion ▸ hd2⟩
      rw [bind_of_ok hrun1, bind_of_ok (modIp_run _ _ _)]
      refine hrun2.trans ?_
      simp only [FsState.setIp, upd_same, upd_upd, Inode.without]
      congr 6
      funext j
      by_cases hj : j = k
      · simp [hj]
      · simp [hj]

theorem belowAll_apart {js : List (Fin N_ADDRS)} {k : Fin N_ADDRS} (hk : k ∉ js) :
    ∀ q ∈ belowAll js, q ∉ below [k.val] := by
  rintro q ⟨j, hj, hq⟩ hqk
  exact hk (Fin.ext (below_snoc_disjoint (p := []) hq hqk) ▸ hj)

/-- The inode after `inode_free_data`. -/
def Inode.emptied (n : Inode) : Inode := { n with d := { n.d with addrs := fun _ => 0, size := 0 } }

theorem inodeFreeData_run (hs : Sound (s.icache ip).d.addrs s.dev)
    (hdense : Dense (s.icache ip).d.addrs s.dev) (held : (s.icache ip).slk = true) :
    ∃ d', inodeFreeData ip s =
        .ok () (({ s with dev := d' }.setIp ip (s.icache ip).emptied).flush ip) ∧
      Freed (s.icache ip).d.addrs s.dev d' {q | q ≠ []} := by
  obtain ⟨d1, hrun1, hd1⟩ := @freeAddrs_run z _ _ ip hs hdense 0 [0, 1, 2, 3, 4, 5, 6, 7, 8, 9] s ∅
    (by decide) (by decide) (fun _ _ => rfl) ⟨fun _ _ => rfl, fun _ => by simp⟩ (by simp)
  generalize ht1 : ({ s with dev := d1 }.setIp ip ((s.icache ip).without [0, 1, 2, 3, 4, 5, 6, 7, 8, 9]))
    = t1 at hrun1
  obtain ⟨d2, hrun2, hd2⟩ := @freeAddrs_run z _ _ ip hs hdense 1 [10, 11] t1 _
    (by decide) (by decide) (by subst ht1; simp [Inode.without]) (by subst ht1; exact hd1) (by
      rintro k hk q (hq | hq)
      · cases hq
      · exact belowAll_apart (by revert k; decide) q hq)
  generalize ht2 : ({ t1 with dev := d2 }.setIp ip ((t1.icache ip).without [10, 11])) = t2 at hrun2
  obtain ⟨d3, hrun3, hd3⟩ := @freeAddrs_run z _ _ ip hs hdense 2 [12] t2 _
    (by decide) (by decide) (by subst ht2 ht1; simp [Inode.without]) (by subst ht2; exact hd2) (by
      rintro k hk q ((hq | hq) | hq)
      · cases hq
      · exact belowAll_apart (by revert k; decide) q hq
      · exact belowAll_apart (by revert k; decide) q hq)
  have hall : ∀ k : Fin N_ADDRS, k ∈ [0, 1, 2, 3, 4, 5, 6, 7, 8, 9] ∨ k ∈ [10, 11] ∨ k ∈ [12] := by
    decide
  refine ⟨d3, ?_, hd3.congr fun q x hq _ => ?_⟩
  · have hlast : ({ t2 with dev := d3 }.setIp ip ((t2.icache ip).without [12])).setIp ip
        { (t2.icache ip).without [12] with d := { ((t2.icache ip).without [12]).d with size := 0 } } =
        { s with dev := d3 }.setIp ip (s.icache ip).emptied := by
      subst ht2 ht1
      simp only [FsState.setIp, upd_same, upd_upd, Inode.without, Inode.emptied]
      congr 4
      funext k
      rcases hall k with hk | hk | hk <;> simp [hk]
    rw [inodeFreeData]
    simp only [bind_run, getIp_run, held, assert_true, pure_run, hrun1, hrun2, hrun3, modIp_run,
      FsState.setIp_icache, upd_same]
    rw [hlast]
    exact inodeRw_write (by simpa [Inode.emptied] using held)
  · constructor
    · rintro (((hm | ⟨k, -, hk⟩) | ⟨k, -, hk⟩) | ⟨k, -, hk⟩) <;> rintro rfl
      · exact hm
      all_goals exact absurd (List.prefix_nil.mp hk) (List.cons_ne_nil _ _)
    · intro hne
      obtain ⟨k, r, rfl⟩ := List.exists_cons_of_ne_nil hne
      have hk : k :: r ∈ below [(⟨k, hq.1⟩ : Fin N_ADDRS).val] := ⟨r, rfl⟩
      rcases hall ⟨k, hq.1⟩ with hm | hm | hm
      · exact .inl (.inl (.inr ⟨_, hm, hk⟩))
      · exact .inl (.inr ⟨_, hm, hk⟩)
      · exact .inr ⟨_, hm, hk⟩

/-- The inode of a file that was destroyed. -/
def Inode.destroyed (n : Inode) : Inode :=
  { n.emptied with d := { n.emptied.d with type := FT_UNUSED }, valid := false, slk := false }

/-- The file of `ip` was destroyed: its number and its blocks were given back, its inode is empty on
the disk, and nothing else changed. -/
structure Destroyed (s u : FsState (Blocks z)) (ip : IId) : Prop where
  number : u.dev sb.inodeBitmapStart =
    (s.dev sb.inodeBitmapStart).clearBit (s.icache ip).inodeNum.toNat
  taken : ∀ n, n ∈ u.taken ↔ n ∈ s.taken ∧
    ∀ q, q ≠ [] → IsPos q → s.node ip q ≠ some (.block (sb.dataStart + n))
  inode : inodeAt u.dev (s.icache ip).inodeNum = (s.icache ip).destroyed.d
  inodes : ∀ m, InRegion m → m ≠ (s.icache ip).inodeNum → inodeAt u.dev m = inodeAt s.dev m
  others : ∀ x, x ≠ sb.inodeBitmapStart → x ≠ inodeBlock (s.icache ip).inodeNum →
    x ≠ sb.dataBitmapStart → u.dev x = s.dev x
  rest : u = { s with dev := u.dev, icache := upd s.icache ip (s.icache ip).destroyed }

theorem flush_again (s : FsState (Blocks z)) {n m : Inode} (hm : m.inodeNum = n.inodeNum)
    (hb : inodeBlock n.inodeNum ≠ sb.dataBitmapStart) :
    (((s.setIp ip n).flush ip).setIp ip m).flush ip = (s.setIp ip m).flush ip := by
  have h1 : ∀ t : FsState (Blocks z), (t.setIp ip m).flush ip = (t.put (inodeBlock m.inodeNum)
      ((t.dev (inodeBlock m.inodeNum)).putInode (m.inodeNum.toNat % INODE_PER_BLOCK) m.d)).setIp ip m :=
    fun t => by simp [FsState.flush, FsState.put, FsState.setIp]
  have h2 : (s.setIp ip n).flush ip = (s.setIp ip n).put (inodeBlock n.inodeNum)
      ((s.dev (inodeBlock n.inodeNum)).putInode (n.inodeNum.toNat % INODE_PER_BLOCK) n.d) := by
    simp [FsState.flush]
  rw [h1, h1, h2, hm, FsState.put_dev, Blocks.store_same, FsState.put_again _ hb,
    Block.putInode_putInode]
  simp [FsState.put, FsState.setIp]

theorem inodeDestroy_run (hs : Sound (s.icache ip).d.addrs s.dev)
    (hdense : Dense (s.icache ip).d.addrs s.dev) (hl : (s.icache ip).slk = false)
    (hreg : InRegion (s.icache ip).inodeNum)
    (hbit : (s.icache ip).inodeNum.toNat ∈ (s.dev sb.inodeBitmapStart).taken) :
    ∃ u, inodeDestroy ip s = .ok () u ∧ Destroyed s u ip := by
  have hacq : slkAcquire ip s = .ok () (s.setIp ip { s.icache ip with slk := true }) := by
    simp [slkAcquire, bind_run, hl]
  generalize hs1 : s.setIp ip { s.icache ip with slk := true } = s1 at hacq
  have hip1 : s1.icache ip = { s.icache ip with slk := true } := by subst hs1; simp
  have hdev1 : s1.dev = s.dev := by subst hs1; rfl
  obtain ⟨d', hrun, hd'⟩ := @inodeFreeData_run z s1 ip (by rw [hip1, hdev1]; exact hs)
    (by rw [hip1, hdev1]; exact hdense) (by rw [hip1])
  rw [hip1, hdev1] at hd'
  have hblk := hreg.block_lt
  have hone : d' sb.inodeBitmapStart = s.dev sb.inodeBitmapStart := hd'.others _ (by decide)
  -- the inode is written twice, then its number is freed
  generalize hn : (s1.icache ip).emptied = n at hrun
  have hnum : n.inodeNum = (s.icache ip).inodeNum := by rw [← hn, hip1]; rfl
  have hslk : n.slk = true := by rw [← hn, hip1]; rfl
  have hd : { n.d with type := FT_UNUSED } = (s.icache ip).destroyed.d := by rw [← hn, hip1]; rfl
  have hrw : inodeRw ip true ((({ s1 with dev := d' }.setIp ip n).flush ip).setIp ip
      { n with d := { n.d with type := FT_UNUSED } }) = .ok () (({ s1 with dev := d' }.setIp ip
        { n with d := { n.d with type := FT_UNUSED } }).flush ip) :=
    (inodeRw_write (by simpa using hslk)).trans (congrArg _ (flush_again _ rfl
      (by rw [hnum]; exact Nat.ne_of_lt hblk.1)))
  generalize hdev : ({ s1 with dev := d' }.setIp ip
    { n with d := { n.d with type := FT_UNUSED } }).flush ip = s2 at hrw
  have hs2 : s2.dev = d'.store (inodeBlock (s.icache ip).inodeNum)
      ((d' (inodeBlock (s.icache ip).inodeNum)).putInode
        ((s.icache ip).inodeNum.toNat % INODE_PER_BLOCK) (s.icache ip).destroyed.d) := by
    subst hdev
    simp [FsState.flush, hnum, hd]
  have hip2 : s2.icache = upd s.icache ip { n with d := (s.icache ip).destroyed.d } := by
    subst hdev hs1
    simp [FsState.flush, hd]
  have hbit2 : s2.dev sb.inodeBitmapStart = s.dev sb.inodeBitmapStart := by
    rw [hs2, Blocks.store_of_apart ⟨Nat.ne_of_lt hblk.2, .inr (.inr (by decide))⟩, hone]
  have hfree : bitmapFreeInode (s.icache ip).inodeNum s2 = .ok () (s2.put sb.inodeBitmapStart
      ((s.dev sb.inodeBitmapStart).clearBit (s.icache ip).inodeNum.toNat)) := by
    rw [bitmapFreeInode, bitmapUnset_run s2 _ hbit.1, hbit2, Block.unset_eq, if_pos hbit.2]
  refine ⟨((s2.put sb.inodeBitmapStart ((s.dev sb.inodeBitmapStart).clearBit
    (s.icache ip).inodeNum.toNat)).setIp ip (s.icache ip).destroyed), ?_, ?_⟩
  · have hip : (({ s1 with dev := d' }.setIp ip n).flush ip).icache ip = n := by
      simp [FsState.flush]
    have hnum2 : (s2.icache ip).inodeNum = (s.icache ip).inodeNum := by rw [hip2, upd_same]; exact hnum
    rw [inodeDestroy, bind_of_ok hacq, bind_of_ok hrun, bind_of_ok (modIp_run _ _ _), hip,
      bind_of_ok hrw, bind_of_ok (getIp_run _ _), hnum2, bind_of_ok hfree]
    simp only [slkRelease, bind_run, modIp_run, FsState.setIp_icache, FsState.put_icache, upd_same,
      hip2]
    have hend : { n with d := (s.icache ip).destroyed.d, valid := false, slk := false } =
        (s.icache ip).destroyed := by
      rw [← hn, hip1]
      rfl
    simp only [FsState.setIp, upd_upd, hend]
  · have hdat : sb.dataBitmapStart ≠ sb.inodeBitmapStart := by decide
    exact
      { number := by simp
        taken := fun n => by
          rw [FsState.taken, FsState.setIp_dev, FsState.put_dev,
            Blocks.store_of_apart ⟨hdat, .inr (.inl (by decide))⟩, hs2,
            Blocks.store_of_apart ⟨Nat.ne_of_gt hblk.1, .inr (.inl (Nat.ne_of_lt hblk.1))⟩, hd'.taken]
          rfl
        inode := by
          rw [FsState.setIp_dev, FsState.put_dev, inodeAt,
            Blocks.store_of_apart ⟨Nat.ne_of_gt hblk.2, .inr (.inl (by decide))⟩, hs2, Blocks.store_same,
            Block.getInode_putInode (Nat.mod_lt _ (by decide))]
        inodes := fun m hm hne => by
          rw [FsState.setIp_dev, FsState.put_dev, inodeAt,
            Blocks.store_of_apart ⟨Nat.ne_of_gt hm.block_lt.2, .inr (.inl (by decide))⟩, ← inodeAt, hs2,
            inodeAt_put hne (Nat.ne_of_lt hblk.1), inodeAt, hd'.others _ (Nat.ne_of_lt hm.block_lt.1),
            inodeAt]
        others := fun x h1 h2 h3 => by
          rw [FsState.setIp_dev, FsState.put_dev, Blocks.store_of_apart ⟨h1, .inr (.inl (by decide))⟩,
            hs2, Blocks.store_of_apart ⟨h2, .inr (.inl (Nat.ne_of_lt hblk.1))⟩, hd'.others x h3]
        rest := by
          subst hdev hs1
          simp [FsState.flush, FsState.setIp] }

end Free

/-! ## The life of a file -/

/-- The arguments of `inode_write_data`. -/
structure WriteCall where
  offset : UInt32
  len : UInt32
  src : Nat → UInt8

/-- `inode_write_data` with the lock taken for it, for one call after the other. -/
def runWrites (ip : IId) : List WriteCall → FsM (Blocks z) Unit
  | [] => return ()
  | w :: ws => do
    inodeLock ip
    let _ ← inodeWriteData ip w.offset w.len w.src
    inodeUnlock ip
    runWrites ip ws

/-- `nlink` is set to zero, written back or not, and the reference is dropped. -/
def dropFile (ip : IId) (writeBack : Bool) : FsM (Blocks z) Unit := do
  inodeLock ip
  modIp ip fun n => { n with d := { n.d with nlink := 0 } }
  if writeBack then inodeRw ip true
  inodeUnlock ip
  inodeFree ip

section Life

variable {s t : FsState (Blocks z)} {ip : IId} {r : List UInt8} {N : Finset (List Nat)}

theorem Holding.call {u : FsState (Blocks z)} {w : WriteCall} {n : UInt32} (hf : Fresh s ip)
    (h : Holding s t ip r N)
    (hrun : inodeWriteData ip w.offset w.len w.src (t.setIp ip { t.icache ip with slk := true }) =
      .ok n u) :
    (u.icache ip).slk = true ∧
      ∃ r' N', Holding s (u.setIp ip { u.icache ip with slk := false }) ip r' N' := by
  have hft := hf.holding h
  have hd : ((t.setIp ip { t.icache ip with slk := true }).icache ip).d = (t.icache ip).d := by simp
  by_cases hrej : (t.icache ip).d.size.toNat < w.offset.toNat ∨
      INODE_MAXSIZE.toNat < w.offset.toNat + w.len.toNat ∧ ¬ Wraps w.offset w.len INODE_MAXSIZE
  · rw [inodeWriteData_reject (by simp) (by rw [hd]; exact hrej)] at hrun
    cases hrun
    refine ⟨by simp, r, N, ?_⟩
    rw [unlock_lock hft]
    exact h
  · rw [not_or, Nat.not_lt] at hrej
    obtain ⟨hoff, hmax⟩ := hrej
    have hbound := h.bound
    rw [h.size] at hoff
    -- past the largest file the loop panics
    have hend : w.offset.toNat + w.len.toNat ≤ MAX_BLOCKS * BLOCK_SIZE := by
      by_contra hgt
      rw [toNat_maxsize] at hmax
      have hwrap : Wraps w.offset w.len INODE_MAXSIZE :=
        not_not.mp fun hw => hmax ⟨Nat.not_le.mp hgt, hw⟩
      obtain ⟨_, _, hloop, -⟩ := inodeWriteData_loop (by simp) (by rw [hd, h.size]; exact hoff)
        (by rw [UInt32.toNat_add]; exact hwrap.2) hrun
      have := (writeLoop_total _ (Nat.zero_le _) (by simp) hloop).2 (by omega)
      rw [UInt32.toNat_zero, Nat.sub_zero] at this
      exact hgt this
    obtain ⟨-, N', hw⟩ := wp_ok (h.wp_locked hf hoff hend) hrun
    have hslk : (u.icache ip).slk = true := by
      rw [hw.icache]
      simp
    have hlen : ((List.range w.len.toNat).map w.src).length = w.len.toNat := by simp
    refine ⟨hslk, overwrite r w.offset.toNat ((List.range w.len.toNat).map w.src), N ∪ N',
      h.extend (by rw [hlen]; exact hw.unlocked hft.unlocked) (fun i hi => ?_) hoff (by rw [hlen]; exact hend)⟩
    rw [hlen] at hi
    rw [Nat.add_sub_cancel_left, List.getD_eq_getElem _ _ (by rwa [hlen])]
    simp

theorem runWrites_ok (hf : Fresh s ip) : ∀ (ws : List WriteCall) {t u : FsState (Blocks z)}
    {r : List UInt8} {N : Finset (List Nat)}, Holding s t ip r N → runWrites ip ws t = .ok () u →
    ∃ r' N', Holding s u ip r' N' := by
  intro ws
  induction ws with
  | nil =>
    intro t u r N h hrun
    cases hrun
    exact ⟨r, N, h⟩
  | cons w ws ih =>
    intro t u r N h hrun
    rw [runWrites, bind_of_ok (lock_eq (hf.holding h))] at hrun
    obtain ⟨n, t1, hwrite, hrun⟩ := bind_ok.mp hrun
    obtain ⟨hslk, r1, N1, h1⟩ := h.call hf hwrite
    rw [bind_of_ok (inodeUnlock_run hslk)] at hrun
    exact ih h1 hrun

theorem Dense.congr {addrs : Fin N_ADDRS → UInt32} {d d' : Blocks z} (h : Dense addrs d)
    (hnode : ∀ p, IsPos p → nodeAt addrs d' p = nodeAt addrs d p) : Dense addrs d' := by
  intro p i j hp hpos hij hnone
  obtain ⟨k, q, rfl⟩ := List.exists_cons_of_ne_nil hp
  have hi : IsPos (k :: q ++ [i]) := by
    refine ⟨hpos.1, by simpa using hpos.2.1, fun m hm => ?_⟩
    rcases List.mem_append.mp hm with hm | hm
    · exact hpos.2.2 m (List.mem_append_left _ hm)
    · have := hpos.2.2 j (by simp)
      rw [List.mem_singleton.mp hm]
      omega
  rw [hnode _ hi] at hnone
  rw [hnode _ hpos]
  exact h _ i j hp hpos hij hnone

/-- Both bitmaps without the number and the blocks of the file of `ip`. -/
structure GivenBack (t u : FsState (Blocks z)) (ip : IId) : Prop where
  number : u.dev sb.inodeBitmapStart =
    (t.dev sb.inodeBitmapStart).clearBit (t.icache ip).inodeNum.toNat
  taken : ∀ n, n ∈ u.taken ↔ n ∈ t.taken ∧
    ∀ q, q ≠ [] → IsPos q → t.node ip q ≠ some (.block (sb.dataStart + n))

/-- A file that can be destroyed when its last reference goes. -/
structure Droppable (t : FsState (Blocks z)) (ip : IId) : Prop extends Fresh t ip where
  sound : Sound (t.icache ip).d.addrs t.dev
  dense : Dense (t.icache ip).d.addrs t.dev
  last : (t.icache ip).ref = 1
  number : (t.icache ip).inodeNum.toNat ∈ (t.dev sb.inodeBitmapStart).taken

/-- The last reference to a file without links; the inode may have been written back. -/
theorem inodeFree_last {t' : FsState (Blocks z)} (h : Droppable t ip)
    (hn : t'.icache ip = { t.icache ip with d := { (t.icache ip).d with nlink := 0 } })
    (hdev : ∀ x, sb.dataBitmapStart ≤ x ∨ x = sb.inodeBitmapStart → t'.dev x = t.dev x) :
    ∃ u, inodeFree ip t' = .ok () u ∧ GivenBack t u ip := by
  obtain ⟨hs', hnode⟩ := h.sound.congr (fun b hb => hdev b (.inl hb.bitmap_le)) (hdev _ (.inl (Nat.le_refl _)))
  obtain ⟨u, hrun, hu⟩ := @inodeDestroy_run z t' ip (by rw [hn]; exact hs')
    (by rw [hn]; exact h.dense.congr hnode) (by rw [hn]; exact h.unlocked)
    (by rw [hn]; exact h.region) (by rw [hn, hdev _ (.inr rfl)]; exact h.number)
  refine ⟨u.setIp ip { u.icache ip with ref := (u.icache ip).ref - 1 }, ?_, ?_, fun m => ?_⟩
  · rw [inodeFree, bind_of_ok (getIp_run _ _), if_pos (by rw [hn]; exact ⟨h.last, h.valid, rfl⟩),
      bind_of_ok hrun]
    rfl
  · rw [FsState.setIp_dev, hu.number, hn, hdev _ (.inr rfl)]
  · refine (hu.taken m).trans ?_
    rw [FsState.taken, hdev _ (.inl (Nat.le_refl _))]
    refine and_congr_right fun _ => forall_congr' fun q => forall_congr' fun _ => forall_congr' fun hq => ?_
    rw [FsState.node, hn, hnode q hq]
    rfl

theorem dropFile_run (h : Droppable t ip) (writeBack : Bool) :
    ∃ u, dropFile ip writeBack t = .ok () u ∧ GivenBack t u ip := by
  have hblk := h.region.block_lt
  generalize ht2 : (t.setIp ip { t.icache ip with slk := true }).setIp ip { t.icache ip with
    d := { (t.icache ip).d with nlink := 0 }, slk := true } = t2
  have hip : t2.icache ip = { t.icache ip with d := { (t.icache ip).d with nlink := 0 }, slk := true } := by
    subst ht2; simp
  have hdev : t2.dev = t.dev := by subst ht2; rfl
  have hset : ∀ rest : FsM (Blocks z) Unit, (do
      inodeLock ip
      modIp ip fun n => { n with d := { n.d with nlink := 0 } }
      rest) t = rest t2 := fun rest => by
    rw [bind_of_ok (lock_eq h.toFresh), bind_of_ok (modIp_run _ _ _), ← ht2]
    simp
  have hend : ∀ t3 : FsState (Blocks z), t3.icache ip = t2.icache ip →
      (∀ x, sb.dataBitmapStart ≤ x ∨ x = sb.inodeBitmapStart → t3.dev x = t.dev x) →
      ∃ u, (do inodeUnlock ip; inodeFree ip) t3 = .ok () u ∧ GivenBack t u ip := fun t3 h3 hd3 => by
    rw [bind_of_ok (inodeUnlock_run (by rw [h3, hip]))]
    refine inodeFree_last h ?_ hd3
    rw [FsState.setIp_icache, upd_same, h3, hip, ← h.unlocked]
  cases writeBack with
  | false =>
    rw [dropFile, hset]
    exact hend t2 rfl fun x _ => by rw [hdev]
  | true =>
    rw [dropFile, hset]
    obtain ⟨u, hrun, hu⟩ := hend (t2.flush ip) rfl fun x hx => by
      have hne : x ≠ inodeBlock (t2.icache ip).inodeNum := by
        rw [hip]
        rcases hx with hx | rfl
        · exact Nat.ne_of_gt (Nat.lt_of_lt_of_le hblk.1 hx)
        · exact Nat.ne_of_lt hblk.2
      rw [FsState.flush, FsState.put_dev, Blocks.store_of_apart ⟨hne, .inr (.inl ?_)⟩, hdev]
      rw [hip]
      exact Nat.ne_of_lt hblk.1
    exact ⟨u, (bind_of_ok (inodeRw_write (by rw [hip]))).trans hrun, hu⟩

/-- With fewer than 2048 numbers taken, the first free one is in the inode region. -/
theorem firstClear_inRegion {d : Block} {n : Nat} (hfew : d.taken.ncard < sb.inodeBlocks * INODE_PER_BLOCK)
    (hn : d.firstClear = some n) : InRegion (UInt16.ofNat n) := by
  obtain ⟨hlt, -, hleast⟩ := Block.firstClear_some hn
  have hsub : (Finset.range n : Set Nat) ⊆ d.taken := fun m hm => by
    have hm' := Finset.mem_range.mp (Finset.mem_coe.mp hm)
    exact ⟨by omega, hleast m hm'⟩
  have hfin : d.taken.Finite := (Set.finite_lt_nat BIT_PER_BLOCK).subset fun m hm => hm.1
  have hcard := Set.ncard_le_ncard hsub hfin
  rw [Set.ncard_coe_finset, Finset.card_range] at hcard
  rw [InRegion, UInt16.toNat_ofNat']
  exact Nat.lt_of_le_of_lt (Nat.mod_le _ _) (by omega)

end Life

theorem Block.ext_taken {d d' : Block} (h : ∀ n, n ∈ d.taken ↔ n ∈ d'.taken) : d = d' := by
  refine Block.ext_bit fun n hn => Bool.eq_iff_iff.mpr ?_
  have := h n
  simp only [Block.taken, Set.mem_ofPred_eq, hn, true_and] at this
  exact this

/-- Take a state with fewer than 2048 inodes, create a file, make any writes to it that return, set
its `nlink` to zero and drop the last reference. This returns, and both bitmaps are what they were
before the file was created. -/
theorem lifetime_conserves (s s1 t : FsState (Blocks true)) (ip : IId) (major minor : UInt16)
    (ws : List WriteCall) (writeBack : Bool)
    (hfew : (s.dev sb.inodeBitmapStart).taken.ncard < sb.inodeBlocks * INODE_PER_BLOCK)
    (hc : inodeCreate FT_FILE major minor s = .ok ip s1) (hw : runWrites ip ws s1 = .ok () t)
    (hlast : (t.icache ip).ref = 1) :
    ∃ u, dropFile ip writeBack t = .ok () u ∧
      u.dev sb.inodeBitmapStart = s.dev sb.inodeBitmapStart ∧
      u.dev sb.dataBitmapStart = s.dev sb.dataBitmapStart := by
  obtain ⟨n, hcr⟩ := inodeCreate_ok (by decide) hc
  have hreg := firstClear_inRegion hfew hcr.first
  have hf := hcr.fresh hreg
  obtain ⟨r, N, ht⟩ := runWrites_ok hf ws (hcr.holding rfl rfl (.inl rfl)) hw
  have hempty : ∀ p, p ≠ [] → s1.node ip p = none := fun p hp => by
    cases hx : s1.node ip p with
    | none => rfl
    | some x =>
      rw [FsState.node, hcr.inode] at hx
      exact absurd (nodeAt_zero hx) hp
  have hnum : (t.icache ip).inodeNum = UInt16.ofNat n := by rw [ht.icache, upd_same, ← hcr.number]
  have hone : t.dev sb.inodeBitmapStart = (s.dev sb.inodeBitmapStart).setBit n := by
    have hblk := hreg.block_lt
    rw [ht.low _ (by decide) (by rw [hcr.number]; exact Nat.ne_of_lt hblk.2), hcr.dev,
      Blocks.store_of_apart ⟨Nat.ne_of_lt hblk.2, .inr (.inl (Nat.ne_of_lt hblk.1))⟩, Blocks.store_same]
  obtain ⟨u, hrun, hu⟩ := dropFile_run
    ⟨hf.holding ht, ht.wf.sound, ht.dense hempty, hlast, by
      rw [hone, hnum, hcr.toNat_number, Block.taken_setBit hcr.lt]
      exact .inl rfl⟩ writeBack
  refine ⟨u, hrun, ?_, Block.ext_taken fun m => (hu.taken m).trans ?_⟩
  · rw [hu.number, hone, hnum, hcr.toNat_number,
      Block.clearBit_setBit hcr.lt (Block.firstClear_some hcr.first).2.1]
  · -- what the writes took is what the file has, and none of it was taken before
    have hs1 : s1.taken = (s.dev sb.dataBitmapStart).taken := by
      rw [FsState.taken, hcr.dev_data hreg (Nat.le_refl _)]
    rw [ht.grows.taken m, ← hs1]
    constructor
    · rintro ⟨hm | ⟨p, hp, hm⟩, hnot⟩
      · exact hm
      · exact absurd hm (hnot p (nodeAt_block hm) (ht.grows.empty p hp).1)
    · intro hm
      refine ⟨.inl hm, fun q hq hpos hb => ?_⟩
      have hN : q ∈ N := by
        by_contra hN
        rw [ht.grows.old q hpos hN, hempty q hq] at hb
        cases hb
      obtain ⟨k, hk, hfree⟩ := ht.grows.new q hN
      rw [hb] at hk
      injection hk with hk
      injection hk with hk
      rw [show m = k by omega] at hm
      exact hfree hm

/-- Three bytes are written by two calls, and the file dropped. -/
theorem lifetime_conserves_two : ∃ s t u, inodeCreate FT_FILE 0 0 blank = .ok 0 s ∧
    runWrites 0 [⟨0, lenOf [7], byteOf [7]⟩, ⟨1, lenOf [8, 9], byteOf [8, 9]⟩] s = .ok () t ∧
    dropFile 0 true t = .ok () u ∧
    u.dev sb.inodeBitmapStart = Block.zero ∧ u.dev sb.dataBitmapStart = Block.zero := by
  obtain ⟨s, hs, hnum, href, henough⟩ := create_blank
  obtain ⟨n, hcr⟩ := inodeCreate_ok (by decide) hs
  have hf := hcr.fresh (by rw [← hcr.number, hnum]; unfold InRegion; decide)
  obtain ⟨t1, N1, hlock1, hrun1, hslk1, h1⟩ := @Holding.write _ s s 0 [] ∅ hf
    (hcr.holding rfl rfl (.inl rfl)) 0 [7] 3 (by decide) (by decide) (by decide) (henough 3 (by decide))
  obtain ⟨t2, N2, hlock2, hrun2, hslk2, h2⟩ := @Holding.write _ s _ 0 _ N1 hf h1 1 [8, 9] 3
    (by decide) (by decide) (by decide) (henough 3 (by decide))
  have hw : runWrites 0 [⟨0, lenOf [7], byteOf [7]⟩, ⟨1, lenOf [8, 9], byteOf [8, 9]⟩] s = .ok ()
      (t2.setIp 0 { t2.icache 0 with slk := false }) := by
    rw [runWrites, bind_of_ok hlock1, bind_of_ok hrun1, bind_of_ok (inodeUnlock_run hslk1),
      runWrites, bind_of_ok hlock2, bind_of_ok hrun2, bind_of_ok (inodeUnlock_run hslk2)]
    rfl
  have hnone : (blank.dev sb.inodeBitmapStart).taken = ∅ :=
    Set.eq_empty_of_forall_notMem fun n hn => by
      have := hn.2
      simp [blank, Block.bit, Block.byte_zero] at this
  obtain ⟨u, hu, hi, hd⟩ := lifetime_conserves blank s _ 0 0 0 _ true
    (by rw [hnone, Set.ncard_empty]; decide) hs hw (by rw [h2.icache, upd_same]; exact href)
  exact ⟨s, _, u, hs, hw, hu, hi, hd⟩

end Fs
end WhuOS
