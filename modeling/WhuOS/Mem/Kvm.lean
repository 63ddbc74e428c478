import WhuOS.Mem.Table

/-!
# WhuOS.Mem.Kvm

The kernel's page table: what `kvm_make` leaves at every virtual address.

* `kvmMake_spec`         — the tables, the two stacks and every entry.
* `kernel_map_iff`       — where the table of `kvm_make` is the intended one.
-/

namespace WhuOS
namespace Mem

open Lib Kern

variable {A : List (Nat × Nat)} {d : Nat} {s s' s'' : Machine}
  {tab tab' tab'' : Nat → Nat → Option Nat} {l l' l'' : List Nat} {put put' : Nat → Option Nat}

/-! ## Enough pages -/

/-- The tables so far, and free pages enough for the other tables of `A` and `d` pages more. -/
structure Building (A : List (Nat × Nat)) (d : Nat) (s : Machine) (tab : Nat → Nat → Option Nat)
    (l : List Nat) : Prop extends PageTables s tab l where
  nodes : ∃ ns : List (Nat × Nat), ns.Nodup ∧ ns ⊆ A ∧ (∀ j v, tab j v ≠ none ↔ (j, v) ∈ ns) ∧
    A.length + d ≤ ns.length + l.length

/-- From one state to the next, with new entries `put` for some pages. -/
structure Adds (A : List (Nat × Nat)) (d : Nat) (s : Machine) (tab : Nat → Nat → Option Nat)
    (l : List Nat) (put : Nat → Option Nat) (s' : Machine) (tab' : Nat → Nat → Option Nat)
    (l' : List Nat) : Prop where
  building : Building A d s' tab' l'
  keeps : ∀ {j v n}, tab j v = some n → tab' j v = some n
  fresh : ∀ {j v n}, tab' j v = some n → tab j v = some n ∨ n ∈ l
  sub : l' ⊆ l
  leaf : ∀ v, leafAt s'.mem tab' v = (put v).getD (leafAt s.mem tab v)

theorem Adds.trans (h : Adds A d s tab l put s' tab' l') (h' : Adds A d s' tab' l' put' s'' tab'' l'') :
    Adds A d s tab l (fun v => (put' v).or (put v)) s'' tab'' l'' := by
  refine ⟨h'.building, fun hn => h'.keeps (h.keeps hn), fun hn => ?_, fun x hx => h.sub (h'.sub hx),
    fun v => ?_⟩
  · rcases h'.fresh hn with hn | hn
    · exact h.fresh hn
    · exact .inr (h.sub hn)
  · rw [h'.leaf v, h.leaf v]
    cases put' v <;> rfl

variable {new : List (Nat × Nat)} {n v : Nat}

theorem Building.not_short (b : Building A d s tab l) (hA : new ⊆ A) :
    ¬ Short tab l new := by
  intro h
  obtain ⟨ns, hnodup, hsub, hns, hlen⟩ := b.nodes
  have hdisj : (ns ++ new).Nodup := List.nodup_append.mpr ⟨hnodup, h.nodup, by
    rintro p hp q hq rfl; exact (hns p.1 p.2).mpr hp (h.absent p hq)⟩
  have hle := (hdisj.subperm (List.append_subset.mpr ⟨hsub, hA⟩)).length_le
  have hcount := h.count
  rw [List.length_append] at hle
  omega

theorem Building.adds (b : Building A d s tab l) (hA : new ⊆ A)
    (h : Maps s tab l put new s' tab' l') : Adds A d s tab l put s' tab' l' := by
  obtain ⟨ns, hnodup, hsub, hns, hlen⟩ := b.nodes
  have hcount := h.count
  refine ⟨⟨h.tables, ns ++ new, List.nodup_append.mpr ⟨hnodup, h.nodup, ?_⟩,
    List.append_subset.mpr ⟨hsub, hA⟩, fun j v => ?_, ?_⟩, h.keeps, h.fresh, h.sub, h.leaf⟩
  · rintro p hp q hq rfl; exact (hns p.1 p.2).mpr hp (h.absent p hq)
  · rw [h.added, hns, List.mem_append]
  · rw [List.length_append]; omega

/-! ## Ranges -/

/-- The pages from `v` on are mapped to the pages from `p` on. -/
def seg (v p n f : Nat) (w : Nat) : Option Nat :=
  if v ≤ w ∧ w < v + n then some (1024 * (p + (w - v)) + f) else none

theorem leaves_eq_seg {p : Nat} (v f : Nat) (h : PGSIZE * (p + n) ≤ 2 ^ 64) :
    leaves v p n f = seg v p n f := by
  funext w
  unfold leaves seg
  by_cases hw : v ≤ w ∧ w < v + n
  · rw [if_pos hw, if_pos hw, Nat.mod_eq_of_lt (by simp only [PGSIZE] at h; omega)]
  · rw [if_neg hw, if_neg hw]

/-- The tables for the pages `v .. v + n - 1` are allowed. -/
def Room (A : List (Nat × Nat)) (v n : Nat) : Prop :=
  ∀ w, v ≤ w → w < v + n → (1, w / 512 / 512) ∈ A ∧ (0, w / 512) ∈ A

theorem Room.subset (hA : Room A v n) (h : Spans v n new) :
    new ⊆ A := by
  intro p hp
  obtain ⟨w, h1, h2, rfl | rfl⟩ := h p hp
  · exact (hA w h1 h2).1
  · exact (hA w h1 h2).2

theorem kvmMap_spec {r : Nat} (v p n perm : Nat) (b : Building A d s tab l) (hr : tab 2 0 = some r)
    (hperm : perm < 1024) (hn : 0 < n) (hv : PGSIZE * (v + n) ≤ VA_MAX) (hA : Room A v n)
    (hp : PGSIZE * (p + n) ≤ 2 ^ 64) :
    ∃ s' tab' l', kvmMap (PGSIZE * r) (PGSIZE * v) (PGSIZE * p) (PGSIZE * n) perm s = .ok () s' ∧
      Adds A d s tab l (seg v p n (perm ||| 1)) s' tab' l' := by
  have hlen : pagesFor (PGSIZE * n) = n := by simp only [pagesFor, PGSIZE]; omega
  rcases vmMappages_spec v p (PGSIZE * n) perm b.toPageTables hr hperm (by simp only [PGSIZE]; omega)
    (by simp only [VA_MAX, PGSIZE] at *; omega) (by simp only [PGSIZE] at *; omega) with
    ⟨new, s', tab', l', hrun, hm, hspan⟩ | ⟨new, s', -, hshort, hspan⟩ <;> rw [hlen] at hspan
  · rw [hlen, leaves_eq_seg v _ hp] at hm
    exact ⟨s', tab', l', hrun, b.adds (hA.subset hspan) hm⟩
  · exact absurd hshort (b.not_short (hA.subset hspan))

/-! ## The tables of the kernel -/

/-- The tables that the ranges of `kvm_make` need: the root, one of level 1 for every gigabyte and one
of level 0 for every two megabytes. -/
def kernelTables : List (Nat × Nat) :=
  [(2, 0), (1, 0), (1, 2), (1, 255), (0, 16), (0, 96), (0, 97), (0, 128), (0, 131071)] ++
    (List.range' 1024 64).map fun v => (0, v)

theorem room_devices : Room kernelTables 0x10000 1 ∧ Room kernelTables 0xc000 0x400 ∧
    Room kernelTables 0x2000 0x10 ∧ Room kernelTables 0x10001 1 := by
  refine ⟨fun w h1 h2 => ?_, fun w h1 h2 => ?_, fun w h1 h2 => ?_, fun w h1 h2 => ?_⟩
  · have h3 : w / 512 = 128 := by omega
    rw [h3]; decide
  · have h3 : w / 512 = 96 ∨ w / 512 = 97 := by omega
    rcases h3 with h3 | h3 <;> rw [h3] <;> decide
  · have h3 : w / 512 = 16 := by omega
    rw [h3]; decide
  · have h3 : w / 512 = 128 := by omega
    rw [h3]; decide

theorem room_memory (h1 : 0x80000 ≤ v) (h2 : v + n ≤ 0x88000) : Room kernelTables v n := by
  intro w h3 h4
  have h5 : w / 512 / 512 = 2 := by omega
  refine ⟨by rw [h5]; decide, List.mem_append_right _ (List.mem_map.mpr ⟨w / 512, ?_, rfl⟩)⟩
  rw [List.mem_range'_1]; omega

theorem room_top (h1 : 2 ^ 26 - 512 ≤ v) (h2 : v < 2 ^ 26) : Room kernelTables v 1 := by
  intro w h3 h4
  have h5 : w / 512 = 131071 := by omega
  rw [h5]; decide

theorem Building.takeFrame {c : Nat} (b : Building A (d + 1) s tab (c :: l)) :
    Building A d (taken s false c) tab l ∧
      ∀ v, leafAt (taken s false c).mem tab v = leafAt s.mem tab v := by
  obtain ⟨ht, hl⟩ := b.table.congr fun j v k hk a ha =>
    show (taken s false c).mem a = s.mem a from
      taken_outside (by rw [ha]; rintro rfl; exact b.apart hk (by simp))
  refine ⟨⟨⟨b.list.taken, ht, fun hk h => b.apart hk (List.mem_cons_of_mem _ h)⟩, ?_⟩, hl⟩
  obtain ⟨ns, hnodup, hsub, hns, hlen⟩ := b.nodes
  exact ⟨ns, hnodup, hsub, hns, by simp only [List.length_cons] at hlen; omega⟩

theorem Building.exists_cons (b : Building A (d + 1) s tab l) : ∃ c t, l = c :: t := by
  cases l with
  | cons c t => exact ⟨c, t, rfl⟩
  | nil =>
    obtain ⟨ns, hnodup, hsub, -, hlen⟩ := b.nodes
    have := (hnodup.subperm hsub).length_le
    simp only [List.length_nil] at hlen
    omega

theorem building_root {r : Nat} (hl : FreeList s false (r :: l))
    (hlen : kernelTables.length + 2 ≤ 1 + l.length) : ∃ tab,
    Building kernelTables 2 (taken s false r) tab l ∧ tab 2 0 = some r ∧
      ∀ v, leafAt (taken s false r).mem tab v = 0 := by
  obtain ⟨tab, ht, hr, hall, hz⟩ := tables_root hl
  refine ⟨tab, ⟨ht, [(2, 0)], by simp, by decide, fun j v => ?_, hlen⟩, hr, hz⟩
  rw [hall, List.mem_singleton]

/-! ## `kvm_make` -/

def deviceOver (w : Nat) : Option Nat :=
  (seg 0x10001 0x10001 1 7 w).or <| (seg 0x2000 0x2000 0x10 7 w).or <|
  (seg 0xc000 0xc000 0x400 7 w).or <| (seg 0x10000 0x10000 1 7 w)

/-- What `kvm_make` maps, the stacks in the frames `c0` and `c1`; `e` and `t` are the pages of `etext`
and of the trampoline. -/
def kernelOver (e t c0 c1 w : Nat) : Option Nat :=
  (seg (2 ^ 26 - 5) c1 1 7 w).or <| (seg (2 ^ 26 - 3) c0 1 7 w).or <| (seg (2 ^ 26 - 1) t 1 11 w).or <|
  (seg e e (0x88000 - e) 7 w).or <| (seg 0x80000 0x80000 (e - 0x80000) 11 w).or <| deviceOver w

theorem devices_spec {r : Nat} (b : Building kernelTables d s tab l) (hr : tab 2 0 = some r) :
    ∃ s1 s2 s3 s4 tab' l',
      kvmMap (PGSIZE * r) UART_BASE UART_BASE PGSIZE (PTE_R ||| PTE_W) s = .ok () s1 ∧
      kvmMap (PGSIZE * r) PLIC_BASE PLIC_BASE 0x400000 (PTE_R ||| PTE_W) s1 = .ok () s2 ∧
      kvmMap (PGSIZE * r) CLINT_BASE CLINT_BASE 0x10000 (PTE_R ||| PTE_W) s2 = .ok () s3 ∧
      kvmMap (PGSIZE * r) VIRTIO_BASE VIRTIO_BASE PGSIZE (PTE_R ||| PTE_W) s3 = .ok () s4 ∧
      Adds kernelTables d s tab l deviceOver s4 tab' l' := by
  obtain ⟨hA1, hA2, hA3, hA4⟩ := room_devices
  obtain ⟨s1, tab1, l1, h1, m1⟩ := kvmMap_spec 0x10000 0x10000 1 (PTE_R ||| PTE_W) b hr (by decide)
    (by decide) (by decide) hA1 (by decide)
  obtain ⟨s2, tab2, l2, h2, m2⟩ := kvmMap_spec 0xc000 0xc000 0x400 (PTE_R ||| PTE_W) m1.building
    (m1.keeps hr) (by decide) (by decide) (by decide) hA2 (by decide)
  have m12 := m1.trans m2
  obtain ⟨s3, tab3, l3, h3, m3⟩ := kvmMap_spec 0x2000 0x2000 0x10 (PTE_R ||| PTE_W) m12.building
    (m12.keeps hr) (by decide) (by decide) (by decide) hA3 (by decide)
  have m13 := m12.trans m3
  obtain ⟨s4, tab4, l4, h4, m4⟩ := kvmMap_spec 0x10001 0x10001 1 (PTE_R ||| PTE_W) m13.building
    (m13.keeps hr) (by decide) (by decide) (by decide) hA4 (by decide)
  exact ⟨s1, s2, s3, s4, tab4, l4, h1, h2, h3, h4, m13.trans m4⟩

theorem memory_spec {e t r : Nat} (b : Building kernelTables d s tab l) (hr : tab 2 0 = some r)
    (he : 0x80000 < e) (he' : e < 0x88000) (ht : PGSIZE * t < 2 ^ 64) :
    ∃ s5 s6 s7 tab' l',
      kvmMap (PGSIZE * r) KERNEL_BASE KERNEL_BASE (sub64 (PGSIZE * e) KERNEL_BASE) (PTE_R ||| PTE_X) s =
        .ok () s5 ∧
      kvmMap (PGSIZE * r) (PGSIZE * e) (PGSIZE * e) (sub64 PHYSTOP (PGSIZE * e)) (PTE_R ||| PTE_W) s5 =
        .ok () s6 ∧
      kvmMap (PGSIZE * r) TRAMPOLINE (PGSIZE * t) PGSIZE (PTE_R ||| PTE_X) s6 = .ok () s7 ∧
      Adds kernelTables d s tab l (fun w => (seg (2 ^ 26 - 1) t 1 11 w).or <|
        (seg e e (0x88000 - e) 7 w).or <| seg 0x80000 0x80000 (e - 0x80000) 11 w) s7 tab' l' := by
  have htext : sub64 (PGSIZE * e) KERNEL_BASE = PGSIZE * (e - 0x80000) := by
    simp only [sub64, KERNEL_BASE, PGSIZE]; omega
  have hdata : sub64 PHYSTOP (PGSIZE * e) = PGSIZE * (0x88000 - e) := by
    simp only [sub64, PHYSTOP, PGSIZE]; omega
  obtain ⟨s5, tab5, l5, h5, m5⟩ := kvmMap_spec 0x80000 0x80000 (e - 0x80000) (PTE_R ||| PTE_X) b hr
    (by decide) (by omega) (by simp only [VA_MAX, PGSIZE]; omega)
    (room_memory (by omega) (by omega)) (by simp only [PGSIZE]; omega)
  obtain ⟨s6, tab6, l6, h6, m6⟩ := kvmMap_spec e e (0x88000 - e) (PTE_R ||| PTE_W) m5.building
    (m5.keeps hr) (by decide) (by omega) (by simp only [VA_MAX, PGSIZE]; omega)
    (room_memory (by omega) (by omega)) (by simp only [PGSIZE]; omega)
  have m56 := m5.trans m6
  obtain ⟨s7, tab7, l7, h7, m7⟩ := kvmMap_spec (2 ^ 26 - 1) t 1 (PTE_R ||| PTE_X) m56.building
    (m56.keeps hr) (by decide) (by decide) (by decide) (room_top (by decide) (by decide))
    (by simp only [PGSIZE] at *; omega)
  rw [← htext] at h5
  rw [← hdata] at h6
  exact ⟨s5, s6, s7, tab7, l7, h5, h6, h7, m56.trans m7⟩

theorem kvmStack_spec {r i : Nat} (b : Building kernelTables (d + 1) s tab l) (hr : tab 2 0 = some r)
    (hi : i < 200) : ∃ c t s' tab' l', l = c :: t ∧
      kvmStack (PGSIZE * r) i s = .ok () s' ∧
      Adds kernelTables d (taken s false c) tab t (seg (2 ^ 26 - 3 - 2 * i) c 1 7) s' tab' l' := by
  obtain ⟨c, t, rfl⟩ := b.exists_cons
  obtain ⟨hpos, hlt⟩ := b.list.page c (by simp)
  have hv : KSTACK i = PGSIZE * (2 ^ 26 - 3 - 2 * i) := by
    simp only [KSTACK, TRAMPOLINE, VA_MAX, PGSIZE]; omega
  have hc : PGSIZE * c ≠ 0 := by simp only [PGSIZE]; omega
  obtain ⟨s', tab', l', hrun, hm⟩ := kvmMap_spec (2 ^ 26 - 3 - 2 * i) c 1 (PTE_R ||| PTE_W) b.takeFrame.1
    hr (by decide) (by decide) (by simp only [VA_MAX, PGSIZE]; omega)
    (room_top (by omega) (by omega)) (by simp only [PGSIZE] at *; omega)
  refine ⟨c, t, s', tab', l', rfl, ?_, hm⟩
  rw [kvmStack, bind_of_ok (pmemAlloc_cons b.list), if_neg hc, hv]
  exact hrun

/-- The table and the stacks that `kvm_make` leaves behind. -/
structure Made (s : Machine) (l : List Nat) (e t : Nat) (s' : Machine) (tab : Nat → Nat → Option Nat)
    (l' : List Nat) (r c0 c1 : Nat) : Prop where
  table : PageTable s'.mem tab
  root : tab 2 0 = some r
  list : FreeList s' false l'
  sub : ∀ c, c = c0 ∨ c = c1 → c ∈ l ∧ c ∉ l' ∧ ∀ j v, tab j v ≠ some c
  ne : c0 ≠ c1
  leaf : ∀ w, leafAt s'.mem tab w = (kernelOver e t c0 c1 w).getD 0

theorem kvmMake_start {r etext trampoline : Nat} (hl : FreeList s false (r :: l)) :
    kvmMake etext trampoline s = (do
      kvmMap (PGSIZE * r) UART_BASE UART_BASE PGSIZE (PTE_R ||| PTE_W)
      kvmMap (PGSIZE * r) PLIC_BASE PLIC_BASE 0x400000 (PTE_R ||| PTE_W)
      kvmMap (PGSIZE * r) CLINT_BASE CLINT_BASE 0x10000 (PTE_R ||| PTE_W)
      kvmMap (PGSIZE * r) VIRTIO_BASE VIRTIO_BASE PGSIZE (PTE_R ||| PTE_W)
      kvmMap (PGSIZE * r) KERNEL_BASE KERNEL_BASE (sub64 etext KERNEL_BASE) (PTE_R ||| PTE_X)
      kvmMap (PGSIZE * r) etext etext (sub64 PHYSTOP etext) (PTE_R ||| PTE_W)
      kvmMap (PGSIZE * r) TRAMPOLINE trampoline PGSIZE (PTE_R ||| PTE_X)
      Kern.forFrom (kvmStack (PGSIZE * r)) 0 NCPU
      return PGSIZE * r : MemM Nat) (taken s false r) := by
  have hr0 : PGSIZE * r ≠ 0 := by
    have := (hl.page r (by simp)).1
    simp only [PGSIZE]; omega
  have hset : memset (PGSIZE * r) 0 PGSIZE (taken s false r) = .ok () (taken s false r) := by
    show EStateM.Result.ok () { taken s false r with
      mem := (taken s false r).mem.write (PGSIZE * r) PGSIZE (fun _ => 0) } = _
    rw [taken_clear]
  rw [kvmMake, bind_of_ok (pmemAlloc_cons hl), if_neg hr0]
  dsimp only
  rw [bind_of_ok hset]

theorem kvmMake_spec {e t : Nat} (hl : FreeList s false l) (hlen : 75 ≤ l.length) (he : 0x80000 < e)
    (he' : e < 0x88000) (ht : PGSIZE * t < 2 ^ 64) :
    ∃ s' tab l' r c0 c1, kvmMake (PGSIZE * e) (PGSIZE * t) s = .ok (PGSIZE * r) s' ∧
      Made s l e t s' tab l' r c0 c1 := by
  obtain ⟨r, l, rfl⟩ : ∃ r t, l = r :: t := by
    cases l with
    | nil => simp at hlen
    | cons r l => exact ⟨r, l, rfl⟩
  have hA : kernelTables.length = 73 := by simp [kernelTables]
  obtain ⟨tab0, b0, hr, hz0⟩ := building_root hl (by rw [hA]; simp only [List.length_cons] at hlen; omega)
  obtain ⟨s1, s2, s3, s4, tab4, l4, h1, h2, h3, h4, m4⟩ := devices_spec b0 hr
  obtain ⟨s5, s6, s7, tab7, l7, h5, h6, h7, m57⟩ := memory_spec m4.building (m4.keeps hr) he he' ht
  have m7 := m4.trans m57
  obtain ⟨c0, t8, s8, tab8, l8, rfl, h8, m8⟩ := kvmStack_spec (i := 0) m7.building (m7.keeps hr) (by decide)
  obtain ⟨c1, t9, s9, tab9, l9, rfl, h9, m9⟩ := kvmStack_spec (i := 1) m8.building (m8.keeps (m7.keeps hr))
    (by decide)
  have hc0 : c0 ∉ t8 := (List.nodup_cons.mp m7.building.list.nodup).1
  have hc1 : c1 ∉ t9 := (List.nodup_cons.mp m8.building.list.nodup).1
  have hc1t : c1 ∈ t8 := m8.sub (by simp)
  have hsub9 : ∀ {c}, c ∈ t9 → c ∈ t8 := fun h => m8.sub (List.mem_cons_of_mem _ h)
  refine ⟨s9, tab9, l9, r, c0, c1, ?_, m9.building.table, m9.keeps (m8.keeps (m7.keeps hr)),
    m9.building.list, ?_, ?_, fun w => ?_⟩
  · have hloop : Kern.forFrom (kvmStack (PGSIZE * r)) 0 NCPU s7 = .ok () s9 := by
      rw [Kern.forFrom, bind_of_ok h8, Kern.forFrom, bind_of_ok h9]
      rfl
    rw [kvmMake_start hl, bind_of_ok h1, bind_of_ok h2, bind_of_ok h3,
      bind_of_ok h4, bind_of_ok h5, bind_of_ok h6, bind_of_ok h7,
      bind_of_ok hloop]
    rfl
  · rintro c (rfl | rfl)
    · refine ⟨List.mem_cons_of_mem _ (m7.sub (by simp)), fun h => hc0 (hsub9 (m9.sub h)), fun j v hk => ?_⟩
      rcases m9.fresh hk with hk | hk
      · rcases m8.fresh hk with hk | hk
        · exact m7.building.apart hk (by simp)
        · exact hc0 hk
      · exact hc0 (hsub9 hk)
    · refine ⟨List.mem_cons_of_mem _ (m7.sub (List.mem_cons_of_mem _ hc1t)), fun h => hc1 (m9.sub h),
        fun j v hk => ?_⟩
      rcases m9.fresh hk with hk | hk
      · exact m8.building.apart hk (by simp)
      · exact hc1 hk
  · rintro rfl
    exact hc0 hc1t
  · rw [m9.leaf w, m8.building.takeFrame.2 w, m8.leaf w, m7.building.takeFrame.2 w, m7.leaf w, hz0 w]
    have h0 : 2 ^ 26 - 3 - 2 * 0 = 2 ^ 26 - 3 := by omega
    have h1 : 2 ^ 26 - 3 - 2 * 1 = 2 ^ 26 - 5 := by omega
    simp only [kernelOver, Option.getD_or, h0, h1]

theorem kvmMake_empty {t : Nat} (hl : FreeList s false l) (hlen : 75 ≤ l.length) (pgtbl : Nat)
    (s' : Machine) : kvmMake KERNEL_BASE t s ≠ .ok pgtbl s' := by
  obtain ⟨r, l, rfl⟩ : ∃ r t, l = r :: t := by
    cases l with
    | nil => simp at hlen
    | cons r l => exact ⟨r, l, rfl⟩
  have hA : kernelTables.length = 73 := by simp [kernelTables]
  obtain ⟨tab0, b0, hr, -⟩ := building_root hl (by rw [hA]; simp only [List.length_cons] at hlen; omega)
  obtain ⟨s1, s2, s3, s4, tab4, l4, h1, h2, h3, h4, -⟩ := devices_spec b0 hr
  have htext : kvmMap (PGSIZE * r) KERNEL_BASE KERNEL_BASE (sub64 KERNEL_BASE KERNEL_BASE)
      (PTE_R ||| PTE_X) s4 = .error (.panic "vm_mappages: size cannot be zero") s4 := by
    rw [show sub64 KERNEL_BASE KERNEL_BASE = 0 by decide, kvmMap, vmMappages, if_pos rfl]
    rfl
  rw [kvmMake_start hl, bind_of_ok h1, bind_of_ok h2, bind_of_ok h3, bind_of_ok h4,
    bind_of_error htext]
  exact fun h => by cases h

/-! ## The intended map -/

/-- The entry for an address outside of the stacks; 0 where nothing should be. -/
def kernelPte (etext trampoline va : Nat) : Nat :=
  if inRange va UART_BASE PGSIZE || inRange va VIRTIO_BASE PGSIZE || inRange va PLIC_BASE 0x400000 ||
      inRange va CLINT_BASE 0x10000 then
    paToPte va ||| (PTE_R ||| PTE_W) ||| PTE_V
  else if KERNEL_BASE ≤ va ∧ va < etext then paToPte va ||| (PTE_R ||| PTE_X) ||| PTE_V
  else if etext ≤ va ∧ va < PHYSTOP then paToPte va ||| (PTE_R ||| PTE_W) ||| PTE_V
  else if inRange va TRAMPOLINE PGSIZE then paToPte trampoline ||| (PTE_R ||| PTE_X) ||| PTE_V
  else 0

/-- `va` is in the stack page of process slot `i`. -/
def InStack (va i : Nat) : Prop := va / PGSIZE = KSTACK i / PGSIZE

/-- The frame `k` is the stack of the slot `i` and nothing else: it was free, it is no longer, it is no
table, and no other stack. -/
structure PrivateFrame (s s' : Machine) (pgtbl i k : Nat) : Prop where
  taken : ∀ l, FreeList s false l → k ∈ l
  held : ∀ l, FreeList s' false l → k ∉ l
  table : ¬ IsTable s'.mem pgtbl (PGSIZE * k)
  alone : ∀ j, j < Sched.NPROC → j ≠ i → pteHas (leafPte s'.mem pgtbl (KSTACK j)) PTE_V = true →
    pteToPa (leafPte s'.mem pgtbl (KSTACK j)) ≠ PGSIZE * k

/-- `kvm_make` returns a table that has at `va` what is intended. -/
def AsIntended (etext trampoline : Nat) (s : Machine) (va : Nat) : Prop :=
  ∃ pgtbl s', kvmMake etext trampoline s = .ok pgtbl s' ∧
    (∀ i, i < Sched.NPROC → InStack va i → ∃ k, PrivateFrame s s' pgtbl i k ∧
      leafPte s'.mem pgtbl va = paToPte (PGSIZE * k) ||| (PTE_R ||| PTE_W) ||| PTE_V) ∧
    ((∀ i, i < Sched.NPROC → ¬ InStack va i) →
      leafPte s'.mem pgtbl va = kernelPte etext trampoline va)

theorem inStack_iff {va i : Nat} (hi : i < Sched.NPROC) :
    InStack va i ↔ va / PGSIZE = 2 ^ 26 - 3 - 2 * i := by
  have : KSTACK i / PGSIZE = 2 ^ 26 - 3 - 2 * i := by
    simp only [KSTACK, TRAMPOLINE, VA_MAX, PGSIZE, Sched.NPROC] at *; omega
  rw [InStack, this]

theorem seg_self_or (v n f w : Nat) (o : Option Nat) : ((seg v v n f w).or o).getD 0 =
    if v ≤ w ∧ w < v + n then 1024 * w + f else o.getD 0 := by
  unfold seg
  split
  · have : v + (w - v) = w := by omega
    rw [this]; rfl
  · rfl

theorem seg_one_or (v p f w : Nat) (o : Option Nat) : ((seg v p 1 f w).or o).getD 0 =
    if w = v then 1024 * p + f else o.getD 0 := by
  have hiff : (v ≤ w ∧ w < v + 1) ↔ w = v := by omega
  unfold seg
  rw [if_congr hiff rfl rfl]
  split
  · have : p + (w - v) = p := by omega
    rw [this]; rfl
  · rfl

theorem seg_one (v p f w : Nat) : (seg v p 1 f w).getD 0 = if w = v then 1024 * p + f else 0 := by
  have := seg_one_or v p f w none
  rwa [Option.or_none] at this

theorem kernelOver_eq {e t c0 c1 w : Nat} (he : 0x80000 < e) (he' : e < 0x88000) :
    (kernelOver e t c0 c1 w).getD 0 =
      if w = 2 ^ 26 - 5 then 1024 * c1 + 7
      else if w = 2 ^ 26 - 3 then 1024 * c0 + 7
      else if w = 2 ^ 26 - 1 then 1024 * t + 11
      else if w = 0x10000 ∨ w = 0x10001 ∨ (0xc000 ≤ w ∧ w < 0xc400) ∨ (0x2000 ≤ w ∧ w < 0x2010) then
        1024 * w + 7
      else if 0x80000 ≤ w ∧ w < e then 1024 * w + 11
      else if e ≤ w ∧ w < 0x88000 then 1024 * w + 7
      else 0 := by
  simp only [kernelOver, deviceOver, seg_one_or, seg_self_or, seg_one]
  split_ifs <;> omega

theorem paToPte_down (va : Nat) {f : Nat} (hf : f < 1024) :
    paToPte va ||| f ||| PTE_V = 1024 * (va / PGSIZE) + (f ||| 1) := by
  rw [← leaf_or (va / PGSIZE) hf]
  have : paToPte (PGSIZE * (va / PGSIZE)) = paToPte va := by simp only [paToPte, PGSIZE]; omega
  rw [this]

theorem kernelPte_eq (e t va : Nat) : kernelPte (PGSIZE * e) (PGSIZE * t) va =
    if va / PGSIZE = 0x10000 ∨ va / PGSIZE = 0x10001 ∨ (0xc000 ≤ va / PGSIZE ∧ va / PGSIZE < 0xc400) ∨
        (0x2000 ≤ va / PGSIZE ∧ va / PGSIZE < 0x2010) then 1024 * (va / PGSIZE) + 7
    else if 0x80000 ≤ va / PGSIZE ∧ va / PGSIZE < e then 1024 * (va / PGSIZE) + 11
    else if e ≤ va / PGSIZE ∧ va / PGSIZE < 0x88000 then 1024 * (va / PGSIZE) + 7
    else if va / PGSIZE = 2 ^ 26 - 1 then 1024 * t + 11
    else 0 := by
  have ht : PGSIZE * t / PGSIZE = t := by simp only [PGSIZE]; omega
  simp only [kernelPte, paToPte_down va (show PTE_R ||| PTE_W < 1024 by decide),
    paToPte_down va (show PTE_R ||| PTE_X < 1024 by decide),
    paToPte_down (PGSIZE * t) (show PTE_R ||| PTE_X < 1024 by decide), ht, inRange, Bool.or_eq_true,
    Bool.and_eq_true, decide_eq_true_eq]
  refine if_congr ?_ rfl (if_congr ?_ rfl (if_congr ?_ rfl (if_congr ?_ rfl rfl))) <;>
    simp only [UART_BASE, VIRTIO_BASE, PLIC_BASE, CLINT_BASE, KERNEL_BASE, PHYSTOP, TRAMPOLINE, VA_MAX,
      PGSIZE] <;> omega

namespace Made

variable {e t r c0 c1 va : Nat} {s' : Machine} {l' : List Nat}

theorem at_stack (h : Made s l e t s' tab l' r c0 c1) (he : 0x80000 < e) (he' : e < 0x88000)
    (hi : i < Sched.NPROC) (hva : va < VA_MAX) (hin : InStack va i) :
    leafPte s'.mem (PGSIZE * r) va =
      if i = 1 then 1024 * c1 + 7 else if i = 0 then 1024 * c0 + 7 else 0 := by
  rw [inStack_iff hi] at hin
  rw [h.table.leafPte_eq h.root hva, h.leaf, kernelOver_eq he he', hin]
  simp only [Sched.NPROC] at hi
  split_ifs <;> omega

theorem at_other (h : Made s l e t s' tab l' r c0 c1) (he : 0x80000 < e) (he' : e < 0x88000)
    (hva : va < VA_MAX) (hout : ∀ i, i < Sched.NPROC → ¬ InStack va i) :
    leafPte s'.mem (PGSIZE * r) va = kernelPte (PGSIZE * e) (PGSIZE * t) va := by
  have h0 : va / PGSIZE ≠ 2 ^ 26 - 3 := (inStack_iff (by decide)).not.mp (hout 0 (by decide))
  have h1 : va / PGSIZE ≠ 2 ^ 26 - 5 := fun h =>
    hout 1 (by decide) ((inStack_iff (by decide)).mpr (by omega))
  rw [h.table.leafPte_eq h.root hva, h.leaf, kernelOver_eq he he', kernelPte_eq, if_neg h1, if_neg h0]
  split_ifs <;> omega

theorem privateFrame (h : Made s l e t s' tab l' r c0 c1) (hl : FreeList s false l) (he : 0x80000 < e)
    (he' : e < 0x88000) (hk : i = 0 ∧ k = c0 ∨ i = 1 ∧ k = c1) :
    PrivateFrame s s' (PGSIZE * r) i k := by
  obtain ⟨hmem, hheld, htab⟩ := h.sub k (hk.imp And.right And.right)
  refine ⟨fun l2 h2 => hl.unique h2 ▸ hmem, fun l2 h2 => h.list.unique h2 ▸ hheld, fun ht => ?_,
    fun j hj hne hV hpa => ?_⟩
  · obtain ⟨j, v, n, hn, hkn⟩ := h.table.isTable h.root ht
    have : k = n := by simp only [PGSIZE] at hkn; omega
    exact htab j v (this ▸ hn)
  · have hva : KSTACK j < VA_MAX := by
      simp only [KSTACK, TRAMPOLINE, VA_MAX, PGSIZE, Sched.NPROC] at *; omega
    have hpage : ∀ c, c = c0 ∨ c = c1 → pteToPa (1024 * c + 7) = PGSIZE * c := fun c hc =>
      pteToPa_page (by decide) (hl.page c (h.sub c hc).1).2
    have hneq := h.ne
    rw [h.at_stack he he' hj hva rfl] at hV hpa
    split_ifs at hV hpa with h1 h0
    · rw [hpage c1 (.inr rfl)] at hpa
      simp only [PGSIZE] at hpa; omega
    · rw [hpage c0 (.inl rfl)] at hpa
      simp only [PGSIZE] at hpa; omega
    · rw [pteHas_zero] at hV; cases hV

end Made

/-- The table has at `va` what is intended iff `va` is in no stack of the slots after `NCPU`; with
`etext` at `KERNEL_BASE` there is no table at all. -/
theorem kernel_map_iff {etext trampoline va : Nat} (hal : etext % PGSIZE = 0) (hb : KERNEL_BASE ≤ etext)
    (hp : etext < PHYSTOP) (ht : trampoline % PGSIZE = 0) (ht' : trampoline < 2 ^ 64)
    (hl : FreeList s false l) (hlen : 75 ≤ l.length) (hva : va < VA_MAX) :
    AsIntended etext trampoline s va ↔
      KERNEL_BASE < etext ∧ ∀ i, NCPU ≤ i → i < Sched.NPROC → ¬ InStack va i := by
  have hne : AsIntended etext trampoline s va → KERNEL_BASE < etext := by
    rintro ⟨pgtbl, s', hrun, -⟩
    refine Nat.lt_of_le_of_ne hb ?_
    rintro rfl
    exact kvmMake_empty hl hlen pgtbl s' hrun
  rcases Nat.eq_or_lt_of_le hb with rfl | hlt
  · exact ⟨fun h => absurd (hne h) (Nat.lt_irrefl _), fun h => absurd h.1 (Nat.lt_irrefl _)⟩
  obtain ⟨e, rfl⟩ : ∃ e, etext = PGSIZE * e := ⟨etext / PGSIZE, by simp only [PGSIZE] at *; omega⟩
  obtain ⟨t, rfl⟩ : ∃ t, trampoline = PGSIZE * t :=
    ⟨trampoline / PGSIZE, by simp only [PGSIZE] at *; omega⟩
  have he : 0x80000 < e := by simp only [PGSIZE, KERNEL_BASE] at *; omega
  have he' : e < 0x88000 := by simp only [PGSIZE, PHYSTOP] at *; omega
  obtain ⟨s', tab, l', r, c0, c1, hrun, hmade⟩ := kvmMake_spec hl hlen he he' ht'
  constructor
  · rintro ⟨pgtbl, s2, hrun2, hstack, -⟩
    obtain ⟨rfl, rfl⟩ : PGSIZE * r = pgtbl ∧ s' = s2 := by
      rw [hrun] at hrun2
      injection hrun2 with h1 h2
      exact ⟨h1, h2⟩
    refine ⟨hlt, fun i hi hi' hin => ?_⟩
    obtain ⟨k, -, hleaf⟩ := hstack i hi' hin
    rw [hmade.at_stack he he' hi' hva hin, leaf_or k (by decide)] at hleaf
    simp only [NCPU] at hi
    rw [if_neg (by omega), if_neg (by omega)] at hleaf
    have : (PTE_R ||| PTE_W) ||| 1 = 7 := by decide
    omega
  · rintro ⟨-, hno⟩
    refine ⟨PGSIZE * r, s', hrun, fun i hi hin => ?_, fun hout => hmade.at_other he he' hva hout⟩
    have hi2 : i < NCPU := Nat.lt_of_not_le fun hle => hno i hle hi hin
    have hi3 : i = 0 ∨ i = 1 := by simp only [NCPU] at hi2; omega
    rcases hi3 with rfl | rfl
    · exact ⟨c0, hmade.privateFrame hl he he' (.inl ⟨rfl, rfl⟩), by
        rw [hmade.at_stack he he' hi hva hin, leaf_or c0 (by decide)]; rfl⟩
    · exact ⟨c1, hmade.privateFrame hl he he' (.inr ⟨rfl, rfl⟩), by
        rw [hmade.at_stack he he' hi hva hin, leaf_or c1 (by decide)]; rfl⟩

theorem exists_memory : ∃ s l, FreeList s false l ∧ 75 ≤ l.length := by
  let s : Machine := ⟨fun _ => 0, ⟨0, 0, 0, 0⟩, ⟨0, 0, 0, 0⟩, fun _ => ⟨0, 0, none, none⟩,
    fun _ => ⟨0, .unused, none, none, 0, 0, 0, none, 0⟩, none, 1, [], false⟩
  have hfits : Fits 0x80020000 0x88000000 := ⟨by decide, by decide, by decide, by decide, by decide⟩
  obtain ⟨s', -, hf, -⟩ := pmemInit_filled hfits s
  refine ⟨s', _, hf.user, ?_⟩
  rw [length_pagesDown]
  decide

/-- The stack of slot 1 is there. -/
theorem kernel_map_iff_slot : ∃ s, AsIntended 0x80010000 0x8000f000 s (KSTACK 1) := by
  obtain ⟨s, l, hl, hlen⟩ := exists_memory
  refine ⟨s, (kernel_map_iff (by decide) (by decide) (by decide) (by decide) (by decide) hl hlen
    (by decide)).mpr ⟨by decide, fun i hi hi' hin => ?_⟩⟩
  rw [inStack_iff hi'] at hin
  simp only [KSTACK, TRAMPOLINE, VA_MAX, PGSIZE, NCPU, Sched.NPROC] at *; omega

/-- Nothing is mapped at the stack of slot 2. -/
theorem kernel_map_no_stack : ∃ s pgtbl s', kvmMake 0x80010000 0x8000f000 s = .ok pgtbl s' ∧
    leafPte s'.mem pgtbl (KSTACK 2) = 0 := by
  obtain ⟨s, l, hl, hlen⟩ := exists_memory
  obtain ⟨s', tab, l', r, c0, c1, hrun, hmade⟩ :=
    kvmMake_spec (e := 0x80010) (t := 0x8000f) hl hlen (by decide) (by decide) (by decide)
  exact ⟨s, PGSIZE * r, s', hrun,
    hmade.at_stack (i := 2) (by decide) (by decide) (by decide) (by decide) rfl⟩

end Mem
end WhuOS
