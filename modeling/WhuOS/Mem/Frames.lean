import WhuOS.Mem.Translate

/-!
# WhuOS.Mem.Frames

Page tables whose leaves have frames of their own, as those of user processes have. Some pages `sh`
may be shared with others, as the trampoline is.

* `Frames`               — free pages, tables and frames are all different pages of the user region.
* `Frames.map`           — pages are mapped to frames that were nobody's.
* `Frames.unmapPages`    — pages are unmapped; with `freeit` their frames go to the free list.
-/

namespace WhuOS
namespace Mem

open Lib Kern

variable {sh : Nat → Prop} {s s' s'' : Machine} {tab tab' : Nat → Nat → Option Nat} {l l' : List Nat}
  {m : Bytes} {j k v w n r p f : Nat} {new : List (Nat × Nat)}

/-! ## Mapped pages -/

def Mapped (m : Bytes) (tab : Nat → Nat → Option Nat) (v : Nat) : Prop :=
  pteHas (leafAt m tab v) PTE_V = true

/-- The page of the frame of `v`. -/
def frameOf (m : Bytes) (tab : Nat → Nat → Option Nat) (v : Nat) : Nat :=
  pteToPa (leafAt m tab v) / PGSIZE

theorem frameOf_eq (m : Bytes) (tab : Nat → Nat → Option Nat) (v : Nat) :
    PGSIZE * frameOf m tab v = pteToPa (leafAt m tab v) := pteToPa_aligned _

theorem not_mapped_of_zero (h : leafAt m tab v = 0) : ¬ Mapped m tab v := by
  rw [Mapped, h, pteHas_zero]; exact Bool.false_ne_true

theorem Mapped.congr {m' : Bytes} (h : leafAt m' tab' v = leafAt m tab v) :
    Mapped m' tab' v ↔ Mapped m tab v := by rw [Mapped, Mapped, h]

theorem mapped_of_flags {f : Nat} (h : leafAt m tab v = 1024 * n + f) (hf : f < 1024)
    (hodd : f % 2 = 1) : Mapped m tab v ∧ pteFlags (leafAt m tab v) = f := by
  refine ⟨?_, by rw [h, pteFlags_page n hf]⟩
  rw [Mapped, h, pteHas_V]; omega

/-- A page that `pmem_free` accepts. -/
def InUser (s : Machine) (n : Nat) : Prop :=
  0 < n ∧ s.user.beginAddr ≤ PGSIZE * n ∧ PGSIZE * n < s.user.endAddr

/-- The page `n` is free, a table or a frame. -/
def Used (sh : Nat → Prop) (s : Machine) (tab : Nat → Nat → Option Nat) (l : List Nat) (n : Nat) :
    Prop :=
  n ∈ l ∨ (∃ j v, tab j v = some n) ∨ ∃ v, ¬ sh v ∧ Mapped s.mem tab v ∧ frameOf s.mem tab v = n

structure Frames (sh : Nat → Prop) (s : Machine) (tab : Nat → Nat → Option Nat) (l : List Nat) :
    Prop extends PageTables s tab l where
  low : ∀ {v}, Mapped s.mem tab v → PGSIZE * v < VA_MAX
  frame : ∀ {v}, ¬ sh v → Mapped s.mem tab v →
    frameOf s.mem tab v ∉ l ∧ ∀ j w, tab j w ≠ some (frameOf s.mem tab v)
  distinct : ∀ {v w}, ¬ sh v → ¬ sh w → Mapped s.mem tab v → Mapped s.mem tab w →
    frameOf s.mem tab v = frameOf s.mem tab w → v = w
  user : ∀ {n}, Used sh s tab l n → InUser s n

theorem frames_root (sh : Nat → Prop) (hl : FreeList s false (r :: l))
    (hu : ∀ n ∈ r :: l, InUser s n) : ∃ tab,
    Frames sh (taken s false r) tab l ∧ tab 2 0 = some r ∧
      (∀ j v n, tab j v = some n → n = r) ∧ ∀ v, leafAt (taken s false r).mem tab v = 0 := by
  obtain ⟨tab, ht, hr, hall, hz⟩ := tables_root hl
  have hno : ∀ v, ¬ Mapped (taken s false r).mem tab v := fun v => not_mapped_of_zero (hz v)
  have honly : ∀ j v n, tab j v = some n → n = r := by
    intro j v n hn
    obtain ⟨rfl, rfl⟩ := Prod.mk.inj ((hall j v).mp (by rw [hn]; simp))
    rw [hr] at hn
    exact (Option.some.inj hn).symm
  refine ⟨tab, ⟨ht, fun {v} hm => absurd hm (hno v), fun {v} _ hm => absurd hm (hno v),
    fun {v w} _ _ hm _ _ => absurd hm (hno v), fun {n} hn => ?_⟩, hr, honly, hz⟩
  rcases hn with hn | ⟨j, v, hn⟩ | ⟨v, -, hm, -⟩
  · exact hu n (List.mem_cons_of_mem _ hn)
  · rw [honly j v n hn]; exact hu r (by simp)
  · exact absurd hm (hno v)

/-! ## Mapping -/

theorem Frames.take {c : Nat} (h : Frames sh s tab (c :: l)) :
    Frames sh (taken s false c) tab l ∧ ∀ v, leafAt (taken s false c).mem tab v = leafAt s.mem tab v := by
  obtain ⟨ht, hl⟩ := h.table.congr fun j v k hk a ha =>
    show (taken s false c).mem a = s.mem a from
      taken_outside (by rw [ha]; rintro rfl; exact h.apart hk (by simp))
  have hmap : ∀ v, Mapped (taken s false c).mem tab v ↔ Mapped s.mem tab v := fun v =>
    Mapped.congr (hl v)
  have hframe : ∀ v, frameOf (taken s false c).mem tab v = frameOf s.mem tab v := fun v => by
    rw [frameOf, frameOf, hl v]
  refine ⟨⟨⟨h.list.taken, ht, fun hk hn => h.apart hk (List.mem_cons_of_mem _ hn)⟩,
    fun {v} hm => h.low ((hmap v).mp hm), fun {v} hv hm => ?_, fun {v w} hv hw hmv hmw heq => ?_,
    fun {n} hn => h.user ?_⟩, hl⟩
  · obtain ⟨h1, h2⟩ := h.frame hv ((hmap v).mp hm)
    rw [hframe]
    exact ⟨fun hn => h1 (List.mem_cons_of_mem _ hn), h2⟩
  · rw [hframe, hframe] at heq
    exact h.distinct hv hw ((hmap v).mp hmv) ((hmap w).mp hmw) heq
  · rcases hn with hn | hn | ⟨v, hv, hm, hf⟩
    · exact .inl (List.mem_cons_of_mem _ hn)
    · exact .inr (.inl hn)
    · exact .inr (.inr ⟨v, hv, (hmap v).mp hm, by rwa [hframe] at hf⟩)

variable {va : Nat} {freeit : Bool}

theorem mappages_of_ok {pa len perm : Nat} (b : PageTables s tab l) (hr : tab 2 0 = some r)
    (hva : va % PGSIZE = 0) (hpa : pa % PGSIZE = 0) (hlen : 0 < len) (hv : va + len ≤ VA_MAX)
    (hp : pa < 2 ^ 64) (hperm : perm < 1024)
    (hrun : vmMappages (PGSIZE * r) va pa len perm s = .ok () s') :
    ∃ new tab' l', Maps s tab l (leaves (va / PGSIZE) (pa / PGSIZE) (pagesFor len) (perm ||| 1)) new
      s' tab' l' := by
  have hva' : PGSIZE * (va / PGSIZE) = va := Nat.mul_div_cancel' (Nat.dvd_of_mod_eq_zero hva)
  have hpa' : PGSIZE * (pa / PGSIZE) = pa := Nat.mul_div_cancel' (Nat.dvd_of_mod_eq_zero hpa)
  have hspec := vmMappages_spec (va / PGSIZE) (pa / PGSIZE) len perm b hr hperm hlen
    (by rwa [hva']) (by rwa [hpa'])
  rw [hva', hpa', hrun] at hspec
  rcases hspec with ⟨new, s1, tab', l', heq, hm, -⟩ | ⟨new, s1, heq, -⟩
  · obtain rfl : s' = s1 := by injection heq
    exact ⟨new, tab', l', hm⟩
  · cases heq


theorem Maps.leaf_cases (h : Maps s tab l (leaves v p n f) new s' tab' l') (hf : f < 1024)
    (hp : PGSIZE * (p + n) ≤ 2 ^ 64) (w : Nat) :
    (v ≤ w ∧ w < v + n) ∧ leafAt s'.mem tab' w = 1024 * (p + (w - v)) + f ∧
      frameOf s'.mem tab' w = p + (w - v) ∨
    ¬ (v ≤ w ∧ w < v + n) ∧ leafAt s'.mem tab' w = leafAt s.mem tab w := by
  have hleaf := h.leaf w
  unfold leaves at hleaf
  by_cases hw : v ≤ w ∧ w < v + n
  · rw [if_pos hw, Option.getD_some,
      Nat.mod_eq_of_lt (by simp only [PGSIZE] at hp; omega)] at hleaf
    refine .inl ⟨hw, hleaf, ?_⟩
    rw [frameOf, hleaf, pteToPa_page hf (by simp only [PGSIZE] at *; omega),
      Nat.mul_div_cancel_left _ (by decide)]
  · rw [if_neg hw, Option.getD_none] at hleaf
    exact .inr ⟨hw, hleaf⟩

theorem Frames.map (h : Frames sh s tab l) (hm : Maps s tab l (leaves v p n f) new s' tab' l')
    (hf : f < 1024) (hp : PGSIZE * (p + n) ≤ 2 ^ 64) (hv : PGSIZE * (v + n) ≤ VA_MAX)
    (hfresh : ∀ w, v ≤ w → w < v + n → ¬ sh w →
      InUser s (p + (w - v)) ∧ ¬ Used sh s tab l (p + (w - v))) : Frames sh s' tab' l' := by
  have hcases := hm.leaf_cases hf hp
  -- the frame of a page: a new one, or the old one
  have hframe : ∀ {w}, ¬ sh w → Mapped s'.mem tab' w →
      (v ≤ w ∧ w < v + n) ∧ frameOf s'.mem tab' w = p + (w - v) ∨
      Mapped s.mem tab w ∧ frameOf s'.mem tab' w = frameOf s.mem tab w := by
    intro w hw hmap
    rcases hcases w with ⟨hin, -, hfr⟩ | ⟨-, heq⟩
    · exact .inl ⟨hin, hfr⟩
    · exact .inr ⟨(Mapped.congr heq).mp hmap, by rw [frameOf, frameOf, heq]⟩
  have hout : ∀ {w}, ¬ sh w → Mapped s'.mem tab' w →
      frameOf s'.mem tab' w ∉ l ∧ ∀ j c, tab j c ≠ some (frameOf s'.mem tab' w) := by
    intro w hw hmap
    rcases hframe hw hmap with ⟨hin, hfr⟩ | ⟨hold, hfr⟩
    · have hno := (hfresh w hin.1 hin.2 hw).2
      rw [hfr]
      exact ⟨fun hl => hno (.inl hl), fun j c hc => hno (.inr (.inl ⟨j, c, hc⟩))⟩
    · rw [hfr]; exact h.frame hw hold
  have hInUser : ∀ c, InUser s' c ↔ InUser s c := fun c => by
    rw [InUser, InUser, hm.region.1, hm.region.2]
  refine ⟨hm.tables, fun {w} hmap => ?_, fun {w} hw hmap => ⟨fun hl => ?_, fun j c hc => ?_⟩,
    fun {u w} hu hw hmu hmw heq => ?_, fun {c} hc => ?_⟩
  · rcases hcases w with ⟨hin, -⟩ | ⟨-, heq⟩
    · simp only [PGSIZE] at *; omega
    · exact h.low ((Mapped.congr heq).mp hmap)
  · exact (hout hw hmap).1 (hm.sub hl)
  · rcases hm.fresh hc with hc | hc
    · exact (hout hw hmap).2 j c hc
    · exact (hout hw hmap).1 hc
  · rcases hframe hu hmu with ⟨hin, hfr⟩ | ⟨hold, hfr⟩ <;>
      rcases hframe hw hmw with ⟨hin', hfr'⟩ | ⟨hold', hfr'⟩ <;> rw [hfr, hfr'] at heq
    · omega
    · exact absurd (.inr (.inr ⟨w, hw, hold', heq.symm⟩)) (hfresh u hin.1 hin.2 hu).2
    · exact absurd (.inr (.inr ⟨u, hu, hold, heq⟩)) (hfresh w hin'.1 hin'.2 hw).2
    · exact h.distinct hu hw hold hold' heq
  · rw [hInUser]
    rcases hc with hc | ⟨i, w, hc⟩ | ⟨w, hw, hmap, rfl⟩
    · exact h.user (.inl (hm.sub hc))
    · rcases hm.fresh hc with hc | hc
      · exact h.user (.inr (.inl ⟨i, w, hc⟩))
      · exact h.user (.inl hc)
    · rcases hframe hw hmap with ⟨hin, hfr⟩ | ⟨hold, hfr⟩
      · rw [hfr]; exact (hfresh w hin.1 hin.2 hw).1
      · rw [hfr]; exact h.user (.inr (.inr ⟨w, hw, hold, rfl⟩))

/-! ## Unmapping -/

/-- The list after the frames of `n` pages from `v` on went to it, one by one. -/
def backList (m : Bytes) (tab : Nat → Nat → Option Nat) (freeit : Bool) (v n : Nat) (l : List Nat) :
    List Nat :=
  if freeit then ((List.range n).map fun i => frameOf m tab (v + i)).reverse ++ l else l

theorem mem_backList {c : Nat} : c ∈ backList m tab freeit v n l ↔
    c ∈ l ∨ freeit = true ∧ ∃ i, i < n ∧ frameOf m tab (v + i) = c := by
  unfold backList
  cases freeit with
  | false => simp
  | true => simp [or_comm]

theorem backList_append (m : Bytes) (a b : Nat) (l : List Nat) :
    backList m tab freeit (v + a) b (backList m tab freeit v a l) = backList m tab freeit v (a + b) l := by
  unfold backList
  cases freeit with
  | false => rfl
  | true =>
    simp only [if_true, List.range_add, List.map_append, List.reverse_append, List.append_assoc,
      List.map_map, Function.comp_def, Nat.add_assoc]

/-- What `vm_unmappages` leaves of pages with frames of their own. -/
structure Detaches (sh : Nat → Prop) (s : Machine) (tab : Nat → Nat → Option Nat) (l : List Nat)
    (freeit : Bool) (v n : Nat) (s' : Machine) : Prop where
  unmaps : Unmaps s tab v n s'
  frames : Frames sh s' tab (backList s.mem tab freeit v n l)
  mem : ∀ a, (∀ j w, tab j w ≠ some (a / PGSIZE)) →
    (freeit = true → ∀ i, i < n → a / PGSIZE ≠ frameOf s.mem tab (v + i)) → s'.mem a = s.mem a

theorem Unmaps.mapped (h : Unmaps s tab v n s') (w : Nat) :
    Mapped s'.mem tab w ↔ ¬ (v ≤ w ∧ w < v + n) ∧ Mapped s.mem tab w := by
  have hw := h.leaf w
  by_cases hin : v ≤ w ∧ w < v + n
  · rw [if_pos hin] at hw
    exact ⟨fun hm => absurd hm (not_mapped_of_zero hw), fun h => absurd hin h.1⟩
  · rw [if_neg hin] at hw
    rw [Mapped.congr hw]
    exact ⟨fun hm => ⟨hin, hm⟩, fun h => h.2⟩

theorem Unmaps.frameOf_eq (h : Unmaps s tab v n s') (hw : ¬ (v ≤ w ∧ w < v + n)) :
    frameOf s'.mem tab w = frameOf s.mem tab w := by
  rw [frameOf, frameOf, h.leaf w, if_neg hw]

theorem Frames.detach (h : Frames sh s tab l) (hu : Unmaps s tab v 1 s')
    (hlist : FreeList s' false (backList s.mem tab freeit v 1 l)) (hsh : freeit = true → ¬ sh v)
    (hV : Mapped s.mem tab v) : Frames sh s' tab (backList s.mem tab freeit v 1 l) := by
  have hmapped : ∀ w, Mapped s'.mem tab w ↔ w ≠ v ∧ Mapped s.mem tab w := fun w => by
    rw [hu.mapped w]
    exact and_congr_left fun _ => by omega
  have hsame : ∀ {w}, w ≠ v → frameOf s'.mem tab w = frameOf s.mem tab w := fun hw =>
    hu.frameOf_eq (by omega)
  have hback : ∀ {c}, c ∈ backList s.mem tab freeit v 1 l ↔
      c ∈ l ∨ freeit = true ∧ frameOf s.mem tab v = c := fun {c} => by
    rw [mem_backList]
    exact or_congr_right (and_congr_right fun _ => ⟨fun ⟨i, hi, h⟩ => by
      rwa [show v + i = v by omega] at h, fun h => ⟨0, by omega, h⟩⟩)
  have hInUser : ∀ c, InUser s' c ↔ InUser s c := fun c => by
    rw [InUser, InUser, hu.region.1, hu.region.2]
  refine ⟨⟨hlist, hu.table, fun {j w c} hc hl => ?_⟩, fun {w} hm => h.low ((hmapped w).mp hm).2,
    fun {w} hw hm => ?_, fun {u w} hus hws hmu hmw heq => ?_, fun {c} hc => (hInUser c).mpr ?_⟩
  · rcases hback.mp hl with hl | ⟨hf, rfl⟩
    · exact h.apart hc hl
    · exact (h.frame (hsh hf) hV).2 j w hc
  · obtain ⟨hne, hm⟩ := (hmapped w).mp hm
    rw [hsame hne]
    refine ⟨fun hl => ?_, (h.frame hw hm).2⟩
    rcases hback.mp hl with hl | ⟨hf, heq⟩
    · exact (h.frame hw hm).1 hl
    · exact hne (h.distinct (hsh hf) hw hV hm heq).symm
  · obtain ⟨hne, hmu⟩ := (hmapped u).mp hmu
    obtain ⟨hne', hmw⟩ := (hmapped w).mp hmw
    rw [hsame hne, hsame hne'] at heq
    exact h.distinct hus hws hmu hmw heq
  · rcases hc with hl | ⟨j, w, hc⟩ | ⟨w, hw, hm, rfl⟩
    · rcases hback.mp hl with hl | ⟨hf, rfl⟩
      · exact h.user (.inl hl)
      · exact h.user (.inr (.inr ⟨v, hsh hf, hV, rfl⟩))
    · exact h.user (.inr (.inl ⟨j, w, hc⟩))
    · obtain ⟨hne, hm⟩ := (hmapped w).mp hm
      rw [hsame hne]
      exact h.user (.inr (.inr ⟨w, hw, hm, rfl⟩))

theorem Frames.unmapPage (h : Frames sh s tab l) (hr : tab 2 0 = some r)
    (hsh : freeit = true → ¬ sh v) (hV : Mapped s.mem tab v) (hF : pteFlags (leafAt s.mem tab v) ≠ PTE_V) :
    ∃ s', Mem.unmapPage (PGSIZE * r) (PGSIZE * v) freeit s = .ok () s' ∧
      Detaches sh s tab l freeit v 1 s' := by
  have hd : Detachable s tab freeit (leafAt s.mem tab v) := by
    refine ⟨hV, hF, fun hf => ⟨?_, (h.frame (hsh hf) hV).2⟩⟩
    have := h.user (.inr (.inr ⟨v, hsh hf, hV, rfl⟩))
    rw [← frameOf_eq]
    exact this.2
  obtain ⟨k, hk, hrun⟩ := unmapPage_run h.table hr (h.low hV) hd
  have hu := unmaps_detached freeit h.table hk fun hf => (h.frame (hsh hf) hV).2
  have hi : v % 512 < 512 := Nat.mod_lt _ (by decide)
  refine ⟨_, hrun, hu, h.detach hu ?_ hsh hV, fun a ha hf => ?_⟩
  · cases freeit with
    | false =>
      refine h.list.congr rfl fun c hc a ha => store_outside hi ?_
      rw [ha]; rintro rfl; exact h.apart hk hc
    | true =>
      obtain ⟨hl, hno⟩ := h.frame (hsh rfl) hV
      have hpos := (h.user (.inr (.inr ⟨v, hsh rfl, hV, rfl⟩))).1
      have hlt : PGSIZE * frameOf s.mem tab v < 2 ^ 64 := by rw [Mem.frameOf_eq]; exact pteToPa_lt _
      refine (h.list.given hl hpos hlt).congr rfl fun c hc a ha => store_outside hi ?_
      rw [ha]; rintro rfl
      rcases List.mem_cons.mp hc with hc | hc
      · exact hno _ _ (hc ▸ hk)
      · exact h.apart hk hc
  · exact detached_outside hi (fun hk' => ha _ _ (hk' ▸ hk)) fun hfree => hf hfree 0 (by omega)

theorem Detaches.trans {a b : Nat} (h1 : Detaches sh s tab l freeit v a s')
    (h2 : Detaches sh s' tab (backList s.mem tab freeit v a l) freeit (v + a) b s'') :
    Detaches sh s tab l freeit v (a + b) s'' := by
  have hsame : ∀ i, frameOf s'.mem tab (v + a + i) = frameOf s.mem tab (v + a + i) := fun i =>
    h1.unmaps.frameOf_eq (by omega)
  have hback : backList s'.mem tab freeit (v + a) b (backList s.mem tab freeit v a l) =
      backList s.mem tab freeit v (a + b) l := by
    rw [← backList_append]
    simp only [backList, hsame]
  refine ⟨h1.unmaps.trans h2.unmaps, hback ▸ h2.frames, fun c hc hf => ?_⟩
  rw [h2.mem c hc fun hfree i hi => ?_, h1.mem c hc fun hfree i hi => hf hfree i (by omega)]
  rw [hsame i, Nat.add_assoc]
  exact hf hfree (a + i) (by omega)

theorem Frames.unmapLoop (hr : tab 2 0 = some r) : ∀ (n i : Nat) {s : Machine}
    {l : List Nat}, Frames sh s tab l →
    (∀ w, v + i ≤ w → w < v + i + n → (freeit = true → ¬ sh w) ∧ Mapped s.mem tab w ∧
      pteFlags (leafAt s.mem tab w) ≠ PTE_V) →
    ∃ s', Kern.forFrom (fun k => Mem.unmapPage (PGSIZE * r) (PGSIZE * v + PGSIZE * k) freeit) i n s =
      .ok () s' ∧ Detaches sh s tab l freeit (v + i) n s' := by
  intro n
  induction n with
  | zero =>
    intro i s l h _
    refine ⟨s, rfl, ⟨h.table, fun w => by rw [if_neg (by omega)], rfl, rfl⟩, ?_, fun _ _ _ => rfl⟩
    have : backList s.mem tab freeit (v + i) 0 l = l := by cases freeit <;> rfl
    rwa [this]
  | succ n ih =>
    intro i s l h hd
    obtain ⟨hsh, hV, hF⟩ := hd (v + i) (Nat.le_refl _) (by omega)
    obtain ⟨s1, hrun1, d1⟩ := h.unmapPage hr hsh hV hF
    obtain ⟨s2, hrun2, d2⟩ := ih (i + 1) d1.frames fun w hw1 hw2 => by
      obtain ⟨hsh, hV, hF⟩ := hd w (by omega) (by omega)
      refine ⟨hsh, (d1.unmaps.mapped w).mpr ⟨by omega, hV⟩, ?_⟩
      rwa [d1.unmaps.leaf w, if_neg (by omega)]
    refine ⟨s2, ?_, ?_⟩
    · have hva : PGSIZE * v + PGSIZE * i = PGSIZE * (v + i) := (Nat.mul_add ..).symm
      rw [Kern.forFrom, hva, bind_of_ok hrun1]
      exact hrun2
    · have := d1.trans (b := n) d2
      rwa [Nat.add_comm 1 n] at this

theorem Frames.unmapPages (h : Frames sh s tab l) (freeit : Bool) (v len : Nat) (hr : tab 2 0 = some r)
    (hlen : 0 < len) (hv : PGSIZE * v + len ≤ VA_MAX)
    (hd : ∀ w, v ≤ w → w < v + pagesFor len → (freeit = true → ¬ sh w) ∧ Mapped s.mem tab w ∧
      pteFlags (leafAt s.mem tab w) ≠ PTE_V) :
    ∃ s', vmUnmappages (PGSIZE * r) (PGSIZE * v) len freeit s = .ok () s' ∧
      Detaches sh s tab l freeit v (pagesFor len) s' := by
  rw [vmUnmappages_eq hlen hv]
  exact Frames.unmapLoop (v := v) hr (pagesFor len) 0 h hd

/-! ## As the hardware sees it -/

theorem translate_none (h : PageTable s.mem tab) (hr : tab 2 0 = some r) (hva : va < VA_MAX) :
    translate s (PGSIZE * r) va = none ↔ ¬ Mapped s.mem tab (va / PGSIZE) := by
  rw [translate, getpteValue_eq h hr hva, Mapped]
  split <;> simp [*]

theorem translate_some {pa f : Nat} (h : PageTable s.mem tab) (hr : tab 2 0 = some r) (hva : va < VA_MAX) :
    translate s (PGSIZE * r) va = some (pa, f) ↔ Mapped s.mem tab (va / PGSIZE) ∧
      PGSIZE * frameOf s.mem tab (va / PGSIZE) = pa ∧ pteFlags (leafAt s.mem tab (va / PGSIZE)) = f := by
  rw [translate, getpteValue_eq h hr hva, Mapped, frameOf_eq]
  split
  · rename_i hV; simp [hV]
  · rename_i hV; simp [hV]

theorem table_iff (h : PageTable m tab) (hr : tab 2 0 = some r) :
    (∃ path, IsPath path ∧ tableAt m (PGSIZE * r) path = some (PGSIZE * k)) ↔ ∃ j v, tab j v = some k := by
  constructor
  · rintro ⟨path, hp, ha⟩
    obtain ⟨j, v, hplace, rfl⟩ := exists_place hp
    rw [h.tableAt_eq hr hplace, Option.map_eq_some_iff] at ha
    obtain ⟨n, hn, heq⟩ := ha
    exact ⟨j, v, by rw [hn, Nat.eq_of_mul_eq_mul_left (show 0 < PGSIZE by decide) heq]⟩
  · rintro ⟨j, v, hk⟩
    have hplace := h.place hk
    exact ⟨pathOf j v, isPath_pathOf hplace, by rw [h.tableAt_eq hr hplace, hk]; rfl⟩

end Mem
end WhuOS
