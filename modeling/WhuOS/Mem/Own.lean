import Mathlib.Data.List.Nodup
import Mathlib.Data.List.Perm.Subperm
import WhuOS.Mem.Walk

/-!
# WhuOS.Mem.Own

Which page of the user region belongs to whom. `own` is a ghost map from page numbers to owners: a
page is free, or a node of the page table of one process. A node of height 3 is the root, of
height 0 a leaf frame, and node `v` of height `h + 1` has the nodes `512 * v + i` of height `h`
below it.

* `Tree`  — every valid entry leads to the node below it, and every table is linked from above.
* `Owned` — with the free list: the pages on it are distinct and nobody's.
* `Tree.table_unique`, `Tree.assign`, `Tree.link`, `Tree.setLeaf`, `Tree.release` — the ways in
  which the kernel changes a tree.
-/

namespace WhuOS
namespace Mem

open Lib Kern Sched

/-! ## Entries -/

/-- Entry `i` of the table in page `n`. -/
def entry (m : Bytes) (n i : Nat) : Nat := Bytes.load 8 m (PGSIZE * n + 8 * i)

theorem pteHas_V (p : Nat) : pteHas p PTE_V = true ↔ p % 2 = 1 := by
  simp only [pteHas, PTE_V, Nat.and_one_is_mod, ne_eq, decide_eq_true_eq]
  omega

theorem paToPte_page (n : Nat) : paToPte (PGSIZE * n) = 1024 * n := by
  simp only [paToPte, PGSIZE]; omega

variable {n f i r p a : Nat}

theorem pteToPa_page (hf : f < 1024) (hn : PGSIZE * n < 2 ^ 64) :
    pteToPa (1024 * n + f) = PGSIZE * n := by
  simp only [pteToPa, PGSIZE] at *; omega

theorem leaf_or (n : Nat) (hf : f < 1024) :
    paToPte (PGSIZE * n) ||| f ||| PTE_V = 1024 * n + (f ||| 1) := by
  have h1 : f ||| 1 < 2 ^ 10 := Nat.or_lt_two_pow hf (by decide)
  rw [paToPte_page, Nat.or_assoc, show (1024 : Nat) = 2 ^ 10 from rfl,
    Nat.two_pow_add_eq_or_of_lt h1]

theorem or_one_lt (hf : f < 1024) : f ||| 1 < 1024 :=
  Nat.or_lt_two_pow (n := 10) hf (by decide)

theorem or_one_odd (f : Nat) : (f ||| 1) % 2 = 1 := by
  have h : (f ||| 1).testBit 0 = true := by rw [Nat.testBit_or]; simp
  rwa [Nat.testBit_zero, decide_eq_true_eq] at h

theorem table_or (n : Nat) : paToPte (PGSIZE * n) ||| PTE_V = 1024 * n + 1 := by
  have := leaf_or n (f := 0) (by decide)
  simpa using this

theorem entry_congr {m m' : Bytes} (hi : i < 512)
    (h : ∀ a, a / PGSIZE = n → m' a = m a) : entry m' n i = entry m n i :=
  Bytes.load_congr fun j hj => h _ (by simp only [PGSIZE]; omega)

theorem entry_store {m : Bytes} {j : Nat} (hi : i < 512) (hj : j < 512) (hp : p < 2 ^ 64) :
    entry (Bytes.store 8 m (PGSIZE * r + 8 * i) p) n j =
      if n = r ∧ j = i then p else entry m n j := by
  split
  · rename_i h; obtain ⟨rfl, rfl⟩ := h; exact Bytes.load_store_same hp
  · rename_i h
    refine Bytes.load_store_other ?_
    simp only [PGSIZE]
    omega

theorem store_page_outside {m : Bytes} {off : Nat} (hoff : off + 8 ≤ PGSIZE)
    (ha : a / PGSIZE ≠ r) : Bytes.store 8 m (PGSIZE * r + off) p a = m a := by
  refine Bytes.write_outside ?_
  simp only [PGSIZE] at *; omega

theorem store_outside {m : Bytes} (hi : i < 512) (ha : a / PGSIZE ≠ r) :
    Bytes.store 8 m (PGSIZE * r + 8 * i) p a = m a :=
  store_page_outside (by simp only [PGSIZE]; omega) ha

theorem page_write_outside {m : Bytes} {src : Nat → UInt8} (ha : a / PGSIZE ≠ n) :
    m.write (PGSIZE * n) PGSIZE src a = m a := by
  refine Bytes.write_outside ?_
  simp only [PGSIZE] at *; omega

theorem entry_zero {m : Bytes} (hi : i < 512)
    (h : ∀ a, a / PGSIZE = n → m a = 0) : entry m n i = 0 := by
  have := Bytes.load_clear (m := m) (n := PGSIZE) (a := PGSIZE * n) (b := PGSIZE * n + 8 * i) (k := 8)
    (by simp only [PGSIZE]; omega)
  rw [← this]
  refine Bytes.load_congr fun j hj => ?_
  rw [h _ (by simp only [PGSIZE]; omega)]
  have hin : PGSIZE * n ≤ PGSIZE * n + 8 * i + j ∧ PGSIZE * n + 8 * i + j < PGSIZE * n + PGSIZE := by
    simp only [PGSIZE]; omega
  simp [Bytes.write, hin]

/-! ## Virtual addresses -/

/-- The index of the node of height `h` on the walk for `va`. -/
def vpn (va h : Nat) : Nat := va / 2 ^ (12 + 9 * h)

theorem vpn_zero (va : Nat) : vpn va 0 = va / PGSIZE := rfl

theorem vpn_three {va : Nat} (h : va < VA_MAX) : vpn va 3 = 0 := by
  simp only [vpn, VA_MAX] at *; omega

theorem vpn_succ (va h : Nat) : 512 * vpn va (h + 1) + vaToVpn va h = vpn va h := by
  have : va / 2 ^ (12 + 9 * (h + 1)) = va / 2 ^ (12 + 9 * h) / 512 := by
    rw [Nat.div_div_eq_div_mul, show (12 + 9 * (h + 1)) = 12 + 9 * h + 9 by omega, Nat.pow_add]
  simp only [vpn, vaToVpn, this]
  omega

theorem vaToVpn_lt (va h : Nat) : vaToVpn va h < 512 := by
  simp only [vaToVpn]; omega

theorem vpn_div (va h : Nat) : vpn va h / 512 = vpn va (h + 1) := by
  have := vpn_succ va h; have := vaToVpn_lt va h; omega

theorem vpn_mod (va h : Nat) : vpn va h % 512 = vaToVpn va h := by
  have := vpn_succ va h; have := vaToVpn_lt va h; omega

/-! ## Owners -/

/-- Who a page belongs to. -/
inductive Owner where
  /-- Outside of the user region, or in the hands of the running code. -/
  | other
  | free
  /-- Node `v` of height `h` of the page table of `q`. -/
  | node (q : Slot) (h v : Nat)
  deriving DecidableEq

abbrev TRAMPOLINE_VPN : Nat := 2 ^ 26 - 1
abbrev TRAPFRAME_VPN : Nat := 2 ^ 26 - 2

structure Tree (L : Layout) (m : Bytes) (own : Nat → Owner) : Prop where
  /-- A valid entry leads to the node below; only the trampoline is shared. -/
  down : ∀ {n q h v i}, own n = .node q (h + 1) v → i < 512 → entry m n i % 2 = 1 →
    (∃ k, pteToPa (entry m n i) = PGSIZE * k ∧ own k = .node q h (512 * v + i) ∧
      (0 < h → entry m n i = 1024 * k + 1)) ∨
    (h = 0 ∧ 512 * v + i = TRAMPOLINE_VPN ∧ pteToPa (entry m n i) = L.trampoline)
  /-- A table is linked from the node above. -/
  up : ∀ {n q h v}, own n = .node q h v → 0 < h → h < 3 →
    ∃ r, own r = .node q (h + 1) (v / 512) ∧ entry m r (v % 512) = 1024 * n + 1
  top : ∀ {n q h v}, own n = .node q h v → 3 ≤ h → h = 3 ∧ v = 0
  root_unique : ∀ {n n' q}, own n = .node q 3 0 → own n' = .node q 3 0 → n = n'

namespace Tree

variable {L : Layout} {m m' : Bytes} {own : Nat → Owner}

variable {q : Slot} {v n : Nat}

theorem table_unique (t : Tree L m own) : ∀ (d : Nat) {h v n n' : Nat}, h + d = 3 →
    0 < h → own n = .node q h v → own n' = .node q h v → n = n' := by
  intro d
  induction d with
  | zero =>
    intro h v n n' hd _ hn hn'
    obtain ⟨rfl, rfl⟩ := t.top hn (by omega)
    exact t.root_unique hn hn'
  | succ d ih =>
    intro h v n n' hd hpos hn hn'
    obtain ⟨r, hr, he⟩ := t.up hn hpos (by omega)
    obtain ⟨r', hr', he'⟩ := t.up hn' hpos (by omega)
    have : r = r' := ih (h := h + 1) (by omega) (by omega) hr hr'
    subst this
    omega

theorem unique (t : Tree L m own) {h n' : Nat} (hpos : 0 < h)
    (hn : own n = .node q h v) (hn' : own n' = .node q h v) : n = n' := by
  have hle : h ≤ 3 := by
    rcases Nat.lt_or_ge h 3 with h3 | h3
    · omega
    · exact Nat.le_of_eq (t.top hn h3).1
  exact t.table_unique (3 - h) (by omega) hpos hn hn'

theorem congr (t : Tree L m own)
    (h : ∀ n q h v, own n = .node q h v → 0 < h → ∀ a, a / PGSIZE = n → m' a = m a) :
    Tree L m' own := by
  have he : ∀ {n q h v i}, own n = .node q (h + 1) v → i < 512 → entry m' n i = entry m n i :=
    fun hn hi => entry_congr hi (h _ _ _ _ hn (by omega))
  refine ⟨?_, ?_, t.top, t.root_unique⟩
  · intro n q k v i hn hi hv
    rw [he hn hi] at hv ⊢
    exact t.down hn hi hv
  · intro n q k v hn hpos hlt
    obtain ⟨r, hr, hre⟩ := t.up hn hpos hlt
    exact ⟨r, hr, by rw [he hr (by omega), hre]⟩

/-- A page that nobody points to gets an owner that needs no link from above: a leaf frame, or
a cleared root. -/
theorem assign (t : Tree L m own) {o : Owner} (hn : ∀ q h v, own n ≠ .node q h v)
    (ho : o = .other ∨ (∃ q v, o = .node q 0 v) ∨
      ∃ q, o = .node q 3 0 ∧ (∀ k, own k ≠ .node q 3 0) ∧ ∀ a, a / PGSIZE = n → m a = 0) :
    Tree L m (Function.update own n o) := by
  -- nodes of height 1 and 2 are the old ones; at height 3 the new root may be added
  have hold : ∀ {k q h v}, own k = .node q h v → Function.update own n o k = .node q h v := by
    intro k q h v hk
    have : k ≠ n := by rintro rfl; exact hn _ _ _ hk
    simpa [this] using hk
  have hnew : ∀ {k q h v}, Function.update own n o k = .node q (h + 1) v →
      own k = .node q (h + 1) v ∨ k = n ∧ h = 2 ∧ v = 0 ∧ (∀ k, own k ≠ .node q 3 0) ∧
        ∀ a, a / PGSIZE = n → m a = 0 := by
    intro k q h v hk
    by_cases hkn : k = n
    · subst hkn
      simp only [Function.update_self] at hk
      rcases ho with rfl | ⟨_, _, rfl⟩ | ⟨q', rfl, hq', hz⟩
      · cases hk
      · simp at hk
      · simp only [Owner.node.injEq] at hk
        obtain ⟨rfl, h2, rfl⟩ := hk
        exact .inr ⟨rfl, by omega, rfl, hq', hz⟩
    · simp only [Function.update_of_ne hkn] at hk
      exact .inl hk
  refine ⟨?_, ?_, ?_, ?_⟩
  · intro k q h v i hk hi hv
    rcases hnew hk with hk | ⟨rfl, -, -, -, hz⟩
    · rcases t.down hk hi hv with ⟨c, hc, hown, hent⟩ | htr
      · exact .inl ⟨c, hc, hold hown, hent⟩
      · exact .inr htr
    · rw [entry_zero hi hz] at hv; omega
  · intro k q h v hk hpos hlt
    obtain ⟨h, rfl⟩ : ∃ j, h = j + 1 := ⟨h - 1, by omega⟩
    rcases hnew hk with hk | ⟨-, rfl, -⟩
    · obtain ⟨r, hr, he⟩ := t.up hk hpos hlt
      exact ⟨r, hold hr, he⟩
    · omega
  · intro k q h v hk h3
    obtain ⟨h, rfl⟩ : ∃ j, h = j + 1 := ⟨h - 1, by omega⟩
    rcases hnew hk with hk | ⟨-, rfl, hv, -⟩
    · exact t.top hk h3
    · exact ⟨rfl, hv⟩
  · intro k k' q hk hk'
    rcases hnew hk with hko | ⟨rfl, -, -, hq, -⟩ <;>
      rcases hnew hk' with hko' | ⟨rfl, -, -, hq', -⟩
    · exact t.root_unique hko hko'
    · exact absurd hko (hq' _)
    · exact absurd hko' (hq _)
    · rfl

theorem link (t : Tree L m own) {h i r : Nat} (hr : own r = .node q (h + 1) v)
    (hh : 0 < h) (hi : i < 512) (he : entry m r i % 2 = 0) (hn : own n = .other)
    (hz : ∀ a, a / PGSIZE = n → m a = 0) (hnp : PGSIZE * n < 2 ^ 64) :
    Tree L (Bytes.store 8 m (PGSIZE * r + 8 * i) (1024 * n + 1))
      (Function.update own n (.node q h (512 * v + i))) := by
  have hp : 1024 * n + 1 < 2 ^ 64 := by simp only [PGSIZE] at hnp; omega
  have hrn : r ≠ n := by rintro rfl; rw [hn] at hr; cases hr
  have hold : ∀ {k q' h' v'}, own k = .node q' h' v' →
      Function.update own n (.node q h (512 * v + i)) k = .node q' h' v' := by
    intro k q' h' v' hk
    have : k ≠ n := by rintro rfl; rw [hn] at hk; cases hk
    simpa [this] using hk
  have hnew : ∀ {k q' h' v'}, Function.update own n (.node q h (512 * v + i)) k = .node q' h' v' →
      own k = .node q' h' v' ∨ k = n ∧ q' = q ∧ h' = h ∧ v' = 512 * v + i := by
    intro k q' h' v' hk
    by_cases hkn : k = n
    · subst hkn
      simp only [Function.update_self, Owner.node.injEq] at hk
      exact .inr ⟨rfl, hk.1.symm, hk.2.1.symm, hk.2.2.symm⟩
    · simp only [Function.update_of_ne hkn] at hk
      exact .inl hk
  have hlt3 : h < 3 := by
    rcases Nat.lt_or_ge h 3 with h3 | h3
    · exact h3
    · have := (t.top hr (by omega)).1; omega
  refine ⟨?_, ?_, ?_, ?_⟩
  · intro k q' h' v' j hk hj hv
    rw [entry_store hi hj hp] at hv ⊢
    rcases hnew hk with ho | ⟨rfl, rfl, hh', rfl⟩
    · split at hv
      · rename_i hkj
        obtain ⟨rfl, rfl⟩ := hkj
        rw [hr] at ho; cases ho
        refine .inl ⟨n, ?_, by simp, fun _ => ?_⟩
        · simpa using pteToPa_page (by decide) hnp
        · simp
      · rename_i hkj
        rw [if_neg hkj]
        rcases t.down ho hj hv with ⟨c, hc, hown, hent⟩ | htr
        · exact .inl ⟨c, hc, hold hown, hent⟩
        · exact .inr htr
    · rw [if_neg (by omega), entry_zero hj hz] at hv; omega
  · intro k q' h' v' hk hpos hlt
    rcases hnew hk with hk | ⟨rfl, rfl, rfl, rfl⟩
    · obtain ⟨r', hr', he'⟩ := t.up hk hpos hlt
      refine ⟨r', hold hr', ?_⟩
      rw [entry_store hi (by omega) hp]
      split
      · rename_i hkj; obtain ⟨rfl, hj⟩ := hkj; rw [← hj] at he; omega
      · exact he'
    · refine ⟨r, ?_, ?_⟩
      · rw [show (512 * v + i) / 512 = v by omega]; exact hold hr
      · rw [entry_store hi (by omega) hp, if_pos ⟨rfl, by omega⟩]
  · intro k q' h' v' hk h3
    rcases hnew hk with hk | ⟨-, -, rfl, -⟩
    · exact t.top hk h3
    · omega
  · intro k k' q' hk hk'
    rcases hnew hk with ho | ⟨-, -, h3, -⟩ <;> rcases hnew hk' with ho' | ⟨-, -, h3', -⟩
    · exact t.root_unique ho ho'
    all_goals omega

/-- Entry `i` of a lowest table is set to nothing, to a frame of that page, or to the
trampoline. -/
theorem setLeaf (t : Tree L m own) {i r p : Nat} (hr : own r = .node q 1 v)
    (hi : i < 512) (hp : p < 2 ^ 64)
    (hto : p % 2 = 1 → (∃ k, pteToPa p = PGSIZE * k ∧ own k = .node q 0 (512 * v + i)) ∨
      512 * v + i = TRAMPOLINE_VPN ∧ pteToPa p = L.trampoline) :
    Tree L (Bytes.store 8 m (PGSIZE * r + 8 * i) p) own := by
  refine ⟨?_, ?_, t.top, t.root_unique⟩
  · intro k q' h' v' j hk hj hv
    rw [entry_store hi hj hp] at hv ⊢
    split at hv
    · rename_i hkj
      obtain ⟨rfl, rfl⟩ := hkj
      rw [hr] at hk; cases hk
      rw [if_pos ⟨rfl, rfl⟩]
      rcases hto hv with ⟨c, hc, hown⟩ | ⟨hv', hpa⟩
      · exact .inl ⟨c, hc, hown, by omega⟩
      · exact .inr ⟨rfl, hv', hpa⟩
    · rename_i hkj
      rw [if_neg hkj]
      exact t.down hk hj hv
  · intro k q' h' v' hk hpos hlt
    obtain ⟨r', hr', he'⟩ := t.up hk hpos hlt
    refine ⟨r', hr', ?_⟩
    rw [entry_store hi (by omega) hp, if_neg, he']
    rintro ⟨rfl, -⟩
    rw [hr] at hr'; cases hr'; omega

theorem release (t : Tree L m own) (hn : own n = .node q 0 v)
    (hfree : ∀ r, own r = .node q 1 (v / 512) → entry m r (v % 512) % 2 = 0) :
    Tree L m (Function.update own n .free) := by
  have hold : ∀ {k q' h' v'}, own k = .node q' (h' + 1) v' →
      Function.update own n .free k = .node q' (h' + 1) v' := by
    intro k q' h' v' hk
    have : k ≠ n := by rintro rfl; rw [hn] at hk; cases hk
    simpa [this] using hk
  have hnew : ∀ {k q' h' v'}, Function.update own n .free k = .node q' h' v' →
      own k = .node q' h' v' := by
    intro k q' h' v' hk
    by_cases hkn : k = n
    · subst hkn; simp at hk
    · simpa [hkn] using hk
  refine ⟨?_, ?_, fun hk => t.top (hnew hk), fun hk hk' => t.root_unique (hnew hk) (hnew hk')⟩
  · intro k q' h' v' j hk hj hv
    have hk' := hnew hk
    rcases t.down hk' hj hv with ⟨c, hc, hown, hent⟩ | htr
    · by_cases hcn : c = n
      · subst hcn
        rw [hn] at hown; cases hown
        have := hfree k (by rw [show (512 * v' + j) / 512 = v' by omega]; exact hk')
        rw [show (512 * v' + j) % 512 = j by omega] at this
        omega
      · exact .inl ⟨c, hc, by simpa [hcn] using hown, hent⟩
    · exact .inr htr
  · intro k q' h' v' hk hpos hlt
    obtain ⟨r, hr, he⟩ := t.up (hnew hk) hpos hlt
    exact ⟨r, hold hr, he⟩

end Tree

/-! ## The free list -/

/-- The links from the address `a` through the pages of the list to the address `e`. -/
def Chain (m : Bytes) : Nat → List Nat → Nat → Prop
  | a, [], e => a = e
  | a, n :: l, e => a = PGSIZE * n ∧ Chain m (Bytes.load 8 m (PGSIZE * n)) l e

theorem Chain.congr {m m' : Bytes} {e : Nat} : ∀ {l : List Nat} {a : Nat}, Chain m a l e →
    (∀ n ∈ l, ∀ a, a / PGSIZE = n → m' a = m a) → Chain m' a l e := by
  intro l
  induction l with
  | nil => intro a h _; exact h
  | cons n l ih =>
    intro a h hm
    have hload : Bytes.load 8 m' (PGSIZE * n) = Bytes.load 8 m (PGSIZE * n) :=
      Bytes.load_congr fun i hi => hm n (by simp) _ (by simp only [PGSIZE]; omega)
    refine ⟨h.1, ?_⟩
    rw [hload]
    exact ih h.2 fun k hk => hm k (by simp [hk])

/-- What stays the same when only memory and the free list change. -/
structure Rest where
  kern : Region
  beginAddr : Nat
  endAddr : Nat
  nodes : NodeId → MmapNode
  procs : Slot → Proc
  proczero : Option Slot
  globalPid : Int
  accesses : List UserAccess
  starved : Bool

def Machine.rest (s : Machine) : Rest :=
  { kern := s.kern, beginAddr := s.user.beginAddr, endAddr := s.user.endAddr, nodes := s.nodes,
    procs := s.procs, proczero := s.proczero, globalPid := s.globalPid, accesses := s.accesses,
    starved := s.starved }

structure Owned (L : Layout) (s : Machine) (own : Nat → Owner) (l : List Nat) : Prop where
  chain : Chain s.mem s.user.listHead l 0
  nodup : l.Nodup
  free : ∀ n ∈ l, own n = .free
  count : s.user.allocable = l.length
  region : ∀ n, own n ≠ .other → s.user.beginAddr ≤ PGSIZE * n ∧ PGSIZE * n < s.user.endAddr
  above : L.allocBegin ≤ s.user.beginAddr
  below : s.user.endAddr ≤ PHYSTOP
  tree : Tree L s.mem own
  listed : ∀ n, own n = .free → n ∈ l

/-- What a page that has just been taken and that nobody points to may become. -/
def Assignable (m : Bytes) (own : Nat → Owner) (n : Nat) (o : Owner) : Prop :=
  o = .other ∨ (∃ q v, o = .node q 0 v) ∨
    ∃ q, o = .node q 3 0 ∧ (∀ k, own k ≠ .node q 3 0) ∧ ∀ a, a / PGSIZE = n → m a = 0

theorem Assignable.ne_free {m : Bytes} {own : Nat → Owner} {o : Owner}
    (h : Assignable m own n o) : o ≠ .free := by
  rcases h with rfl | ⟨_, _, rfl⟩ | ⟨_, rfl, -⟩ <;> simp

/-! The regions, and the states after a call of the allocator. -/

section Regions

variable {s : Machine} {j k : Bool}

/-- The region that the argument `in_kernel` selects. -/
def Machine.region (s : Machine) (k : Bool) : Region := if k then s.kern else s.user

def Machine.withRegion (s : Machine) (k : Bool) (r : Region) : Machine :=
  if k then { s with kern := r } else { s with user := r }

@[simp] theorem region_withRegion (s : Machine) (k : Bool) (r : Region) :
    (s.withRegion k r).region k = r := by
  cases k <;> rfl

theorem region_withRegion_other (s : Machine) (r : Region) (h : j ≠ k) :
    (s.withRegion k r).region j = s.region j := by
  cases j <;> cases k <;> first | rfl | exact absurd rfl h

@[simp] theorem mem_withRegion (s : Machine) (k : Bool) (r : Region) :
    (s.withRegion k r).mem = s.mem := by
  cases k <;> rfl

/-- The state after the page `n` was linked at the head of the list. -/
def pushed (s : Machine) (k : Bool) (n : Nat) : Machine :=
  { s with mem := Bytes.store 8 s.mem (PGSIZE * n) (s.region k).listHead }.withRegion k
    { s.region k with
      listHead := PGSIZE * n
      allocable := add32 (s.region k).allocable 1 }

/-- The state after `pmem_alloc` takes the page `n`. -/
def taken (s : Machine) (k : Bool) (n : Nat) : Machine :=
  { s with mem := s.mem.write (PGSIZE * n) PGSIZE (fun _ => 0) }.withRegion k
    { s.region k with
      listHead := Bytes.load 8 s.mem (PGSIZE * n)
      allocable := sub32 (s.region k).allocable 1 }

/-- The state after `pmem_free` of the page `n`. -/
def given (s : Machine) (k : Bool) (n : Nat) : Machine :=
  pushed { s with mem := s.mem.write (PGSIZE * n) PGSIZE (fun _ => 1) } k n

theorem taken_user (s : Machine) (n : Nat) : taken s false n =
    { s with
      mem := s.mem.write (PGSIZE * n) PGSIZE (fun _ => 0)
      user := { s.user with
        listHead := Bytes.load 8 s.mem (PGSIZE * n), allocable := sub32 s.user.allocable 1 } } := rfl

@[simp] theorem taken_rest (s : Machine) (n : Nat) : (taken s false n).rest = s.rest := rfl

@[simp] theorem taken_procs (s : Machine) (n : Nat) : (taken s false n).procs = s.procs := rfl

@[simp] theorem given_rest (s : Machine) (n : Nat) : (given s false n).rest = s.rest := rfl

theorem taken_outside (ha : a / PGSIZE ≠ n) : (taken s k n).mem a = s.mem a := by
  rw [taken, mem_withRegion]
  show s.mem.write (PGSIZE * n) PGSIZE (fun _ => 0) a = s.mem a
  exact page_write_outside ha

theorem taken_inside (ha : a / PGSIZE = n) : (taken s k n).mem a = 0 := by
  have : PGSIZE * n ≤ a ∧ a < PGSIZE * n + PGSIZE := by simp only [PGSIZE] at *; omega
  rw [taken, mem_withRegion]
  simp [Bytes.write, this]

theorem taken_clear_le {len : Nat} (hlen : len ≤ PGSIZE) :
    (taken s k n).mem.write (PGSIZE * n) len (fun _ => 0) = (taken s k n).mem := by
  funext a
  simp only [taken, mem_withRegion, Bytes.write]
  split
  · rw [if_pos (by omega)]
  · rfl

theorem taken_clear (s : Machine) (k : Bool) (n : Nat) :
    (taken s k n).mem.write (PGSIZE * n) PGSIZE (fun _ => 0) = (taken s k n).mem :=
  taken_clear_le (Nat.le_refl _)

theorem pushed_outside {a : Nat} (ha : a / PGSIZE ≠ n) : (pushed s k n).mem a = s.mem a := by
  rw [pushed, mem_withRegion]
  have := store_page_outside (m := s.mem) (r := n) (a := a) (p := (s.region k).listHead)
    (show 0 + 8 ≤ PGSIZE by decide) ha
  simpa using this

theorem given_outside (ha : a / PGSIZE ≠ n) : (given s k n).mem a = s.mem a := by
  rw [given, pushed_outside ha]
  show s.mem.write (PGSIZE * n) PGSIZE (fun _ => 1) a = s.mem a
  exact page_write_outside ha

end Regions

namespace Owned

variable {L : Layout} {s : Machine} {own : Nat → Owner} {l : List Nat}

theorem etext_le (w : Owned L s own l) : L.etext ≤ s.user.beginAddr := by
  have := L.exitState_data 0
  have := w.above
  omega

variable {n : Nat}

theorem writes (w : Owned L s own l) (h : own n ≠ .other) :
    kernelWrites L (PGSIZE * n) = true := by
  have h1 := w.region n h
  have h2 := w.etext_le
  have h3 := w.below
  have : L.etext ≤ PGSIZE * n ∧ PGSIZE * n < PHYSTOP := by omega
  simp [kernelWrites, this]

theorem reads (w : Owned L s own l) (h : own n ≠ .other) :
    kernelReads L (PGSIZE * n) = true := by
  simp [kernelReads, w.writes h]

theorem page_lt (w : Owned L s own l) (h : own n ≠ .other) : PGSIZE * n < 2 ^ 32 := by
  have h1 := w.region n h
  have h3 := w.below
  simp only [PHYSTOP] at h3
  omega

theorem page_pos (w : Owned L s own l) (h : own n ≠ .other) : 0 < n := by
  have h1 := w.region n h
  have h2 := w.etext_le
  have h3 := L.trampoline_lt
  have h4 := L.trampoline_text
  simp only [PGSIZE, KERNEL_BASE] at *
  omega

theorem length_le (w : Owned L s own l) : l.length ≤ PHYSTOP / PGSIZE := by
  have hsub : l ⊆ List.range (PHYSTOP / PGSIZE) := by
    intro k hk
    have h1 := w.region k (by simp [w.free k hk])
    have h2 := w.below
    rw [List.mem_range]
    simp only [PHYSTOP, PGSIZE] at *; omega
  have := (w.nodup.subperm hsub).length_le
  rwa [List.length_range] at this

theorem setMem (w : Owned L s own l) {m' : Bytes}
    (h : ∀ n, (own n = .free ∨ ∃ q k v, own n = .node q (k + 1) v) →
      ∀ a, a / PGSIZE = n → m' a = s.mem a) : Owned L { s with mem := m' } own l := by
  refine { w with chain := w.chain.congr fun n hn => h n (.inl (w.free n hn)), tree := ?_ }
  refine w.tree.congr fun n q k v hn hk => h n (.inr ?_)
  obtain ⟨k, rfl⟩ : ∃ j, k = j + 1 := ⟨k - 1, by omega⟩
  exact ⟨q, k, v, hn⟩

theorem ofRest (w : Owned L s own l) {s' : Machine} (hm : s'.mem = s.mem) (hu : s'.user = s.user) :
    Owned L s' own l := by
  obtain ⟨h1, h2, h3, h4, h5, h6, h7, h8, h9⟩ := w
  exact ⟨by rwa [hm, hu], h2, h3, by rwa [hu], by rwa [hu], by rwa [hu], by rwa [hu], by rwa [hm], h9⟩

theorem take (w : Owned L s own (n :: l)) {o : Owner}
    (ho : Assignable (taken s false n).mem own n o) : Owned L (taken s false n) (Function.update own n o) l := by
  have hfree := w.free n (by simp)
  have hnl : n ∉ l := (List.nodup_cons.mp w.nodup).1
  have hsame : ∀ k, k ≠ n → ∀ a, a / PGSIZE = k → (taken s false n).mem a = s.mem a :=
    fun k hk a ha => taken_outside (by rwa [ha])
  refine ⟨?_, (List.nodup_cons.mp w.nodup).2, ?_, ?_, ?_, w.above, w.below, ?_, fun k hk => ?_⟩
  · refine w.chain.2.congr fun k hk => hsame k ?_
    rintro rfl; exact hnl hk
  · intro k hk
    have : k ≠ n := by rintro rfl; exact hnl hk
    simpa [this] using w.free k (by simp [hk])
  · have := w.count
    have hle := w.length_le
    simp only [List.length_cons, PHYSTOP, PGSIZE] at this hle
    show sub32 s.user.allocable 1 = _
    simp only [sub32]
    omega
  · intro k hk
    by_cases hkn : k = n
    · subst hkn; exact w.region k (by simp [hfree])
    · exact w.region k (by simpa [hkn] using hk)
  · refine Tree.assign ?_ (by simp [hfree]) ho
    refine w.tree.congr fun k q h v hk _ => hsame k ?_
    rintro rfl; rw [hfree] at hk; cases hk
  · by_cases hkn : k = n
    · subst hkn
      simp only [Function.update_self] at hk
      exact absurd hk ho.ne_free
    · have := w.listed k (by simpa [hkn] using hk)
      exact (List.mem_cons.mp this).resolve_left hkn

/-- A leaf frame is unmapped and freed: first the page is put on the list, then the entry that
led to it is cleared. -/
theorem give (w : Owned L s own l) {q : Slot} {v r : Nat} (hn : own n = .node q 0 v)
    (hr : own r = .node q 1 (v / 512)) :
    Owned L
      { given s false n with mem := Bytes.store 8 (given s false n).mem (PGSIZE * r + 8 * (v % 512)) 0 }
      (Function.update own n .free) (n :: l) := by
  have hi : v % 512 < 512 := Nat.mod_lt _ (by decide)
  have hrn : r ≠ n := by rintro rfl; rw [hn] at hr; cases hr
  have hnl : n ∉ l := fun h => by have := w.free n h; rw [hn] at this; cases this
  have hother : ∀ k, k ≠ n → k ≠ r → ∀ a, a / PGSIZE = k →
      Bytes.store 8 (given s false n).mem (PGSIZE * r + 8 * (v % 512)) 0 a = s.mem a := by
    intro k hkn hkr a ha
    rw [store_outside hi (by rwa [ha]), given_outside (by rwa [ha])]
  refine ⟨⟨rfl, ?_⟩, List.nodup_cons.mpr ⟨hnl, w.nodup⟩, ?_, ?_, ?_, w.above, w.below, ?_,
    fun k hk => ?_⟩
  · -- the link of the new head is stored in a page other than the table
    have hlink : Bytes.load 8 (Bytes.store 8 (given s false n).mem (PGSIZE * r + 8 * (v % 512)) 0)
        (PGSIZE * n) = s.user.listHead := by
      have hhead : s.user.listHead < 2 ^ 64 := by
        rcases hl : l with _ | ⟨k, t⟩
        · have := w.chain; rw [hl] at this; simp only [Chain] at this; omega
        · have := w.chain
          rw [hl] at this
          have := w.page_lt (n := k) (by rw [w.free k (by simp [hl])]; simp)
          have h1 := ‹Chain s.mem s.user.listHead (k :: t) 0›.1
          omega
      rw [Bytes.load_store_other (by simp only [PGSIZE]; omega)]
      exact Bytes.load_store_same hhead
    rw [hlink]
    refine w.chain.congr fun k hk => hother k ?_ ?_
    · rintro rfl; exact hnl hk
    · rintro rfl; rw [w.free k hk] at hr; cases hr
  · intro k hk
    rcases List.mem_cons.mp hk with rfl | hkl
    · simp
    · have : k ≠ n := by rintro rfl; exact hnl hkl
      simpa [this] using w.free k hkl
  · show add32 s.user.allocable 1 = _
    have hle := w.length_le
    simp only [PHYSTOP, PGSIZE] at hle
    rw [w.count, add32, Nat.mod_eq_of_lt (by omega), List.length_cons]
  · intro k hk
    by_cases hkn : k = n
    · subst hkn; exact w.region k (by simp [hn])
    · exact w.region k (by simpa [hkn] using hk)
  · -- clearing the entry first gives the same tables
    have t1 : Tree L (Bytes.store 8 s.mem (PGSIZE * r + 8 * (v % 512)) 0) own :=
      w.tree.setLeaf hr hi (by decide) (by omega)
    have t2 := t1.release hn fun r' hr' => by
      obtain rfl := w.tree.unique (by omega) hr hr'
      rw [entry_store hi hi (by decide), if_pos ⟨rfl, rfl⟩]
    refine t2.congr fun k q' h v' hk hpos a ha => ?_
    have hkn : k ≠ n := by rintro rfl; simp at hk
    simp only [Bytes.store, Bytes.write]
    split
    · rfl
    · exact given_outside (by rwa [ha])
  · by_cases hkn : k = n
    · simp [hkn]
    · exact List.mem_cons_of_mem _ (w.listed k (by simpa [hkn] using hk))

end Owned

theorem wp_pmemAlloc {L : Layout} {s : Machine} {own : Nat → Owner} {l : List Nat}
    {Q : Nat → Machine → Prop} {E : Stop → Machine → Prop} (w : Owned L s own l)
    (hnone : l = [] → Q 0 { s with starved := true }) (hsome : ∀ n t, l = n :: t → Q (PGSIZE * n) (taken s false n)) :
    wp (pmemAlloc false) Q E s := by
  cases l with
  | nil =>
    have h0 : s.user.listHead = 0 := w.chain
    simp only [pmemAlloc, getRegion, wp_bind, wp_get, wp_pure, Bool.false_eq_true,
      if_false, h0, ne_eq, not_true_eq_false, wp_modify]
    exact hnone rfl
  | cons n t =>
    have h1 : s.user.listHead = PGSIZE * n := w.chain.1
    have hpos : PGSIZE * n ≠ 0 := by
      have := w.page_pos (n := n) (by simp [w.free n]); simp only [PGSIZE]; omega
    simp only [pmemAlloc, getRegion, setRegion, wp_bind, wp_get, wp_pure,
      Bool.false_eq_true, if_false, h1, ne_eq, hpos, not_false_eq_true, if_true, wp_load64,
      wp_modify, wp_memset]
    exact hsome n t rfl

theorem wp_pmemFree {s : Machine} {Q : Unit → Machine → Prop}
    {E : Stop → Machine → Prop} (hin : s.user.beginAddr ≤ PGSIZE * n ∧ PGSIZE * n < s.user.endAddr)
    (h : Q () (given s false n)) : wp (pmemFree (PGSIZE * n) false) Q E s := by
  have h1 : PGSIZE * n % PGSIZE = 0 := Nat.mul_mod_right _ _
  have h2 : ¬ (PGSIZE * n < s.user.beginAddr) := by omega
  have h3 : ¬ (s.user.endAddr ≤ PGSIZE * n) := by omega
  simp only [pmemFree, pushPage, getRegion, setRegion, wp_bind, wp_get, wp_pure,
    Bool.false_eq_true, if_false, h1, h2, h3, ne_eq, not_true_eq_false, decide_false, ge_iff_le,
    Bool.or_self, wp_memset, wp_store64, wp_modify]
  exact h

end Mem
end WhuOS
