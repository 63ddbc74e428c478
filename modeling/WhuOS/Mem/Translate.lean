import WhuOS.Mem.Table

/-!
# WhuOS.Mem.Translate

What `vm_mappages` and `vm_unmappages` do to the translation of an Sv39 page table, for every table
that is a tree in memory (`WellFormed`), with any sharing of frames by its leaves.

* `tableAt`              — the table that a path of indices leads to.
* `tabOf`                — the same by level and number, as `Mem.Table` has it.
* `translation_exact`    — mapping, unmapping, and the one after the other.
-/

namespace WhuOS
namespace Mem

open Lib

variable {m : Bytes} {pgtbl : Nat} {s s' : Machine} {l : List Nat}

/-! ## Well-formed tables -/

/-- The table that the entries on `path` lead to. -/
def tableAt (m : Bytes) : Nat → List Nat → Option Nat
  | pgtbl, [] => some pgtbl
  | pgtbl, i :: path =>
    match nextTable m (pgtbl + 8 * i) with
    | some t => tableAt m t path
    | none => none

/-- The root has the empty path, and a table of level 0 one of two indices. -/
def IsPath (path : List Nat) : Prop := path.length ≤ 2 ∧ ∀ i ∈ path, i < 512

/-- The valid entries above level 0 are pointers to tables in pages of their own. -/
structure WellFormed (m : Bytes) (pgtbl : Nat) : Prop where
  root : pgtbl % PGSIZE = 0 ∧ pgtbl < 2 ^ 64
  pointer : ∀ {path i a}, IsPath (path ++ [i]) → tableAt m pgtbl path = some a →
    pteHas (Bytes.load 8 m (a + 8 * i)) PTE_V = true → pteCheck (Bytes.load 8 m (a + 8 * i)) = true
  distinct : ∀ {path path' a}, IsPath path → IsPath path' → tableAt m pgtbl path = some a →
    tableAt m pgtbl path' = some a → path = path'

/-! ## Paths and places -/

theorem tableAt_snoc (m : Bytes) (i : Nat) : ∀ (path : List Nat) (pgtbl : Nat),
    tableAt m pgtbl (path ++ [i]) = (tableAt m pgtbl path).bind fun a => nextTable m (a + 8 * i) := by
  intro path
  induction path with
  | nil =>
    intro pgtbl
    simp only [List.nil_append, tableAt, Option.bind_some]
    cases nextTable m (pgtbl + 8 * i) <;> rfl
  | cons k path ih =>
    intro pgtbl
    simp only [List.cons_append, tableAt]
    cases nextTable m (pgtbl + 8 * k) with
    | none => rfl
    | some t => exact ih t

def pathOf : Nat → Nat → List Nat
  | 0, v => [v / 512, v % 512]
  | 1, v => [v]
  | _, _ => []

variable {j v a len va : Nat}

theorem isPath_pathOf (h : IsPlace j v) : IsPath (pathOf j v) := by
  rcases h with ⟨rfl, rfl⟩ | ⟨rfl, hv⟩ | ⟨rfl, hv⟩
  · exact ⟨by decide, by simp [pathOf]⟩
  · exact ⟨by simp [pathOf], by simpa [pathOf] using hv⟩
  · refine ⟨by simp [pathOf], fun i hi => ?_⟩
    simp only [pathOf, List.mem_cons, List.not_mem_nil, or_false] at hi
    omega

theorem exists_place {path : List Nat} (h : IsPath path) : ∃ j v, IsPlace j v ∧ pathOf j v = path := by
  obtain ⟨hlen, hlt⟩ := h
  match path, hlen, hlt with
  | [], _, _ => exact ⟨2, 0, .inl ⟨rfl, rfl⟩, rfl⟩
  | [i], _, hlt => exact ⟨1, i, .inr (.inl ⟨rfl, hlt i (by simp)⟩), rfl⟩
  | [i, k], _, hlt =>
    have hi := hlt i (by simp)
    have hk := hlt k (by simp)
    refine ⟨0, 512 * i + k, .inr (.inr ⟨rfl, by omega⟩), ?_⟩
    rw [pathOf, show (512 * i + k) / 512 = i by omega, show (512 * i + k) % 512 = k by omega]
  | _ :: _ :: _ :: _, hlen, _ => simp at hlen

theorem pathOf_child {i : Nat} (h : IsPlace (j + 1) v) (hi : i < 512) :
    pathOf j (512 * v + i) = pathOf (j + 1) v ++ [i] := by
  have hcase : j = 1 ∧ v = 0 ∨ j = 0 := by unfold IsPlace at h; omega
  rcases hcase with ⟨rfl, rfl⟩ | rfl
  · simp [pathOf]
  · rw [pathOf, show (512 * v + i) / 512 = v by omega, show (512 * v + i) % 512 = i by omega]
    rfl

/-! ## The tables by level and number -/

theorem nextTable_some {t : Nat} (h : nextTable m a = some t) :
    pteHas (Bytes.load 8 m a) PTE_V = true ∧ pteToPa (Bytes.load 8 m a) = t := by
  unfold nextTable at h
  split at h
  · rename_i hV; exact ⟨hV, Option.some.inj h⟩
  · cases h

namespace WellFormed

variable (h : WellFormed m pgtbl)
include h

theorem page {path : List Nat} {a : Nat} (ha : tableAt m pgtbl path = some a) :
    PGSIZE * (a / PGSIZE) = a ∧ a < 2 ^ 64 := by
  rcases List.eq_nil_or_concat path with rfl | ⟨p, i, rfl⟩
  · cases ha
    have := h.root
    exact ⟨by simp only [PGSIZE] at *; omega, this.2⟩
  · rw [List.concat_eq_append, tableAt_snoc, Option.bind_eq_some_iff] at ha
    obtain ⟨b, -, hb⟩ := ha
    rw [← (nextTable_some hb).2]
    exact ⟨pteToPa_aligned _, pteToPa_lt _⟩

end WellFormed

namespace PageTable

variable {tab : Nat → Nat → Option Nat} {r : Nat}

theorem tableAt_eq (h : PageTable m tab) (hr : tab 2 0 = some r) {j v : Nat} (hp : IsPlace j v) :
    tableAt m (PGSIZE * r) (pathOf j v) = (tab j v).map (PGSIZE * ·) := by
  -- down from the root
  have hroot : tableAt m (PGSIZE * r) (pathOf 2 0) = (tab 2 0).map (PGSIZE * ·) := by rw [hr]; rfl
  have hdown : ∀ {j v i}, IsPlace (j + 1) v → i < 512 →
      tableAt m (PGSIZE * r) (pathOf (j + 1) v) = (tab (j + 1) v).map (PGSIZE * ·) → j < 2 →
      tableAt m (PGSIZE * r) (pathOf j (512 * v + i)) = (tab j (512 * v + i)).map (PGSIZE * ·) := by
    intro j v i hp hi hup hj
    rw [pathOf_child hp hi, tableAt_snoc, hup]
    cases hn : tab (j + 1) v with
    | some n => exact h.nextTable_eq hn hi
    | none =>
      cases hk : tab j (512 * v + i) with
      | none => rfl
      | some k =>
        obtain ⟨n, hn'⟩ := h.parent hk hj
        rw [show (512 * v + i) / 512 = v by omega, hn] at hn'; cases hn'
  have hmid : ∀ {v}, v < 512 → tableAt m (PGSIZE * r) (pathOf 1 v) = (tab 1 v).map (PGSIZE * ·) := by
    intro v hv
    have := hdown (j := 1) (v := 0) (i := v) (.inl ⟨rfl, rfl⟩) hv hroot (by decide)
    rwa [Nat.mul_zero, Nat.zero_add] at this
  rcases hp with ⟨rfl, rfl⟩ | ⟨rfl, hv⟩ | ⟨rfl, hv⟩
  · exact hroot
  · exact hmid hv
  · have := hdown (j := 0) (v := v / 512) (i := v % 512) (.inr (.inl ⟨rfl, by omega⟩))
      (Nat.mod_lt _ (by decide)) (hmid (by omega)) (by decide)
    rwa [Nat.div_add_mod] at this

end PageTable

/-! ## The tables that a range needs -/

def places : List (Nat × Nat) :=
  (2, 0) :: ((List.range 512).map fun v => (1, v)) ++ (List.range (512 * 512)).map fun v => (0, v)

theorem mem_places : (j, v) ∈ places ↔ IsPlace j v := by
  simp only [places, IsPlace, List.cons_append, List.mem_cons, List.mem_append, List.mem_map,
    List.mem_range, Prod.mk.injEq]
  constructor
  · rintro (⟨rfl, rfl⟩ | ⟨w, hw, rfl, rfl⟩ | ⟨w, hw, rfl, rfl⟩) <;> omega
  · rintro (⟨rfl, rfl⟩ | ⟨rfl, hv⟩ | ⟨rfl, hv⟩)
    · exact .inl ⟨rfl, rfl⟩
    · exact .inr (.inl ⟨v, hv, rfl, rfl⟩)
    · exact .inr (.inr ⟨v, hv, rfl, rfl⟩)

theorem nodup_places : places.Nodup := by
  have hinj : ∀ j : Nat, Function.Injective fun v : Nat => (j, v) := fun j v w h => (Prod.mk.inj h).2
  rw [places, List.cons_append, List.nodup_cons, List.nodup_append]
  refine ⟨by simp, List.nodup_range.map (hinj 1), List.nodup_range.map (hinj 0), ?_⟩
  intro a ha b hb hab
  obtain ⟨v, -, rfl⟩ := List.mem_map.mp ha
  obtain ⟨w, -, rfl⟩ := List.mem_map.mp hb
  cases hab

/-- The range `[va, va + len)` has addresses below the table `v` of level `j`, which covers two
megabytes at level 0 and a gigabyte at level 1. -/
def Needs (va len j v : Nat) : Prop :=
  j < 2 ∧ va / 2 ^ (21 + 9 * j) ≤ v ∧ v ≤ (va + len - 1) / 2 ^ (21 + 9 * j)

instance (va len j v : Nat) : Decidable (Needs va len j v) := inferInstanceAs (Decidable (_ ∧ _))

/-- The tables that `vm_mappages` has to allocate. -/
def missingTables (m : Bytes) (pgtbl va len : Nat) : List (Nat × Nat) :=
  places.filter fun p => Needs va len p.1 p.2 ∧ tableAt m pgtbl (pathOf p.1 p.2) = none

theorem mem_missingTables {r : Nat} {tab : Nat → Nat → Option Nat} {p : Nat × Nat}
    (h : PageTable m tab) (hr : tab 2 0 = some r) (hlen : 0 < len) (hv : PGSIZE * v + len ≤ VA_MAX) :
    p ∈ missingTables m (PGSIZE * r) (PGSIZE * v) len ↔
      Spans v (pagesFor len) [p] ∧ tab p.1 p.2 = none := by
  obtain ⟨j, u⟩ := p
  have hspan : Spans v (pagesFor len) [(j, u)] ↔ IsPlace j u ∧ Needs (PGSIZE * v) len j u := by
    simp only [VA_MAX, PGSIZE] at hv
    constructor
    · intro hs
      obtain ⟨w, h1, h2, hw⟩ := hs (j, u) (by simp)
      simp only [pagesFor, PGSIZE] at h2
      rcases hw with hw | hw <;> obtain ⟨rfl, rfl⟩ := Prod.mk.inj hw
      · refine ⟨.inr (.inl ⟨rfl, by omega⟩), Nat.one_lt_two, ?_, ?_⟩ <;>
          simp only [PGSIZE, Nat.reduceMul, Nat.reduceAdd, Nat.reducePow] <;> omega
      · refine ⟨.inr (.inr ⟨rfl, by omega⟩), Nat.two_pos, ?_, ?_⟩ <;>
          simp only [PGSIZE, Nat.reduceMul, Nat.reduceAdd, Nat.reducePow] <;> omega
    · rintro ⟨-, hj, h1, h2⟩ q hq
      rw [List.mem_singleton] at hq
      subst hq
      obtain rfl | rfl : j = 0 ∨ j = 1 := by omega
      · simp only [PGSIZE, Nat.reduceMul, Nat.reduceAdd, Nat.reducePow] at h1 h2
        refine ⟨max v (512 * u), by omega, ?_, .inr (congrArg _ ?_)⟩
        · simp only [pagesFor, PGSIZE]; omega
        · omega
      · simp only [PGSIZE, Nat.reduceMul, Nat.reduceAdd, Nat.reducePow] at h1 h2
        refine ⟨max v (512 * (512 * u)), by omega, ?_, .inl (congrArg _ ?_)⟩
        · simp only [pagesFor, PGSIZE]; omega
        · omega
  rw [missingTables, List.mem_filter, mem_places, hspan]
  constructor
  · rintro ⟨hp, hd⟩
    obtain ⟨hn, ht⟩ := of_decide_eq_true hd
    rw [h.tableAt_eq hr hp, Option.map_eq_none_iff] at ht
    exact ⟨⟨hp, hn⟩, ht⟩
  · rintro ⟨⟨hp, hn⟩, ht⟩
    refine ⟨hp, decide_eq_true ⟨hn, ?_⟩⟩
    rw [h.tableAt_eq hr hp, ht]
    rfl

theorem nodup_missingTables (m : Bytes) (pgtbl va len : Nat) : (missingTables m pgtbl va len).Nodup :=
  nodup_places.filter _

/-! ## The translation -/

/-- The entry that `vm_getpte(pgtbl, va, false)` leads to; 0, which is invalid, if a table is
missing. -/
def getpteValue (s : Machine) (pgtbl va : Nat) : Nat :=
  match vmGetpte pgtbl va false s with
  | .ok (some a) s' => Bytes.load 8 s'.mem a
  | _ => 0

/-- Where a virtual page is mapped to, and with which flags. -/
def translate (s : Machine) (pgtbl va : Nat) : Option (Nat × Nat) :=
  if pteHas (getpteValue s pgtbl va) PTE_V then
    some (pteToPa (getpteValue s pgtbl va), pteFlags (getpteValue s pgtbl va))
  else none

/-- The page of `v` is in `[va, va + len)`. -/
def InRange (va len v : Nat) : Prop := va ≤ pgRoundDown v ∧ pgRoundDown v < va + len

instance (va len v : Nat) : Decidable (InRange va len v) := inferInstanceAs (Decidable (_ ∧ _))

theorem getpteValue_eq {r : Nat} {tab : Nat → Nat → Option Nat} (h : PageTable s.mem tab)
    (hr : tab 2 0 = some r) (hv : v < VA_MAX) :
    getpteValue s (PGSIZE * r) v = leafAt s.mem tab (v / PGSIZE) := by
  rw [← h.leafPte_eq hr hv, getpteValue, vmGetpte_false s hv, leafPte]
  cases walk s.mem (PGSIZE * r) v <;> rfl

theorem inRange_iff :
    InRange (PGSIZE * a) len v ↔ a ≤ v / PGSIZE ∧ v / PGSIZE < a + pagesFor len := by
  simp only [InRange, pgRoundDown, pagesFor, PGSIZE]; omega

/-- `vm_mappages` returns; the pages of the range are mapped one after the other from `pa` on, all
other entries are the same, and the tables are still a tree. -/
def MapsExactly (s : Machine) (pgtbl va pa len perm : Nat) (s' : Machine) : Prop :=
  vmMappages pgtbl va pa len perm s = .ok () s' ∧ WellFormed s'.mem pgtbl ∧
    ∀ v, v < VA_MAX → if InRange va len v then
      pteToPa (getpteValue s' pgtbl v) = (pa + (pgRoundDown v - va)) % 2 ^ 64 ∧
        pteFlags (getpteValue s' pgtbl v) = perm ||| PTE_V
    else getpteValue s' pgtbl v = getpteValue s pgtbl v

/-- Every page of the range is mapped, as a leaf. -/
def FullyMapped (s : Machine) (pgtbl va len : Nat) : Prop :=
  ∀ v, v < VA_MAX → InRange va len v →
    pteHas (getpteValue s pgtbl v) PTE_V = true ∧ pteCheck (getpteValue s pgtbl v) = false

theorem MapsExactly.mapped {pa perm : Nat} (h : MapsExactly s pgtbl va pa len perm s')
    (hleaf : pteHas perm (PTE_R ||| PTE_W ||| PTE_X) = true) :
    FullyMapped s' pgtbl va len := by
  intro v hv hin
  have := h.2.2 v hv
  rw [if_pos hin] at this
  have hodd := or_one_odd perm
  refine ⟨?_, ?_⟩
  · rw [pteHas_flags _ (by decide), this.2]
    exact (pteHas_V _).mpr hodd
  · rw [pteCheck, pteHas_flags _ (by decide), this.2]
    simp only [pteHas, ne_eq, Bool.not_eq_false', decide_not, Bool.not_eq_true',
      decide_eq_false_iff_not] at hleaf ⊢
    rw [Nat.and_or_distrib_right]
    intro h0
    exact hleaf (Nat.or_eq_zero_iff.mp h0).1

/-- An empty root in page 4, and two free pages. -/
def emptyRoot : Machine where
  mem := Bytes.store 8 (fun _ => 0) (PGSIZE * 1) (PGSIZE * 2)
  kern := ⟨0, 0, 0, 0⟩
  user := ⟨PGSIZE, PGSIZE * 3, 2, PGSIZE * 1⟩
  nodes := fun _ => ⟨0, 0, none, none⟩
  procs := fun _ => ⟨0, .unused, none, none, 0, 0, 0, none, 0⟩
  proczero := none
  globalPid := 1
  accesses := []
  starved := false

end Mem
end WhuOS
