import WhuOS.Lib.Intervals
import WhuOS.Mem.Unmap
import WhuOS.Proc.Mmap

/-!
# WhuOS.Proc.Regions

The mmap list of a process as a set of free pages.

`Lists` ties the nodes to a list of intervals of page numbers: the nodes of the list and those of the
pool are distinct, and node for node the list holds the intervals. On it `uvm_mmap` is `remove` and
`uvm_munmap` is `adjoin` of `Lib.Intervals`, whatever pointers the code moves.
-/

namespace WhuOS
namespace Proc

open Lib Kern Mem Sched

variable {L : Layout} {p : Slot} {s : Machine} {own : Nat → Owner} {l : List Nat}

/-! ## Nodes and intervals -/

/-- A node holds the interval of pages `x`. -/
def Holds (n : MmapNode) (x : Interval) : Prop :=
  n.beginAddr = PGSIZE * x.start ∧ n.npages = x.len

abbrev Cell := NodeId × Interval

/-- The list from `head` on and the pool. -/
structure Lists (nodes : NodeId → MmapNode) (head : Option NodeId) (cells : List Cell)
    (free : List NodeId) : Prop where
  list : Linked (fun i => (nodes i).next) head (cells.map Prod.fst) none
  pool : Linked (fun i => (nodes i).poolNext) (nodes listHead).poolNext free none
  nodup : (listHead :: (cells.map Prod.fst ++ free)).Nodup
  holds : ∀ c ∈ cells, Holds (nodes c.1) c.2

/-- The link after the node `prev`, or the head of the list, is set to `v`. -/
def relink (nodes : NodeId → MmapNode) (head : Option NodeId) (v : Option NodeId) :
    Option NodeId → (NodeId → MmapNode) × Option NodeId
  | none => (nodes, v)
  | some j => (Function.update nodes j { nodes j with next := v }, head)

theorem relink_fields (nodes : NodeId → MmapNode) (head v prev : Option NodeId) (i : NodeId) :
    ((relink nodes head v prev).1 i).beginAddr = (nodes i).beginAddr ∧
    ((relink nodes head v prev).1 i).npages = (nodes i).npages ∧
    ((relink nodes head v prev).1 i).poolNext = (nodes i).poolNext := by
  cases prev with
  | none => exact ⟨rfl, rfl, rfl⟩
  | some j =>
    by_cases hij : i = j
    · subst hij; simp [relink]
    · simp [relink, hij]

theorem relink_next {nodes : NodeId → MmapNode} {head v prev : Option NodeId} {i : NodeId}
    (h : prev ≠ some i) : ((relink nodes head v prev).1 i).next = (nodes i).next := by
  cases prev with
  | none => rfl
  | some j =>
    have hij : i ≠ j := fun he => h (by rw [he])
    simp [relink, hij]

theorem linked_relink {nodes : NodeId → MmapNode} {head m : Option NodeId} {l : List NodeId}
    (v : Option NodeId) (h : Linked (fun i => (nodes i).next) head l m) (hl : l.Nodup) :
    Linked (fun i => ((relink nodes head v l.getLast?).1 i).next)
      (relink nodes head v l.getLast?).2 l v := by
  rcases List.eq_nil_or_concat l with rfl | ⟨l, j, rfl⟩
  · rfl
  · rw [List.concat_eq_append] at h hl ⊢
    obtain ⟨-, -, hj⟩ := List.nodup_append.mp hl
    rw [Linked.concat_iff] at h ⊢
    simp only [List.getLast?_append, List.getLast?_singleton, Option.some_or]
    refine ⟨h.1.congr fun i hi => ?_, by simp [relink]⟩
    have : i ≠ j := hj i hi j (by simp)
    simp [relink, this]

/-- The nodes after `mmap_region_free(i)`. -/
def pooled (nodes : NodeId → MmapNode) (i : NodeId) : NodeId → MmapNode :=
  let nodes1 := Function.update nodes i { nodes i with poolNext := (nodes listHead).poolNext }
  Function.update nodes1 listHead { nodes1 listHead with poolNext := some i }

theorem pooled_fields (nodes : NodeId → MmapNode) (i j : NodeId) :
    (pooled nodes i j).next = (nodes j).next ∧ (pooled nodes i j).beginAddr = (nodes j).beginAddr ∧
      (pooled nodes i j).npages = (nodes j).npages := by
  by_cases hj : j = listHead
  · subst hj
    by_cases hi : listHead = i
    · subst hi; simp [pooled]
    · simp [pooled, hi]
  · by_cases hi : j = i
    · subst hi; simp [pooled, hj]
    · simp [pooled, hj, hi]

theorem pooled_next (nodes : NodeId → MmapNode) (i j : NodeId) :
    (pooled nodes i j).next = (nodes j).next := (pooled_fields nodes i j).1

theorem pooled_begin (nodes : NodeId → MmapNode) (i j : NodeId) :
    (pooled nodes i j).beginAddr = (nodes j).beginAddr := (pooled_fields nodes i j).2.1

theorem pooled_npages (nodes : NodeId → MmapNode) (i j : NodeId) :
    (pooled nodes i j).npages = (nodes j).npages := (pooled_fields nodes i j).2.2

/-- The nodes after `mmap_region_alloc` has taken `k`. -/
def taken (nodes : NodeId → MmapNode) (k : NodeId) : NodeId → MmapNode :=
  let nodes1 :=
    Function.update nodes listHead { nodes listHead with poolNext := (nodes k).poolNext }
  Function.update nodes1 k { nodes1 k with beginAddr := 0, npages := 0, next := none }

namespace Lists

variable {nodes nodes' : NodeId → MmapNode} {head : Option NodeId} {pre post cells : List Cell}
  {free : List NodeId} {i k : NodeId} {x y : Interval}

theorem congr (h : Lists nodes head cells free)
    (hc : ∀ c ∈ cells, (nodes' c.1).next = (nodes c.1).next ∧
      (nodes' c.1).beginAddr = (nodes c.1).beginAddr ∧ (nodes' c.1).npages = (nodes c.1).npages)
    (hp : ∀ i ∈ listHead :: free, (nodes' i).poolNext = (nodes i).poolNext) :
    Lists nodes' head cells free := by
  refine ⟨h.list.congr fun i hi => ?_, ?_, h.nodup, fun c hm => ?_⟩
  · obtain ⟨c, hm, rfl⟩ := List.mem_map.mp hi
    exact (hc c hm).1
  · rw [hp listHead (by simp)]
    exact h.pool.congr fun i hi => hp i (by simp [hi])
  · obtain ⟨-, h1, h2⟩ := hc c hm
    obtain ⟨g1, g2⟩ := h.holds c hm
    exact ⟨h1.trans g1, h2.trans g2⟩

theorem apart (h : Lists nodes head (pre ++ (i, x) :: post) free) :
    i ≠ listHead ∧ i ∉ free ∧ (∀ c ∈ pre, c.1 ≠ i) ∧ ∀ c ∈ post, c.1 ≠ i := by
  have hn := h.nodup
  simp only [List.map_append, List.map_cons, List.nodup_cons, List.nodup_append, List.mem_append,
    List.mem_cons, List.mem_map, not_or, ne_eq] at hn
  obtain ⟨⟨⟨-, h1, -⟩, -⟩, ⟨-, ⟨h2, -⟩, h3⟩, -, h4⟩ := hn
  refine ⟨Ne.symm h1, fun hf => h4 i (.inr (.inl rfl)) i hf rfl, fun c hc he => ?_, fun c hc he => ?_⟩
  · exact h3 c.1 ⟨c, hc, rfl⟩ i (.inl rfl) he
  · exact h2 ⟨c, hc, he⟩

theorem next_eq (h : Lists nodes head (pre ++ (i, x) :: post) free) :
    (nodes i).next = (post.map Prod.fst).head? := by
  have hl := h.list
  simp only [List.map_append, List.map_cons, Linked.append_iff, Linked] at hl
  obtain ⟨m, -, -, hpost⟩ := hl
  exact hpost.head_eq

theorem edit (h : Lists nodes head (pre ++ (i, x) :: post) free) {n : MmapNode} (hn : Holds n y)
    (hnext : n.next = (nodes i).next) (hpool : n.poolNext = (nodes i).poolNext) :
    Lists (Function.update nodes i n) head (pre ++ (i, y) :: post) free := by
  obtain ⟨h1, h2, h3, h4⟩ := h.apart
  have hfst : (pre ++ (i, y) :: post).map Prod.fst = (pre ++ (i, x) :: post).map Prod.fst := by simp
  have hnx : ∀ j, (Function.update nodes i n j).next = (nodes j).next := fun j => by
    by_cases hj : j = i
    · subst hj; simpa using hnext
    · simp [hj]
  have hpl : ∀ j, (Function.update nodes i n j).poolNext = (nodes j).poolNext := fun j => by
    by_cases hj : j = i
    · subst hj; simpa using hpool
    · simp [hj]
  refine ⟨?_, ?_, by rw [hfst]; exact h.nodup, fun c hc => ?_⟩
  · simp only [hnx, hfst]; exact h.list
  · simp only [hpl]; exact h.pool
  · rcases List.mem_append.mp hc with hc | hc
    · rw [Function.update_of_ne (h3 c hc)]
      exact h.holds c (by simp [hc])
    · rcases List.mem_cons.mp hc with rfl | hc
      · simpa using hn
      · rw [Function.update_of_ne (h4 c hc)]
        exact h.holds c (by simp [hc])

theorem give (h : Lists nodes head cells free)
    (hk : k ≠ listHead ∧ k ∉ free ∧ ∀ c ∈ cells, c.1 ≠ k) :
    Lists (pooled nodes k) head cells (k :: free) := by
  obtain ⟨hk0, hkf, hkc⟩ := hk
  obtain ⟨h0, hn⟩ := List.nodup_cons.mp h.nodup
  refine ⟨?_, ⟨by simp [pooled], ?_⟩, ?_, fun c hc => ?_⟩
  · simp only [pooled_next]; exact h.list
  · have hpk : (pooled nodes k k).poolNext = (nodes listHead).poolNext := by simp [pooled, hk0]
    simp only [hpk]
    refine h.pool.congr fun j hj => ?_
    have hjk : j ≠ k := by rintro rfl; exact hkf hj
    have hj0 : j ≠ listHead := by rintro rfl; exact h0 (by simp [hj])
    simp [pooled, hjk, hj0]
  · have hp : (listHead :: k :: (cells.map Prod.fst ++ free)).Nodup := by
      refine List.nodup_cons.mpr ⟨?_, List.nodup_cons.mpr ⟨?_, hn⟩⟩
      · simp only [List.mem_cons, not_or]
        exact ⟨Ne.symm hk0, h0⟩
      · simp only [List.mem_append, List.mem_map, not_or]
        exact ⟨fun ⟨c, hc, hck⟩ => hkc c hc hck, hkf⟩
    exact (List.Perm.nodup_iff (List.Perm.cons _ List.perm_middle.symm)).mp hp
  · obtain ⟨g1, g2⟩ := h.holds c hc
    exact ⟨(pooled_begin ..).trans g1, (pooled_npages ..).trans g2⟩

theorem skip (h : Lists nodes head (pre ++ (i, x) :: post) free) :
    Lists (relink nodes head (nodes i).next (pre.map Prod.fst).getLast?).1
      (relink nodes head (nodes i).next (pre.map Prod.fst).getLast?).2 (pre ++ post) free := by
  have hl := h.list
  simp only [List.map_append, List.map_cons, Linked.append_iff, Linked] at hl
  obtain ⟨m, hpre, -, hpost⟩ := hl
  have hn := h.nodup
  simp only [List.map_append, List.map_cons] at hn
  obtain ⟨h0, hrest⟩ := List.nodup_cons.mp hn
  obtain ⟨hpren, hpostn, hdis⟩ := List.nodup_append.mp (List.nodup_append.mp hrest).1
  have hf := relink_fields nodes head (nodes i).next (pre.map Prod.fst).getLast?
  refine ⟨?_, ?_, ?_, fun c hc => ?_⟩
  · rw [List.map_append, Linked.append_iff]
    refine ⟨(nodes i).next, linked_relink _ hpre hpren, hpost.congr fun j hj => ?_⟩
    exact relink_next fun he => hdis j (List.mem_of_getLast? he) j (by simp [hj]) rfl
  · rw [(hf listHead).2.2]
    exact h.pool.congr fun j _ => (hf j).2.2
  · refine hn.sublist (List.Sublist.cons_cons _ (List.Sublist.append_right ?_ _))
    rw [List.map_append]
    exact List.Sublist.append_left (List.sublist_cons_self ..) _
  · have hci : c ∈ pre ++ (i, x) :: post := by
      rcases List.mem_append.mp hc with hc | hc <;> simp [hc]
    obtain ⟨g1, g2⟩ := h.holds c hci
    obtain ⟨f1, f2, -⟩ := hf c.1
    exact ⟨f1.trans g1, f2.trans g2⟩

theorem unlink (h : Lists nodes head (pre ++ (i, x) :: post) free) :
    Lists (pooled (relink nodes head (nodes i).next (pre.map Prod.fst).getLast?).1 i)
      (relink nodes head (nodes i).next (pre.map Prod.fst).getLast?).2 (pre ++ post) (i :: free) := by
  obtain ⟨h1, h2, h3, h4⟩ := h.apart
  refine h.skip.give ⟨h1, h2, fun c hc => ?_⟩
  rcases List.mem_append.mp hc with hc | hc
  · exact h3 c hc
  · exact h4 c hc

theorem take (h : Lists nodes head cells (k :: free)) :
    Lists (taken nodes k) head cells free ∧ k ≠ listHead ∧ k ∉ free ∧ ∀ c ∈ cells, c.1 ≠ k := by
  have hn := h.nodup
  simp only [List.nodup_cons, List.nodup_append, List.mem_append, List.mem_cons, not_or] at hn
  obtain ⟨⟨h1, h2, h3⟩, h4, ⟨h5, h6⟩, h7⟩ := hn
  have hk : ∀ c ∈ cells, c.1 ≠ k := fun c hc he =>
    h7 c.1 (List.mem_map_of_mem hc) k (.inl rfl) he
  have hc0 : ∀ c ∈ cells, c.1 ≠ listHead := fun c hc he =>
    h1 (by rw [← he]; exact List.mem_map_of_mem hc)
  refine ⟨⟨h.list.congr fun j hj => ?_, ?_, ?_, fun c hc => ?_⟩, Ne.symm h2, h5, hk⟩
  · obtain ⟨c, hc, rfl⟩ := List.mem_map.mp hj
    simp [taken, hk c hc, hc0 c hc]
  · have hp : (taken nodes k listHead).poolNext = (nodes k).poolNext := by simp [taken, h2]
    rw [hp]
    refine h.pool.2.congr fun j hj => ?_
    have hjk : j ≠ k := by rintro rfl; exact h5 hj
    have hj0 : j ≠ listHead := by rintro rfl; exact h3 hj
    simp [taken, hjk, hj0]
  · simp only [List.nodup_cons, List.nodup_append, List.mem_append, not_or]
    exact ⟨⟨h1, h3⟩, h4, h6, fun a ha b hb => h7 a ha b (.inr hb)⟩
  · simpa [Holds, taken, hk c hc, hc0 c hc] using h.holds c hc

/-- A node that is neither in the list nor in the pool is put into the list after `pre`. -/
theorem link (h : Lists nodes head (pre ++ post) free)
    (hk : k ≠ listHead ∧ k ∉ free ∧ ∀ c ∈ pre ++ post, c.1 ≠ k) {n : MmapNode} (hn : Holds n y)
    (hnext : n.next = (post.map Prod.fst).head?) :
    Lists (relink (Function.update nodes k n) head (some k) (pre.map Prod.fst).getLast?).1
      (relink (Function.update nodes k n) head (some k) (pre.map Prod.fst).getLast?).2
      (pre ++ (k, y) :: post) free := by
  obtain ⟨hk0, hkf, hkc⟩ := hk
  have hnd := h.nodup
  simp only [List.map_append] at hnd
  have hl := h.list
  simp only [List.map_append, Linked.append_iff] at hl
  obtain ⟨m, hpre, hpost⟩ := hl
  have hpren : (pre.map Prod.fst).Nodup := (List.nodup_append.mp
    (List.nodup_append.mp (List.nodup_cons.mp hnd).2).1).1
  have hdis := (List.nodup_append.mp (List.nodup_append.mp (List.nodup_cons.mp hnd).2).1).2.2
  have hf := relink_fields (Function.update nodes k n) head (some k) (pre.map Prod.fst).getLast?
  have hlast : (pre.map Prod.fst).getLast? ≠ some k := by
    intro he
    obtain ⟨c, hc, hci⟩ := List.mem_map.mp (List.mem_of_getLast? he)
    exact hkc c (by simp [hc]) hci
  refine ⟨?_, ?_, ?_, fun c hc => ?_⟩
  · simp only [List.map_append, List.map_cons, Linked.append_iff, Linked]
    refine ⟨some k, ?_, rfl, ?_⟩
    · refine linked_relink (some k) (m := m) (hpre.congr fun j hj => ?_) hpren
      obtain ⟨c, hc, rfl⟩ := List.mem_map.mp hj
      simp [hkc c (by simp [hc])]
    · rw [relink_next hlast]
      simp only [Function.update_self, hnext, ← hpost.head_eq]
      refine hpost.congr fun j hj => ?_
      obtain ⟨c, hc, rfl⟩ := List.mem_map.mp hj
      rw [relink_next fun he => hdis c.1 (List.mem_of_getLast? he) c.1 hj rfl]
      simp [hkc c (by simp [hc])]
  · rw [(hf listHead).2.2, Function.update_of_ne (Ne.symm hk0)]
    refine h.pool.congr fun j hj => ?_
    have hjk : j ≠ k := by rintro rfl; exact hkf hj
    rw [(hf j).2.2, Function.update_of_ne hjk]
  · have hp : (listHead :: k :: (pre.map Prod.fst ++ post.map Prod.fst ++ free)).Nodup := by
      refine List.nodup_cons.mpr ⟨?_, List.nodup_cons.mpr ⟨?_, (List.nodup_cons.mp hnd).2⟩⟩
      · simp only [List.mem_cons, not_or]
        exact ⟨Ne.symm hk0, (List.nodup_cons.mp hnd).1⟩
      · rw [← List.map_append]
        simp only [List.mem_append, List.mem_map, not_or]
        refine ⟨?_, hkf⟩
        rintro ⟨c, hc, hck⟩
        exact hkc c (by simpa using hc) hck
    refine (List.Perm.nodup_iff ?_).mp hp
    refine List.Perm.cons _ ?_
    simp only [List.append_assoc, List.map_append, List.map_cons, List.cons_append]
    exact List.perm_middle.symm
  · obtain ⟨f1, f2, -⟩ := hf c.1
    have hold : ∀ c ∈ pre ++ post, Holds (Function.update nodes k n c.1) c.2 := fun c hc => by
      rw [Function.update_of_ne (hkc c hc)]
      exact h.holds c hc
    have hc' : Holds (Function.update nodes k n c.1) c.2 := by
      rcases List.mem_append.mp hc with hc | hc
      · exact hold c (by simp [hc])
      · rcases List.mem_cons.mp hc with rfl | hc
        · simpa using hn
        · exact hold c (by simp [hc])
    exact ⟨f1.trans hc'.1, f2.trans hc'.2⟩

end Lists

/-! ## `uvm_mmap` -/

/-- Of the process only the head of the list changes. -/
def MmapOnly (p : Slot) (s s' : Machine) : Prop :=
  ∃ nodes o, s' = { s with
    nodes := nodes, procs := Function.update s.procs p { s.procs p with mmap := o } }

namespace MmapOnly

variable {s1 : Machine}

theorem refl (p : Slot) (s : Machine) : MmapOnly p s s :=
  ⟨s.nodes, (s.procs p).mmap, by simp⟩

theorem setNodes {nodes : NodeId → MmapNode} (h : MmapOnly p s s1) :
    MmapOnly p s { s1 with nodes := nodes } := by
  obtain ⟨nodes', o, rfl⟩ := h
  exact ⟨nodes, o, rfl⟩

end MmapOnly

/-- An interval that the code's 32 and 64 bit sums are exact for. -/
def Small (x : Interval) : Prop := x.len < 2 ^ 20 ∧ PGSIZE * x.stop ≤ VA_MAX

/-- An interval that the code's 32 bit products are exact for; it may also be one that goes beyond the
64 bit addresses. -/
def Exact (x : Interval) : Prop :=
  x.len < 2 ^ 20 ∧ (PGSIZE * x.stop ≤ VA_MAX ∨ x.start < 2 ^ 52 ∧ 2 ^ 52 ≤ x.stop)

theorem Small.exact {x : Interval} (h : Small x) : Exact x := ⟨h.1, .inl h.2⟩

theorem regionEnd_mod {n : MmapNode} {x : Interval} (h : Holds n x) (hx : x.len < 2 ^ 20) :
    regionEnd n = PGSIZE * x.stop % 2 ^ 64 := by
  obtain ⟨h1, h2⟩ := h
  rw [regionEnd, h1, h2, regionBytes_of_lt hx]
  simp only [Interval.stop, PGSIZE]
  omega

theorem regionEnd_of_holds {n : MmapNode} {x : Interval} (h : Holds n x) (hx : Small x) :
    regionEnd n = PGSIZE * x.stop := by
  have := hx.2
  rw [regionEnd_mod h hx.1]
  simp only [PGSIZE, VA_MAX] at *
  omega

section Split

variable {pre post cells : List Cell} {free : List NodeId} {i : NodeId} {x : Interval} {a n : Nat}

theorem wp_mmapRegionAlloc {head : Option NodeId} {Q : NodeId → Machine → Prop}
    (h : Lists s.nodes head cells free)
    (hQ : ∀ k free', free = k :: free' → Q k { s with nodes := taken s.nodes k }) :
    wp mmapRegionAlloc Q (fun _ s' => free = [] ∧ s' = s) s := by
  simp only [mmapRegionAlloc, wp_bind, wp_getNode]
  cases free with
  | nil =>
    rw [show (s.nodes listHead).poolNext = none from h.pool]
    exact ⟨rfl, rfl⟩
  | cons k free =>
    rw [h.pool.1]
    exact hQ k free rfl

theorem wp_mmapRegionFree {i : NodeId} {Q : Unit → Machine → Prop} {E : Stop → Machine → Prop} :
    wp (mmapRegionFree i) Q E s ↔ Q () { s with nodes := pooled s.nodes i } := Iff.rfl

theorem wlp_splitRegion (h : Lists s.nodes (s.procs p).mmap (pre ++ (i, x) :: post) free)
    (hx : Small x) (hn : 0 < n) (hc : x.Contains a n) :
    wlp (splitRegion p (pre.map Prod.fst).getLast? i (PGSIZE * a) n)
      (fun _ s' => MmapOnly p s s' ∧ ∃ cells free',
        Lists s'.nodes (s'.procs p).mmap (pre ++ (cells ++ post)) free' ∧
        cells.map Prod.snd = cut a n x ∧ cells.length + free'.length = free.length + 1) s := by
  obtain ⟨hbegin, hpages⟩ := h.holds (i, x) (by simp)
  obtain ⟨hlen, hmax⟩ := hx
  obtain ⟨hlo, hhi⟩ := hc
  have hend := regionEnd_of_holds ⟨hbegin, hpages⟩ ⟨hlen, hmax⟩
  have hstop : x.stop = x.start + x.len := rfl
  have hbytes : regionBytes n = PGSIZE * n := regionBytes_of_lt (by omega)
  have hxbytes : regionBytes x.len = PGSIZE * x.len := regionBytes_of_lt hlen
  simp only [splitRegion, wp_bind, wp_getNode, hbegin, hpages, hend, hbytes, hxbytes]
  split
  · -- the whole region
    rename_i hw
    have ha : a = x.start := by have := hw.1; simp only [PGSIZE] at this; omega
    have hnl : n = x.len := by have := hw.2; simp only [PGSIZE] at this; omega
    have hcut : cut a n x = [] := by simp [cut, ha, hnl, hstop]
    have hu := h.unlink
    cases hprev : (pre.map Prod.fst).getLast? with
    | none =>
      rw [hprev] at hu
      simp only [wp_bind, wp_setProc, wp_mmapRegionFree, Function.update_self]
      exact ⟨⟨_, _, rfl⟩, [], i :: free, hu, hcut.symm, Nat.zero_add _⟩
    | some j =>
      rw [hprev] at hu
      simp only [wp_bind, wp_setNode, wp_mmapRegionFree]
      exact ⟨(MmapOnly.refl p s).setNodes, [], i :: free, hu, hcut.symm, Nat.zero_add _⟩
  split
  · -- the head
    rename_i hw hh
    have ha : a = x.start := by simp only [PGSIZE] at hh; omega
    have hlt : n < x.len := by
      rcases Nat.lt_or_ge n x.len with hlt | hge
      · exact hlt
      · exact absurd ⟨hh, by rw [show n = x.len by omega]⟩ hw
    have hcut : cut a n x = [⟨a + n, x.stop - (a + n)⟩] := by
      simp only [cut, ha, Nat.lt_irrefl, if_false, List.nil_append]
      rw [if_pos (by omega)]
    simp only [wp_setNode]
    refine ⟨(MmapOnly.refl p s).setNodes, [(i, ⟨a + n, x.stop - (a + n)⟩)], free,
      h.edit ⟨?_, ?_⟩ rfl rfl, hcut.symm, Nat.add_comm ..⟩
    · simp only [hbegin, PGSIZE, VA_MAX] at *; omega
    · simp only [hpages, sub32]; omega
  split
  · -- the tail
    rename_i hw hh ht
    have ha : x.start < a := by
      rcases Nat.lt_or_ge x.start a with hlt | hge
      · exact hlt
      · exact absurd (by rw [show a = x.start by omega]) hh
    have hstop' : a + n = x.stop := by simp only [PGSIZE, VA_MAX] at *; omega
    have hcut : cut a n x = [⟨x.start, a - x.start⟩] := by
      simp only [cut, if_pos ha, hstop', Nat.lt_irrefl, if_false, List.append_nil]
    simp only [wp_setNode]
    refine ⟨(MmapOnly.refl p s).setNodes, [(i, ⟨x.start, a - x.start⟩)], free,
      h.edit ⟨hbegin, ?_⟩ rfl rfl, hcut.symm, Nat.add_comm ..⟩
    simp only [hpages, sub32]; omega
  -- the middle: a node of the pool takes the part above
  rename_i hw hh ht
  have ha : x.start < a := by
    rcases Nat.lt_or_ge x.start a with hlt | hge
    · exact hlt
    · exact absurd (by rw [show a = x.start by omega]) hh
  have hb : a + n < x.stop := by
    rcases Nat.lt_or_ge (a + n) x.stop with hlt | hge
    · exact hlt
    · refine absurd ?_ ht
      have : a + n = x.stop := by omega
      simp only [PGSIZE, VA_MAX] at *; omega
  have hcut : cut a n x = [⟨x.start, a - x.start⟩, ⟨a + n, x.stop - (a + n)⟩] := by
    simp [cut, ha, hb]
  simp only [wp_bind]
  refine wp_conseq (wp_mmapRegionAlloc h fun k free' hf => ?_) (fun _ _ h => h)
    (fun _ _ _ => trivial)
  subst hf
  obtain ⟨h1, hk⟩ := h.take
  have hki : i ≠ k := hk.2.2 (i, x) (by simp)
  have hi0 := h.apart.1
  have hnode : taken s.nodes k i = s.nodes i := by simp [taken, hki, hi0]
  have habove : sub64 (sub64 (PGSIZE * x.stop) (PGSIZE * a)) (PGSIZE * n) / PGSIZE % 2 ^ 32 =
      x.stop - (a + n) := by
    simp only [sub64, PGSIZE, VA_MAX] at *; omega
  have hbelow : sub64 (PGSIZE * a) (PGSIZE * x.start) / PGSIZE % 2 ^ 32 = a - x.start := by
    simp only [sub64, PGSIZE, VA_MAX] at *; omega
  have hstart : (PGSIZE * a + PGSIZE * n) % 2 ^ 64 = PGSIZE * (a + n) := by
    simp only [PGSIZE, VA_MAX] at *; omega
  -- first the region below, then the new node after it
  have h2 : Lists (Function.update (taken s.nodes k) i
      { s.nodes i with npages := a - x.start }) (s.procs p).mmap
      ((pre ++ [(i, ⟨x.start, a - x.start⟩)]) ++ post) free' := by
    have := h1.edit (y := ⟨x.start, a - x.start⟩) (n := { s.nodes i with npages := a - x.start })
      ⟨hbegin, rfl⟩ (by rw [hnode]) (by rw [hnode])
    simpa using this
  have hk2 : ∀ c ∈ (pre ++ [(i, (⟨x.start, a - x.start⟩ : Interval))]) ++ post, c.1 ≠ k := by
    intro c hc
    simp only [List.append_assoc, List.mem_append, List.mem_singleton] at hc
    rcases hc with hc | rfl | hc
    · exact hk.2.2 c (by simp [hc])
    · exact hki
    · exact hk.2.2 c (by simp [hc])
  have h3 := h2.link ⟨hk.1, hk.2.1, hk2⟩ (y := ⟨a + n, x.stop - (a + n)⟩)
    (n := { taken s.nodes k k with
      beginAddr := PGSIZE * (a + n), npages := x.stop - (a + n), next := (s.nodes i).next })
    ⟨rfl, rfl⟩ h.next_eq
  simp only [wp_setNode, habove, hbelow, hstart, Function.update_of_ne hki, hnode]
  simp only [List.map_append, List.map_cons, List.map_nil, List.getLast?_concat, relink,
    Function.update_comm hki, Function.update_idem, Function.update_self] at h3
  exact ⟨(MmapOnly.refl p s).setNodes,
    [(i, ⟨x.start, a - x.start⟩), (k, ⟨a + n, x.stop - (a + n)⟩)], free', by simpa using h3,
    hcut.symm, Nat.add_comm ..⟩

theorem wlp_takeRegion (hn : 0 < n) (hn20 : n < 2 ^ 20) (hmax : PGSIZE * (a + n) ≤ VA_MAX) :
    ∀ {rest pre : List Cell} (fuel : Nat),
    Lists s.nodes (s.procs p).mmap (pre ++ rest) free → (∀ c ∈ rest, Exact c.2) →
    wlp (takeRegion p (PGSIZE * a) n fuel (pre.map Prod.fst).getLast? (rest.map Prod.fst).head?)
      (fun _ s' => MmapOnly p s s' ∧ ∃ cells free',
        Lists s'.nodes (s'.procs p).mmap (pre ++ cells) free' ∧
        cells.map Prod.snd = remove a n (rest.map Prod.snd) ∧
        cells.length + free'.length = rest.length + free.length) s := by
  intro rest
  induction rest with
  | nil =>
    intro pre fuel h _
    cases fuel <;> exact ⟨.refl p s, [], free, h, rfl, rfl⟩
  | cons c rest ih =>
    intro pre fuel h hsmall
    obtain ⟨i, x⟩ := c
    cases fuel with
    | zero => trivial
    | succ fuel =>
      have hx : Exact x := hsmall (i, x) (by simp)
      have hholds := h.holds (i, x) (by simp)
      -- a region that goes beyond the addresses begins above the range
      have hcond : (PGSIZE * a ≥ (s.nodes i).beginAddr ∧
          (PGSIZE * a + regionBytes n) % 2 ^ 64 ≤ regionEnd (s.nodes i)) ↔ x.Contains a n := by
        obtain ⟨hlen, hend⟩ := hx
        rw [regionEnd_mod hholds hlen, hholds.1, regionBytes_of_lt hn20]
        simp only [Interval.Contains, Interval.stop, PGSIZE, VA_MAX] at *
        omega
      simp only [List.map_cons, List.head?_cons, takeRegion, wp_bind, wp_getNode, hcond]
      by_cases hc : x.Contains a n
      · rw [if_pos hc]
        have hsm : Small x := by
          obtain ⟨hlen, hend⟩ := hx
          simp only [Small, Interval.Contains, Interval.stop, PGSIZE, VA_MAX] at *
          omega
        refine wlp_conseq (wlp_splitRegion h hsm hn hc) ?_
        rintro - s' ⟨hs', cells, free', hl, hcells, hcount⟩
        refine ⟨hs', cells ++ rest, free', hl, ?_, ?_⟩
        · simp only [List.map_append, hcells, remove, if_pos hc]
        · rw [List.length_append, List.length_cons]; omega
      · rw [if_neg hc, h.next_eq]
        have hlast : some i = ((pre ++ [(i, x)]).map Prod.fst).getLast? := by simp
        rw [hlast]
        refine wlp_conseq (ih fuel (by simpa using h) fun d hd => hsmall d (by simp [hd])) ?_
        rintro - s' ⟨hs', cells, free', hl, hcells, hcount⟩
        refine ⟨hs', (i, x) :: cells, free', by simpa using hl, ?_, ?_⟩
        · simp only [List.map_cons, hcells, remove, if_neg hc]
        · rw [List.length_cons, List.length_cons]; omega

end Split

/-! ## `uvm_munmap` -/

section Join

variable {pre post cells : List Cell} {free : List NodeId} {i j k : NodeId} {x y : Interval}
  {a n : Nat} {head : Option NodeId}

theorem wp_merge {Q : Unit → Machine → Prop} {E : Stop → Machine → Prop}
    (h : Lists s.nodes (s.procs p).mmap (pre ++ (i, x) :: (j, y) :: post) free)
    (hx : x.len < 2 ^ 20) (hy : y.len < 2 ^ 31) (htouch : PGSIZE * x.stop % 2 ^ 64 = PGSIZE * y.start)
    (hQ : ∀ nodes', Lists nodes' (s.procs p).mmap (pre ++ (i, ⟨x.start, x.len + y.len⟩) :: post)
      (j :: free) → Q () { s with nodes := nodes' }) :
    wp (do
      setNode i fun m => { m with next := (s.nodes j).next }
      mmapMerge i j) Q E s := by
  obtain ⟨hi0, hif, hipre, hipost⟩ := h.apart
  have h' : Lists s.nodes (s.procs p).mmap ((pre ++ [(i, x)]) ++ (j, y) :: post) free := by
    simpa using h
  obtain ⟨hj0, hjf, hjpre, hjpost⟩ := h'.apart
  have hji : j ≠ i := hipost (j, y) (by simp)
  have hhi : Holds { s.nodes i with next := (s.nodes j).next } x := h.holds (i, x) (by simp)
  have hhj : Holds (s.nodes j) y := h'.holds (j, y) (by simp)
  have hend : regionEnd { s.nodes i with next := (s.nodes j).next } = (s.nodes j).beginAddr := by
    rw [regionEnd_mod hhi hx, hhj.1, htouch]
  have hsum : ((s.nodes i).npages + (s.nodes j).npages) % 2 ^ 32 = x.len + y.len := by
    rw [show (s.nodes i).npages = x.len from hhi.2, hhj.2]
    omega
  simp only [mmapMerge, wp_bind, wp_setNode, wp_getNode, Function.update_self,
    Function.update_of_ne hji, hend, decide_true, wp_assert, if_true, wp_mmapRegionFree, hsum,
    Function.update_idem]
  have h1 := h'.skip
  simp only [List.map_append, List.map_cons, List.map_nil, List.getLast?_concat, relink,
    List.append_assoc, List.singleton_append] at h1
  have h2 := h1.edit (y := ⟨x.start, x.len + y.len⟩)
    (n := { s.nodes i with next := (s.nodes j).next, npages := x.len + y.len }) ⟨hhi.1, rfl⟩
    (by simp) (by simp)
  rw [Function.update_idem] at h2
  refine hQ _ (h2.give ⟨hj0, hjf, fun c hc => ?_⟩)
  rcases List.mem_append.mp hc with hc | hc
  · exact hjpre c (by simp [hc])
  · rcases List.mem_cons.mp hc with rfl | hc
    · exact hji.symm
    · exact hjpost c hc

theorem wp_insertAfter {Q : NodeId → Machine → Prop} {E : Stop → Machine → Prop} :
    ∀ {post pre : List Cell} {i : NodeId} {x : Interval} {fuel : Nat},
    Lists s.nodes head (pre ++ (i, x) :: post) free → post.length < fuel →
    (∀ mid i' x', mid ++ [(i', x')] = (i, x) :: post.takeWhile (·.2.start < a) → Q i' s) →
    wp (insertAfter (PGSIZE * a) fuel i) Q E s := by
  intro post
  induction post with
  | nil =>
    intro pre i x fuel h hfuel hQ
    obtain ⟨fuel, rfl⟩ : ∃ f, fuel = f + 1 := ⟨fuel - 1, by simp only [List.length_nil] at hfuel; omega⟩
    simp only [insertAfter, wp_bind, wp_getNode, h.next_eq, List.map_nil, List.head?_nil,
      wp_pure]
    exact hQ [] i x rfl
  | cons c post ih =>
    intro pre i x fuel h hfuel hQ
    obtain ⟨j, y⟩ := c
    obtain ⟨fuel, rfl⟩ : ∃ f, fuel = f + 1 :=
      ⟨fuel - 1, by simp only [List.length_cons] at hfuel; omega⟩
    have happ : pre ++ (i, x) :: (j, y) :: post = (pre ++ [(i, x)]) ++ (j, y) :: post := by simp
    have hiff : PGSIZE * y.start < PGSIZE * a ↔ y.start < a := by simp only [PGSIZE]; omega
    simp only [insertAfter, wp_bind, wp_getNode, h.next_eq, List.map_cons, List.head?_cons,
      (h.holds (j, y) (by simp)).1, hiff]
    split
    · rename_i hy
      rw [List.takeWhile_cons_of_pos (by simpa using hy)] at hQ
      rw [happ] at h
      refine ih h (by simp only [List.length_cons] at hfuel; omega) fun mid i' x' he => ?_
      exact hQ ((i, x) :: mid) i' x' (by rw [List.cons_append, he])
    · rename_i hy
      rw [List.takeWhile_cons_of_neg (by simpa using hy)] at hQ
      exact hQ [] i x rfl

theorem wp_findPrev {Q : Option NodeId → Machine → Prop} {E : Stop → Machine → Prop} :
    ∀ {mid pre : List Cell} {fuel : Nat},
    Lists s.nodes head (pre ++ (mid ++ (k, x) :: post)) free → mid.length < fuel →
    Q ((pre ++ mid).map Prod.fst).getLast? s →
    wp (findPrev k fuel (pre.map Prod.fst).getLast? ((mid ++ (k, x) :: post).map Prod.fst).head?)
      Q E s := by
  intro mid
  induction mid with
  | nil =>
    intro pre fuel h hfuel hQ
    obtain ⟨fuel, rfl⟩ : ∃ f, fuel = f + 1 := ⟨fuel - 1, by simp only [List.length_nil] at hfuel; omega⟩
    simp only [List.nil_append, List.map_cons, List.head?_cons, findPrev, if_true, wp_pure]
    simpa using hQ
  | cons c mid ih =>
    intro pre fuel h hfuel hQ
    obtain ⟨i, y⟩ := c
    obtain ⟨fuel, rfl⟩ : ∃ f, fuel = f + 1 :=
      ⟨fuel - 1, by simp only [List.length_cons] at hfuel; omega⟩
    have hik : i ≠ k := by
      have h' : Lists s.nodes head ((pre ++ (i, y) :: mid) ++ (k, x) :: post) free := by simpa using h
      exact h'.apart.2.2.1 (i, y) (by simp)
    have hlast : some i = ((pre ++ [(i, y)]).map Prod.fst).getLast? := by simp
    simp only [List.cons_append] at h
    simp only [List.cons_append, List.map_cons, List.head?_cons, findPrev, if_neg hik, wp_bind,
      wp_getNode, h.next_eq]
    have h' : Lists s.nodes head ((pre ++ [(i, y)]) ++ (mid ++ (k, x) :: post)) free := by
      simpa using h
    rw [hlast]
    exact ih h' (by simp only [List.length_cons] at hfuel; omega) (by simpa using hQ)

end Join

/-! ### The parts of the function -/

/-- The first part of `uvm_munmap`: a node for the range goes into the list, in order. -/
def insertRegion (p : Slot) (beginVa npages : Nat) : MemM NodeId := do
  let new ← mmapRegionAlloc
  setNode new fun n => { n with beginAddr := beginVa, npages := npages, next := none }
  match (← getProc p).mmap with
  | none => setProc p fun q => { q with mmap := some new }
  | some first =>
    if beginVa < (← getNode first).beginAddr then
      setNode new fun n => { n with next := some first }
      setProc p fun q => { q with mmap := some new }
    else
      let curr ← insertAfter beginVa N_MMAP first
      let c ← getNode curr
      setNode new fun n => { n with next := c.next }
      setNode curr fun n => { n with next := some new }
  return new

/-- The second part: the new region and the next one become one, if they touch. -/
def joinNext (new : NodeId) : MemM Unit := do
  let n ← getNode new
  match n.next with
  | none => pure ()
  | some j =>
    let toMerge ← getNode j
    if regionEnd n = toMerge.beginAddr then
      setNode new fun n => { n with next := toMerge.next }
      mmapMerge new j

/-- The third part: the same with the region before. -/
def joinPrev (p : Slot) (new : NodeId) : MemM Unit := do
  match ← findPrev new N_MMAP none (← getProc p).mmap with
  | none => pure ()
  | some i =>
    let n ← getNode new
    if regionEnd (← getNode i) = n.beginAddr then
      setNode i fun m => { m with next := n.next }
      mmapMerge i new


theorem joinPrev_bind (p : Slot) (new : NodeId) (x : MemM Unit) : (do joinPrev p new; x) = (do
    match ← findPrev new N_MMAP none (← getProc p).mmap with
    | none => pure ()
    | some i =>
      let n ← getNode new
      if regionEnd (← getNode i) = n.beginAddr then
        setNode i fun m => { m with next := n.next }
        mmapMerge i new
    x) := by
  simp only [joinPrev, bind_assoc]
  refine bind_congr fun q => bind_congr fun o => ?_
  cases o with
  | none => rfl
  | some i =>
    simp only [bind_assoc]
    refine bind_congr fun n => bind_congr fun m => ?_
    split <;> simp

theorem joinNext_bind (new : NodeId) (x : MemM Unit) : (do joinNext new; x) = (do
    let n ← getNode new
    match n.next with
    | none => pure ()
    | some j =>
      let toMerge ← getNode j
      if regionEnd n = toMerge.beginAddr then
        setNode new fun n => { n with next := toMerge.next }
        mmapMerge new j
    x) := by
  simp only [joinNext, bind_assoc]
  refine bind_congr fun n => ?_
  cases n.next with
  | none => rfl
  | some j =>
    simp only [bind_assoc]
    refine bind_congr fun m => ?_
    split <;> simp

theorem uvmMunmap_eq (p : Slot) (a n : Nat) (hn : n ≠ 0) : uvmMunmap p a n = (do
    Kern.assert (a % PGSIZE = 0) "uvm_munmap: begin not aligned"
    let new ← insertRegion p a n
    joinNext new
    joinPrev p new
    vmUnmappages (← getProc p).pgtbl a (regionBytes n) true) := by
  simp only [uvmMunmap, if_neg hn, insertRegion, joinNext_bind, joinPrev_bind, bind_assoc]
  refine bind_congr fun _ => bind_congr fun new => bind_congr fun _ => bind_congr fun q => ?_
  cases q.mmap with
  | none => rfl
  | some first =>
    simp only [bind_assoc]
    refine bind_congr fun m => ?_
    split
    · rfl
    · -- the reads and writes after the search are functions that return
      rw [bind_assoc]
      rfl

theorem enter_bind (p : Slot) (a n : Nat) (x : MemM Unit) : (do
    let new ← insertRegion p a n
    joinNext new
    joinPrev p new
    x) = (do
    (do
      let new ← insertRegion p a n
      joinNext new
      joinPrev p new)
    x) := by
  simp only [bind_assoc]

section Insert

variable {cells pre post : List Cell} {free : List NodeId} {a n : Nat} {k : NodeId}

theorem Lists.write {nodes : NodeId → MmapNode} {head : Option NodeId} {m : MmapNode}
    (h : Lists nodes head cells free) (hk : k ≠ listHead ∧ k ∉ free ∧ ∀ c ∈ cells, c.1 ≠ k) :
    Lists (Function.update nodes k m) head cells free := by
  obtain ⟨hk0, hkf, hkc⟩ := hk
  refine h.congr (fun c hc => ?_) fun i hi => ?_
  · rw [Function.update_of_ne (hkc c hc)]; exact ⟨rfl, rfl, rfl⟩
  · have : i ≠ k := by
      rintro rfl
      rcases List.mem_cons.mp hi with rfl | hi
      · exact hk0 rfl
      · exact hkf hi
    rw [Function.update_of_ne this]

/-- The cells around the place of page `a`. -/
abbrev placeCells (a : Nat) (cells : List Cell) : List Cell × List Cell :=
  place (fun c : Cell => c.2.start) a cells

theorem wp_insertRegion (h : Lists s.nodes (s.procs p).mmap cells free) :
    wp (insertRegion p (PGSIZE * a) n)
      (fun new s' => MmapOnly p s s' ∧ ∃ free', free'.length + 1 = free.length ∧
        Lists s'.nodes (s'.procs p).mmap
          ((placeCells a cells).1 ++ (new, ⟨a, n⟩) :: (placeCells a cells).2) free')
      (fun _ s' => free = [] ∧ s' = s) s := by
  have hhead : (s.procs p).mmap = (cells.map Prod.fst).head? := h.list.head_eq
  have hlen : cells.length ≤ N_MMAP := by
    have := (listFrom_iff.mpr h.list).length_le
    rwa [List.length_map] at this
  simp only [insertRegion, wp_bind]
  refine wp_conseq (wp_mmapRegionAlloc h fun k free' hf => ?_) (fun _ _ h => h) (fun _ _ h => h)
  subst hf
  obtain ⟨h1, hk⟩ := h.take
  simp only [wp_setNode, wp_getProc, hhead]
  cases cells with
  | nil =>
    simp only [List.map_nil, List.head?_nil, wp_bind, wp_setProc, wp_pure]
    refine ⟨⟨_, _, rfl⟩, free', rfl, ?_⟩
    simp only [Function.update_self]
    exact (show Lists _ _ ([] ++ []) _ from h1).link hk ⟨rfl, rfl⟩ rfl
  | cons c cells =>
    obtain ⟨i, x⟩ := c
    have hik : i ≠ k := hk.2.2 (i, x) (by simp)
    have h2 := h1.write (m := { taken s.nodes k k with
      beginAddr := PGSIZE * a, npages := n, next := none }) hk
    have hbegin := (h2.holds (i, x) (by simp)).1
    have hiff : PGSIZE * a < PGSIZE * x.start ↔ a < x.start := by simp only [PGSIZE]; omega
    simp only [List.map_cons, List.head?_cons, wp_bind, wp_getNode, hbegin, hiff, placeCells, place]
    split
    · -- in front
      simp only [wp_bind, wp_setNode, wp_setProc, wp_pure, Function.update_self,
        Function.update_idem]
      refine ⟨⟨_, _, rfl⟩, free', rfl, ?_⟩
      exact (show Lists _ _ ([] ++ (i, x) :: cells) _ from h1).link hk ⟨rfl, rfl⟩ rfl
    · simp only [wp_bind]
      refine wp_insertAfter (a := a) (show Lists _ (s.procs p).mmap ([] ++ (i, x) :: cells) _ from h2)
        (by simp only [List.length_cons] at hlen; omega) ?_
      intro pre j y he
      have happ : (i, x) :: cells =
          (pre ++ [(j, y)]) ++ cells.dropWhile (·.2.start < a) := by
        rw [he, List.cons_append, List.takeWhile_append_dropWhile]
      rw [← he]
      rw [happ] at h1 hk
      have hjk : j ≠ k := hk.2.2 (j, y) (by simp)
      have hnext := Lists.next_eq (show Lists _ _ (pre ++ (j, y) :: _) _ by simpa using h1)
      simp only [wp_getNode, wp_setNode, wp_pure, Function.update_self, Function.update_idem,
        Function.update_of_ne hjk, hnext]
      refine ⟨(MmapOnly.refl p s).setNodes, free', rfl, ?_⟩
      have h3 := h1.link hk (y := ⟨a, n⟩) (n := { taken s.nodes k k with
        beginAddr := PGSIZE * a, npages := n,
        next := ((cells.dropWhile (·.2.start < a)).map Prod.fst).head? }) ⟨rfl, rfl⟩ rfl
      simpa only [List.map_append, List.map_cons, List.map_nil, List.getLast?_concat, relink,
        Function.update_of_ne hjk] using h3

theorem wp_joinNext {x : Interval} (h : Lists s.nodes (s.procs p).mmap (pre ++ (k, x) :: post) free)
    (hx : x.len < 2 ^ 20) (hpost : ∀ c ∈ post, c.2.len < 2 ^ 20)
    (hmeet : ∀ c ∈ post.head?, PGSIZE * x.stop % 2 ^ 64 = PGSIZE * c.2.start ↔ x.stop = c.2.start) :
    wp (joinNext k)
      (fun _ s' => ∃ nodes' y post' free', s' = { s with nodes := nodes' } ∧
        Lists nodes' (s.procs p).mmap (pre ++ (k, y) :: post') free' ∧
        y :: post'.map Prod.snd = push x (post.map Prod.snd) ∧ y.start = x.start ∧ y.len < 2 ^ 31 ∧
        post'.length + free'.length = post.length + free.length)
      (fun _ _ => False) s := by
  have hk : Holds (s.nodes k) x := h.holds (k, x) (by simp)
  simp only [joinNext, wp_bind, wp_getNode, h.next_eq]
  cases post with
  | nil =>
    simp only [List.map_nil, List.head?_nil, wp_pure]
    exact ⟨s.nodes, x, [], free, rfl, h, rfl, rfl, Nat.lt_trans hx (by decide), rfl⟩
  | cons c post =>
    obtain ⟨j, y⟩ := c
    have hj : Holds (s.nodes j) y := h.holds (j, y) (by simp)
    have hy : y.len < 2 ^ 20 := hpost (j, y) (by simp)
    have hmeet' := hmeet (j, y) rfl
    have hcond : regionEnd (s.nodes k) = (s.nodes j).beginAddr ↔ x.stop = y.start := by
      rw [regionEnd_mod hk hx, hj.1, hmeet']
    simp only [List.map_cons, List.head?_cons, wp_bind, wp_getNode, hcond]
    split
    · rename_i htouch
      refine wp_merge h hx (by omega) (hmeet'.mpr htouch) fun nodes' hn => ?_
      refine ⟨nodes', ⟨x.start, x.len + y.len⟩, post, j :: free, rfl, hn, ?_, rfl, ?_, ?_⟩
      · simp only [push, if_pos htouch]
      · show x.len + y.len < 2 ^ 31
        omega
      · simp only [List.length_cons]; omega
    · rename_i htouch
      refine ⟨s.nodes, x, (j, y) :: post, free, rfl, h, ?_, rfl, by omega, rfl⟩
      simp only [push, if_neg htouch, List.map_cons]

theorem wp_joinPrev {x : Interval} (h : Lists s.nodes (s.procs p).mmap (pre ++ (k, x) :: post) free)
    (hx : x.len < 2 ^ 31) (hpre : ∀ c ∈ pre, c.2.len < 2 ^ 20)
    (hmeet : ∀ c ∈ pre, PGSIZE * c.2.stop % 2 ^ 64 = PGSIZE * x.start ↔ c.2.stop = x.start) :
    wp (joinPrev p k)
      (fun _ s' => ∃ nodes' cells' free', s' = { s with nodes := nodes' } ∧
        Lists nodes' (s.procs p).mmap cells' free' ∧
        cells'.map Prod.snd = pushAfter (pre.map Prod.snd) (x :: post.map Prod.snd) ∧
        cells'.length + free'.length = pre.length + post.length + 1 + free.length)
      (fun _ _ => False) s := by
  have hlen : pre.length < N_MMAP := by
    have := (listFrom_iff.mpr h.list).length_le
    simp only [List.length_map, List.length_append, List.length_cons] at this
    omega
  have hhead : (s.procs p).mmap = ((pre ++ (k, x) :: post).map Prod.fst).head? := h.list.head_eq
  simp only [joinPrev, wp_bind, wp_getProc]
  nth_rewrite 1 [hhead]
  refine wp_findPrev (show Lists _ (s.procs p).mmap ([] ++ (pre ++ (k, x) :: post)) _ from h) hlen ?_
  rw [List.nil_append]
  rcases List.eq_nil_or_concat pre with rfl | ⟨pre', c, rfl⟩
  · refine ⟨s.nodes, (k, x) :: post, free, rfl, h, rfl, ?_⟩
    simp only [List.length_cons, List.length_nil]; omega
  obtain ⟨i, y⟩ := c
  rw [List.concat_eq_append] at h hpre hmeet ⊢
  have happ : pre' ++ [(i, y)] ++ (k, x) :: post = pre' ++ (i, y) :: (k, x) :: post := by simp
  rw [happ] at h
  have hi : Holds (s.nodes i) y := h.holds (i, y) (by simp)
  have hk : Holds (s.nodes k) x := h.holds (k, x) (by simp)
  have hy : y.len < 2 ^ 20 := hpre (i, y) (by simp)
  have hmeet' := hmeet (i, y) (by simp)
  have hcond : regionEnd (s.nodes i) = (s.nodes k).beginAddr ↔ y.stop = x.start := by
    rw [regionEnd_mod hi hy, hk.1, hmeet']
  simp only [List.map_append, List.map_cons, List.map_nil, List.getLast?_concat, wp_bind,
    wp_getNode, hcond]
  split
  · rename_i htouch
    refine wp_merge h hy hx (hmeet'.mpr htouch) fun nodes' hn => ?_
    refine ⟨nodes', _, k :: free, rfl, hn, ?_, ?_⟩
    · simp only [List.map_append, List.map_cons, pushAfter_concat, push, if_pos htouch]
    · simp only [List.length_append, List.length_cons, List.length_nil]; omega
  · rename_i htouch
    refine ⟨s.nodes, _, free, rfl, h, ?_, ?_⟩
    · simp only [List.map_append, List.map_cons, pushAfter_concat, push, if_neg htouch]
    · simp only [List.length_append, List.length_cons, List.length_nil]; omega

theorem wp_enterRegion (h : Lists s.nodes (s.procs p).mmap cells free) (hx : Exact ⟨a, n⟩)
    (hcells : ∀ c ∈ cells, Exact c.2) :
    wp (do
      let new ← insertRegion p (PGSIZE * a) n
      joinNext new
      joinPrev p new)
      (fun _ s' => MmapOnly p s s' ∧ ∃ cells' free', Lists s'.nodes (s'.procs p).mmap cells' free' ∧
        cells'.map Prod.snd = enter ⟨a, n⟩ (cells.map Prod.snd) ∧
        cells'.length + free'.length = cells.length + free.length)
      (fun _ s' => free = [] ∧ s' = s) s := by
  have happ := place_append (fun c : Cell => c.2.start) a cells
  have hmap : place Interval.start a (cells.map Prod.snd) =
      ((placeCells a cells).1.map Prod.snd, (placeCells a cells).2.map Prod.snd) := place_map ..
  have hbefore : ∀ c ∈ (placeCells a cells).1, c.2.start ≤ a := fun c hc =>
    place_before (fun c : Cell => c.2.start) hc
  have hafter : ∀ c ∈ (placeCells a cells).2.head?, a ≤ c.2.start := fun c hc =>
    place_after (fun c : Cell => c.2.start) hc
  rw [enter, hmap]
  generalize hpre : (placeCells a cells).1 = pre at *
  generalize hpost : (placeCells a cells).2 = post at *
  simp only [wp_bind]
  refine wp_conseq (wp_insertRegion h) ?_ (fun _ _ h => h)
  rintro k s1 ⟨hs1, free1, hcount1, h1⟩
  rw [hpre, hpost] at h1
  -- an interval beyond the addresses ends, as the code sees it, below its start
  refine wp_conseq (wp_joinNext h1 hx.1
    (fun c hm => (hcells c (by rw [← happ]; simp [hm])).1) fun c hc => ?_) ?_ (fun _ _ h => h.elim)
  · have hc1 := hafter c hc
    have hc2 := hcells c (by rw [← happ]; simp [List.mem_of_mem_head? hc])
    simp only [Exact, Interval.stop, PGSIZE, VA_MAX] at *
    omega
  rintro - s2 ⟨nodes2, y, post2, free2, rfl, h2, hpush, hstart, hylen, hcount2⟩
  refine wp_conseq (wp_joinPrev (p := p) h2 hylen
    (fun c hm => (hcells c (by rw [← happ]; simp [hm])).1) fun c hc => ?_) ?_ (fun _ _ h => h.elim)
  · have hc1 := hbefore c hc
    have hc2 := hcells c (by rw [← happ]; simp [hc])
    rw [hstart]
    simp only [Exact, Interval.stop, PGSIZE, VA_MAX] at *
    omega
  rintro - s3 ⟨nodes3, cells3, free3, rfl, h3, hcells3, hcount3⟩
  refine ⟨hs1.setNodes, cells3, free3, h3, by rw [hcells3, hpush], ?_⟩
  have := congrArg List.length happ
  rw [List.length_append] at this
  omega

end Insert

/-! ## Free pages -/

/-- In order, apart, and within the bounds of the code. -/
structure Canonical (xs : List Interval) : Prop where
  separated : Separated xs
  small : ∀ x ∈ xs, Small x

theorem Canonical.remove {xs : List Interval} {a n : Nat} (h : Canonical xs) (hn : 0 < n) :
    Canonical (remove a n xs) := by
  refine ⟨h.separated.remove hn, fun y hy => ?_⟩
  obtain ⟨x, hx, hstart, hstop⟩ := inside_of_mem_remove hy
  obtain ⟨h1, h2⟩ := h.small x hx
  simp only [Small, Interval.stop, PGSIZE] at *
  omega

theorem Canonical.adjoin {xs : List Interval} {x : Interval} (h : Canonical xs) (hx : 0 < x.len)
    (hmax : PGSIZE * x.stop ≤ VA_MAX) (hdis : ∀ y ∈ xs, x.stop ≤ y.start ∨ y.stop ≤ x.start)
    (hsize : ∀ y ∈ adjoin x xs, y.len < 2 ^ 20) : Canonical (adjoin x xs) := by
  have hsep := h.separated.adjoin hx hdis
  refine ⟨hsep, fun y hy => ⟨hsize y hy, ?_⟩⟩
  -- the last page of `y` was a page of some interval before
  have hpos := hsep.pos y hy
  have hlast : y.stop - 1 ∈ points (Lib.adjoin x xs) :=
    ⟨y, hy, by simp only [Interval.stop]; omega, by simp only [Interval.stop]; omega⟩
  rw [points_adjoin] at hlast
  rcases hlast with ⟨z, hz, -, hlt⟩ | ⟨-, hlt⟩
  · have := (h.small z hz).2
    simp only [PGSIZE] at *
    omega
  · simp only [PGSIZE] at *
    omega

section Munmap

variable {cells : List Cell} {free : List NodeId} {r a n : Nat}

theorem exists_of_splits (h : Lists s.nodes (s.procs p).mmap cells free)
    (hc : Canonical (cells.map Prod.snd)) (hn20 : n < 2 ^ 20) (hmax : PGSIZE * (a + n) ≤ VA_MAX)
    (hs : splits s.nodes (cells.map Prod.fst) (PGSIZE * a) n = true) :
    ∃ c ∈ cells, c.2.start < a ∧ a + n < c.2.stop := by
  unfold splits at hs
  split at hs
  · cases hs
  rename_i i hi
  obtain ⟨⟨j, x⟩, hm, rfl⟩ := List.mem_map.mp (List.mem_of_find?_eq_some hi)
  have hcov := List.find?_some hi
  have hx : Small x := hc.small x (List.mem_map_of_mem (f := Prod.snd) hm)
  have hholds : Holds (s.nodes j) x := h.holds (j, x) hm
  simp only [covers, regionEnd_of_holds hholds hx, hholds.1, regionBytes_of_lt hn20,
    Bool.and_eq_true, decide_eq_true_eq] at hs hcov
  refine ⟨(j, x), hm, ?_⟩
  simp only [PGSIZE, VA_MAX, ne_eq] at *
  omega

theorem wp_uvmMmap_lists {perm : Nat} (w : Owned L s own l) (hr : own r = .node p 3 0)
    (hpg : (s.procs p).pgtbl = PGSIZE * r) (h : Lists s.nodes (s.procs p).mmap cells free)
    (hc : Canonical (cells.map Prod.snd)) (hn : 0 < n) (hn20 : n < 2 ^ 20)
    (hmax : PGSIZE * (a + n) ≤ VA_MAX) (hperm : perm < 1024) :
    wp (uvmMmap p (PGSIZE * a) n perm)
      (fun _ s' => ∃ s1 own' l' cells' free', MmapOnly p s s1 ∧
        l.length = l'.length + need own p true (PGSIZE * a) n ∧
        FreshPages L p s1 own r (PGSIZE * a) n (perm ||| PTE_U) s' own' l' ∧
        Lists s1.nodes (s1.procs p).mmap cells' free' ∧
        cells'.map Prod.snd = remove a n (cells.map Prod.snd) ∧
        cells'.length + free'.length = cells.length + free.length)
      (fun _ _ => ¬ (need own p true (PGSIZE * a) n ≤ l.length ∧
        ((∃ c ∈ cells, c.2.start < a ∧ a + n < c.2.stop) → (s.nodes listHead).poolNext ≠ none)))
      s := by
  have hsmall : ∀ c ∈ cells, Small c.2 := fun c hm => hc.small c.2 (List.mem_map_of_mem hm)
  have htake := wlp_takeRegion hn hn20 hmax N_MMAP
    (show Lists _ _ ([] ++ cells) _ from h) fun c hm => (hsmall c hm).exact
  rw [← h.list.head_eq] at htake
  have hsum : PGSIZE * a + PGSIZE * n = PGSIZE * (a + n) := by simp only [PGSIZE]; omega
  refine wp_conseq (wp_uvmMmap (PGSIZE * a) n perm htake w hr hpg (listFrom_iff.mpr h.list)
    (by simp only [PGSIZE, VA_MAX] at *; omega) hn hn20 (Nat.or_lt_two_pow (n := 10) hperm (by decide)))
    ?_ fun _ _ hstop hroom => hstop ⟨Nat.mul_mod_right _ _, by rw [hsum]; exact hmax, hroom.1,
      fun hsp => hroom.2 (exists_of_splits h hc hn20 hmax hsp.1) hsp.2⟩
  rintro - s' ⟨-, s1, own', l', -, ⟨hs1, cells', free', hl, hcells, hcount⟩, hlen, fp⟩
  exact ⟨s1, own', l', cells', free', hs1, hlen, fp, hl, hcells, hcount⟩

/-- `uvm_munmap` of mapped pages that are in no region: it stops only for lack of a node. -/
theorem wp_uvmMunmap (w : Owned L s own l) (hr : own r = .node p 3 0)
    (hpg : (s.procs p).pgtbl = PGSIZE * r) (h : Lists s.nodes (s.procs p).mmap cells free)
    (hc : Canonical (cells.map Prod.snd)) (hn : 0 < n) (hmax : PGSIZE * (a + n) ≤ VA_MAX)
    (hn20 : n < 2 ^ 20) (hdis : ∀ c ∈ cells, a + n ≤ c.2.start ∨ c.2.stop ≤ a)
    (hmapped : ∀ i, i < n → Unmappable L s.mem (PGSIZE * r) (PGSIZE * (a + i))) :
    wp (uvmMunmap p (PGSIZE * a) n)
      (fun _ s' => ∃ s1 own' cells' free', MmapOnly p s s1 ∧
        UnmappedPages L p s1 own l r a n s' own' ∧
        Lists s1.nodes (s1.procs p).mmap cells' free' ∧
        cells'.map Prod.snd = adjoin ⟨a, n⟩ (cells.map Prod.snd) ∧
        cells'.length + free'.length = cells.length + free.length)
      (fun _ s' => free = [] ∧ s' = s) s := by
  have hx : Small ⟨a, n⟩ := ⟨hn20, hmax⟩
  have hsmall : ∀ c ∈ cells, Small c.2 := fun c hm => hc.small c.2 (List.mem_map_of_mem hm)
  have hne : ∀ y ∈ cells.map Prod.snd, y.start ≠ a := by
    intro y hy
    obtain ⟨c, hm, rfl⟩ := List.mem_map.mp hy
    have hpos := hc.separated.pos c.2 hy
    have := hdis c hm
    simp only [Interval.stop] at this
    omega
  have hal : PGSIZE * a % PGSIZE = 0 := Nat.mul_mod_right _ _
  rw [uvmMunmap_eq p _ n (by omega), wp_bind, wp_assert, if_pos (decide_eq_true hal),
    enter_bind]
  refine (wp_bind ..).mpr (wp_conseq (wp_enterRegion h hx.exact fun c hm => (hsmall c hm).exact)
    ?_ (fun _ _ h => h))
  rintro - s1 ⟨hs1, cells', free', h1, hcells, hcount⟩
  rw [hc.separated.enter_eq hne] at hcells
  have hs1' := hs1
  obtain ⟨nodes', o, he⟩ := hs1'
  have hmem : s1.mem = s.mem := by rw [he]
  have hpg1 : (s1.procs p).pgtbl = PGSIZE * r := by rw [he]; simpa using hpg
  simp only [wp_bind, wp_getProc, hpg1, regionBytes_of_lt hn20]
  have w1 : Owned L s1 own l := w.ofRest hmem (by rw [he])
  refine wp_conseq (wp_vmUnmappages w1 hr hn hmax fun i hi => ?_) ?_
    (fun _ _ h => h.elim)
  · have := hmapped i hi
    rwa [← hmem] at this
  · rintro - s' ⟨own', u⟩
    exact ⟨_, own', cells', free', hs1, u, h1, hcells, hcount⟩

end Munmap

/-! ## The contract of the list -/

/-- A process with a well-formed page table whose mmap list holds the intervals `xs`. -/
structure MmapSpace (L : Layout) (p : Slot) (xs : List Interval) (s : Machine) : Prop where
  table : ∃ own l r, Owned L s own l ∧ own r = .node p 3 0 ∧ (s.procs p).pgtbl = PGSIZE * r
  lists : ∃ cells free, Lists s.nodes (s.procs p).mmap cells free ∧ cells.map Prod.snd = xs

/-- There are the pages and, to split a region, the node that `uvm_mmap` takes. -/
structure Room (p : Slot) (xs : List Interval) (a n : Nat) (s : Machine) : Prop where
  pages : pagesNeeded s.mem (s.procs p).pgtbl true (PGSIZE * a) n ≤ s.user.allocable
  node : (∃ x ∈ xs, x.start < a ∧ a + n < x.stop) → (s.nodes listHead).poolNext ≠ none

/-- The page `va` is mapped by a leaf entry. -/
def LeafMapped (s : Machine) (p : Slot) (va : Nat) : Prop :=
  pteHas (leafPte s.mem (s.procs p).pgtbl va) PTE_V = true ∧
    pteFlags (leafPte s.mem (s.procs p).pgtbl va) ≠ PTE_V

/-- Of the process only the list and the `n` pages from page `a` on change. -/
structure PagesOnly (p : Slot) (a n : Nat) (s s' : Machine) : Prop where
  proc : ∃ o, s'.procs p = { s.procs p with mmap := o }
  leaf : ∀ va, va < VA_MAX → va / PGSIZE < a ∨ a + n ≤ va / PGSIZE →
    leafPte s'.mem (s.procs p).pgtbl va = leafPte s.mem (s.procs p).pgtbl va

theorem PagesOnly.pgtbl {a n : Nat} {s' : Machine} (h : PagesOnly p a n s s') :
    (s'.procs p).pgtbl = (s.procs p).pgtbl := by
  obtain ⟨o, ho⟩ := h.proc
  rw [ho]

section Contract

variable {xs : List Interval} {a n : Nat}

theorem unmappable_fresh {s1 s' : Machine} {own' : Nat → Owner} {l' : List Nat}
    {r perm va va' : Nat} (w : Owned L s own l) (hperm : perm < 1024)
    (fp : FreshPages L p s1 own r va' n (perm ||| PTE_U) s' own' l') (hva : va < VA_MAX)
    (h1 : va' ≤ va) (h2 : va < va' + PGSIZE * n) :
    Unmappable L s'.mem (PGSIZE * r) va := by
  obtain ⟨k, hk, hleaf⟩ := fp.inside va hva h1 h2
  have hf : perm ||| PTE_U ||| 1 < 1024 :=
    Nat.or_lt_two_pow (n := 10) (Nat.or_lt_two_pow (n := 10) hperm (by decide)) (by decide)
  have hpage := w.page_lt (n := k) (by simp [hk])
  have hpa := pteToPa_page hf (by omega : PGSIZE * k < 2 ^ 64)
  refine ⟨hva, ?_, ?_, ?_⟩
  · rw [pteHas_V, hleaf]
    have := or_one_odd (perm ||| PTE_U)
    omega
  · rw [hleaf]
    intro hflags
    have hbit : (perm ||| PTE_U ||| 1).testBit 4 = true := by
      rw [Nat.testBit_or, Nat.testBit_or, show PTE_U.testBit 4 = true from by decide]
      simp
    have hval : perm ||| PTE_U ||| 1 = 1 := by
      simp only [pteFlags, PTE_V] at hflags
      omega
    rw [hval] at hbit
    exact absurd hbit (by decide)
  · rw [hleaf, hpa]
    exact w.ne_trampoline (by simp [hk])

/-- `uvm_mmap`: the pages are mapped, and a region that contains the range loses it. -/
theorem wp_uvmMmap_space {perm : Nat} (h : MmapSpace L p xs s) (hc : Canonical xs) (hn : 0 < n)
    (hn20 : n < 2 ^ 20) (hmax : PGSIZE * (a + n) ≤ VA_MAX) (hperm : perm < 1024) :
    wp (uvmMmap p (PGSIZE * a) n perm)
      (fun _ s' => MmapSpace L p (remove a n xs) s' ∧ PagesOnly p a n s s' ∧
        ∀ i, i < n → Unmappable L s'.mem (s.procs p).pgtbl (PGSIZE * (a + i)))
      (fun _ _ => ¬ Room p xs a n s) s := by
  obtain ⟨own, l, r, w, hr, hpg⟩ := h.table
  obtain ⟨cells, free, hl, rfl⟩ := h.lists
  refine wp_conseq (wp_uvmMmap_lists w hr hpg hl hc hn hn20 hmax hperm) ?_ ?_
  · rintro - s' ⟨s1, own', l', cells', free', ⟨nodes, o, rfl⟩, -, fp, hl', hcells, -⟩
    have hprocs : s'.procs = Function.update s.procs p { s.procs p with mmap := o } :=
      congrArg Rest.procs fp.rest
    have hnodes : s'.nodes = nodes := congrArg Rest.nodes fp.rest
    have hpg' : (s'.procs p).pgtbl = PGSIZE * r := by rw [hprocs]; simpa using hpg
    refine ⟨⟨⟨own', l', r, fp.owned, fp.grows.keeps hr (by simp), hpg'⟩, cells', free', ?_, hcells⟩,
      ⟨⟨o, by rw [hprocs]; simp⟩, fun va hva hout => ?_⟩, fun i hi => ?_⟩
    · rwa [hprocs, hnodes]
    · rw [hpg]
      exact fp.outside va hva (by simp only [PGSIZE] at *; omega)
    · rw [hpg]
      refine unmappable_fresh w hperm fp ?_ ?_ ?_ <;> simp only [PGSIZE] at * <;> omega
  · rintro _ _ hstop ⟨hpages, hnode⟩
    refine hstop ⟨?_, ?_⟩
    · rw [need_eq w hr n _ true (by simp only [PGSIZE] at *; omega), ← w.count, ← hpg]
      exact hpages
    · rintro ⟨c, hm, hlt⟩
      exact hnode ⟨c.2, List.mem_map_of_mem hm, hlt⟩

theorem wp_uvmMunmap_space (h : MmapSpace L p xs s) (hc : Canonical xs) (hn : 0 < n)
    (hn20 : n < 2 ^ 20) (hmax : PGSIZE * (a + n) ≤ VA_MAX)
    (hdis : ∀ x ∈ xs, a + n ≤ x.start ∨ x.stop ≤ a)
    (hmapped : ∀ i, i < n → Unmappable L s.mem (s.procs p).pgtbl (PGSIZE * (a + i))) :
    wp (uvmMunmap p (PGSIZE * a) n)
      (fun _ s' => MmapSpace L p (adjoin ⟨a, n⟩ xs) s' ∧ PagesOnly p a n s s' ∧
        s'.user.allocable = s.user.allocable + n ∧
        ∀ i, i < n → leafPte s'.mem (s.procs p).pgtbl (PGSIZE * (a + i)) = 0)
      (fun _ _ => (s.nodes listHead).poolNext = none) s := by
  obtain ⟨own, l, r, w, hr, hpg⟩ := h.table
  obtain ⟨cells, free, hl, rfl⟩ := h.lists
  rw [hpg] at hmapped
  refine wp_conseq (wp_uvmMunmap w hr hpg hl hc hn hmax hn20
    (fun c hm => hdis c.2 (List.mem_map_of_mem hm)) hmapped) ?_ ?_
  · rintro - s' ⟨s1, own', cells', free', ⟨nodes, o, rfl⟩, u, hl', hcells, -⟩
    have hprocs : s'.procs = Function.update s.procs p { s.procs p with mmap := o } :=
      congrArg Rest.procs u.rest
    have hnodes : s'.nodes = nodes := congrArg Rest.nodes u.rest
    refine ⟨⟨⟨own', _, r, u.owned, u.keeps hr, by rw [hprocs]; simpa using hpg⟩, cells', free', ?_,
      hcells⟩, ⟨⟨o, by rw [hprocs]; simp⟩, fun va hva hout => ?_⟩, ?_, fun i hi => ?_⟩
    · rwa [hprocs, hnodes]
    · rw [hpg]
      exact u.outside va hva hout
    · rw [u.owned.count, w.count]
      simp only [List.length_append, List.length_reverse, frames, List.length_map, List.length_range]
      omega
    · rw [hpg]
      exact u.inside i hi
  · rintro _ s' ⟨hfree, -⟩
    have := hl.pool
    rwa [hfree] at this

theorem unmappable_of_mapped {i : Nat} (h : MmapSpace L p xs s) (hi : i < n)
    (hmax : PGSIZE * (a + n) < VA_MAX) (hm : LeafMapped s p (PGSIZE * (a + i))) :
    Unmappable L s.mem (s.procs p).pgtbl (PGSIZE * (a + i)) := by
  obtain ⟨own, l, r, w, hr, hpg⟩ := h.table
  obtain ⟨hv, hleaf⟩ := hm
  have hva : PGSIZE * (a + i) < VA_MAX := by simp only [PGSIZE] at *; omega
  refine ⟨hva, hv, hleaf, ?_⟩
  rw [hpg] at hv ⊢
  rcases w.tree.leaf_target hr hva ((pteHas_V _).mp hv) with ⟨k, hk, hown⟩ | ⟨htop, -⟩
  · rw [hk]
    exact w.ne_trampoline (by simp [hown])
  · rw [vpn_zero] at htop
    simp only [PGSIZE, VA_MAX, TRAMPOLINE_VPN] at *
    omega

end Contract

theorem pagesNeeded_le (m : Bytes) (pgtbl : Nat) : ∀ (n va : Nat) (first : Bool),
    pagesNeeded m pgtbl first va n ≤ 3 * n := by
  intro n
  induction n with
  | zero => intro va first; exact Nat.le_refl 0
  | succ n ih =>
    intro va first
    have := ih (va + PGSIZE) false
    simp only [pagesNeeded, tablesNeeded]
    split <;> split <;> omega

theorem Booted.leafMapped_code {r t : Nat} (h : Booted L p r t s own l) : LeafMapped s p PGSIZE := by
  obtain ⟨k, hk⟩ := h.code
  have hpg : (s.procs p).pgtbl = PGSIZE * r := by rw [h.proc]
  refine ⟨?_, ?_⟩
  · rw [hpg, hk, pteHas_V]; omega
  · rw [hpg, hk]; simp only [pteFlags, PTE_V]; omega

end Proc
end WhuOS
