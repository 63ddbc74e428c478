import WhuOS.Lib.Run
import WhuOS.Lib.Update
import WhuOS.Mem.Own

/-!
# WhuOS.Mem.Pmem

The page allocator of `kernel/mem/pmem.c` by itself, for any `ALLOC_BEGIN` and `ALLOC_END`.

The free pages of a region are linked through their first words (`FreeList`). `region_init` pushes
the pages one by one, `pmem_alloc` takes the head and `pmem_free` puts a page back, so that in any
run of calls the list and the pages handed out are together the pages of the region:
`pmem_partition`. The sums of the source are on 64 bits and `allocable` has 32, which bounds the
memory that this is true for (`Fits`).
-/

namespace WhuOS
namespace Mem

open Lib Kern

variable {s s' : Machine} {j k : Bool} {l : List Nat} {n : Nat}

/-! ## Regions -/

/-- `a` is the address of a whole page of the region. -/
def IsPage (r : Region) (a : Nat) : Prop :=
  a % PGSIZE = 0 ∧ r.beginAddr ≤ a ∧ a + PGSIZE ≤ r.endAddr

/-! ## The list -/

/-- The pages on the list of the region `k`. -/
structure FreeList (s : Machine) (k : Bool) (l : List Nat) : Prop where
  chain : Chain s.mem (s.region k).listHead l 0
  nodup : l.Nodup
  page : ∀ n ∈ l, 0 < n ∧ PGSIZE * n < 2 ^ 64
  count : (s.region k).allocable = l.length % 2 ^ 32

theorem Chain.unique {m : Bytes} : ∀ {l l' : List Nat} {a : Nat}, Chain m a l 0 → Chain m a l' 0 →
    (∀ n ∈ l, 0 < n) → (∀ n ∈ l', 0 < n) → l = l'
  | [], [], _, _, _, _, _ => rfl
  | [], n :: l', a, h, h', _, hp' => by
    have h0 : a = 0 := h
    have := hp' n (by simp)
    have := h'.1
    simp only [PGSIZE] at *; omega
  | n :: l, [], a, h, h', hp, _ => by
    have h0 : a = 0 := h'
    have := hp n (by simp)
    have := h.1
    simp only [PGSIZE] at *; omega
  | n :: l, n' :: l', a, h, h', hp, hp' => by
    have hn : n = n' := Nat.eq_of_mul_eq_mul_left (show 0 < PGSIZE by decide) (h.1.symm.trans h'.1)
    subst hn
    rw [unique h.2 h'.2 (fun k hk => hp k (List.mem_cons_of_mem _ hk))
      fun k hk => hp' k (List.mem_cons_of_mem _ hk)]

namespace FreeList

theorem unique {l' : List Nat} (h : FreeList s k l) (h' : FreeList s k l') : l = l' :=
  h.chain.unique h'.chain (fun n hn => (h.page n hn).1) fun n hn => (h'.page n hn).1

theorem head_lt (h : FreeList s k l) : (s.region k).listHead < 2 ^ 64 := by
  cases l with
  | nil =>
    have h0 : (s.region k).listHead = 0 := h.chain
    rw [h0]; decide
  | cons n l =>
    rw [h.chain.1]
    exact (h.page n (by simp)).2

theorem congr (h : FreeList s k l) (hr : s'.region k = s.region k)
    (hm : ∀ n ∈ l, ∀ a, a / PGSIZE = n → s'.mem a = s.mem a) : FreeList s' k l :=
  ⟨by rw [hr]; exact h.chain.congr hm, h.nodup, h.page, by rw [hr]; exact h.count⟩

end FreeList

theorem pushPage_eq (s : Machine) (k : Bool) (n : Nat) :
    pushPage k (PGSIZE * n) s = .ok () (pushed s k n) := by
  cases k <;> rfl

theorem FreeList.pushed (h : FreeList s k l) (hn : n ∉ l) (hpos : 0 < n) (hlt : PGSIZE * n < 2 ^ 64) :
    FreeList (pushed s k n) k (n :: l) := by
  refine ⟨⟨by simp [Mem.pushed], ?_⟩, List.nodup_cons.mpr ⟨hn, h.nodup⟩, fun c hc => ?_, ?_⟩
  · have hload : Bytes.load 8 (Mem.pushed s k n).mem (PGSIZE * n) = (s.region k).listHead := by
      rw [Mem.pushed, mem_withRegion]
      exact Bytes.load_store_same h.head_lt
    rw [hload]
    refine h.chain.congr fun c hc a ha => pushed_outside ?_
    rw [ha]; rintro rfl; exact hn hc
  · rcases List.mem_cons.mp hc with rfl | hc
    · exact ⟨hpos, hlt⟩
    · exact h.page c hc
  · simp only [Mem.pushed, region_withRegion, h.count, List.length_cons, add32]
    omega

theorem FreeList.pushed_other (h : FreeList s j l) (hjk : j ≠ k) (hn : n ∉ l) :
    FreeList (Mem.pushed s k n) j l := by
  refine h.congr (by rw [Mem.pushed, region_withRegion_other _ _ hjk]; cases j <;> rfl)
    fun c hc a ha => pushed_outside ?_
  rw [ha]; rintro rfl; exact hn hc

/-! ## `region_init` -/

/-- The pages `b .. b + k - 1`, last one first. -/
def pagesDown (b : Nat) : Nat → List Nat
  | 0 => []
  | k + 1 => (b + k) :: pagesDown b k

theorem mem_pagesDown {b n : Nat} : ∀ {k : Nat}, n ∈ pagesDown b k ↔ b ≤ n ∧ n < b + k := by
  intro k
  induction k with
  | zero => simp [pagesDown]
  | succ k ih => simp only [pagesDown, List.mem_cons, ih]; omega

theorem nodup_pagesDown (b : Nat) : ∀ k : Nat, (pagesDown b k).Nodup := by
  intro k
  induction k with
  | zero => simp [pagesDown]
  | succ k ih =>
    refine List.nodup_cons.mpr ⟨fun h => ?_, ih⟩
    have := mem_pagesDown.mp h; omega

theorem length_pagesDown (b : Nat) : ∀ k : Nat, (pagesDown b k).length = k := by
  intro k
  induction k with
  | zero => rfl
  | succ k ih => simp [pagesDown, ih]

theorem pagesDown_first (b : Nat) : ∀ k : Nat, pagesDown b (k + 1) = pagesDown (b + 1) k ++ [b] := by
  intro k
  induction k with
  | zero => rfl
  | succ k ih =>
    rw [pagesDown, ih, pagesDown, List.cons_append, Nat.add_assoc b 1 k, Nat.add_comm 1 k]

/-- The pages `b, b + 1, …` pushed in this order. -/
def pushedAll (s : Machine) (k : Bool) (b : Nat) : Nat → Machine
  | 0 => s
  | m + 1 => pushedAll (pushed s k b) k (b + 1) m

/-- The loop pushes the pages that end at or below `stop`, as long as no sum wraps. -/
theorem regionLoop_eq {stop : Nat} : ∀ (m fuel b : Nat) (s : Machine), m < fuel →
    PGSIZE * (b + m + 1) < 2 ^ 64 → (0 < m → PGSIZE * (b + m) ≤ stop) → stop < PGSIZE * (b + m + 1) →
    regionLoop k stop fuel (PGSIZE * b) s = .ok () (pushedAll s k b m) := by
  intro m
  induction m with
  | zero =>
    intro fuel b s hfuel hlt _ hstop
    obtain ⟨fuel, rfl⟩ : ∃ f, fuel = f + 1 := ⟨fuel - 1, by omega⟩
    have hsum : (PGSIZE + PGSIZE * b) % 2 ^ 64 = PGSIZE * (b + 0 + 1) := by
      rw [Nat.mod_eq_of_lt] <;> simp only [PGSIZE] at * <;> omega
    rw [regionLoop, hsum, if_neg (by omega)]
    rfl
  | succ m ih =>
    intro fuel b s hfuel hlt hle hstop
    obtain ⟨fuel, rfl⟩ : ∃ f, fuel = f + 1 := ⟨fuel - 1, by omega⟩
    have hsum : (PGSIZE + PGSIZE * b) % 2 ^ 64 = PGSIZE * (b + 1) := by
      rw [Nat.mod_eq_of_lt] <;> simp only [PGSIZE] at * <;> omega
    have hle' := hle (by omega)
    rw [regionLoop, hsum, if_pos (by simp only [PGSIZE] at *; omega),
      bind_of_ok (pushPage_eq s k b), pushedAll]
    have hb : b + 1 + m = b + (m + 1) := by omega
    exact ih fuel (b + 1) _ (by omega) (by rwa [hb]) (fun _ => by rwa [hb]) (by rwa [hb])

theorem FreeList.pushedAll : ∀ (m b : Nat) {s : Machine} {l : List Nat}, FreeList s k l →
    (∀ n ∈ l, n < b) → 0 < b → PGSIZE * (b + m) < 2 ^ 64 →
    FreeList (pushedAll s k b m) k (pagesDown b m ++ l) := by
  intro m
  induction m with
  | zero => intro b s l h _ _ _; exact h
  | succ m ih =>
    intro b s l h hl hpos hlt
    have h1 := h.pushed (n := b) (fun hm => absurd (hl b hm) (by omega)) hpos
      (by simp only [PGSIZE] at *; omega)
    have h2 := ih (b + 1) h1 (fun n hn => by
      rcases List.mem_cons.mp hn with rfl | hn
      · omega
      · have := hl n hn; omega) (by omega) (by rwa [show b + 1 + m = b + (m + 1) by omega])
    rw [pagesDown_first, List.append_assoc]
    exact h2

theorem FreeList.pushedAll_other (hjk : j ≠ k) : ∀ (m b : Nat) {s : Machine}, FreeList s j l →
    (∀ n ∈ l, n < b) → FreeList (Mem.pushedAll s k b m) j l := by
  intro m
  induction m with
  | zero => intro b s h _; exact h
  | succ m ih =>
    intro b s h hl
    refine ih (b + 1) (h.pushed_other hjk fun hm => absurd (hl b hm) (by omega)) fun n hn => ?_
    have := hl n hn; omega

/-- Besides the memory only the list of the region changes. -/
structure Pushes (k : Bool) (s s' : Machine) : Prop where
  beginAddr : (s'.region k).beginAddr = (s.region k).beginAddr
  endAddr : (s'.region k).endAddr = (s.region k).endAddr
  other : ∀ j, j ≠ k → s'.region j = s.region j
  rest : { s' with mem := s.mem, kern := s.kern, user := s.user } = s

theorem pushes_pushed (s : Machine) (k : Bool) (n : Nat) : Pushes k s (pushed s k n) := by
  refine ⟨?_, ?_, fun j hj => ?_, ?_⟩
  · cases k <;> rfl
  · cases k <;> rfl
  · rw [pushed, region_withRegion_other _ _ hj]
    cases j <;> rfl
  · cases k <;> rfl

theorem Pushes.trans {s1 s2 s3 : Machine} (h1 : Pushes k s1 s2) (h2 : Pushes k s2 s3) :
    Pushes k s1 s3 := by
  refine ⟨h2.beginAddr.trans h1.beginAddr, h2.endAddr.trans h1.endAddr,
    fun j hj => (h2.other j hj).trans (h1.other j hj), ?_⟩
  have h := h2.rest
  rw [← h1.rest, ← h]

theorem pushes_pushedAll : ∀ (m b : Nat) (s : Machine), Pushes k s (pushedAll s k b m) := by
  intro m
  induction m with
  | zero => intro b s; exact ⟨rfl, rfl, fun _ _ => rfl, rfl⟩
  | succ m ih => intro b s; exact (pushes_pushed s k b).trans (ih (b + 1) _)

/-- The first whole page from `start` on, and the number of them up to `stop`. -/
def firstPage (start : Nat) : Nat := (start + (PGSIZE - 1)) / PGSIZE

def pageCount (start stop : Nat) : Nat := stop / PGSIZE - firstPage start

theorem mem_pages {start stop n : Nat} : n ∈ pagesDown (firstPage start) (pageCount start stop) ↔
    start ≤ PGSIZE * n ∧ PGSIZE * n + PGSIZE ≤ stop := by
  rw [mem_pagesDown]
  simp only [firstPage, pageCount, PGSIZE]; omega

theorem regionInit_eq {start stop : Nat} (hstart : start + 2 * PGSIZE ≤ 2 ^ 64)
    (hstop : stop + PGSIZE < 2 ^ 64) (s : Machine) :
    regionInit k start stop s = .ok () (pushedAll (s.withRegion k ⟨start, stop, 0, 0⟩) k
      (firstPage start) (pageCount start stop)) := by
  have hset : setRegion k ⟨start, stop, 0, 0⟩ s = .ok () (s.withRegion k ⟨start, stop, 0, 0⟩) := by
    cases k <;> rfl
  have hup : pgRoundUp start = PGSIZE * firstPage start := by
    rw [pgRoundUp, firstPage, Nat.mod_eq_of_lt (by simp only [PGSIZE] at *; omega)]
  rw [regionInit, bind_of_ok hset, hup]
  refine regionLoop_eq _ _ _ _ ?_ ?_ (fun h => ?_) ?_ <;>
    simp only [firstPage, pageCount, PGSIZE] at * <;> omega

theorem freeList_init (s : Machine) (k : Bool) (start stop : Nat) :
    FreeList (s.withRegion k ⟨start, stop, 0, 0⟩) k [] := by
  refine ⟨by simp [Chain], List.nodup_nil, by simp, by simp⟩

/-! ## `pmem_init` -/

/-- No sum of `pmem_init` wraps, and the pages of the user region can be counted. -/
structure Fits (allocBegin allocEnd : Nat) : Prop where
  pos : 0 < allocBegin
  le : allocBegin ≤ allocEnd
  kern : KERNEL_PAGES * PGSIZE + allocBegin < 2 ^ 64
  user : kernEnd allocBegin allocEnd + 2 * PGSIZE ≤ 2 ^ 64
  stop : allocEnd + PGSIZE < 2 ^ 64

variable {b e : Nat}

theorem kernEnd_eq (h : KERNEL_PAGES * PGSIZE + b < 2 ^ 64) :
    kernEnd b e = min (KERNEL_PAGES * PGSIZE + b) e := by
  simp only [kernEnd, Nat.mod_eq_of_lt h]
  split <;> omega

/-- What `region_init` leaves behind. -/
structure RegionInit (k : Bool) (start stop : Nat) (s s' : Machine) : Prop where
  list : FreeList s' k (pagesDown (firstPage start) (pageCount start stop))
  others : ∀ j l, j ≠ k → FreeList s j l → (∀ n ∈ l, n < firstPage start) → FreeList s' j l
  beginAddr : (s'.region k).beginAddr = start
  endAddr : (s'.region k).endAddr = stop
  other : ∀ j, j ≠ k → s'.region j = s.region j
  rest : { s' with mem := s.mem, kern := s.kern, user := s.user } = s

theorem regionInit_spec (start stop : Nat) (hpos : 0 < start) (hstart : start + 2 * PGSIZE ≤ 2 ^ 64)
    (hstop : stop + PGSIZE < 2 ^ 64) (s : Machine) :
    ∃ s', regionInit k start stop s = .ok () s' ∧ RegionInit k start stop s s' := by
  have hp := pushes_pushedAll (k := k) (pageCount start stop) (firstPage start)
    (s.withRegion k ⟨start, stop, 0, 0⟩)
  have hlist := (freeList_init s k start stop).pushedAll (pageCount start stop) (firstPage start)
    (by simp) (by simp only [firstPage, PGSIZE]; omega)
    (by simp only [firstPage, pageCount, PGSIZE] at *; omega)
  rw [List.append_nil] at hlist
  refine ⟨_, regionInit_eq hstart hstop s, hlist, fun j l hj h hl => ?_, ?_, ?_, fun j hj => ?_, ?_⟩
  · refine FreeList.pushedAll_other hj _ _ (h.congr (region_withRegion_other s _ hj) ?_) hl
    intro n _ a _
    rw [mem_withRegion]
  · rw [hp.beginAddr, region_withRegion]
  · rw [hp.endAddr, region_withRegion]
  · rw [hp.other j hj, region_withRegion_other s _ hj]
  · have h1 := congrArg (fun x : Machine => { x with kern := s.kern, user := s.user }) hp.rest
    rw [mem_withRegion] at h1
    refine h1.trans ?_
    cases k <;> rfl

/-- Two filled regions, `[b, m)` and `[m, e)`. -/
structure Filled (b m e : Nat) (s : Machine) : Prop where
  kern : FreeList s true (pagesDown (firstPage b) (pageCount b m))
  user : FreeList s false (pagesDown (firstPage m) (pageCount m e))
  kernBegin : s.kern.beginAddr = b
  kernEnd : s.kern.endAddr = m
  userBegin : s.user.beginAddr = m
  userEnd : s.user.endAddr = e

theorem Fits.kernEnd_pos (h : Fits b e) : 0 < kernEnd b e := by
  have h1 := h.pos
  have h2 := h.le
  rw [kernEnd_eq h.kern]
  simp only [KERNEL_PAGES, PGSIZE]; omega

theorem pmemInit_filled (h : Fits b e) (s : Machine) : ∃ s', pmemInit b e s = .ok () s' ∧
    Filled b (kernEnd b e) e s' ∧ { s' with mem := s.mem, kern := s.kern, user := s.user } = s := by
  have hkern := h.kern
  have huser := h.user
  obtain ⟨s1, hrun1, r1⟩ := regionInit_spec (k := true) b (kernEnd b e) h.pos
    (by simp only [KERNEL_PAGES, PGSIZE] at *; omega) (by simp only [PGSIZE] at *; omega) s
  obtain ⟨s2, hrun2, r2⟩ := regionInit_spec (k := false) _ _ h.kernEnd_pos huser h.stop s1
  have hkern2 : s2.kern = s1.kern := r2.other true (by decide)
  refine ⟨s2, by rw [pmemInit, bind_of_ok hrun1, hrun2],
    ⟨?_, r2.list, ?_, ?_, r2.beginAddr, r2.endAddr⟩, ?_⟩
  · -- the pages of the user region are above those of the kernel's
    refine r2.others true _ (by decide) r1.list fun n hn => ?_
    have := mem_pages.mp hn
    simp only [firstPage, PGSIZE] at *; omega
  · rw [hkern2]; exact r1.beginAddr
  · rw [hkern2]; exact r1.endAddr
  · have h2 := r2.rest
    have h1 := r1.rest
    rw [← h2] at h1
    exact h1

/-! ## `pmem_alloc` and `pmem_free` -/

theorem getRegion_eq (s : Machine) (k : Bool) : getRegion k s = .ok (s.region k) s := by
  cases k <;> rfl

theorem pmemAlloc_nil (h : FreeList s k []) : pmemAlloc k s = .ok 0 { s with starved := true } := by
  have h0 : (s.region k).listHead = 0 := h.chain
  rw [pmemAlloc, bind_of_ok (getRegion_eq s k)]
  simp only [h0, ne_eq, not_true_eq_false, if_false]
  rfl

theorem pmemAlloc_cons (h : FreeList s k (n :: l)) :
    pmemAlloc k s = .ok (PGSIZE * n) (taken s k n) := by
  have h0 : (s.region k).listHead = PGSIZE * n := h.chain.1
  have hpos : PGSIZE * n ≠ 0 := by
    have := (h.page n (by simp)).1
    simp only [PGSIZE]; omega
  rw [pmemAlloc, bind_of_ok (getRegion_eq s k)]
  simp only [h0, ne_eq, hpos, not_false_eq_true, if_true]
  cases k <;> rfl

theorem FreeList.taken (h : FreeList s k (n :: l)) : FreeList (taken s k n) k l := by
  obtain ⟨hn, hnodup⟩ := List.nodup_cons.mp h.nodup
  refine ⟨?_, hnodup, fun c hc => h.page c (List.mem_cons_of_mem _ hc), ?_⟩
  · have hhead : ((Mem.taken s k n).region k).listHead = Bytes.load 8 s.mem (PGSIZE * n) := by
      simp [Mem.taken]
    rw [hhead]
    refine h.chain.2.congr fun c hc a ha => taken_outside ?_
    rw [ha]; rintro rfl; exact hn hc
  · have := h.count
    simp only [Mem.taken, region_withRegion, sub32, List.length_cons] at this ⊢
    omega

theorem FreeList.taken_other (h : FreeList s j l) (hjk : j ≠ k) (hn : n ∉ l) :
    FreeList (Mem.taken s k n) j l := by
  refine h.congr (by rw [Mem.taken, region_withRegion_other _ _ hjk]; cases j <;> rfl)
    fun c hc a ha => taken_outside ?_
  rw [ha]; rintro rfl; exact hn hc

theorem pmemFree_eq (hin : (s.region k).beginAddr ≤ PGSIZE * n ∧ PGSIZE * n < (s.region k).endAddr) :
    pmemFree (PGSIZE * n) k s = .ok () (given s k n) := by
  have h1 : PGSIZE * n % PGSIZE = 0 := Nat.mul_mod_right _ _
  have h2 : ¬ (PGSIZE * n < (s.region k).beginAddr) := by omega
  have h3 : ¬ ((s.region k).endAddr ≤ PGSIZE * n) := by omega
  rw [pmemFree, bind_of_ok (getRegion_eq s k)]
  simp only [h1, ne_eq, not_true_eq_false, if_false, ge_iff_le, h2, h3, decide_false, Bool.or_self,
    Bool.false_eq_true]
  exact pushPage_eq _ k n

theorem FreeList.write (h : FreeList s k l) (hn : n ∉ l) (src : Nat → UInt8) :
    FreeList { s with mem := s.mem.write (PGSIZE * n) PGSIZE src } k l := by
  refine h.congr (by cases k <;> rfl) fun c hc a ha => ?_
  show s.mem.write (PGSIZE * n) PGSIZE src a = s.mem a
  refine page_write_outside ?_
  rw [ha]; rintro rfl; exact hn hc

theorem FreeList.given (h : FreeList s k l) (hn : n ∉ l) (hpos : 0 < n) (hlt : PGSIZE * n < 2 ^ 64) :
    FreeList (given s k n) k (n :: l) :=
  (h.write hn _).pushed hn hpos hlt

theorem FreeList.given_other (h : FreeList s j l) (hjk : j ≠ k) (hn : n ∉ l) :
    FreeList (Mem.given s k n) j l :=
  (h.write hn _).pushed_other hjk hn

/-! ## Runs -/

/-- A machine, with the pages of each region that are handed out. -/
structure PageHist where
  machine : Machine
  out : Bool → List Nat

/-- A call of the allocator, or the holder of a page writes it. -/
inductive PageCall where
  | alloc (inKernel : Bool)
  | free (page : Nat) (inKernel : Bool)
  | write (page : Nat) (src : Nat → UInt8)

namespace PageHist

def step (h : PageHist) : PageCall → Option PageHist
  | .alloc k =>
    match pmemAlloc k h.machine with
    | .ok page s => some ⟨s, if page = 0 then h.out else Lib.upd h.out k (page :: h.out k)⟩
    | .error _ _ => none
  | .free page k =>
    match pmemFree page k h.machine with
    | .ok _ s => some ⟨s, Lib.upd h.out k ((h.out k).erase page)⟩
    | .error _ _ => none
  | .write page src =>
    some ⟨{ h.machine with mem := h.machine.mem.write page PGSIZE src }, h.out⟩

/-- Only a page that is handed out, and by the same region, is freed or written. -/
def Ok (h : PageHist) : PageCall → Prop
  | .alloc _ => True
  | .free page k => page ∈ h.out k
  | .write page _ => ∃ k, page ∈ h.out k

end PageHist

/-- The pages that the two regions start with, and the bounds that `pmem_free` checks. -/
structure Supply where
  pages : Bool → List Nat
  lo : Bool → Nat
  hi : Bool → Nat
  nodup : ∀ k, (pages k).Nodup
  inside : ∀ k, ∀ n ∈ pages k, lo k ≤ PGSIZE * n ∧ PGSIZE * n < hi k
  page : ∀ k, ∀ n ∈ pages k, 0 < n ∧ PGSIZE * n < 2 ^ 64
  apart : ∀ j k, j ≠ k → ∀ n ∈ pages j, n ∉ pages k

/-- The list `l` of the region `k` and the pages `o` handed out are together the pages it started
with. -/
structure Shared (u : Supply) (s : Machine) (k : Bool) (l o : List Nat) : Prop where
  list : FreeList s k l
  perm : (l ++ o).Perm (u.pages k)
  beginAddr : (s.region k).beginAddr = u.lo k
  endAddr : (s.region k).endAddr = u.hi k

namespace Shared

variable {u : Supply} {o : List Nat}

theorem mem_pages (h : Shared u s k l o) : n ∈ u.pages k ↔ n ∈ l ∨ n ∈ o := by
  rw [← h.perm.mem_iff, List.mem_append]

theorem not_both (h : Shared u s k l o) (hn : n ∈ o) : n ∉ l := fun hl =>
  (List.nodup_append.mp (h.perm.nodup_iff.mpr (u.nodup k))).2.2 n hl n hn rfl

theorem not_other (h : Shared u s j l o) (hjk : j ≠ k) (hn : n ∈ u.pages k) : n ∉ l := fun hl =>
  u.apart j k hjk n (h.mem_pages.mpr (.inl hl)) hn

theorem frame (h : Shared u s k l o) (hlist : FreeList s' k l) (hr : s'.region k = s.region k) :
    Shared u s' k l o :=
  ⟨hlist, h.perm, by rw [hr]; exact h.beginAddr, by rw [hr]; exact h.endAddr⟩

theorem take (h : Shared u s k (n :: l) o) : Shared u (taken s k n) k l (n :: o) := by
  refine ⟨h.list.taken, List.perm_middle.trans h.perm, ?_, ?_⟩
  · rw [taken, region_withRegion]; exact h.beginAddr
  · rw [taken, region_withRegion]; exact h.endAddr

theorem give (h : Shared u s k l o) (hn : n ∈ o) : Shared u (given s k n) k (n :: l) (o.erase n) := by
  obtain ⟨hpos, hlt⟩ := u.page k n (h.mem_pages.mpr (.inr hn))
  refine ⟨h.list.given (h.not_both hn) hpos hlt, ?_, ?_, ?_⟩
  · have := (List.perm_cons_erase hn).symm
    exact (List.perm_middle.symm.trans (List.Perm.append_left l this)).trans h.perm
  · rw [given, pushed, region_withRegion]; exact h.beginAddr
  · rw [given, pushed, region_withRegion]; exact h.endAddr

end Shared

def Kept (u : Supply) (h : PageHist) : Prop :=
  ∀ k, ∃ l o, Shared u h.machine k l o ∧ h.out k = o.map (PGSIZE * ·)

theorem PGSIZE_mul_inj : Function.Injective (PGSIZE * ·) := fun a b h => by
  simp only [PGSIZE] at h; omega

variable {u : Supply} {h h' : PageHist}

/-- The region `k` changes to the list `l` and the pages `o` handed out, the other one does not. -/
theorem Kept.change (hk : Kept u h) {s' : Machine} {o : List Nat} (hs : Shared u s' k l o)
    (hother : ∀ j l o, j ≠ k → Shared u h.machine j l o → Shared u s' j l o) :
    Kept u ⟨s', Lib.upd h.out k (o.map (PGSIZE * ·))⟩ := by
  intro j
  by_cases hj : j = k
  · subst hj
    exact ⟨l, o, hs, Lib.upd_same ..⟩
  · obtain ⟨l', o', hs', hout⟩ := hk j
    exact ⟨l', o', hother j l' o' hj hs', (Lib.upd_of_ne hj).trans hout⟩

theorem Kept.step (hk : Kept u h) (c : PageCall) (hok : h.Ok c) :
    ∃ h', h.step c = some h' ∧ Kept u h' := by
  cases c with
  | alloc k =>
    obtain ⟨l, o, hs, hout⟩ := hk k
    cases l with
    | nil =>
      refine ⟨⟨{ h.machine with starved := true }, h.out⟩, ?_, fun j => ?_⟩
      · simp only [PageHist.step, pmemAlloc_nil hs.list, if_true]
      · obtain ⟨l, o, hs, hout⟩ := hk j
        refine ⟨l, o, hs.frame (hs.list.congr ?_ fun _ _ _ _ => rfl) ?_, hout⟩ <;> cases j <;> rfl
    | cons n l =>
      have hpos : PGSIZE * n ≠ 0 := by
        have := (hs.list.page n (by simp)).1
        simp only [PGSIZE]; omega
      refine ⟨_, ?_, hk.change hs.take fun j l' o' hj hs' => ?_⟩
      · simp only [PageHist.step, pmemAlloc_cons hs.list, if_neg hpos, hout, List.map_cons]
      · have hn : n ∉ l' := hs'.not_other hj (hs.mem_pages.mpr (.inl (by simp)))
        refine hs'.frame (hs'.list.taken_other hj hn) ?_
        rw [taken, region_withRegion_other _ _ hj]
        cases j <;> rfl
  | free page k =>
    obtain ⟨l, o, hs, hout⟩ := hk k
    have hmem : page ∈ o.map (PGSIZE * ·) := by rw [← hout]; exact hok
    obtain ⟨n, hn, rfl⟩ := List.mem_map.mp hmem
    have hin := u.inside k n (hs.mem_pages.mpr (.inr hn))
    rw [← hs.beginAddr, ← hs.endAddr] at hin
    refine ⟨_, ?_, hk.change (hs.give hn) fun j l' o' hj hs' => ?_⟩
    · simp only [PageHist.step, pmemFree_eq hin, hout, List.map_erase PGSIZE_mul_inj]
    · have hn' : n ∉ l' := hs'.not_other hj (hs.mem_pages.mpr (.inr hn))
      refine hs'.frame (hs'.list.given_other hj hn') ?_
      rw [given, pushed, region_withRegion_other _ _ hj]
      cases j <;> rfl
  | write page src =>
    obtain ⟨k, hpage⟩ := hok
    obtain ⟨l, o, hs, hout⟩ := hk k
    rw [hout] at hpage
    obtain ⟨n, hn, rfl⟩ := List.mem_map.mp hpage
    have hs1 := hs.frame (hs.list.write (hs.not_both hn) src) (by cases k <;> rfl)
    refine ⟨_, ?_, hk.change hs1 fun j l' o' hj hs' => ?_⟩
    · simp only [PageHist.step, ← hout, Lib.upd_self]
    · have hn' : n ∉ l' := hs'.not_other hj (hs.mem_pages.mpr (.inr hn))
      exact hs'.frame (hs'.list.write hn' src) (by cases j <;> rfl)

theorem Kept.run : ∀ (cs : List PageCall) {h : PageHist}, Kept u h →
    RunOk PageHist.step PageHist.Ok h cs → ∃ h', Lib.run PageHist.step h cs = some h' ∧ Kept u h' := by
  intro cs
  induction cs with
  | nil => intro h hk _; exact ⟨h, rfl, hk⟩
  | cons c cs ih =>
    intro h hk hok
    obtain ⟨h1, hstep, hk1⟩ := hk.step c hok.1
    have hok1 := hok.2
    rw [hstep] at hok1
    obtain ⟨h2, hrun, hk2⟩ := ih hk1 hok1
    exact ⟨h2, by simp only [Lib.run, hstep, hrun], hk2⟩

/-- What the allocator promises of the region `k`, which has the pages `r` in all. -/
structure Promise (r : Region) (h : PageHist) (k : Bool) (l : List Nat) : Prop where
  list : FreeList h.machine k l
  nodup : (l.map (PGSIZE * ·) ++ h.out k).Nodup
  pages : ∀ a, a ∈ l.map (PGSIZE * ·) ++ h.out k ↔ IsPage r a
  count : (h.machine.region k).allocable = l.length
  null : ∀ s', pmemAlloc k h.machine = .ok 0 s' → l = []
  zeros : ∀ page s', pmemAlloc k h.machine = .ok page s' → page ≠ 0 →
    ∀ i, i < PGSIZE → s'.mem (page + i) = 0

theorem Kept.promise (hk : Kept u h) (r : Region) (hr : ∀ n, n ∈ u.pages k ↔ IsPage r (PGSIZE * n))
    (hlen : (u.pages k).length < 2 ^ 32) : ∃ l, Promise r h k l := by
  obtain ⟨l, o, hs, hout⟩ := hk k
  have hmap : l.map (PGSIZE * ·) ++ h.out k = (l ++ o).map (PGSIZE * ·) := by
    rw [hout, List.map_append]
  refine ⟨l, hs.list, ?_, fun a => ?_, ?_, fun s' hrun => ?_, fun page s' hrun hpage i hi => ?_⟩
  · rw [hmap]
    exact (hs.perm.nodup_iff.mpr (u.nodup k)).map PGSIZE_mul_inj
  · rw [hmap, List.mem_map]
    constructor
    · rintro ⟨n, hn, rfl⟩
      exact (hr n).mp (hs.perm.mem_iff.mp hn)
    · intro ha
      have hmul : PGSIZE * (a / PGSIZE) = a := Nat.mul_div_cancel' (Nat.dvd_of_mod_eq_zero ha.1)
      refine ⟨a / PGSIZE, hs.perm.mem_iff.mpr ((hr _).mpr ?_), hmul⟩
      rw [hmul]; exact ha
  · have := hs.perm.length_eq
    rw [List.length_append] at this
    rw [hs.list.count, Nat.mod_eq_of_lt (by omega)]
  · cases l with
    | nil => rfl
    | cons n l =>
      rw [pmemAlloc_cons hs.list] at hrun
      have hpos := (hs.list.page n (by simp)).1
      injection hrun with h0
      simp only [PGSIZE] at h0; omega
  · cases l with
    | nil =>
      rw [pmemAlloc_nil hs.list] at hrun
      injection hrun with h0
      exact absurd h0.symm hpage
    | cons n l =>
      rw [pmemAlloc_cons hs.list] at hrun
      injection hrun with h0 h1
      rw [← h0, ← h1]
      exact taken_inside (by simp only [PGSIZE] at *; omega)

theorem page_of_mem {start stop : Nat} (hpos : 0 < start) (hstop : stop < 2 ^ 64)
    (hn : n ∈ pagesDown (firstPage start) (pageCount start stop)) :
    (0 < n ∧ PGSIZE * n < 2 ^ 64) ∧ start ≤ PGSIZE * n ∧ PGSIZE * n < stop := by
  have := mem_pages.mp hn
  simp only [PGSIZE] at *; omega

theorem pages_apart {b m e n : Nat} (h1 : n ∈ pagesDown (firstPage b) (pageCount b m)) :
    n ∉ pagesDown (firstPage m) (pageCount m e) := by
  intro h2
  have h1 := mem_pages.mp h1
  have h2 := mem_pages.mp h2
  simp only [PGSIZE] at *; omega

/-- The pages of `[b, m)` for the kernel and of `[m, e)` for the users. -/
def Supply.split (b m e : Nat) (hb : 0 < b) (hm : 0 < m) (hm' : m < 2 ^ 64) (he : e < 2 ^ 64) :
    Supply where
  pages k := match k with
    | true => pagesDown (firstPage b) (pageCount b m)
    | false => pagesDown (firstPage m) (pageCount m e)
  lo k := match k with
    | true => b
    | false => m
  hi k := match k with
    | true => m
    | false => e
  nodup k := by
    cases k with
    | true => exact nodup_pagesDown ..
    | false => exact nodup_pagesDown ..
  inside k n hn := by
    cases k with
    | true => exact (page_of_mem hb hm' hn).2
    | false => exact (page_of_mem hm he hn).2
  page k n hn := by
    cases k with
    | true => exact (page_of_mem hb hm' hn).1
    | false => exact (page_of_mem hm he hn).1
  apart j k hjk n := by
    cases j with
    | true =>
      cases k with
      | true => exact absurd rfl hjk
      | false => exact pages_apart
    | false =>
      cases k with
      | true => exact fun h1 h2 => pages_apart h2 h1
      | false => exact absurd rfl hjk

theorem isPage_iff {r : Region} {start stop : Nat} (hb : r.beginAddr = start) (he : r.endAddr = stop)
    (n : Nat) : n ∈ pagesDown (firstPage start) (pageCount start stop) ↔ IsPage r (PGSIZE * n) := by
  rw [mem_pages, IsPage, hb, he]
  exact (and_iff_right (Nat.mul_mod_right _ _)).symm

namespace Filled

variable {m : Nat}

theorem disjoint (h : Filled b m e s) (a : Nat) : ¬ (IsPage s.kern a ∧ IsPage s.user a) := by
  rintro ⟨⟨-, -, h1⟩, -, h2, -⟩
  rw [h.kernEnd] at h1
  rw [h.userBegin] at h2
  simp only [PGSIZE] at h1; omega

theorem kept (h : Filled b m e s) (hb : 0 < b) (hm : 0 < m) (hm' : m < 2 ^ 64) (he : e < 2 ^ 64) :
    Kept (.split b m e hb hm hm' he) ⟨s, fun _ => []⟩ := by
  intro k
  cases k with
  | true =>
    exact ⟨_, [], ⟨h.kern, by rw [List.append_nil]; exact .refl _, h.kernBegin, h.kernEnd⟩, rfl⟩
  | false =>
    exact ⟨_, [], ⟨h.user, by rw [List.append_nil]; exact .refl _, h.userBegin, h.userEnd⟩, rfl⟩

theorem promises (h : Filled b m e s) (hb : 0 < b) (hm : 0 < m) (hm' : m < 2 ^ 64) (he : e < 2 ^ 64)
    (hkern : pageCount b m < 2 ^ 32) (huser : pageCount m e < 2 ^ 32) (cs : List PageCall)
    (hok : RunOk PageHist.step PageHist.Ok ⟨s, fun _ => []⟩ cs) :
    ∃ h, run PageHist.step ⟨s, fun _ => []⟩ cs = some h ∧ ∀ k, ∃ l, Promise (s.region k) h k l := by
  obtain ⟨h', hrun, hk⟩ := (h.kept hb hm hm' he).run cs hok
  refine ⟨h', hrun, fun k => ?_⟩
  cases k with
  | true =>
    refine hk.promise _ (isPage_iff h.kernBegin h.kernEnd) ?_
    exact Nat.lt_of_le_of_lt (Nat.le_of_eq (length_pagesDown ..)) hkern
  | false =>
    refine hk.promise _ (isPage_iff h.userBegin h.userEnd) ?_
    exact Nat.lt_of_le_of_lt (Nat.le_of_eq (length_pagesDown ..)) huser

end Filled

theorem Fits.kernel_pages (h : Fits b e) : pageCount b (kernEnd b e) < 2 ^ 32 := by
  have hle : kernEnd b e ≤ KERNEL_PAGES * PGSIZE + b := by rw [kernEnd_eq h.kern]; omega
  simp only [pageCount, firstPage, KERNEL_PAGES, PGSIZE] at *; omega

/-- After `pmem_init` the lists are the whole pages of two disjoint regions, and in every run of calls
that frees only what was handed out by the same region, the list and the pages handed out stay a
partition of these. -/
theorem pmem_partition (b e : Nat) (hfits : Fits b e) (hcount : pageCount (kernEnd b e) e < 2 ^ 32)
    (s : Machine) : ∃ s', pmemInit b e s = .ok () s' ∧
      (s'.kern.beginAddr = b ∧ s'.kern.endAddr = kernEnd b e ∧ s'.user.beginAddr = kernEnd b e ∧
        s'.user.endAddr = e) ∧
      (∀ a, ¬ (IsPage s'.kern a ∧ IsPage s'.user a)) ∧
      ∀ cs, RunOk PageHist.step PageHist.Ok ⟨s', fun _ => []⟩ cs →
        ∃ h, run PageHist.step ⟨s', fun _ => []⟩ cs = some h ∧
          ∀ k, ∃ l, Promise (s'.region k) h k l := by
  obtain ⟨s', hinit, hf, -⟩ := pmemInit_filled hfits s
  have hstop := hfits.stop
  have hmid := hfits.user
  refine ⟨s', hinit, ⟨hf.kernBegin, hf.kernEnd, hf.userBegin, hf.userEnd⟩, hf.disjoint, fun cs hok => ?_⟩
  exact hf.promises hfits.pos hfits.kernEnd_pos (by simp only [PGSIZE] at *; omega)
    (by simp only [PGSIZE] at *; omega) hfits.kernel_pages hcount cs hok

/-- The memory of the machine, with the kernel image at its begin: a page is taken, written and given
back, and a page of the kernel's is taken. -/
theorem pmem_partition_image : ∃ s s' page, pmemInit 0x80020000 0x88000000 s = .ok () s' ∧
    ∃ h, run PageHist.step ⟨s', fun _ => []⟩
        [.alloc false, .write page fun _ => 1, .free page false, .alloc true] = some h ∧
      ∀ k, ∃ l, Promise (s'.region k) h k l := by
  let s : Machine := ⟨fun _ => 0, ⟨0, 0, 0, 0⟩, ⟨0, 0, 0, 0⟩, fun _ => ⟨0, 0, none, none⟩,
    fun _ => ⟨0, .unused, none, none, 0, 0, 0, none, 0⟩, none, 1, [], false⟩
  have hfits : Fits 0x80020000 0x88000000 := ⟨by decide, by decide, by decide, by decide, by decide⟩
  obtain ⟨s1, hinit1, hf, -⟩ := pmemInit_filled hfits s
  obtain ⟨s', hinit, -, -, hruns⟩ := pmem_partition 0x80020000 0x88000000 hfits (by decide) s
  rw [hinit] at hinit1
  cases hinit1
  obtain ⟨n, hn⟩ : ∃ n, pageCount (kernEnd 0x80020000 0x88000000) 0x88000000 = n + 1 :=
    Nat.exists_eq_succ_of_ne_zero (by decide)
  have hlist := hf.user
  rw [hn, pagesDown] at hlist
  have hpos := (hlist.page _ List.mem_cons_self).1
  generalize firstPage (kernEnd 0x80020000 0x88000000) + n = top at hlist hpos
  refine ⟨s, s1, PGSIZE * top, hinit, hruns _ ?_⟩
  have hne : PGSIZE * top ≠ 0 := by simp only [PGSIZE]; omega
  simp only [RunOk, PageHist.step, pmemAlloc_cons hlist, if_neg hne, PageHist.Ok, true_and]
  refine ⟨⟨false, by simp⟩, by simp, ?_⟩
  split
  · split <;> trivial
  · trivial

/-- With `2^32` pages in the user region the count is zero. -/
theorem pmem_count_wraps : ∃ s s' l, pmemInit 0x1000 0x100000401000 s = .ok () s' ∧
    FreeList s' false l ∧ l.length = 2 ^ 32 ∧ s'.user.allocable = 0 := by
  let s : Machine := ⟨fun _ => 0, ⟨0, 0, 0, 0⟩, ⟨0, 0, 0, 0⟩, fun _ => ⟨0, 0, none, none⟩,
    fun _ => ⟨0, .unused, none, none, 0, 0, 0, none, 0⟩, none, 1, [], false⟩
  have hfits : Fits 0x1000 0x100000401000 := ⟨by decide, by decide, by decide, by decide, by decide⟩
  obtain ⟨s', hinit, hf, -⟩ := pmemInit_filled hfits s
  have hlen : pageCount (kernEnd 0x1000 0x100000401000) 0x100000401000 = 2 ^ 32 := by decide
  have hcount : s'.user.allocable = _ := hf.user.count
  rw [length_pagesDown, hlen, Nat.mod_self] at hcount
  exact ⟨s, s', _, hinit, hf.user, (length_pagesDown ..).trans hlen, hcount⟩

end Mem
end WhuOS
