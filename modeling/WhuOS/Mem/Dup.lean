import WhuOS.Mem.Fresh
import WhuOS.Mem.Uvm

/-!
# WhuOS.Mem.Dup

The copy of a page table, `uvm_copy_pgtbl`.

Its three loops go through the pages of three ranges and either copy a page of the old table to a
fresh frame of the new one, pass it over, or panic. How far they get is a function of the old table
(`plan`, `stuck`), and so is the number of pages that this takes (`cost`).

* `Framed`     — pages were mapped one after the other; a later frame replaces an earlier one.
* `Duplicates` — code that copies as planned, and stops for lack of memory exactly below the cost.
-/

namespace WhuOS
namespace Mem

open Lib Kern Sched

variable {L : Layout} {p q : Slot} {s : Machine} {own : Nat → Owner} {l : List Nat} {r rn : Nat}

/-! ## Tables -/

/-- The tables of `q` are those on the walks to the pages `seen`. -/
def Tables (own : Nat → Owner) (q : Slot) (seen : List Nat) : Prop :=
  ∀ h, 0 < h → h < 3 → ∀ w, (∃ n, own n = .node q h w) ↔ ∃ u ∈ seen, u / 512 ^ h = w

/-- The tables that the page `v` needs besides those of the pages `seen`. -/
def tablesFor (seen : List Nat) (v : Nat) : Nat :=
  (if ∃ u ∈ seen, u / 512 ^ 2 = v / 512 ^ 2 then 0 else 1) +
  (if ∃ u ∈ seen, u / 512 ^ 1 = v / 512 ^ 1 then 0 else 1)

/-- The pages that it takes to map the pages of a list one after the other. -/
def cost (seen : List Nat) : List Nat → Nat
  | [] => 0
  | v :: vs => 1 + tablesFor seen v + cost (v :: seen) vs

theorem cost_append (as bs : List Nat) : ∀ seen,
    cost seen (as ++ bs) = cost seen as + cost (as.reverse ++ seen) bs := by
  induction as with
  | nil => intro seen; simp [cost]
  | cons v as ih =>
    intro seen
    simp only [List.cons_append, cost, ih, List.reverse_cons, List.append_assoc, List.nil_append]
    omega

theorem cost_cons (seen : List Nat) (v : Nat) (vs : List Nat) :
    cost seen (v :: vs) = cost seen [v] + cost (v :: seen) vs := cost_append [v] vs seen

theorem vpn_page (v h : Nat) : vpn (PGSIZE * v) h = v / 512 ^ h := by
  have : (512 : Nat) ^ h = 2 ^ (9 * h) := by rw [Nat.pow_mul]
  rw [vpn, this, Nat.pow_add, ← Nat.div_div_eq_div_mul]
  congr 1
  simp only [PGSIZE]
  omega

variable {seen : List Nat} {m m' : Bytes} {v pgtbl : Nat}

theorem Tables.missing_eq (t : Tables own q seen) (v : Nat) :
    missing own q (PGSIZE * v) = tablesFor seen v := by
  have h : ∀ h, 0 < h → h < 3 →
      lacks own q h (PGSIZE * v) = if ∃ u ∈ seen, u / 512 ^ h = v / 512 ^ h then 0 else 1 := by
    intro h h0 h3
    simp only [lacks, vpn_page, t h h0 h3]
  rw [missing, h 2 (by decide) (by decide), h 1 (by decide) (by decide), tablesFor]

theorem Tables.cons {own' : Nat → Owner}
    (t : Tables own q seen) (tr : Tree L m own')
    (hold : ∀ k h w, own k = .node q h w → own' k = .node q h w)
    (hnew : ∀ k h w, own' k = .node q h w → own k = .node q h w ∨ w = vpn (PGSIZE * v) h)
    (htab : ∃ k, own' k = .node q 1 (vpn (PGSIZE * v) 1)) : Tables own' q (v :: seen) := by
  intro h h0 h3 w
  constructor
  · rintro ⟨n, hn⟩
    rcases hnew n h w hn with hn | rfl
    · obtain ⟨u, hu, huw⟩ := (t h h0 h3 w).mp ⟨n, hn⟩
      exact ⟨u, by simp [hu], huw⟩
    · exact ⟨v, by simp, (vpn_page v h).symm⟩
  · rintro ⟨u, hu, rfl⟩
    rcases List.mem_cons.mp hu with rfl | hu
    · -- the table of height 2 is the one above that of height 1
      obtain ⟨k, hk⟩ := htab
      obtain rfl | rfl : h = 1 ∨ h = 2 := by omega
      · exact ⟨k, by rw [hk, vpn_page]⟩
      · obtain ⟨k2, hk2, -⟩ := tr.up hk (by decide) (by decide)
        exact ⟨k2, by rw [hk2, vpn_div, vpn_page]⟩
    · obtain ⟨n, hn⟩ := (t h h0 h3 _).mpr ⟨u, hu, rfl⟩
      exact ⟨n, hold n h _ hn⟩

/-! ## Frames -/

/-- A frame that was mapped at a page. -/
structure Frame where
  page : Nat
  frame : Nat
  flags : Nat

/-- The frame at a page, where the first one of the list is the last one mapped. -/
def frameAt (fs : List Frame) (v : Nat) : Option Frame := fs.find? fun c => c.page = v

theorem frameAt_none {fs : List Frame} (h : ∀ c ∈ fs, c.page ≠ v) : frameAt fs v = none :=
  List.find?_eq_none.mpr fun c hc => by simpa using h c hc

/-- Pages of `q` were mapped to free pages, the last one first in the list. -/
structure Framed (L : Layout) (q : Slot) (s : Machine) (own : Nat → Owner) (l : List Nat) (rn : Nat)
    (fs : List Frame) (s' : Machine) (own' : Nat → Owner) (l' : List Nat) : Prop where
  owned : Owned L s' own' l'
  rest : s'.rest = s.rest
  grows : Grows q s.mem own s'.mem own'
  fresh : ∀ c ∈ fs, own c.frame = .free ∧ own' c.frame = .node q 0 c.page
  frames : ∀ k v, own' k = .node q 0 v → own k = .node q 0 v ∨ ∃ c ∈ fs, c.frame = k ∧ c.page = v
  distinct : (fs.map Frame.frame).Nodup
  leaf : ∀ v, PGSIZE * v < VA_MAX → leafPte s'.mem (PGSIZE * rn) (PGSIZE * v) =
    match frameAt fs v with
    | some c => 1024 * c.frame + c.flags
    | none => leafPte s.mem (PGSIZE * rn) (PGSIZE * v)
  tables : ∀ {seen}, Tables own q seen → Tables own' q (fs.map Frame.page ++ seen)
  length : ∀ {seen}, Tables own q seen →
    l.length = l'.length + cost seen (fs.map Frame.page).reverse

namespace Framed

variable {fs fs' : List Frame} {s' s'' : Machine} {own' own'' : Nat → Owner} {l' l'' : List Nat}

theorem refl (w : Owned L s own l) : Framed L q s own l rn [] s own l :=
  ⟨w, rfl, .refl .., by simp, fun _ _ h => .inl h, List.nodup_nil, fun _ _ => rfl, fun t => t,
    fun _ => rfl⟩

theorem trans (f : Framed L q s own l rn fs s' own' l')
    (f' : Framed L q s' own' l' rn fs' s'' own'' l'') :
    Framed L q s own l rn (fs' ++ fs) s'' own'' l'' := by
  have hfree : ∀ c ∈ fs', own c.frame = .free := by
    intro c hc
    rcases f.grows.owner c.frame with h | ⟨h, -⟩
    · rw [← h]; exact (f'.fresh c hc).1
    · exact h
  refine ⟨f'.owned, f'.rest.trans f.rest, f.grows.trans f'.grows, fun c hc => ?_, fun k v hk => ?_, ?_,
    fun v hv => ?_, fun {seen} t => ?_, fun {seen} t => ?_⟩
  · rcases List.mem_append.mp hc with hc | hc
    · exact ⟨hfree c hc, (f'.fresh c hc).2⟩
    · obtain ⟨h1, h2⟩ := f.fresh c hc
      exact ⟨h1, f'.grows.keeps h2 (by simp)⟩
  · rcases f'.frames k v hk with hk | ⟨c, hc, hcv⟩
    · rcases f.frames k v hk with hk | ⟨c, hc, hcv⟩
      · exact .inl hk
      · exact .inr ⟨c, by simp [hc], hcv⟩
    · exact .inr ⟨c, by simp [hc], hcv⟩
  · rw [List.map_append]
    refine List.nodup_append.mpr ⟨f'.distinct, f.distinct, ?_⟩
    rintro x hx _ hy rfl
    obtain ⟨c, hc, rfl⟩ := List.mem_map.mp hx
    obtain ⟨d, hd, hdc⟩ := List.mem_map.mp hy
    -- the frame of `d` is not free any more
    have h1 := (f.fresh d hd).2
    rw [hdc, (f'.fresh c hc).1] at h1
    cases h1
  · rw [f'.leaf v hv, frameAt, frameAt, List.find?_append]
    cases fs'.find? fun c => c.page = v with
    | some c => rfl
    | none => exact f.leaf v hv
  · have := f'.tables (f.tables t)
    rwa [List.map_append, List.append_assoc]
  · have h1 := f.length t
    have h2 := f'.length (f.tables t)
    rw [List.map_append, List.reverse_append, cost_append, List.reverse_reverse]
    omega

end Framed

theorem wp_placeFrame {k : Nat} {t : List Nat} (m1 : Bytes) (v perm : Nat)
    (w : Owned L s own (k :: t))
    (hr : own rn = .node q 3 0) (hv : PGSIZE * v < VA_MAX) (hperm : perm < 1024)
    (hm : ∀ a, a / PGSIZE ≠ k → m1 a = s.mem a) :
    wp (vmMappages (PGSIZE * rn) (PGSIZE * v) (PGSIZE * k) PGSIZE perm)
      (fun _ s' => ∃ own' l', Framed L q s own (k :: t) rn [⟨v, k, perm ||| 1⟩] s' own' l' ∧
        ∀ a, a / PGSIZE = k → s'.mem a = m1 a)
      (fun _ s' => (k :: t).length < 1 + missing own q (PGSIZE * v) ∧ s'.starved = true)
      { taken s false k with mem := m1 } := by
  have hfree := w.free k (by simp)
  have hne : ∀ {c q' h v'}, own c = .node q' h v' → c ≠ k := by
    rintro c q' h v' hc rfl; rw [hfree] at hc; cases hc
  have e := w.take_frame (q := q) v
  have hk1 : Function.update own k (.node q 0 v) k = .node q 0 v := by simp
  have hm1 : ∀ a, a / PGSIZE ≠ k → m1 a = (taken s false k).mem a := fun a ha => by
    rw [hm a ha, taken_outside ha]
  have w1 := e.owned.writeFrame hk1 hm1
  have hr1 := e.grows.keeps hr (by simp)
  have g1 : Grows q s.mem own m1 (Function.update own k (.node q 0 v)) :=
    ⟨e.grows.owner, fun hc _ a ha => hm a (by rw [ha]; exact hne hc)⟩
  refine wp_conseq (wp_vmMappages (PGSIZE * v) k perm w1 hr1 hv (by simp only [PGSIZE]; omega)
    hperm (.inl (by rw [hk1, vpn_page]; simp))) ?_ ?_
  · rintro - s' ⟨own', l', mp, hlen, hframes⟩
    have hk' := mp.grows.keeps hk1 (by simp)
    rw [missing_update_frame hfree] at hlen
    refine ⟨own', l', ⟨mp.owned, mp.rest, g1.trans mp.grows, ?_, fun c u hc => ?_, by simp,
      fun u hu => ?_, fun {seen} ht => ?_, fun {seen} ht => ?_⟩, mp.grows.mem hk1 (fun _ => rfl)⟩
    · intro c hc
      obtain rfl := List.mem_singleton.mp hc
      exact ⟨hfree, hk'⟩
    · by_cases hck : c = k
      · subst hck
        rw [hk'] at hc; cases hc
        exact .inr ⟨_, List.mem_singleton.mpr rfl, rfl, rfl⟩
      · have := hframes c u hc
        exact .inl (by simpa [hck] using this)
    · by_cases huv : u = v
      · subst huv
        simpa [frameAt] using mp.leaf.here
      · rw [mp.leaf.other (PGSIZE * u) hu (by simp only [PGSIZE]; omega)]
        have hf : frameAt [⟨v, k, perm ||| 1⟩] u = none := by simp [frameAt, Ne.symm huv]
        rw [hf]
        show leafPte m1 _ _ = _
        rw [e.owned.tree.leaf_writeFrame hk1 hm1 hr1 hu, e.leaf hr hu]
    · refine Tables.cons ht mp.owned.tree
        (fun c h x hc => mp.grows.keeps (e.grows.keeps hc (by simp)) (by simp)) (fun c h x hc => ?_)
        mp.table
      rcases mp.nodes c h x hc with hc | hx
      · rcases update_frame_nodes hc with hc | ⟨rfl, rfl⟩
        · exact .inl hc
        · exact .inr (by rw [vpn_page]; simp)
      · exact .inr hx
    · rw [ht.missing_eq] at hlen
      simp only [List.length_cons, List.map_cons, List.map_nil, List.reverse_cons, List.reverse_nil,
        List.nil_append, cost]
      omega
  · rintro _ s' ⟨hlt, hs⟩
    rw [missing_update_frame hfree] at hlt
    exact ⟨by simp only [List.length_cons]; omega, hs⟩

/-! ## Copies -/

def validPage (m : Bytes) (pgtbl v : Nat) : Bool :=
  decide (PGSIZE * v < VA_MAX) && pteHas (leafPte m pgtbl (PGSIZE * v)) PTE_V

theorem validPage_iff : validPage m pgtbl v = true ↔
    PGSIZE * v < VA_MAX ∧ leafPte m pgtbl (PGSIZE * v) % 2 = 1 := by
  rw [validPage, Bool.and_eq_true, decide_eq_true_iff, pteHas_V]

theorem validPage_congr (h : PGSIZE * v < VA_MAX →
    leafPte m' pgtbl (PGSIZE * v) = leafPte m pgtbl (PGSIZE * v)) :
    validPage m' pgtbl v = validPage m pgtbl v := by
  by_cases hv : PGSIZE * v < VA_MAX
  · rw [validPage, validPage, h hv]
  · simp [validPage, hv]

theorem validPage_others {own' : Nat → Owner} (g : Grows q s.mem own m' own')
    (t : Tree L s.mem own) (t' : Tree L m' own') (hpq : p ≠ q) (hr : own r = .node p 3 0) :
    validPage m' (PGSIZE * r) = validPage s.mem (PGSIZE * r) := by
  funext v
  exact validPage_congr fun hv => g.leaf_others t t' hpq hr hv

/-- The frame has the flags and the contents of its page in the table `r`. -/
structure CopyOf (m m' : Bytes) (r : Nat) (c : Frame) : Prop where
  valid : validPage m (PGSIZE * r) c.page = true
  flags : c.flags = pteFlags (leafPte m (PGSIZE * r) (PGSIZE * c.page))
  contents : c.page < TRAMPOLINE_VPN → ∀ i, i < PGSIZE →
    m' (PGSIZE * c.frame + i) = m (pteToPa (leafPte m (PGSIZE * r) (PGSIZE * c.page)) + i)

theorem Tree.frame_of_valid (t : Tree L m own) (hr : own r = .node p 3 0)
    (hv : validPage m (PGSIZE * r) v = true) (hlow : v < TRAMPOLINE_VPN) :
    ∃ k, pteToPa (leafPte m (PGSIZE * r) (PGSIZE * v)) = PGSIZE * k ∧ own k = .node p 0 v := by
  obtain ⟨hva, hodd⟩ := validPage_iff.mp hv
  have hvp : vpn (PGSIZE * v) 0 = v := by rw [vpn_page]; simp
  rcases t.leaf_target hr hva hodd with ⟨k, hk, hown⟩ | ⟨htr, -⟩
  · exact ⟨k, hk, by rw [hown, hvp]⟩
  · omega

/-- The copy was made from a memory that agrees with an earlier one on the old pages. -/
theorem CopyOf.from {m'' : Bytes} {own' : Nat → Owner} {c : Frame} (h : CopyOf m' m'' r c)
    (g : Grows q s.mem own m' own') (t : Tree L s.mem own) (t' : Tree L m' own') (hpq : p ≠ q)
    (hr : own r = .node p 3 0) : CopyOf s.mem m'' r c := by
  obtain ⟨hvalid, hflags, hcont⟩ := h
  rw [validPage_others g t t' hpq hr] at hvalid
  have hva := (validPage_iff.mp hvalid).1
  rw [g.leaf_others t t' hpq hr hva] at hflags hcont
  refine ⟨hvalid, hflags, fun hlow i hi => ?_⟩
  obtain ⟨k, hk, hown⟩ := t.frame_of_valid hr hvalid hlow
  rw [hcont hlow i hi, hk]
  exact g.mem hown (fun h => absurd h hpq) _ (by simp only [PGSIZE] at *; omega)

theorem CopyOf.until {m'' : Bytes} {c : Frame} (h : CopyOf m m' r c)
    (hc : ∀ a, a / PGSIZE = c.frame → m'' a = m' a) : CopyOf m m'' r c := by
  refine ⟨h.valid, h.flags, fun hlow i hi => ?_⟩
  rw [hc _ (by simp only [PGSIZE] at *; omega), h.contents hlow i hi]

/-! ## The plan -/

/-- A page that the copy comes to, and whether it has to be mapped. -/
abbrev Step := Bool × Nat

/-- The pages that are copied, up to the first one that has to be mapped and is not. -/
def plan (valid : Nat → Bool) : List Step → List Nat
  | [] => []
  | (strict, v) :: rest =>
    if valid v then v :: plan valid rest else if strict then [] else plan valid rest

/-- Is there a page that has to be mapped and is not? -/
def stuck (valid : Nat → Bool) (steps : List Step) : Bool := steps.any fun c => c.1 && !valid c.2

theorem plan_append (valid : Nat → Bool) (xs ys : List Step) : plan valid (xs ++ ys) =
    if stuck valid xs then plan valid xs else plan valid xs ++ plan valid ys := by
  induction xs with
  | nil => rfl
  | cons c xs ih =>
    obtain ⟨strict, v⟩ := c
    have hst : stuck valid ((strict, v) :: xs) = (strict && !valid v || stuck valid xs) := rfl
    rw [List.cons_append, plan, plan, hst, ih]
    cases valid v with
    | true => simp only [if_true, Bool.not_true, Bool.and_false, Bool.false_or]; split <;> rfl
    | false =>
      cases strict with
      | true => rfl
      | false => rfl

theorem plan_eq_filter {valid : Nat → Bool} {steps : List Step} (h : stuck valid steps = false) :
    plan valid steps = (steps.map Prod.snd).filter valid := by
  induction steps with
  | nil => rfl
  | cons c steps ih =>
    obtain ⟨strict, v⟩ := c
    have hst : (strict && !valid v || stuck valid steps) = false := h
    obtain ⟨h1, h2⟩ := Bool.or_eq_false_iff.mp hst
    rw [plan, List.map_cons, List.filter_cons, ih h2]
    cases hv : valid v with
    | true => rfl
    | false =>
      cases strict with
      | true => rw [hv] at h1; cases h1
      | false => rfl

/-- `x` copies the pages of the table `r` of `p` to the table `rn` of `q`, step by step. -/
def Duplicates (L : Layout) (p q : Slot) (r rn : Nat) (steps : List Step) (x : MemM Unit) : Prop :=
  ∀ (s : Machine) (own : Nat → Owner) (l seen : List Nat), Owned L s own l →
    own r = .node p 3 0 → own rn = .node q 3 0 → Tables own q seen →
    wp x
      (fun _ s' => stuck (validPage s.mem (PGSIZE * r)) steps = false ∧
        ∃ fs own' l', Framed L q s own l rn fs s' own' l' ∧ (∀ c ∈ fs, CopyOf s.mem s'.mem r c) ∧
          fs.map Frame.page = (plan (validPage s.mem (PGSIZE * r)) steps).reverse)
      (fun _ s' =>
        l.length < cost seen (plan (validPage s.mem (PGSIZE * r)) steps) ∧ s'.starved = true ∨
        stuck (validPage s.mem (PGSIZE * r)) steps = true ∧
          cost seen (plan (validPage s.mem (PGSIZE * r)) steps) ≤ l.length ∧
          s'.starved = s.starved) s

namespace Duplicates

variable {xs ys : List Step}

theorem nil : Duplicates L p q r rn [] (pure ()) := fun _ _ _ _ w _ _ _ =>
  ⟨rfl, [], _, _, .refl w, by simp, rfl⟩

theorem seq (hpq : p ≠ q) {x y : MemM Unit} (hx : Duplicates L p q r rn xs x)
    (hy : Duplicates L p q r rn ys y) : Duplicates L p q r rn (xs ++ ys) (do x; y) := by
  intro s own l seen w hr hrn ht
  have hplan := plan_append (validPage s.mem (PGSIZE * r)) xs ys
  have hstuck : stuck (validPage s.mem (PGSIZE * r)) (xs ++ ys) =
      (stuck (validPage s.mem (PGSIZE * r)) xs || stuck (validPage s.mem (PGSIZE * r)) ys) :=
    List.any_append
  simp only [wp_bind]
  refine wp_conseq (hx s own l seen w hr hrn ht) ?_ ?_
  · rintro - s1 ⟨hok, fs, own1, l1, f, hc, hpages⟩
    have hr1 := f.grows.keeps hr (by simp)
    have hval := validPage_others f.grows w.tree f.owned.tree hpq hr
    have hlen := f.length ht
    have ht1 := f.tables ht
    rw [hpages, List.reverse_reverse] at hlen
    rw [hpages] at ht1
    have hy1 := hy s1 own1 l1 _ f.owned hr1 (f.grows.keeps hrn (by simp)) ht1
    rw [hok, if_neg Bool.false_ne_true] at hplan
    rw [hval] at hy1
    refine wp_conseq hy1 ?_ ?_
    · rintro - s2 ⟨hok2, fs2, own2, l2, f2, hc2, hpages2⟩
      refine ⟨by rw [hstuck, hok, hok2]; rfl, fs2 ++ fs, own2, l2, f.trans f2, fun c hcm => ?_, ?_⟩
      · rcases List.mem_append.mp hcm with hcm | hcm
        · exact (hc2 c hcm).from f.grows w.tree f.owned.tree hpq hr
        · exact (hc c hcm).until (f2.grows.mem (f.fresh c hcm).2 fun _ => rfl)
      · rw [List.map_append, hpages, hpages2, hplan, List.reverse_append]
    · rintro _ s2 (⟨hlt, hs⟩ | ⟨hst, hle, hs⟩)
      · refine .inl ⟨?_, hs⟩
        rw [hplan, cost_append]; omega
      · refine .inr ⟨by rw [hstuck, hst, Bool.or_true], ?_, hs.trans (congrArg Rest.starved f.rest)⟩
        rw [hplan, cost_append]; omega
  · rintro _ s1 (⟨hlt, hs⟩ | ⟨hst, hle, hs⟩)
    · refine .inl ⟨?_, hs⟩
      rw [hplan]
      split
      · exact hlt
      · rw [cost_append]; omega
    · refine .inr ⟨by rw [hstuck, hst, Bool.true_or], ?_, hs⟩
      rwa [hplan, if_pos hst]

/-- The steps of the pages from `a` on. -/
def range (strict : Bool) (a n : Nat) : List Step := (List.range' a n).map fun v => (strict, v)

theorem map_range (strict : Bool) (a n : Nat) : (range strict a n).map Prod.snd = List.range' a n := by
  simp only [range, List.map_map]
  exact List.map_id _

theorem stuck_range (valid : Nat → Bool) (a n : Nat) : stuck valid (range false a n) = false := by
  simp [stuck, range]

theorem forFrom (hpq : p ≠ q) {body : Nat → MemM Unit} {strict : Bool} {a : Nat} : ∀ (n i : Nat),
    (∀ v, a + i ≤ v → v < a + i + n → Duplicates L p q r rn [(strict, v)] (body (PGSIZE * v))) →
    Duplicates L p q r rn (range strict (a + i) n)
      (Kern.forFrom (fun k => body (PGSIZE * a + PGSIZE * k)) i n) := by
  intro n
  induction n with
  | zero => intro i _; exact nil
  | succ n ih =>
    intro i hbody
    have h0 := hbody (a + i) (Nat.le_refl _) (by omega)
    rw [Nat.mul_add] at h0
    exact h0.seq hpq (ih (i + 1) fun v h1 h2 => hbody v (by omega) (by omega))

/-- The passes of a loop over `len` bytes. -/
def passes (len : Nat) : Nat := (len + (PGSIZE - 1)) / PGSIZE

theorem forPages (hpq : p ≠ q) {body : Nat → MemM Unit} {strict : Bool} (a top : Nat)
    (hbody : ∀ v, a ≤ v → v < a + passes (top - PGSIZE * a) →
      Duplicates L p q r rn [(strict, v)] (body (PGSIZE * v))) :
    Duplicates L p q r rn (range strict a (passes (top - PGSIZE * a)))
      (Mem.forPages (PGSIZE * a) top body) :=
  forFrom hpq (a := a) _ 0 hbody

end Duplicates

/-! ## `uvm_copy_pgtbl` -/

theorem or_one_of_odd {f : Nat} (h : f % 2 = 1) : f ||| 1 = f := by
  refine Nat.eq_of_testBit_eq fun i => ?_
  rw [Nat.testBit_or]
  cases i with
  | zero => simp [Nat.testBit_zero, h]
  | succ i => simp [Nat.testBit_succ]

theorem Owned.reads_leaf (w : Owned L s own l) (hr : own r = .node p 3 0)
    (hv : validPage s.mem (PGSIZE * r) v = true) :
    kernelReads L (pteToPa (leafPte s.mem (PGSIZE * r) (PGSIZE * v))) = true := by
  obtain ⟨hva, hodd⟩ := validPage_iff.mp hv
  rcases w.tree.leaf_target hr hva hodd with ⟨k, hk, hown⟩ | ⟨-, hpa⟩
  · rw [hk]; exact w.reads (by simp [hown])
  · have h1 := L.trampoline_text
    have h2 := L.trampoline_lt
    rw [hpa]
    simp [kernelReads, h1, h2]

theorem wp_copyPage {k : Nat} {t : List Nat} (w : Owned L s own (k :: t))
    (hr : own r = .node p 3 0) (hrn : own rn = .node q 3 0)
    (hv : validPage s.mem (PGSIZE * r) v = true) :
    wp (copyPage L (PGSIZE * rn) (PGSIZE * v) (leafPte s.mem (PGSIZE * r) (PGSIZE * v))
        (PGSIZE * k))
      (fun _ s' => ∃ fs own' l', Framed L q s own (k :: t) rn fs s' own' l' ∧
        (∀ c ∈ fs, CopyOf s.mem s'.mem r c) ∧ fs.map Frame.page = [v])
      (fun _ s' => (k :: t).length < 1 + missing own q (PGSIZE * v) ∧ s'.starved = true)
      (taken s false k) := by
  obtain ⟨hva, hodd⟩ := validPage_iff.mp hv
  have hfree := w.free k (by simp)
  have hflags : pteFlags (leafPte s.mem (PGSIZE * r) (PGSIZE * v)) < 1024 :=
    Nat.mod_lt _ (by decide)
  have hor : pteFlags (leafPte s.mem (PGSIZE * r) (PGSIZE * v)) ||| 1 =
      pteFlags (leafPte s.mem (PGSIZE * r) (PGSIZE * v)) :=
    or_one_of_odd (by rw [pteFlags, Nat.mod_mod_of_dvd _ (by decide)]; exact hodd)
  simp only [copyPage, wp_bind, wp_touch, w.writes (n := k) (by simp [hfree]),
    w.reads_leaf hr hv, if_true, wp_memmove]
  refine wp_conseq (wp_placeFrame _ _ _ w hrn hva hflags fun a ha => ?_) ?_ (fun _ _ h => h)
  · rw [page_write_outside ha, taken_outside ha]
  · rintro - s' ⟨own', l', f, hmem⟩
    rw [hor] at f
    refine ⟨_, own', l', f, fun c hc => ?_, rfl⟩
    obtain rfl := List.mem_singleton.mp hc
    refine ⟨hv, rfl, fun hlow i hi => ?_⟩
    obtain ⟨c, hc, hown⟩ := w.tree.frame_of_valid hr hv hlow
    have hck : c ≠ k := by rintro rfl; rw [hfree] at hown; cases hown
    rw [hmem _ (by simp only [PGSIZE] at *; omega)]
    simp only [Bytes.write, Nat.le_add_right, Nat.add_lt_add_left hi, and_self, if_true,
      Nat.add_sub_cancel_left]
    rw [taken_outside]
    rw [hc]; simp only [PGSIZE] at *; omega

theorem kernelWrites_null (L : Layout) : kernelWrites L 0 = false := by
  have h1 := L.trampoline_text
  have h2 := L.trampoline_lt
  have h3 : ¬ L.etext ≤ 0 := by simp only [KERNEL_BASE] at h1; omega
  simp [kernelWrites, inRange, h3, KSTACK]

theorem wp_leafPte {β : Type} {va : Nat} {x : MemM β} {f : Nat → MemM β}
    {Q : β → Machine → Prop} {E : Stop → Machine → Prop} (hva : va < VA_MAX)
    (hnone : leafPte s.mem pgtbl va = 0 → wp x Q E s)
    (hsome : wp (f (leafPte s.mem pgtbl va)) Q E s) :
    wp (do
      match ← vmGetpte pgtbl va false with
      | none => x
      | some a =>
        let pte ← load64 a
        f pte) Q E s := by
  rw [wp_bind, wp_vmGetpte_false, if_pos hva]
  cases e : walk s.mem pgtbl va with
  | none => exact hnone (by simp [leafPte, e])
  | some a =>
    have : leafPte s.mem pgtbl va = Bytes.load 8 s.mem a := by simp [leafPte, e]
    simpa only [wp_bind, wp_load64, ← this] using hsome

/-- A page that is mapped gets a copy, whichever way the code checks for the end of the memory. -/
theorem wp_allocCopy {strict : Bool} {g : Nat → MemM Unit}
    (w : Owned L s own l) (hr : own r = .node p 3 0) (hrn : own rn = .node q 3 0)
    (ht : Tables own q seen) (hv : validPage s.mem (PGSIZE * r) v = true)
    (hnull : ∀ s', wp (g 0) (fun _ _ => False) (fun _ s'' => s'' = s') s')
    (hpage : ∀ page, page ≠ 0 → g page =
      copyPage L (PGSIZE * rn) (PGSIZE * v) (leafPte s.mem (PGSIZE * r) (PGSIZE * v)) page) :
    wp (pmemAlloc false >>= g)
      (fun _ s' => stuck (validPage s.mem (PGSIZE * r)) [(strict, v)] = false ∧
        ∃ fs own' l', Framed L q s own l rn fs s' own' l' ∧ (∀ c ∈ fs, CopyOf s.mem s'.mem r c) ∧
          fs.map Frame.page = (plan (validPage s.mem (PGSIZE * r)) [(strict, v)]).reverse)
      (fun _ s' =>
        l.length < cost seen (plan (validPage s.mem (PGSIZE * r)) [(strict, v)]) ∧
          s'.starved = true ∨
        stuck (validPage s.mem (PGSIZE * r)) [(strict, v)] = true ∧
          cost seen (plan (validPage s.mem (PGSIZE * r)) [(strict, v)]) ≤ l.length ∧
          s'.starved = s.starved) s := by
  have hplan : plan (validPage s.mem (PGSIZE * r)) [(strict, v)] = [v] := by simp [plan, hv]
  have hstuck : stuck (validPage s.mem (PGSIZE * r)) [(strict, v)] = false := by simp [stuck, hv]
  have hcost : cost seen [v] = 1 + tablesFor seen v := rfl
  simp only [wp_bind, hplan, hstuck, hcost]
  refine wp_pmemAlloc w (fun hl => ?_) (fun k t hl => ?_)
  · refine wp_conseq (hnull _) (fun _ _ h => h.elim) ?_
    rintro _ _ rfl
    exact .inl ⟨by rw [hl]; simp only [List.length_nil]; omega, rfl⟩
  · subst hl
    rw [hpage _ w.head_ne_zero]
    refine wp_conseq (wp_copyPage w hr hrn hv) (fun _ _ h => ⟨trivial, h⟩) ?_
    rintro _ s' ⟨hlt, hs⟩
    rw [ht.missing_eq] at hlt
    exact .inl ⟨hlt, hs⟩

theorem duplicates_strict (v : Nat) : Duplicates L p q r rn [(true, v)] (do
    match ← vmGetpte (PGSIZE * r) (PGSIZE * v) false with
    | none => Kern.panic "uvm_copy_pgtbl: pte == NULL"
    | some a =>
      let pte ← load64 a
      Kern.assert (pteHas pte PTE_V) "uvm_copy_pgtbl: pte not valid"
      let page ← pmemAlloc false
      copyPage L (PGSIZE * rn) (PGSIZE * v) pte page) := by
  intro s own l seen w hr hrn ht
  have hstop : validPage s.mem (PGSIZE * r) v = false →
      stuck (validPage s.mem (PGSIZE * r)) [(true, v)] = true ∧
        cost seen (plan (validPage s.mem (PGSIZE * r)) [(true, v)]) ≤ l.length ∧
        s.starved = s.starved := fun h => by simp [stuck, plan, h, cost]
  rcases Nat.lt_or_ge (PGSIZE * v) VA_MAX with hva | hva
  · refine wp_leafPte hva (fun h0 => ?_) ?_
    · exact .inr (hstop (by rw [validPage, h0, pteHas_zero, Bool.and_false]))
    · cases hV : pteHas (leafPte s.mem (PGSIZE * r) (PGSIZE * v)) PTE_V with
      | false => exact .inr (hstop (by rw [validPage, hV, Bool.and_false]))
      | true =>
        refine wp_allocCopy w hr hrn ht (by simp [validPage, hV, hva]) (fun s' => ?_)
          (fun _ _ => rfl)
        simp [copyPage, kernelWrites_null]
  · rw [wp_bind, wp_vmGetpte_false, if_neg (by omega)]
    exact .inr (hstop (by simp [validPage, Nat.not_lt.mpr hva]))

theorem duplicates_lenient (hva : PGSIZE * v < VA_MAX) :
    Duplicates L p q r rn [(false, v)] (do
      match ← vmGetpte (PGSIZE * r) (PGSIZE * v) false with
      | none => return ()
      | some a =>
        let pte ← load64 a
        if pteHas pte PTE_V then
          let page ← pmemAlloc false
          if page = 0 then Kern.panic "uvm_copy_pgtbl: out of memory for mmap"
          copyPage L (PGSIZE * rn) (PGSIZE * v) pte page) := by
  intro s own l seen w hr hrn ht
  have hpass : validPage s.mem (PGSIZE * r) v = false →
      stuck (validPage s.mem (PGSIZE * r)) [(false, v)] = false ∧
        ∃ fs own' l', Framed L q s own l rn fs s own' l' ∧ (∀ c ∈ fs, CopyOf s.mem s.mem r c) ∧
          fs.map Frame.page = (plan (validPage s.mem (PGSIZE * r)) [(false, v)]).reverse :=
    fun h => ⟨by simp [stuck], [], own, l, .refl w, by simp, by simp [plan, h]⟩
  refine wp_leafPte hva (fun h0 => ?_) ?_
  · exact hpass (by rw [validPage, h0, pteHas_zero, Bool.and_false])
  · cases hV : pteHas (leafPte s.mem (PGSIZE * r) (PGSIZE * v)) PTE_V with
    | false => exact hpass (by rw [validPage, hV, Bool.and_false])
    | true =>
      refine wp_allocCopy w hr hrn ht (by simp [validPage, hV, hva]) (fun s' => ?_) (fun page h0 => ?_)
      · simp
      · simp [h0]

/-- The steps of `uvm_copy_pgtbl`: code and heap, the stack, the mmap window. -/
def copySteps (heapTop ustackPages : Nat) : List Step :=
  Duplicates.range true 1 (Duplicates.passes (heapTop - PGSIZE)) ++
    (Duplicates.range true (TRAPFRAME_VPN - regionBytes ustackPages / PGSIZE)
        (regionBytes ustackPages / PGSIZE) ++
      Duplicates.range false (MMAP_BEGIN / PGSIZE) 8096)

theorem duplicates_copyRange (hpq : p ≠ q) (r rn a top : Nat) :
    Duplicates L p q r rn (Duplicates.range true a (Duplicates.passes (top - PGSIZE * a)))
      (copyRange L (PGSIZE * r) (PGSIZE * rn) (PGSIZE * a) top) :=
  Duplicates.forPages hpq _ _ fun v _ _ => duplicates_strict v

theorem duplicates_uvmCopyPgtbl (hpq : p ≠ q) (heapTop ustackPages : Nat) :
    Duplicates L p q r rn (copySteps heapTop ustackPages)
      (uvmCopyPgtbl L (PGSIZE * r) (PGSIZE * rn) heapTop ustackPages) := by
  have hheap := duplicates_copyRange (L := L) hpq r rn 1 heapTop
  -- the stack range is whole pages below the trapframe
  have hbytes : regionBytes ustackPages % PGSIZE = 0 ∧ regionBytes ustackPages < 2 ^ 32 := by
    simp only [regionBytes, PGSIZE]; omega
  have hstack := duplicates_copyRange (L := L) hpq r rn
    (TRAPFRAME_VPN - regionBytes ustackPages / PGSIZE) TRAPFRAME
  rw [show PGSIZE * (TRAPFRAME_VPN - regionBytes ustackPages / PGSIZE) =
      TRAPFRAME - regionBytes ustackPages by
    simp only [TRAPFRAME_VPN, TRAPFRAME, TRAMPOLINE, VA_MAX, PGSIZE] at *; omega,
    show Duplicates.passes (TRAPFRAME - (TRAPFRAME - regionBytes ustackPages)) =
      regionBytes ustackPages / PGSIZE by
    simp only [Duplicates.passes, TRAPFRAME, TRAMPOLINE, VA_MAX, PGSIZE] at *; omega] at hstack
  refine hheap.seq hpq (hstack.seq hpq ?_)
  exact Duplicates.forPages hpq (MMAP_BEGIN / PGSIZE) MMAP_END fun v _ h =>
    duplicates_lenient (by
      simp only [Duplicates.passes, MMAP_BEGIN, MMAP_END, VA_MAX, PGSIZE] at *; omega)

end Mem
end WhuOS
