import Mathlib.Data.List.Nodup
import Mathlib.Data.List.Perm.Subperm
import WhuOS.Dev.Virtio
import WhuOS.Lib.Slots

/-!
# WhuOS.Dev.Rings

The bookkeeping of the disk driver is exact.

* `Descs`   — who has which descriptor.
* `Chains`  — what a request in flight has left in the descriptors and in `info`.
* `Queues`  — a request is published, fetched, completed and cleared, in this order and once; the rings
              hold those in between.
* `rings_exact` — what holds in every state of every run.

The indices are 16 bits wide and compared modulo `NUM` only. Nothing is lost by that: a request in flight
has three of the eight descriptors, so there are never more than two.
-/

namespace WhuOS
namespace Dev

open Lib Slots

variable {B : Type}

/-! ## The descriptor functions -/

theorem freeDesc_eq {s : State B} {i : Nat} (hi : i < NUM) (h : s.free i = false) :
    freeDesc s i = some { s with free := upd s.free i true } := by
  simp [freeDesc, h, Nat.not_le.mpr hi]

theorem freeAll_eq : ∀ {idx : List Nat} {s : State B}, idx.Nodup →
    (∀ i ∈ idx, i < NUM ∧ s.free i = false) →
    idx.foldlM freeDesc s = some { s with free := fun i => s.free i || decide (i ∈ idx) } := by
  intro idx
  induction idx with
  | nil => intro s _ _; simp
  | cons i idx ih =>
    intro s hnd h
    obtain ⟨hi, hfree⟩ := h i List.mem_cons_self
    obtain ⟨hni, hnd⟩ := List.nodup_cons.mp hnd
    rw [List.foldlM_cons, freeDesc_eq hi hfree, Option.bind_eq_bind, Option.bind_some, ih hnd]
    · congr 2
      funext j
      by_cases hj : j = i
      · simp [hj]
      · simp [hj]
    · intro j hj
      have hji : j ≠ i := by rintro rfl; exact hni hj
      obtain ⟨h1, h2⟩ := h j (List.mem_cons_of_mem _ hj)
      exact ⟨h1, by simpa [hji] using h2⟩

theorem allocLoop_cases : ∀ {n : Nat} {idx : List Nat} {s : State B}, idx.Nodup →
    (∀ i ∈ idx, i < NUM ∧ s.free i = false) →
    (∃ new : List Nat, new.length = n ∧ new.Nodup ∧ (∀ i ∈ new, i < NUM ∧ s.free i = true) ∧
      allocLoop n idx s =
        some (some (idx ++ new), { s with free := fun i => s.free i && !decide (i ∈ new) })) ∨
    allocLoop n idx s = some (none, { s with free := fun i => s.free i || decide (i ∈ idx) }) := by
  intro n
  induction n with
  | zero =>
    intro idx s _ _
    exact .inl ⟨[], rfl, List.nodup_nil, by simp, by simp [allocLoop]⟩
  | succ n ih =>
    intro idx s hnd h
    cases hfind : (List.range NUM).find? s.free with
    | none =>
      refine .inr ?_
      simp only [allocLoop, allocDesc, hfind, Option.map_none, freeAll_eq hnd h, Option.map_some]
    | some i =>
      have hi : i < NUM := List.mem_range.mp (List.mem_of_find?_eq_some hfind)
      have hfree : s.free i = true := List.find?_some hfind
      have hni : i ∉ idx := fun hm => by
        have := (h i hm).2
        rw [hfree] at this
        cases this
      have hstep : allocLoop (n + 1) idx s =
          allocLoop n (idx ++ [i]) { s with free := upd s.free i false } := by
        simp only [allocLoop, allocDesc, hfind, Option.map_some]
      rw [hstep]
      have hidx : ∀ j ∈ idx ++ [i], j < NUM ∧ upd s.free i false j = false := by
        intro j hj
        rcases List.mem_append.mp hj with hm | hm
        · have hji : j ≠ i := by rintro rfl; exact hni hm
          obtain ⟨h1, h2⟩ := h j hm
          exact ⟨h1, by simpa [hji] using h2⟩
        · rw [List.mem_singleton.mp hm]
          exact ⟨hi, upd_same ..⟩
      have hnd' : (idx ++ [i]).Nodup := List.concat_eq_append ▸ List.Nodup.concat hni hnd
      rcases ih (s := { s with free := upd s.free i false }) hnd' hidx with
        ⟨new, hlen, hnew, hall, he⟩ | he
      · have hin : i ∉ new := fun hm => by simpa using (hall i hm).2
        refine .inl ⟨i :: new, by simp [hlen], List.nodup_cons.mpr ⟨hin, hnew⟩, ?_, ?_⟩
        · intro j hj
          rcases List.mem_cons.mp hj with rfl | hm
          · exact ⟨hi, hfree⟩
          · have hji : j ≠ i := by rintro rfl; exact hin hm
            obtain ⟨h1, h2⟩ := hall j hm
            exact ⟨h1, by simpa [hji] using h2⟩
        · rw [he]
          simp only [List.append_assoc, List.singleton_append]
          congr 3
          funext j
          by_cases hj : j = i <;> simp [hj, hin]
      · refine .inr ?_
        rw [he]
        congr 3
        funext j
        by_cases hj : j = i
        · simp [hj, hfree]
        · simp [hj]

theorem alloc3Desc_cases (s : State B) :
    (∃ i0 i1 i2, [i0, i1, i2].Nodup ∧ (∀ i ∈ [i0, i1, i2], i < NUM ∧ s.free i = true) ∧
      alloc3Desc s = some (some [i0, i1, i2],
        { s with free := fun i => s.free i && !decide (i ∈ [i0, i1, i2]) })) ∨
    alloc3Desc s = some (none, s) := by
  rcases allocLoop_cases (n := 3) (s := s) List.nodup_nil (by simp) with
    ⟨new, hlen, hnew, hall, he⟩ | he
  · match new, hlen with
    | [i0, i1, i2], _ => exact .inl ⟨i0, i1, i2, hnew, hall, he⟩
  · simp only [List.not_mem_nil, decide_false, Bool.or_false] at he
    exact .inr he

/-- The descriptors of a request. -/
def ChainOf (desc : Nat → VRingDesc) (i0 i1 i2 : Nat) : Prop :=
  desc i0 = ⟨VRING_DESC_F_NEXT, i1⟩ ∧
    (∃ write : Bool, desc i1 = ⟨(if write then 0 else VRING_DESC_F_WRITE) ||| VRING_DESC_F_NEXT, i2⟩) ∧
    desc i2 = ⟨VRING_DESC_F_WRITE, 0⟩

theorem freeChain_eq {s : State B} {i0 i1 i2 : Nat} (hnd : [i0, i1, i2].Nodup)
    (h : ∀ i ∈ [i0, i1, i2], i < NUM ∧ s.free i = false) (hc : ChainOf s.desc i0 i1 i2) :
    freeChain (NUM + 1) s i0 =
      some { s with free := upd (upd (upd s.free i0 true) i1 true) i2 true } := by
  obtain ⟨h0, ⟨write, h1⟩, h2⟩ := hc
  obtain ⟨hn0, hn1, hn2⟩ : i1 ≠ i0 ∧ i2 ≠ i0 ∧ i2 ≠ i1 := by
    simp only [List.nodup_cons, List.mem_cons, List.not_mem_nil, or_false, not_or] at hnd
    exact ⟨Ne.symm hnd.1.1, Ne.symm hnd.1.2, Ne.symm hnd.2.1⟩
  obtain ⟨hi0, hf0⟩ := h i0 (by simp)
  obtain ⟨hi1, hf1⟩ := h i1 (by simp)
  obtain ⟨hi2, hf2⟩ := h i2 (by simp)
  have hw : ((if write then 0 else VRING_DESC_F_WRITE) ||| VRING_DESC_F_NEXT) &&& VRING_DESC_F_NEXT ≠ 0 := by
    cases write <;> decide
  rw [freeChain, freeDesc_eq hi0 hf0]
  simp only [h0]
  rw [if_pos (by decide), freeChain, freeDesc_eq hi1 (by simpa [hn0] using hf1)]
  simp only [h1]
  rw [if_pos hw, freeChain, freeDesc_eq hi2 (by simpa [hn1, hn2] using hf2)]
  simp only [h2]
  rw [if_neg (by decide)]

/-! ## The invariant -/

/-- The call for `b` is in flight. -/
def Waits (s : State B) (b : B) (idx : List Nat) (r : Nat) : Prop := s.call b = .wait idx r

/-- Who has which descriptor. -/
structure Descs (s : State B) : Prop where
  triple : ∀ b idx r, Waits s b idx r → idx.length = 3 ∧ idx.Nodup ∧ ∀ i ∈ idx, i < NUM
  disjoint : ∀ b b' idx idx' r r', Waits s b idx r → Waits s b' idx' r' → b ≠ b' → idx.Disjoint idx'
  taken : ∀ i, i < NUM → (s.free i = false ↔ ∃ b idx r, Waits s b idx r ∧ i ∈ idx)

/-- What a request in flight has left behind. -/
structure Chains (s : State B) : Prop where
  chain : ∀ b i0 i1 i2 r, Waits s b [i0, i1, i2] r → ChainOf s.desc i0 i1 i2 ∧ (s.info i0).b = some b
  cur : ∀ b idx r, Waits s b idx r → s.cur b = some r ∧ r < s.count
  inj : ∀ b b' idx idx' r, Waits s b idx r → Waits s b' idx' r → b = b'

/-- The request of the entry is in flight and not cleared. -/
def Open (s : State B) (e : Elem) : Prop :=
  ∃ b idx, Waits s b idx e.req ∧ idx.head? = some e.id ∧ s.flag b = true

/-- `pub` are published and not fetched, `com` are completed and not cleared; `f` have been fetched before,
and `p` have been cleared. -/
structure Queues (s : State B) (pub com : List Elem) (f p : Nat) : Prop where
  avail : Holds s.avail NUM f pub
  fetched : s.fetched = f % 2 ^ 16
  availIdx : s.availIdx = (f + pub.length) % 2 ^ 16
  elems : Holds s.elems NUM p com
  usedIdx : s.usedIdx = p % NUM
  usedId : s.usedId = (p + com.length) % 2 ^ 16
  nodup : ((pub ++ s.out ++ com).map Elem.req).Nodup
  all : ∀ e, e ∈ pub ++ s.out ++ com ↔ Open s e
  done : ∀ r, s.done r = true ↔ r < s.count ∧ r ∉ (pub ++ s.out).map Elem.req
  clears : ∀ r, s.clears r = if r < s.count ∧ r ∉ (pub ++ s.out ++ com).map Elem.req then 1 else 0

structure Inv (s : State B) : Prop where
  descs : Descs s
  chains : Chains s
  queues : ∃ pub com f p, Queues s pub com f p
  panic : s.panicked ≠ some .desc ∧ s.panicked ≠ some .null

variable {s s' : State B}

/-! ### At most two -/

theorem Descs.all (h : Descs s) : ∀ {bs : List B}, bs.Nodup → (∀ b ∈ bs, ∃ idx r, Waits s b idx r) →
    ∃ l : List Nat, l.Nodup ∧ l.length = 3 * bs.length ∧
      ∀ i ∈ l, i < NUM ∧ ∃ b ∈ bs, ∃ idx r, Waits s b idx r ∧ i ∈ idx := by
  intro bs
  induction bs with
  | nil => exact fun _ _ => ⟨[], List.nodup_nil, rfl, by simp⟩
  | cons b bs ih =>
    intro hnd hw
    obtain ⟨hb, hnd⟩ := List.nodup_cons.mp hnd
    obtain ⟨l, hl, hlen, hall⟩ := ih hnd fun b' hb' => hw b' (List.mem_cons_of_mem _ hb')
    obtain ⟨idx, r, hwait⟩ := hw b List.mem_cons_self
    obtain ⟨h3, hidx, hlt⟩ := h.triple b idx r hwait
    refine ⟨idx ++ l, List.nodup_append'.mpr ⟨hidx, hl, ?_⟩, ?_, ?_⟩
    · intro i hi hil
      obtain ⟨-, b', hb', idx', r', hwait', hi'⟩ := hall i hil
      have hne : b ≠ b' := by rintro rfl; exact hb hb'
      exact h.disjoint b b' idx idx' r r' hwait hwait' hne hi hi'
    · rw [List.length_append, List.length_cons, h3, hlen]; omega
    · intro i hi
      rcases List.mem_append.mp hi with hm | hm
      · exact ⟨hlt i hm, b, List.mem_cons_self, idx, r, hwait, hm⟩
      · obtain ⟨h1, b', hb', h2⟩ := hall i hm
        exact ⟨h1, b', List.mem_cons_of_mem _ hb', h2⟩

theorem Descs.two (h : Descs s) {bs : List B} (hnd : bs.Nodup)
    (hw : ∀ b ∈ bs, ∃ idx r, Waits s b idx r) : bs.length ≤ 2 := by
  obtain ⟨l, hl, hlen, hall⟩ := h.all hnd hw
  have hsub : l ⊆ List.range NUM := fun i hi => List.mem_range.mpr (hall i hi).1
  have := (hl.subperm hsub).length_le
  rw [hlen, List.length_range] at this
  have hnum : NUM = 8 := rfl
  omega

variable {pub com : List Elem} {f p : Nat}

theorem Queues.length_le (h : Queues s pub com f p) (hd : Descs s) :
    (pub ++ s.out ++ com).length ≤ 2 := by
  have key : ∀ es : List Elem, (es.map Elem.req).Nodup → (∀ e ∈ es, Open s e) →
      ∃ bs : List B, bs.Nodup ∧ bs.length = es.length ∧
        ∀ b ∈ bs, ∃ e ∈ es, ∃ idx, Waits s b idx e.req := by
    intro es
    induction es with
    | nil => exact fun _ _ => ⟨[], List.nodup_nil, rfl, by simp⟩
    | cons e es ih =>
      intro hnd hopen
      rw [List.map_cons, List.nodup_cons] at hnd
      obtain ⟨bs, hbs, hlen, hall⟩ := ih hnd.2 fun e' he' => hopen e' (List.mem_cons_of_mem _ he')
      obtain ⟨b, idx, hw, -, -⟩ := hopen e List.mem_cons_self
      refine ⟨b :: bs, List.nodup_cons.mpr ⟨fun hb => ?_, hbs⟩, by simp [hlen], ?_⟩
      · obtain ⟨e', he', idx', hw'⟩ := hall b hb
        have : e.req = e'.req := by
          unfold Waits at hw hw'
          rw [hw, Call.wait.injEq] at hw'
          exact hw'.2
        exact hnd.1 (this ▸ List.mem_map_of_mem he')
      · intro b' hb'
        rcases List.mem_cons.mp hb' with rfl | hb'
        · exact ⟨e, List.mem_cons_self, idx, hw⟩
        · obtain ⟨e', he', h'⟩ := hall b' hb'
          exact ⟨e', List.mem_cons_of_mem _ he', h'⟩
  obtain ⟨bs, hbs, hlen, hall⟩ := key _ h.nodup fun e he => (h.all e).mp he
  rw [← hlen]
  refine hd.two hbs fun b hb => ?_
  obtain ⟨e, -, idx, hw⟩ := hall b hb
  exact ⟨idx, e.req, hw⟩

theorem Queues.com_length (h : Queues s pub com f p) (hd : Descs s) :
    com.length < NUM := by
  have := h.length_le hd
  rw [List.length_append] at this
  exact Nat.lt_of_le_of_lt (by omega : com.length ≤ 2) (by decide)

/-- The loop of the handler ends when it has cleared everything that is completed. -/
theorem Queues.drained (h : Queues s pub com f p) (hd : Descs s) :
    s.usedIdx % NUM = s.usedId % NUM ↔ com = [] := by
  rw [h.usedIdx, h.usedId, Nat.mod_mod, Nat.mod_mod_of_dvd _ (by decide)]
  exact drained_iff (h.com_length hd)

/-! ### Steps -/

theorem Inv.same (h : Inv s) (hcall : ∀ b idx r, Waits s' b idx r ↔ Waits s b idx r)
    (hfree : s'.free = s.free) (hdesc : s'.desc = s.desc) (hinfo : s'.info = s.info)
    (havail : s'.avail = s.avail ∧ s'.availIdx = s.availIdx ∧ s'.fetched = s.fetched ∧ s'.out = s.out)
    (hused : s'.elems = s.elems ∧ s'.usedId = s.usedId ∧ s'.usedIdx = s.usedIdx ∧ s'.flag = s.flag)
    (hhist : s'.count = s.count ∧ s'.cur = s.cur ∧ s'.done = s.done ∧ s'.clears = s.clears)
    (hp : s'.panicked ≠ some .desc ∧ s'.panicked ≠ some .null) : Inv s' := by
  obtain ⟨ha, hai, hfe, ho⟩ := havail
  obtain ⟨he, hui, hux, hfl⟩ := hused
  obtain ⟨hco, hcu, hdo, hcl⟩ := hhist
  obtain ⟨pub, com, f, p, hq⟩ := h.queues
  have hopen : ∀ e, Open s' e ↔ Open s e := fun e => by simp only [Open, hcall, hfl]
  refine ⟨⟨?_, ?_, ?_⟩, ⟨?_, ?_, ?_⟩, ⟨pub, com, f, p, ?_⟩, hp⟩
  · simpa only [hcall] using h.descs.triple
  · simpa only [hcall] using h.descs.disjoint
  · simpa only [hcall, hfree] using h.descs.taken
  · simpa only [hcall, hdesc, hinfo] using h.chains.chain
  · simpa only [hcall, hcu, hco] using h.chains.cur
  · simpa only [hcall] using h.chains.inj
  · obtain ⟨h1, h2, h3, h4, h5, h6, h7, h8, h9, h10⟩ := hq
    exact ⟨by rw [ha]; exact h1, by rw [hfe]; exact h2, by rw [hai]; exact h3, by rw [he]; exact h4,
      by rw [hux]; exact h5, by rw [hui]; exact h6, by rw [ho]; exact h7,
      fun e => by rw [ho, hopen]; exact h8 e, fun r => by rw [hdo, hco, ho]; exact h9 r,
      fun r => by rw [hcl, hco, ho]; exact h10 r⟩

variable [DecidableEq B]

theorem waits_upd {b : B} {c : Call} (hb : ∀ idx r, s.call b ≠ .wait idx r) (hc : ∀ idx r, c ≠ .wait idx r)
    (b' : B) (idx : List Nat) (r : Nat) : upd s.call b c b' = .wait idx r ↔ Waits s b' idx r := by
  by_cases he : b' = b
  · subst he
    rw [upd_same]
    exact ⟨fun h => absurd h (hc idx r), fun h => absurd h (hb idx r)⟩
  · rw [upd_of_ne he]
    rfl

theorem Inv.rw {b : B} {write : Bool} (h : Inv s) (hb : s.call b = .idle) :
    Inv { s with call := upd s.call b (.alloc write) } :=
  h.same (waits_upd (by simp [hb]) (by simp)) rfl rfl rfl ⟨rfl, rfl, rfl, rfl⟩ ⟨rfl, rfl, rfl, rfl⟩
    ⟨rfl, rfl, rfl, rfl⟩ h.panic

/-! #### A request is published -/

section Publish

variable {b : B} (write : Bool) {i0 i1 i2 : Nat}

theorem waits_publish (i0 i1 i2 : Nat) (hb : ∀ idx r, s.call b ≠ .wait idx r) (b' : B) (idx : List Nat)
    (r : Nat) : Waits (publish s b write i0 i1 i2) b' idx r ↔
      (b' = b ∧ idx = [i0, i1, i2] ∧ r = s.count) ∨ Waits s b' idx r := by
  unfold Waits publish
  by_cases he : b' = b
  · subst he
    simp only [upd_same, Call.wait.injEq, true_and]
    constructor
    · exact fun h => .inl ⟨h.1.symm, h.2.symm⟩
    · rintro (⟨h1, h2⟩ | h)
      · exact ⟨h1.symm, h2.symm⟩
      · exact absurd h (hb idx r)
  · simp [he]

/-- Without the three descriptors. -/
def taking (s : State B) (i0 i1 i2 : Nat) : State B :=
  { s with free := fun i => s.free i && !decide (i ∈ [i0, i1, i2]) }

theorem Descs.publish (h : Descs s) (hb : ∀ idx r, s.call b ≠ .wait idx r) (hnd : [i0, i1, i2].Nodup)
    (hi : ∀ i ∈ [i0, i1, i2], i < NUM ∧ s.free i = true) :
    Descs (publish (taking s i0 i1 i2) b write i0 i1 i2) := by
  have hw := waits_publish (s := taking s i0 i1 i2) write i0 i1 i2 hb
  have hold : ∀ b' idx r, Waits s b' idx r → ∀ i ∈ idx, i ∉ [i0, i1, i2] := by
    intro b' idx r hwait i hidx hm
    have := (h.taken i (hi i hm).1).mpr ⟨b', idx, r, hwait, hidx⟩
    rw [(hi i hm).2] at this
    cases this
  refine ⟨fun b' idx r hwait => ?_, fun b1 b2 idx idx' r r' hw1 hw2 hne => ?_, fun i hlt => ?_⟩
  · rcases (hw b' idx r).mp hwait with ⟨-, rfl, -⟩ | hwait
    · exact ⟨rfl, hnd, fun i hm => (hi i hm).1⟩
    · exact h.triple b' idx r hwait
  · rcases (hw b1 idx r).mp hw1 with ⟨h1, rfl, -⟩ | hold1
    · rcases (hw b2 idx' r').mp hw2 with ⟨h2, -, -⟩ | hold2
      · exact absurd (h1.trans h2.symm) hne
      · exact fun i him him' => hold b2 idx' r' hold2 i him' him
    · rcases (hw b2 idx' r').mp hw2 with ⟨-, rfl, -⟩ | hold2
      · exact fun i him him' => hold b1 idx r hold1 i him him'
      · exact h.disjoint b1 b2 idx idx' r r' hold1 hold2 hne
  · show (s.free i && !decide (i ∈ [i0, i1, i2])) = false ↔ _
    simp only [hw]
    constructor
    · intro hf
      by_cases hm : i ∈ [i0, i1, i2]
      · exact ⟨b, _, _, .inl ⟨rfl, rfl, rfl⟩, hm⟩
      · rw [decide_eq_false hm, Bool.not_false, Bool.and_true] at hf
        obtain ⟨b', idx, r, hwait, hidx⟩ := (h.taken i hlt).mp hf
        exact ⟨b', idx, r, .inr hwait, hidx⟩
    · rintro ⟨b', idx, r, ⟨-, rfl, -⟩ | hwait, hidx⟩
      · rw [decide_eq_true hidx, Bool.not_true, Bool.and_false]
      · rw [(h.taken i hlt).mpr ⟨b', idx, r, hwait, hidx⟩, Bool.false_and]

theorem format_other {desc : Nat → VRingDesc} {i : Nat} (hi : i ∉ [i0, i1, i2]) :
    format desc write i0 i1 i2 i = desc i := by
  simp only [List.mem_cons, List.not_mem_nil, or_false, not_or] at hi
  rw [format, upd_of_ne hi.2.2, upd_of_ne hi.2.1, upd_of_ne hi.1]

theorem chainOf_format {desc : Nat → VRingDesc} (hnd : [i0, i1, i2].Nodup) :
    ChainOf (format desc write i0 i1 i2) i0 i1 i2 := by
  simp only [List.nodup_cons, List.mem_cons, List.not_mem_nil, or_false, not_or] at hnd
  obtain ⟨⟨h01, h02⟩, h12, -⟩ := hnd
  refine ⟨?_, ⟨write, ?_⟩, upd_same ..⟩
  · rw [format, upd_of_ne h02, upd_of_ne h01, upd_same]
  · rw [format, upd_of_ne h12, upd_same]

theorem Chains.publish (h : Chains s) (hd : Descs s) (hb : ∀ idx r, s.call b ≠ .wait idx r)
    (hnd : [i0, i1, i2].Nodup) (hi : ∀ i ∈ [i0, i1, i2], i < NUM ∧ s.free i = true) :
    Chains (publish (taking s i0 i1 i2) b write i0 i1 i2) := by
  have hw := waits_publish (s := taking s i0 i1 i2) write i0 i1 i2 hb
  refine ⟨fun b' j0 j1 j2 r hwait => ?_, fun b' idx r hwait => ?_, fun b1 b2 idx idx' r hw1 hw2 => ?_⟩
  · rcases (hw b' _ r).mp hwait with ⟨rfl, hidx, -⟩ | hold
    · cases hidx
      exact ⟨chainOf_format write hnd, by simp [Dev.publish]⟩
    · obtain ⟨⟨h0, ⟨w, h1⟩, h2⟩, hinfo⟩ := h.chain b' j0 j1 j2 r hold
      -- the others have none of the three
      have hno : ∀ i ∈ [j0, j1, j2], i ∉ [i0, i1, i2] := by
        intro i hm hm'
        have := (hd.taken i (hi i hm').1).mpr ⟨b', _, r, hold, hm⟩
        rw [(hi i hm').2] at this
        cases this
      have hfmt : ∀ i ∈ [j0, j1, j2], format s.desc write i0 i1 i2 i = s.desc i :=
        fun i hm => format_other write (hno i hm)
      have hj0 : j0 ≠ i0 := by rintro rfl; exact hno j0 (by simp) (by simp)
      refine ⟨⟨?_, ⟨w, ?_⟩, ?_⟩, ?_⟩
      · exact (hfmt j0 (by simp)).trans h0
      · exact (hfmt j1 (by simp)).trans h1
      · exact (hfmt j2 (by simp)).trans h2
      · simpa [Dev.publish, taking, hj0] using hinfo
  · rcases (hw b' idx r).mp hwait with ⟨rfl, -, rfl⟩ | hold
    · exact ⟨by simp [Dev.publish, taking], Nat.lt_succ_self _⟩
    · obtain ⟨hcur, hlt⟩ := h.cur b' idx r hold
      have hne : b' ≠ b := by rintro rfl; exact hb idx r hold
      exact ⟨by simpa [Dev.publish, taking, hne] using hcur, Nat.lt_succ_of_lt hlt⟩
  · rcases (hw b1 idx r).mp hw1 with ⟨h1, -, hr1⟩ | hold1
    · rcases (hw b2 idx' r).mp hw2 with ⟨h2, -, -⟩ | hold2
      · exact h1.trans h2.symm
      · exact absurd (h.cur b2 idx' r hold2).2 (by rw [hr1]; exact Nat.lt_irrefl _)
    · rcases (hw b2 idx' r).mp hw2 with ⟨-, -, hr2⟩ | hold2
      · exact absurd (h.cur b1 idx r hold1).2 (by rw [hr2]; exact Nat.lt_irrefl _)
      · exact h.inj b1 b2 idx idx' r hold1 hold2

theorem Queues.publish {pub com : List Elem} {f p : Nat} (h : Queues s pub com f p) (hd : Descs s)
    (hc : Chains s) (hb : ∀ idx r, s.call b ≠ .wait idx r) :
    Queues (publish (taking s i0 i1 i2) b write i0 i1 i2) (pub ++ [⟨i0, s.count⟩]) com f p := by
  have hw := waits_publish (s := taking s i0 i1 i2) write i0 i1 i2 hb
  have hlen := h.length_le hd
  rw [List.length_append, List.length_append] at hlen
  have hlt : ∀ e ∈ pub ++ s.out ++ com, e.req < s.count := by
    intro e he
    obtain ⟨b', idx, hwait, -, -⟩ := (h.all e).mp he
    exact (hc.cur b' idx e.req hwait).2
  have hperm : (pub ++ [Elem.mk i0 s.count] ++ s.out ++ com).Perm (Elem.mk i0 s.count :: (pub ++ s.out ++ com)) := by
    simp only [List.append_assoc, List.singleton_append]
    exact List.perm_middle
  have hreq : ∀ r, r ∈ (pub ++ [Elem.mk i0 s.count] ++ s.out ++ com).map Elem.req ↔
      r = s.count ∨ r ∈ (pub ++ s.out ++ com).map Elem.req := by
    intro r
    rw [(hperm.map Elem.req).mem_iff, List.map_cons, List.mem_cons]
  have hnew : s.count ∉ (pub ++ s.out ++ com).map Elem.req := by
    rw [List.mem_map]
    rintro ⟨e, he, hr⟩
    exact absurd (hlt e he) (by omega)
  refine ⟨?_, h.fetched, ?_, h.elems, h.usedIdx, h.usedId, ?_, fun e => ?_, fun r => ?_, fun r => ?_⟩
  · have hslot : s.availIdx % NUM = (f + pub.length) % NUM := by
      rw [h.availIdx, Nat.mod_mod_of_dvd _ (by decide)]
    show Holds (upd s.avail (s.availIdx % NUM) ⟨i0, s.count⟩) NUM f _
    rw [hslot]
    exact h.avail.push (Nat.lt_of_le_of_lt (by omega : pub.length ≤ 2) (by decide))
  · show (s.availIdx + 1) % 2 ^ 16 = _
    rw [h.availIdx, List.length_append, List.length_singleton]
    omega
  · show ((pub ++ [Elem.mk i0 s.count] ++ s.out ++ com).map Elem.req).Nodup
    rw [(hperm.map Elem.req).nodup_iff, List.map_cons, List.nodup_cons]
    exact ⟨hnew, h.nodup⟩
  · show e ∈ pub ++ [Elem.mk i0 s.count] ++ s.out ++ com ↔ _
    rw [hperm.mem_iff, List.mem_cons, h.all]
    constructor
    · rintro (rfl | ⟨b', idx, hwait, hhead, hflag⟩)
      · exact ⟨b, _, (hw b _ _).mpr (.inl ⟨rfl, rfl, rfl⟩), rfl, upd_same ..⟩
      · refine ⟨b', idx, (hw b' idx _).mpr (.inr hwait), hhead, ?_⟩
        have hne : b' ≠ b := by rintro rfl; exact hb idx _ hwait
        simpa [Dev.publish, taking, hne] using hflag
    · rintro ⟨b', idx, hwait, hhead, hflag⟩
      rcases (hw b' idx _).mp hwait with ⟨-, rfl, hr⟩ | hold
      · left
        obtain ⟨id, req⟩ := e
        simp only [List.head?_cons, Option.some.injEq] at hhead
        rw [hhead, show req = s.count from hr]
      · have hne : b' ≠ b := by rintro rfl; exact hb idx _ hold
        exact .inr ⟨b', idx, hold, hhead, by simpa [Dev.publish, taking, hne] using hflag⟩
  · show s.done r = true ↔ r < s.count + 1 ∧ r ∉ (pub ++ [Elem.mk i0 s.count] ++ s.out).map Elem.req
    rw [h.done]
    simp only [List.map_append, List.map_cons, List.map_nil, List.mem_append, List.mem_singleton, not_or]
    constructor
    · rintro ⟨h1, h2, h3⟩
      exact ⟨by omega, ⟨h2, by omega⟩, h3⟩
    · rintro ⟨h1, ⟨h2, h4⟩, h3⟩
      exact ⟨by omega, h2, h3⟩
  · show s.clears r = if r < s.count + 1 ∧ r ∉ (pub ++ [Elem.mk i0 s.count] ++ s.out ++ com).map Elem.req then 1 else 0
    rw [h.clears]
    refine if_congr ?_ rfl rfl
    rw [hreq]
    constructor
    · rintro ⟨h1, h2⟩
      exact ⟨by omega, fun h3 => h3.elim (by omega) h2⟩
    · rintro ⟨h1, h2⟩
      rw [not_or] at h2
      exact ⟨by omega, h2.2⟩

theorem Inv.submit (h : Inv s) (hb : ∀ idx r, s.call b ≠ .wait idx r) : Inv (submit s b write) := by
  rcases alloc3Desc_cases s with ⟨i0, i1, i2, hnd, hi, he⟩ | he
  · have hs : Dev.submit s b write = publish (taking s i0 i1 i2) b write i0 i1 i2 := by
      simp only [Dev.submit, he]
      rfl
    obtain ⟨pub, com, f, p, hq⟩ := h.queues
    rw [hs]
    exact ⟨h.descs.publish write hb hnd hi, h.chains.publish write h.descs hb hnd hi,
      ⟨_, com, f, p, hq.publish write h.descs h.chains hb⟩, h.panic⟩
  · have hs : Dev.submit s b write = s := by simp only [Dev.submit, he]
    rw [hs]
    exact h

end Publish

/-! #### A call ends -/

/-- What is left when the call for `b` gives its descriptors back. -/
def giving (s : State B) (b : B) (i0 i1 i2 : Nat) : State B :=
  { s with
    info := upd s.info i0 { s.info i0 with b := none }
    free := upd (upd (upd s.free i0 true) i1 true) i2 true
    call := upd s.call b .idle }

theorem waits_giving (b : B) (i0 i1 i2 : Nat) (b' : B) (idx : List Nat) (r : Nat) :
    Waits (giving s b i0 i1 i2) b' idx r ↔ b' ≠ b ∧ Waits s b' idx r := by
  unfold Waits giving
  by_cases he : b' = b <;> simp [he]

theorem Inv.giving {b : B} {i0 i1 i2 r : Nat} (h : Inv s) (hb : Waits s b [i0, i1, i2] r)
    (hflag : s.flag b = false) : Inv (giving s b i0 i1 i2) := by
  have hw := waits_giving (s := s) b i0 i1 i2
  obtain ⟨pub, com, f, p, hq⟩ := h.queues
  have hfree : ∀ i, (Dev.giving s b i0 i1 i2).free i = (s.free i || decide (i ∈ [i0, i1, i2])) := by
    intro i
    simp only [Dev.giving, upd_apply, List.mem_cons, List.not_mem_nil, or_false]
    grind
  have hother : ∀ b' idx r', b' ≠ b → Waits s b' idx r' → ∀ i ∈ idx, i ∉ [i0, i1, i2] :=
    fun b' idx r' hne hwait i hi hm => h.descs.disjoint b' b idx _ r' r hwait hb hne hi hm
  refine ⟨⟨fun b' idx r' hwait => ?_, fun b1 b2 idx idx' r1 r2 hw1 hw2 => ?_, fun i hlt => ?_⟩,
    ⟨fun b' j0 j1 j2 r' hwait => ?_, fun b' idx r' hwait => ?_, fun b1 b2 idx idx' r' hw1 hw2 => ?_⟩,
    ⟨pub, com, f, p, hq.avail, hq.fetched, hq.availIdx, hq.elems, hq.usedIdx, hq.usedId, hq.nodup,
      fun e => ?_, hq.done, hq.clears⟩, h.panic⟩
  · exact h.descs.triple b' idx r' ((hw b' idx r').mp hwait).2
  · exact h.descs.disjoint b1 b2 idx idx' r1 r2 ((hw b1 idx r1).mp hw1).2 ((hw b2 idx' r2).mp hw2).2
  · rw [hfree]
    simp only [hw, Bool.or_eq_false_iff, decide_eq_false_iff_not]
    constructor
    · rintro ⟨hf, hni⟩
      obtain ⟨b', idx, r', hwait, hi⟩ := (h.descs.taken i hlt).mp hf
      refine ⟨b', idx, r', ⟨?_, hwait⟩, hi⟩
      rintro rfl
      unfold Waits at hwait hb
      rw [hb] at hwait
      cases hwait
      exact hni hi
    · rintro ⟨b', idx, r', ⟨hne, hwait⟩, hi⟩
      exact ⟨(h.descs.taken i hlt).mpr ⟨b', idx, r', hwait, hi⟩, hother b' idx r' hne hwait i hi⟩
  · obtain ⟨hne, hold⟩ := (hw b' _ r').mp hwait
    obtain ⟨hc, hinfo⟩ := h.chains.chain b' j0 j1 j2 r' hold
    have hj0 : j0 ≠ i0 := by
      rintro rfl
      exact hother b' _ r' hne hold j0 (by simp) (by simp)
    exact ⟨hc, by simpa [Dev.giving, hj0] using hinfo⟩
  · exact h.chains.cur b' idx r' ((hw b' idx r').mp hwait).2
  · exact h.chains.inj b1 b2 idx idx' r' ((hw b1 idx r').mp hw1).2 ((hw b2 idx' r').mp hw2).2
  · show e ∈ pub ++ s.out ++ com ↔ _
    rw [hq.all]
    constructor
    · rintro ⟨b', idx, hwait, hhead, hfl⟩
      have hne : b' ≠ b := by
        rintro rfl
        rw [hflag] at hfl
        cases hfl
      exact ⟨b', idx, (hw b' idx _).mpr ⟨hne, hwait⟩, hhead, hfl⟩
    · rintro ⟨b', idx, hwait, hhead, hfl⟩
      exact ⟨b', idx, ((hw b' idx _).mp hwait).2, hhead, hfl⟩

theorem Inv.poll {b : B} {idx : List Nat} {r i : Nat} (h : Inv s) (hb : Waits s b idx r)
    (hi : idx.head? = some i) : Inv (poll s b i) := by
  obtain ⟨h3, hnd, hlt⟩ := h.descs.triple b idx r hb
  match idx, h3 with
  | [i0, i1, i2], _ =>
    cases hi
    cases hflag : s.flag b with
    | true => simpa [Dev.poll, hflag] using h
    | false =>
      have hchain := (h.chains.chain b _ i1 i2 r hb).1
      have htaken : ∀ j ∈ [i, i1, i2], j < NUM ∧ s.free j = false :=
        fun j hj => ⟨hlt j hj, (h.descs.taken j (hlt j hj)).mpr ⟨b, _, r, hb, hj⟩⟩
      have hend := freeChain_eq (s := { s with info := upd s.info i { s.info i with b := none } }) hnd htaken
        hchain
      have hs : Dev.poll s b i = Dev.giving s b i i1 i2 := by
        simp only [Dev.poll, hflag, hend]
        rfl
      rw [hs]
      exact h.giving hb hflag

/-! #### The handler -/

theorem Inv.clear {e : Elem} {rest : List Elem} {b : B} {idx : List Nat} (h : Inv s)
    (hq : Queues s pub (e :: rest) f p) (hw : Waits s b idx e.req) :
    Inv { clearFlag s b with usedIdx := (s.usedIdx + 1) % NUM } := by
  obtain ⟨hcur, hlt⟩ := h.chains.cur b idx e.req hw
  have hperm : (pub ++ s.out ++ e :: rest).Perm (e :: (pub ++ s.out ++ rest)) := List.perm_middle
  have hnd := hq.nodup
  rw [(hperm.map Elem.req).nodup_iff, List.map_cons, List.nodup_cons] at hnd
  have hclears : (clearFlag s b).clears = upd s.clears e.req (s.clears e.req + 1) := by
    simp only [clearFlag, hcur]
  refine ⟨⟨h.descs.triple, h.descs.disjoint, h.descs.taken⟩, ⟨h.chains.chain, h.chains.cur, h.chains.inj⟩,
    ⟨pub, rest, f, p + 1, hq.avail, hq.fetched, hq.availIdx, hq.elems.pop, ?_, ?_, hnd.2, fun e' => ?_,
      hq.done, fun r => ?_⟩, h.panic⟩
  · show (s.usedIdx + 1) % NUM = _
    rw [hq.usedIdx, Nat.mod_add_mod]
  · show s.usedId = _
    rw [hq.usedId, List.length_cons]
    congr 1
    omega
  · show e' ∈ pub ++ s.out ++ rest ↔ _
    have hmem := hq.all e'
    rw [hperm.mem_iff, List.mem_cons] at hmem
    constructor
    · intro he'
      obtain ⟨b', idx', hw', hhead', hfl'⟩ := hmem.mp (.inr he')
      have hne : b' ≠ b := by
        rintro rfl
        unfold Waits at hw hw'
        rw [hw, Call.wait.injEq] at hw'
        exact hnd.1 (hw'.2 ▸ List.mem_map_of_mem he')
      exact ⟨b', idx', hw', hhead', by simpa [clearFlag, hne] using hfl'⟩
    · rintro ⟨b', idx', hw', hhead', hfl'⟩
      have hne : b' ≠ b := by rintro rfl; simp [clearFlag] at hfl'
      have hopen : Open s e' := ⟨b', idx', hw', hhead', by simpa [clearFlag, hne] using hfl'⟩
      rcases hmem.mpr hopen with rfl | he'
      · exact absurd (h.chains.inj b' b idx' idx _ hw' hw) hne
      · exact he'
  · show (clearFlag s b).clears r = _
    rw [hclears]
    have hreq : ∀ r, r ∈ (pub ++ s.out ++ e :: rest).map Elem.req ↔
        r = e.req ∨ r ∈ (pub ++ s.out ++ rest).map Elem.req := by
      intro r
      rw [(hperm.map Elem.req).mem_iff, List.map_cons, List.mem_cons]
    by_cases hr : r = e.req
    · subst hr
      rw [upd_same, hq.clears, if_neg (by rw [hreq]; simp), if_pos ⟨hlt, hnd.1⟩]
    · rw [upd_of_ne hr, hq.clears]
      refine if_congr ?_ rfl rfl
      rw [hreq]
      exact and_congr_right fun _ => not_congr (or_iff_right hr)

theorem Inv.intrRound (h : Inv s) : Inv (intrRound s) := by
  obtain ⟨pub, com, f, p, hq⟩ := h.queues
  unfold Dev.intrRound
  split
  · rename_i hne
    cases com with
    | nil => exact absurd ((hq.drained h.descs).mpr rfl) hne
    | cons e rest =>
      have he : s.elems s.usedIdx = e := by
        rw [hq.usedIdx]
        exact hq.elems.head
      obtain ⟨b, idx, hw, hhead, -⟩ := (hq.all e).mp (by simp)
      obtain ⟨h3, -, -⟩ := h.descs.triple b idx e.req hw
      have hinfo : (s.info e.id).b = some b := by
        match idx, h3 with
        | [i0, i1, i2], _ =>
          cases hhead
          exact (h.chains.chain b _ i1 i2 e.req hw).2
      simp only [he, hinfo]
      split
      · exact h.same (fun _ _ _ => Iff.rfl) rfl rfl rfl ⟨rfl, rfl, rfl, rfl⟩ ⟨rfl, rfl, rfl, rfl⟩
          ⟨rfl, rfl, rfl, rfl⟩ (by simp)
      · exact h.clear hq hw
  · exact h.same (fun _ _ _ => Iff.rfl) rfl rfl rfl ⟨rfl, rfl, rfl, rfl⟩ ⟨rfl, rfl, rfl, rfl⟩
      ⟨rfl, rfl, rfl, rfl⟩ h.panic

/-! #### The device -/

omit [DecidableEq B] in
theorem Inv.fetch (h : Inv s) (hne : s.fetched ≠ s.availIdx) :
    Inv { s with
      out := s.out ++ [s.avail (s.fetched % NUM)]
      fetched := (s.fetched + 1) % 2 ^ 16 } := by
  obtain ⟨pub, com, f, p, hq⟩ := h.queues
  cases pub with
  | nil => exact absurd (by rw [hq.fetched, hq.availIdx]; rfl) hne
  | cons e rest =>
    have he : s.avail (s.fetched % NUM) = e := by
      rw [hq.fetched, Nat.mod_mod_of_dvd _ (by decide)]
      exact hq.avail.head
    have hperm : (rest ++ (s.out ++ [e])).Perm (e :: rest ++ s.out) := by
      rw [← List.append_assoc]
      exact List.perm_append_singleton e (rest ++ s.out)
    have hall := hperm.append_right com
    rw [he]
    refine ⟨⟨h.descs.triple, h.descs.disjoint, h.descs.taken⟩, ⟨h.chains.chain, h.chains.cur, h.chains.inj⟩,
      ⟨rest, com, f + 1, p, hq.avail.pop, ?_, ?_, hq.elems, hq.usedIdx, hq.usedId, ?_, fun e' => ?_,
        fun r => ?_, fun r => ?_⟩, h.panic⟩
    · show (s.fetched + 1) % 2 ^ 16 = _
      rw [hq.fetched, Nat.mod_add_mod]
    · show s.availIdx = _
      rw [hq.availIdx, List.length_cons]
      congr 1
      omega
    · exact ((hall.map Elem.req).nodup_iff).mpr hq.nodup
    · exact hall.mem_iff.trans (hq.all e')
    · refine (hq.done r).trans ?_
      rw [(hperm.map Elem.req).mem_iff]
    · refine (hq.clears r).trans (if_congr ?_ rfl rfl)
      rw [(hall.map Elem.req).mem_iff]

omit [DecidableEq B] in
theorem Inv.complete {k status : Nat} {e : Elem} (h : Inv s) (hk : s.out[k]? = some e) :
    Inv { s with
      out := s.out.eraseIdx k
      elems := upd s.elems (s.usedId % NUM) e
      usedId := (s.usedId + 1) % 2 ^ 16
      info := upd s.info e.id { s.info e.id with status := status }
      done := upd s.done e.req true } := by
  obtain ⟨pub, com, f, p, hq⟩ := h.queues
  obtain ⟨hlt, hget⟩ := List.getElem?_eq_some_iff.mp hk
  have hout : s.out.Perm (e :: s.out.eraseIdx k) := by
    rw [← hget]
    exact (List.getElem_cons_eraseIdx_perm hlt).symm
  -- the entry moves from the fetched to the completed ones
  have hpub : (pub ++ s.out).Perm (e :: (pub ++ s.out.eraseIdx k)) :=
    (hout.append_left pub).trans List.perm_middle
  have hall : (pub ++ s.out.eraseIdx k ++ (com ++ [e])).Perm (pub ++ s.out ++ com) := by
    rw [← List.append_assoc]
    exact (List.perm_append_singleton e _).trans (hpub.append_right com).symm
  have hnd := ((hpub.append_right com).map Elem.req).nodup_iff.mp hq.nodup
  rw [List.cons_append, List.map_cons, List.nodup_cons, List.map_append, List.mem_append, not_or] at hnd
  obtain ⟨b, idx, hw, -, -⟩ := (hq.all e).mp (by
    rw [(hpub.append_right com).mem_iff]
    exact List.mem_cons_self)
  have hcount := (h.chains.cur b idx e.req hw).2
  refine ⟨⟨h.descs.triple, h.descs.disjoint, h.descs.taken⟩,
    ⟨fun b' j0 j1 j2 r hwait => ?_, h.chains.cur, h.chains.inj⟩,
    ⟨pub, com ++ [e], f, p, hq.avail, hq.fetched, hq.availIdx, ?_, hq.usedIdx, ?_, ?_, fun e' => ?_,
      fun r => ?_, fun r => ?_⟩, h.panic⟩
  · obtain ⟨hc, hinfo⟩ := h.chains.chain b' j0 j1 j2 r hwait
    refine ⟨hc, ?_⟩
    by_cases hj : j0 = e.id
    · simpa [hj] using hinfo
    · simpa [hj] using hinfo
  · have hslot : s.usedId % NUM = (p + com.length) % NUM := by
      rw [hq.usedId, Nat.mod_mod_of_dvd _ (by decide)]
    show Holds (upd s.elems (s.usedId % NUM) e) NUM p _
    rw [hslot]
    exact hq.elems.push (hq.com_length h.descs)
  · show (s.usedId + 1) % 2 ^ 16 = _
    rw [hq.usedId, List.length_append, List.length_singleton, Nat.mod_add_mod]
    congr 1
  · exact ((hall.map Elem.req).nodup_iff).mpr hq.nodup
  · exact hall.mem_iff.trans (hq.all e')
  · show upd s.done e.req true r = true ↔ _
    have hmem : r ∈ (pub ++ s.out).map Elem.req ↔ r = e.req ∨ r ∈ (pub ++ s.out.eraseIdx k).map Elem.req := by
      rw [(hpub.map Elem.req).mem_iff, List.map_cons, List.mem_cons]
    by_cases hr : r = e.req
    · subst hr
      simp only [upd_same, true_iff]
      exact ⟨hcount, hnd.1.1⟩
    · rw [upd_of_ne hr, hq.done, hmem]
      exact and_congr_right fun _ => not_congr (or_iff_right hr)
  · refine (hq.clears r).trans (if_congr ?_ rfl rfl)
    rw [(hall.map Elem.req).mem_iff]

/-! ## Runs -/

theorem Inv.step {a : Act B} (h : Inv s) (hs : step s a = some s') : Inv s' := by
  cases a with
  | rw b write =>
    simp only [Dev.step] at hs
    split at hs <;> cases hs
    rename_i hc
    exact h.rw hc.2
  | go b =>
    simp only [Dev.step] at hs
    split at hs
    · split at hs
      · cases hs
      · rename_i write hcall
        cases hs
        exact h.submit write (by simp [hcall])
      · rename_i idx r hcall
        obtain ⟨i, hi, rfl⟩ := Option.map_eq_some_iff.mp hs
        exact h.poll hcall hi
    · cases hs
  | intr =>
    simp only [Dev.step] at hs
    split at hs <;> cases hs
    exact h.same (fun _ _ _ => Iff.rfl) rfl rfl rfl ⟨rfl, rfl, rfl, rfl⟩ ⟨rfl, rfl, rfl, rfl⟩
      ⟨rfl, rfl, rfl, rfl⟩ h.panic
  | round =>
    simp only [Dev.step] at hs
    split at hs <;> cases hs
    exact h.intrRound
  | fetch =>
    simp only [Dev.step] at hs
    split at hs <;> cases hs
    exact h.fetch ‹_›
  | complete k status =>
    simp only [Dev.step] at hs
    split at hs <;> cases hs
    exact h.complete ‹_›

omit [DecidableEq B] in
theorem Inv.boot : Inv (boot : State B) where
  descs := ⟨by rintro _ _ _ ⟨⟩, by rintro _ _ _ _ _ _ ⟨⟩, fun i _ => ⟨by rintro ⟨⟩, by rintro ⟨_, _, _, ⟨⟩, _⟩⟩⟩
  chains := ⟨by rintro _ _ _ _ _ ⟨⟩, by rintro _ _ _ ⟨⟩, by rintro _ _ _ _ _ ⟨⟩⟩
  queues := ⟨[], [], 0, 0, .nil, rfl, rfl, .nil, rfl, rfl, List.nodup_nil,
    fun e => ⟨by rintro ⟨⟩, by rintro ⟨_, _, ⟨⟩, _⟩⟩, fun r => ⟨by rintro ⟨⟩, fun h => absurd h.1 (Nat.not_lt_zero r)⟩,
    fun r => (if_neg fun h => absurd h.1 (Nat.not_lt_zero r)).symm⟩
  panic := by simp [Dev.boot]

/-- What is to hold of the driver in a state. -/
structure RingsExact (s : State B) : Prop where
  /-- A request in flight has three descriptors. -/
  triple : ∀ b idx r, s.call b = .wait idx r → idx.length = 3 ∧ idx.Nodup ∧ ∀ i ∈ idx, i < NUM
  disjoint : ∀ b b' idx idx' r r', s.call b = .wait idx r → s.call b' = .wait idx' r' → b ≠ b' →
    idx.Disjoint idx'
  taken : ∀ i, i < NUM → (s.free i = false ↔ ∃ b idx r, s.call b = .wait idx r ∧ i ∈ idx)
  panic : s.panicked ≠ some .desc
  two : ∀ bs : List B, bs.Nodup → (∀ b ∈ bs, ∃ idx r, s.call b = .wait idx r) → bs.length ≤ 2
  /-- Its flag is cleared at most once, and only when the device has completed it. -/
  once : ∀ r, s.clears r ≤ 1 ∧ (s.clears r = 1 → s.done r = true)
  flag : ∀ b idx r, s.call b = .wait idx r → (s.flag b = false ↔ s.clears r = 1)
  /-- A call that has returned was cleared. -/
  returned : ∀ r, r < s.count → (∀ b idx, s.call b ≠ .wait idx r) → s.clears r = 1
  /-- The comparison modulo `NUM` ends the loop of the handler when all completed requests are cleared. -/
  drained : s.usedIdx % NUM = s.usedId % NUM ↔ ∀ r, s.done r = true → s.clears r = 1

omit [DecidableEq B] in
theorem Inv.exact (h : Inv s) : RingsExact s := by
  obtain ⟨pub, com, f, p, hq⟩ := h.queues
  have hone : ∀ r, s.clears r = 1 ↔ r < s.count ∧ r ∉ (pub ++ s.out ++ com).map Elem.req := by
    intro r
    rw [hq.clears]
    split
    · rename_i hr; exact ⟨fun _ => hr, fun _ => rfl⟩
    · rename_i hr; exact ⟨fun h0 => absurd h0 (by decide), fun hr' => absurd hr' hr⟩
  refine ⟨h.descs.triple, h.descs.disjoint, h.descs.taken, h.panic.1, fun bs => h.descs.two,
    fun r => ⟨?_, fun h1 => ?_⟩, fun b idx r hw => ?_, fun r hr hno => ?_, ?_⟩
  · rw [hq.clears]
    split <;> omega
  · obtain ⟨hlt, hno⟩ := (hone r).mp h1
    rw [List.map_append, List.mem_append, not_or] at hno
    exact (hq.done r).mpr ⟨hlt, hno.1⟩
  · rw [hone]
    constructor
    · intro hflag
      refine ⟨(h.chains.cur b idx r hw).2, fun hm => ?_⟩
      obtain ⟨e, he, rfl⟩ := List.mem_map.mp hm
      obtain ⟨b', idx', hw', -, hfl'⟩ := (hq.all e).mp he
      rw [h.chains.inj b' b idx' idx e.req hw' hw, hflag] at hfl'
      cases hfl'
    · rintro ⟨-, hno⟩
      by_contra hflag
      obtain ⟨h3, -, -⟩ := h.descs.triple b idx r hw
      match idx, h3 with
      | [i0, i1, i2], _ =>
        have : Open s ⟨i0, r⟩ := ⟨b, _, hw, rfl, by simpa using hflag⟩
        exact hno (List.mem_map_of_mem ((hq.all _).mpr this))
  · rw [hone]
    refine ⟨hr, fun hm => ?_⟩
    obtain ⟨e, he, rfl⟩ := List.mem_map.mp hm
    obtain ⟨b, idx, hw, -, -⟩ := (hq.all e).mp he
    exact hno b idx hw
  · rw [hq.drained h.descs]
    constructor
    · rintro rfl r hd
      rw [hone]
      simpa using (hq.done r).mp hd
    · intro hall
      match com, hq, hone with
      | [], _, _ => rfl
      | e :: rest, hq, hone =>
        have hnd := hq.nodup
        rw [List.map_append, List.nodup_append'] at hnd
        have hlt : e.req < s.count := by
          obtain ⟨b, idx, hw, -, -⟩ := (hq.all e).mp (by simp)
          exact (h.chains.cur b idx e.req hw).2
        have hd : s.done e.req = true := (hq.done e.req).mpr ⟨hlt, fun hm => hnd.2.2 hm (by simp)⟩
        exact absurd ((hone e.req).mp (hall e.req hd)).2 (by simp)

/-- In every state of every run: threads call `virtio_disk_rw`, the device completes in any order, and the
handler runs at any time. -/
theorem rings_exact (as : List (Act B)) (s : State B) (hrun : run step boot as = some s) : RingsExact s :=
  (run_inv (I := Inv) (fun _ _ _ h _ hs => h.step hs) as .boot (runOk_true as _) hrun).exact

/-- Three calls: two get descriptors, the device completes the second first, and the third call gets the
descriptors of the second. -/
def threeCalls : List (Act (Fin 3)) :=
  [.rw 0 false, .rw 1 true, .rw 2 false, .go 0, .go 1, .go 2, .fetch, .fetch, .complete 1 0, .intr, .round,
    .round, .go 1, .go 2]

theorem rings_exact_three : ∃ s : State (Fin 3), run step boot threeCalls = some s ∧
    s.call 0 = .wait [0, 1, 2] 0 ∧ s.call 1 = .idle ∧ s.call 2 = .wait [3, 4, 5] 2 ∧ RingsExact s := by
  have h : (run step boot threeCalls).any (fun s => decide (s.call 0 = .wait [0, 1, 2] 0 ∧ s.call 1 = .idle ∧
      s.call 2 = .wait [3, 4, 5] 2)) = true := by
    decide +kernel
  obtain ⟨s, hs, h0, h1, h2⟩ := exists_of_any h
  exact ⟨s, hs, h0, h1, h2, rings_exact _ s hs⟩

/-! ## Enough descriptors -/

omit [DecidableEq B] in
/-- `alloc3_desc` gives up when all descriptors but those it has taken itself are in use. -/
theorem allocLoop_none : ∀ {n : Nat} {idx : List Nat} {s s' : State B},
    allocLoop n idx s = some (none, s') →
    ∃ l : List Nat, l.length < n ∧ ∀ i, i < NUM → s.free i = false ∨ i ∈ l := by
  intro n
  induction n with
  | zero => intro idx s s' h; simp [allocLoop] at h
  | succ n ih =>
    intro idx s s' h
    rw [allocLoop, allocDesc] at h
    cases hf : (List.range NUM).find? s.free with
    | none =>
      refine ⟨[], Nat.succ_pos n, fun i hi => .inl ?_⟩
      simpa using List.find?_eq_none.mp hf i (List.mem_range.mpr hi)
    | some j =>
      rw [hf] at h
      obtain ⟨l, hl, hall⟩ := ih h
      refine ⟨j :: l, Nat.succ_lt_succ hl, fun i hi => ?_⟩
      by_cases hij : i = j
      · exact .inr (by simp [hij])
      · rcases hall i hi with hfree | hm
        · exact .inl (by simpa [hij] using hfree)
        · exact .inr (List.mem_cons_of_mem _ hm)

/-- **No call waits for descriptors in vain**, in every run: with at most one request in flight,
`alloc3_desc` succeeds and the request is published at the first attempt. -/
theorem descriptors_suffice (as : List (Act B)) (s : State B) (hrun : run step boot as = some s)
    (hone : ∀ b b' idx idx' r r', s.call b = .wait idx r → s.call b' = .wait idx' r' → b = b')
    (b : B) (write : Bool) : ∃ idx, (submit s b write).call b = .wait idx s.count := by
  have hd := (run_inv (I := Inv) (fun _ _ _ h _ hs => h.step hs) as .boot (runOk_true as _) hrun).descs
  rcases alloc3Desc_cases s with ⟨i0, i1, i2, -, -, he⟩ | he
  · exact ⟨[i0, i1, i2], by simp [submit, he, publish]⟩
  · -- the descriptors in use are those of one request: eight are not among three and two
    obtain ⟨l, hl, hall⟩ := allocLoop_none he
    have hused : ∃ idx : List Nat, idx.length ≤ 3 ∧ ∀ i, i < NUM → s.free i = false → i ∈ idx := by
      by_cases hw : ∃ b idx r, Waits s b idx r
      · obtain ⟨b0, idx, r, hb0⟩ := hw
        refine ⟨idx, Nat.le_of_eq (hd.triple b0 idx r hb0).1, fun i hi hf => ?_⟩
        obtain ⟨b1, idx1, r1, hb1, hm⟩ := (hd.taken i hi).mp hf
        obtain rfl := hone b0 b1 idx idx1 r r1 hb0 hb1
        obtain ⟨rfl, -⟩ := Call.wait.inj (hb0.symm.trans hb1)
        exact hm
      · refine ⟨[], by simp, fun i hi hf => absurd ?_ hw⟩
        obtain ⟨b, idx, r, h, -⟩ := (hd.taken i hi).mp hf
        exact ⟨b, idx, r, h⟩
    obtain ⟨idx, hidx, hin⟩ := hused
    have hsub : List.range NUM ⊆ idx ++ l := fun i hi => by
      rw [List.mem_append]
      rcases hall i (List.mem_range.mp hi) with hf | hm
      · exact .inl (hin i (List.mem_range.mp hi) hf)
      · exact .inr hm
    have hlen := (List.nodup_range.subperm hsub).length_le
    rw [List.length_range, List.length_append] at hlen
    have hnum : NUM = 8 := rfl
    omega

theorem descriptors_suffice_second : ∃ s : State (Fin 2), run step boot [.rw 0 false, .rw 1 true, .go 0] =
    some s ∧ s.call 0 = .wait [0, 1, 2] 0 ∧ ∃ idx, (submit s 1 true).call 1 = .wait idx s.count := by
  have h : (run step boot [.rw 0 false, .rw 1 true, .go 0]).any (fun s : State (Fin 2) =>
      decide (s.call 0 = .wait [0, 1, 2] 0 ∧ s.call 1 = .alloc true)) = true := by
    decide +kernel
  obtain ⟨s, hs, h0, h1⟩ := exists_of_any h
  have hzero : ∀ b idx r, s.call b = .wait idx r → b = 0 := by
    intro b idx r hb
    rcases b with ⟨_ | _ | n, hn⟩
    · rfl
    · rw [show (⟨0 + 1, hn⟩ : Fin 2) = 1 from rfl, h1] at hb; cases hb
    · omega
  exact ⟨s, hs, h0, descriptors_suffice _ s hs (fun b b' _ _ _ _ hb hb' =>
    (hzero b _ _ hb).trans (hzero b' _ _ hb').symm) 1 true⟩

end Dev
end WhuOS
