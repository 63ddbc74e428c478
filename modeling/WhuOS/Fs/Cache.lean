import WhuOS.Lib.Count
import WhuOS.Fs.Entries

/-!
# WhuOS.Fs.Cache

The inode cache over an array of blocks: what `inode_alloc`, `inode_lock`, `inode_unlock` and
`inode_free` do as long as they only read.

* `view`        — the inode of a number as the code sees it: the cached copy if there is a valid
  one, what is on the disk otherwise.
* `Holds`       — a state in which a call has taken references and locks and changed nothing else.
  Each of the functions leads from one such state to another.
-/

namespace WhuOS
namespace Fs

open Lib Sched Kern

variable {z : Bool}

/-! ## Entries of the cache -/

section Find

variable {σ : Type} {s : FsState σ} {n : UInt16} {i : IId}

/-- No two entries in use have the same number. -/
def FsState.Unique (s : FsState σ) : Prop :=
  ∀ i j, 0 < (s.icache i).ref → 0 < (s.icache j).ref →
    (s.icache i).inodeNum = (s.icache j).inodeNum → i = j

theorem findCached_some (h : findCached s n = some i) :
    0 < (s.icache i).ref ∧ (s.icache i).inodeNum = n := by
  simpa using List.find?_some h

theorem findCached_none (h : findCached s n = none) (hi : 0 < (s.icache i).ref) :
    (s.icache i).inodeNum ≠ n := by
  have := List.find?_eq_none.mp h i (List.mem_finRange i)
  simpa [hi] using this

theorem findCached_eq (hu : s.Unique) (hi : 0 < (s.icache i).ref) :
    findCached s (s.icache i).inodeNum = some i := by
  cases h : findCached s (s.icache i).inodeNum with
  | none => exact absurd rfl (findCached_none h hi)
  | some j =>
    obtain ⟨hj, hn⟩ := findCached_some h
    rw [hu j i hj hi hn]

theorem findEmpty_some (h : findEmpty s = some i) : (s.icache i).ref = 0 := by
  simpa using List.find?_some h

theorem findEmpty_isSome (h : (s.icache i).ref = 0) : ∃ j, findEmpty s = some j := by
  cases hf : findEmpty s with
  | some j => exact ⟨j, rfl⟩
  | none =>
    have := List.find?_eq_none.mp hf i (List.mem_finRange i)
    simp [h] at this

end Find

/-! ## Single calls -/

section Calls

variable {σ : Type} {s : FsState σ} {n : UInt16} {ip : IId}

theorem inodeAlloc_cached (h : findCached s n = some ip) :
    inodeAlloc n s = .ok ip (s.setIp ip { s.icache ip with ref := (s.icache ip).ref + 1 }) := by
  simp only [inodeAlloc, bind_run, get_run, h]
  rfl

theorem inodeAlloc_new (h : findCached s n = none) (h0 : findEmpty s = some ip) :
    inodeAlloc n s =
      .ok ip (s.setIp ip { s.icache ip with inodeNum := n, ref := 1, valid := false }) := by
  simp only [inodeAlloc, bind_run, get_run, h, h0]
  rfl

theorem inodeDup_run :
    inodeDup ip s = .ok ip (s.setIp ip { s.icache ip with ref := (s.icache ip).ref + 1 }) := by
  simp [inodeDup, bind_run]

theorem inodeUnlock_run (h : (s.icache ip).slk = true) :
    inodeUnlock ip s = .ok () (s.setIp ip { s.icache ip with slk := false }) := by
  simp [inodeUnlock, slkRelease, bind_run, h]

theorem inodeFree_run [BufLayer σ Nat]
    (h : ¬ ((s.icache ip).ref = 1 ∧ (s.icache ip).valid = true ∧ (s.icache ip).d.nlink = 0)) :
    inodeFree ip s = .ok () (s.setIp ip { s.icache ip with ref := (s.icache ip).ref - 1 }) := by
  simp [inodeFree, bind_run, h]

end Calls

variable {s : FsState (Blocks z)} {ip : IId}

/-- The state after `inode_lock`. -/
def FsState.lock (s : FsState (Blocks z)) (ip : IId) : FsState (Blocks z) :=
  s.setIp ip
    { s.icache ip with
      slk := true
      valid := true
      d := if (s.icache ip).valid then (s.icache ip).d else inodeAt s.dev (s.icache ip).inodeNum }

theorem inodeLock_run (href : 0 < (s.icache ip).ref) (hslk : (s.icache ip).slk = false) :
    inodeLock ip s = .ok () (s.lock ip) := by
  cases hv : (s.icache ip).valid with
  | true => simp [inodeLock, slkAcquire, bind_run, href, hslk, hv, FsState.lock]
  | false =>
    have hrw : ∀ n : Inode, n.slk = true → inodeRw ip false (s.setIp ip n) =
        .ok () (s.setIp ip { n with d := inodeAt s.dev n.inodeNum }) := by
      intro n hn
      rw [inodeRw_read (by simpa using hn)]
      simp [FsState.setIp]
    simp [inodeLock, slkAcquire, bind_run, href, hslk, hv, FsState.lock, hrw]
    simp [FsState.setIp]

theorem inodeLock_hang (href : 0 < (s.icache ip).ref) (hslk : (s.icache ip).slk = true) :
    inodeLock ip s = .error .hang s := by
  simp [inodeLock, slkAcquire, bind_run, href, hslk]

theorem inodeLock_used {t : FsState (Blocks z)} (h : inodeLock ip s = .ok () t) :
    0 < (s.icache ip).ref := by
  by_contra h0
  simp [inodeLock, bind_run, h0] at h

/-! ## What the code sees of an inode -/

def FsState.view (s : FsState (Blocks z)) (n : UInt16) : Dinode :=
  match findCached s n with
  | some i => if (s.icache i).valid then (s.icache i).d else inodeAt s.dev n
  | none => inodeAt s.dev n

theorem view_cached (hu : s.Unique) (hi : 0 < (s.icache ip).ref) :
    s.view (s.icache ip).inodeNum =
      if (s.icache ip).valid then (s.icache ip).d else inodeAt s.dev (s.icache ip).inodeNum := by
  rw [FsState.view, findCached_eq hu hi]

theorem view_uncached {n : UInt16} (h : ∀ i, 0 < (s.icache i).ref → (s.icache i).inodeNum ≠ n) :
    s.view n = inodeAt s.dev n := by
  unfold FsState.view
  cases hf : findCached s n with
  | none => rfl
  | some i => exact absurd (findCached_some hf).2 (h i (findCached_some hf).1)

/-- Two states with the same disk, in which the same entries have the number, with the same
contents. -/
theorem view_congr {s' : FsState (Blocks z)} {n : UInt16} (hu : s.Unique) (hu' : s'.Unique)
    (hdev : s'.dev = s.dev)
    (h : ∀ i, (0 < (s'.icache i).ref ∧ (s'.icache i).inodeNum = n) ↔
      (0 < (s.icache i).ref ∧ (s.icache i).inodeNum = n))
    (hd : ∀ i, 0 < (s.icache i).ref → (s.icache i).inodeNum = n →
      (if (s'.icache i).valid then (s'.icache i).d else inodeAt s.dev n) =
        if (s.icache i).valid then (s.icache i).d else inodeAt s.dev n) :
    s'.view n = s.view n := by
  cases hf : findCached s n with
  | some i =>
    obtain ⟨hi, hn⟩ := findCached_some hf
    obtain ⟨hi', hn'⟩ := (h i).mpr ⟨hi, hn⟩
    have e := view_cached hu hi
    have e' := view_cached hu' hi'
    rw [hn] at e
    rw [hn'] at e'
    rw [e, e', hdev, hd i hi hn]
  | none =>
    rw [view_uncached fun i hi => findCached_none hf hi, view_uncached (s := s'), hdev]
    intro i hi hn
    obtain ⟨h1, h2⟩ := (h i).mp ⟨hi, hn⟩
    exact findCached_none hf h1 h2

/-! ## References and locks of the running call -/

/-- `s` is `s0` with the references `R` and the locks `L` of the running call. -/
structure Holds (s0 s : FsState (Blocks z)) (R L : List IId) : Prop where
  dev : s.dev = s0.dev
  ftable : s.ftable = s0.ftable
  procs : s.procs = s0.procs
  ref : ∀ i, (s.icache i).ref.toNat = (s0.icache i).ref.toNat + R.count i
  slk : ∀ i, (s.icache i).slk = decide (i ∈ L)
  num : ∀ i, 0 < (s0.icache i).ref → (s.icache i).inodeNum = (s0.icache i).inodeNum
  unique : s.Unique
  view : s.view = s0.view
  /-- A locked entry is in use, and it is loaded. -/
  locked : ∀ i, i ∈ L → 0 < (s.icache i).ref ∧ (s.icache i).valid = true

namespace Holds

variable {s0 : FsState (Blocks z)} {R L : List IId}

theorem refl (hu : s.Unique) (hl : ∀ i, (s.icache i).slk = false) : Holds s s [] [] where
  dev := rfl
  ftable := rfl
  procs := rfl
  ref _ := rfl
  slk := hl
  num _ _ := rfl
  unique := hu
  view := rfl
  locked _ h := nomatch h

theorem perm {R' L' : List IId} (h : Holds s0 s R L) (hR : R.Perm R') (hL : L.Perm L') :
    Holds s0 s R' L' where
  dev := h.dev
  ftable := h.ftable
  procs := h.procs
  ref i := by rw [← hR.count_eq]; exact h.ref i
  slk i := by rw [h.slk i, decide_eq_decide]; exact hL.mem_iff
  num := h.num
  unique := h.unique
  view := h.view
  locked i hi := h.locked i (hL.mem_iff.mpr hi)

theorem used (h : Holds s0 s R L) (hi : ip ∈ R) : 0 < (s.icache ip).ref := by
  have := List.count_pos_iff.mpr hi
  have := h.ref ip
  exact pos_iff_toNat.mpr (by omega)

theorem used_of_start (h : Holds s0 s R L) (hi : 0 < (s0.icache ip).ref) : 0 < (s.icache ip).ref := by
  have := h.ref ip
  rw [pos_iff_toNat] at *
  omega

theorem inode (h : Holds s0 s R L) (hi : ip ∈ L) :
    (s.icache ip).d = s0.view (s.icache ip).inodeNum := by
  obtain ⟨hr, hv⟩ := h.locked ip hi
  rw [← h.view, view_cached h.unique hr, hv, if_pos rfl]

theorem edit (h : Holds s0 s R L) {R' L' : List IId} {n : Inode}
    (hnum : n.inodeNum = (s.icache ip).inodeNum) (href : 0 < n.ref) (hused : 0 < (s.icache ip).ref)
    (hn : (if n.valid then n.d else inodeAt s.dev n.inodeNum) =
      if (s.icache ip).valid then (s.icache ip).d else inodeAt s.dev n.inodeNum)
    (hR : n.ref.toNat = (s0.icache ip).ref.toNat + R'.count ip) (hL : n.slk = decide (ip ∈ L'))
    (hloaded : n.slk = true → n.valid = true)
    (hR' : ∀ i, i ≠ ip → R'.count i = R.count i) (hL' : ∀ i, i ≠ ip → (i ∈ L' ↔ i ∈ L)) :
    Holds s0 (s.setIp ip n) R' L' := by
  have hnums : ∀ i, ((s.setIp ip n).icache i).inodeNum = (s.icache i).inodeNum := by
    intro i
    by_cases e : i = ip
    · subst e; simpa using hnum
    · simp [e]
  have hpos : ∀ i, 0 < ((s.setIp ip n).icache i).ref ↔ 0 < (s.icache i).ref := by
    intro i
    by_cases e : i = ip
    · subst e; simp [href, hused]
    · simp [e]
  have hu : (s.setIp ip n).Unique := fun i j hi hj hij =>
    h.unique i j ((hpos i).mp hi) ((hpos j).mp hj) (by rw [← hnums i, ← hnums j]; exact hij)
  refine ⟨h.dev, h.ftable, h.procs, fun i => ?_, fun i => ?_, fun i hi => ?_, hu, ?_, fun i hi => ?_⟩
  · by_cases e : i = ip
    · subst e; simpa using hR
    · simpa [e, hR' i e] using h.ref i
  · by_cases e : i = ip
    · subst e; simpa using hL
    · simpa [e, hL' i e] using h.slk i
  · rw [hnums i]; exact h.num i hi
  · rw [← h.view]
    funext m
    refine view_congr h.unique hu rfl (fun i => by rw [hpos i, hnums i]) fun i _ him => ?_
    by_cases e : i = ip
    · subst e
      rw [hnum, him] at hn
      simpa using hn
    · simp [e]
  · by_cases e : i = ip
    · subst e
      simpa using ⟨href, hloaded (by rw [hL]; exact decide_eq_true hi)⟩
    · simpa [e] using h.locked i ((hL' i e).mp hi)

theorem slk_valid (h : Holds s0 s R L) (hl : (s.icache ip).slk = true) : (s.icache ip).valid = true :=
  (h.locked ip (by rw [h.slk ip] at hl; exact of_decide_eq_true hl)).2

theorem dup (h : Holds s0 s R L) (hused : 0 < (s.icache ip).ref)
    (hroom : (s.icache ip).ref.toNat + 1 < 2 ^ 32) :
    Holds s0 (s.setIp ip { s.icache ip with ref := (s.icache ip).ref + 1 }) (ip :: R) L := by
  have hincr := toNat_incr hroom
  refine h.edit rfl (pos_iff_toNat.mpr (by simp only; omega)) hused rfl ?_ (h.slk ip) h.slk_valid
    (fun i hi => ?_) fun _ _ => Iff.rfl
  · have := h.ref ip
    simp only [List.count_cons_self]
    omega
  · exact List.count_cons_of_ne (Ne.symm hi)

theorem lockIp (h : Holds s0 s R L) (hused : 0 < (s.icache ip).ref) :
    Holds s0 (s.lock ip) R (ip :: L) := by
  refine h.edit rfl hused hused ?_ (h.ref ip) ?_ (fun _ => rfl) (fun _ _ => rfl) fun i hi => ?_
  · simp only [if_true]
  · simp
  · simp [hi]

theorem unlockIp (h : Holds s0 s R (ip :: L)) (hl : ip ∉ L) :
    Holds s0 (s.setIp ip { s.icache ip with slk := false }) R L := by
  have hused := (h.locked ip List.mem_cons_self).1
  refine h.edit rfl hused hused rfl (h.ref ip) ?_ (fun hl => nomatch hl) (fun _ _ => rfl)
    fun i hi => ?_
  · simp [hl]
  · simp [hi]

theorem fill (h : Holds s0 s R L) {n : UInt16} (h0 : (s.icache ip).ref = 0)
    (hno : ∀ i, 0 < (s.icache i).ref → (s.icache i).inodeNum ≠ n) :
    Holds s0 (s.setIp ip { s.icache ip with inodeNum := n, ref := 1, valid := false }) (ip :: R) L := by
  have hs0 := h.ref ip
  rw [eq_zero_iff_toNat.mp h0] at hs0
  have hlock : ip ∉ L := fun e => by
    have := (h.locked ip e).1
    rw [h0] at this
    cases this
  have hu : (s.setIp ip { s.icache ip with inodeNum := n, ref := 1, valid := false }).Unique := by
    intro i j hi hj hij
    by_cases ei : i = ip
    · by_cases ej : j = ip
      · rw [ei, ej]
      · subst ei
        simp [ej] at hj hij
        exact absurd hij.symm (hno j hj)
    · by_cases ej : j = ip
      · subst ej
        simp [ei] at hi hij
        exact absurd hij (hno i hi)
      · simp [ei, ej] at hi hj hij
        exact h.unique i j hi hj hij
  refine ⟨h.dev, h.ftable, h.procs, fun i => ?_, fun i => ?_, fun i hi => ?_, hu, ?_, fun i hi => ?_⟩
  · by_cases e : i = ip
    · subst e; simp; omega
    · simpa [e, Ne.symm e] using h.ref i
  · by_cases e : i = ip
    · subst e; simpa using h.slk i
    · simpa [e] using h.slk i
  · have e : i ≠ ip := fun e => by
      subst e
      rw [pos_iff_toNat] at hi
      omega
    simpa [e] using h.num i hi
  · rw [← h.view]
    funext m
    by_cases hm : m = n
    · subst hm
      have := @view_cached _ _ ip hu (by simp)
      simp only [FsState.setIp_icache, upd_same] at this
      rw [this, view_uncached hno]
      simp
    · refine view_congr h.unique hu rfl (fun i => ?_) fun i hi _ => ?_
      · by_cases e : i = ip
        · subst e
          simp [h0, Ne.symm hm]
        · simp [e]
      · have e : i ≠ ip := fun e => by subst e; rw [h0] at hi; cases hi
        simp [e]
  · have e : i ≠ ip := fun e => hlock (e ▸ hi)
    simpa [e] using h.locked i hi

theorem drop (h : Holds s0 s (ip :: R) L) (hone : (s.icache ip).ref = 1) (hl : ip ∉ L) :
    Holds s0 (s.setIp ip { s.icache ip with ref := 0 }) R L := by
  have hs0 := h.ref ip
  rw [List.count_cons_self, hone, UInt32.toNat_one] at hs0
  have hused : 0 < (s.icache ip).ref := by rw [hone]; decide
  have hu : (s.setIp ip { s.icache ip with ref := 0 }).Unique := by
    intro i j hi hj hij
    have ei : i ≠ ip := fun e => by subst e; simp at hi
    have ej : j ≠ ip := fun e => by subst e; simp at hj
    simp [ei, ej] at hi hj hij
    exact h.unique i j hi hj hij
  refine ⟨h.dev, h.ftable, h.procs, fun i => ?_, fun i => ?_, fun i hi => ?_, hu, ?_, fun i hi => ?_⟩
  · by_cases e : i = ip
    · subst e; simp; omega
    · simpa [e, Ne.symm e] using h.ref i
  · by_cases e : i = ip
    · subst e; simpa using h.slk i
    · simpa [e] using h.slk i
  · have e : i ≠ ip := fun e => by
      subst e
      rw [pos_iff_toNat] at hi
      omega
    simpa [e] using h.num i hi
  · funext m
    by_cases hm : (s.icache ip).inodeNum = m
    · -- the number was not cached at the start
      have hno : ∀ i, 0 < (s0.icache i).ref → (s0.icache i).inodeNum ≠ m := by
        intro i hi e
        have : i = ip := h.unique i ip (h.used_of_start hi) hused (by rw [h.num i hi, e, hm])
        subst this
        rw [pos_iff_toNat] at hi
        omega
      rw [view_uncached hno, view_uncached, FsState.setIp_dev, h.dev]
      intro i hi e
      have ei : i ≠ ip := fun e => by subst e; simp at hi
      simp [ei] at hi e
      exact ei (h.unique i ip hi hused (by rw [e, hm]))
    · rw [← h.view]
      refine view_congr h.unique hu rfl (fun i => ?_) fun i _ him => ?_
      · by_cases e : i = ip
        · subst e; simp [hm]
        · simp [e]
      · have e : i ≠ ip := fun e => hm (e ▸ him)
        simp [e]
  · have e : i ≠ ip := fun e => hl (e ▸ hi)
    simpa [e] using h.locked i hi

/-! ### The calls -/

variable {E : Stop → FsState (Blocks z) → Prop}

/-- The numbers of the entries that were in use do not change. -/
def SameNums (s s' : FsState (Blocks z)) : Prop :=
  ∀ j, 0 < (s.icache j).ref → (s'.icache j).inodeNum = (s.icache j).inodeNum

theorem wp_alloc (h : Holds s0 s R L) (n : UInt16) {Q : IId → FsState (Blocks z) → Prop}
    (hroom : ∀ i, findCached s n = some i → (s.icache i).ref.toNat + 1 < 2 ^ 32)
    (hE : (∀ j, (s.icache j).ref ≠ 0) → E (.panic "inode_alloc: no free inode") s)
    (hQ : ∀ i s', Holds s0 s' (i :: R) L → (s'.icache i).inodeNum = n → SameNums s s' → Q i s') :
    wp (inodeAlloc n) Q E s := by
  cases hf : findCached s n with
  | some i =>
    obtain ⟨hi, hn⟩ := findCached_some hf
    refine wp_of_ok (inodeAlloc_cached hf) (hQ i _ (h.dup hi (hroom i hf)) (by simpa using hn)
      fun j _ => ?_)
    by_cases e : j = i
    · subst e; simp
    · simp [e]
  | none =>
    cases he : findEmpty s with
    | some i =>
      have hi0 := findEmpty_some he
      refine wp_of_ok (inodeAlloc_new hf he) (hQ i _
        (h.fill hi0 fun k hk => findCached_none hf hk) (by simp) fun k hk => ?_)
      have e : k ≠ i := fun e => by subst e; rw [hi0] at hk; cases hk
      simp [e]
    | none =>
      have hfull : ∀ j, (s.icache j).ref ≠ 0 := fun j hj => by
        obtain ⟨i, hi⟩ := findEmpty_isSome hj
        rw [he] at hi
        cases hi
      simp only [inodeAlloc, wp_bind, wp_get, hf, he, wp_panic]
      exact hE hfull

theorem wp_lock (h : Holds s0 s R L) (hused : 0 < (s.icache ip).ref)
    {Q : Unit → FsState (Blocks z) → Prop} (hE : ip ∈ L → E .hang s)
    (hQ : ip ∉ L → Holds s0 (s.lock ip) R (ip :: L) → Q () (s.lock ip)) :
    wp (inodeLock ip) Q E s := by
  by_cases hl : ip ∈ L
  · have hs : (s.icache ip).slk = true := by rw [h.slk ip]; exact decide_eq_true hl
    exact wp_of_error (inodeLock_hang hused hs) (hE hl)
  · have hs : (s.icache ip).slk = false := by rw [h.slk ip]; exact decide_eq_false hl
    exact wp_of_ok (inodeLock_run hused hs) (hQ hl (h.lockIp hused))

theorem unlock (h : Holds s0 s R (ip :: L)) (hl : ip ∉ L) :
    inodeUnlock ip s = .ok () (s.setIp ip { s.icache ip with slk := false }) ∧
      Holds s0 (s.setIp ip { s.icache ip with slk := false }) R L :=
  ⟨inodeUnlock_run (by rw [h.slk]; simp), h.unlockIp hl⟩

theorem free (h : Holds s0 s (ip :: R) L) (hl : ip ∈ L → ip ∈ R)
    (hlink : (s0.icache ip).ref = 0 → ip ∉ R → (s.icache ip).valid = true →
      (s0.view (s.icache ip).inodeNum).nlink ≠ 0) :
    inodeFree ip s = .ok () (s.setIp ip { s.icache ip with ref := (s.icache ip).ref - 1 }) ∧
      Holds s0 (s.setIp ip { s.icache ip with ref := (s.icache ip).ref - 1 }) R L := by
  have href := h.ref ip
  rw [List.count_cons_self] at href
  have hused : 0 < (s.icache ip).ref := h.used List.mem_cons_self
  have hlast : (s.icache ip).ref = 1 → (s0.icache ip).ref = 0 ∧ ip ∉ R := fun h1 => by
    rw [h1, UInt32.toNat_one] at href
    exact ⟨eq_zero_iff_toNat.mpr (by omega), List.count_eq_zero.mp (by omega)⟩
  constructor
  · refine inodeFree_run fun ⟨h1, hv, hn⟩ => hlink (hlast h1).1 (hlast h1).2 hv ?_
    rw [← h.view, view_cached h.unique hused, hv, if_pos rfl, hn]
  · by_cases hone : (s.icache ip).ref = 1
    · have := h.drop hone fun hin => (hlast hone).2 (hl hin)
      rwa [show (0 : UInt32) = (s.icache ip).ref - 1 by rw [hone]; rfl] at this
    · have hdecr := toNat_decr hused
      refine h.edit rfl (by simp only; grind) hused rfl (by simp only; omega) (h.slk ip) h.slk_valid
        (fun i hi => ?_) fun _ _ => Iff.rfl
      exact (List.count_cons_of_ne (Ne.symm hi)).symm

theorem unlockFree (h : Holds s0 s (ip :: R) (ip :: L)) (hl : ip ∉ L)
    (hlink : (s0.icache ip).ref = 0 → ip ∉ R → (s0.view (s.icache ip).inodeNum).nlink ≠ 0) :
    ∃ s', inodeUnlockFree ip s = .ok () s' ∧ Holds s0 s' R L ∧
      ∀ j, (s'.icache j).inodeNum = (s.icache j).inodeNum := by
  obtain ⟨hrun, h1⟩ := h.unlock hl
  obtain ⟨hrun', h2⟩ := h1.free (fun hin => absurd hin hl)
    (fun h0 he _ => by simpa using hlink h0 he)
  refine ⟨_, by rw [inodeUnlockFree, bind_of_ok hrun, hrun'], h2, fun j => ?_⟩
  by_cases e : j = ip
  · subst e; simp
  · simp [e]

end Holds

end Fs
end WhuOS
