import Mathlib.Data.Set.Card
import WhuOS.Sched.Intr

/-!
# WhuOS.Sched.Nesting

The interrupt flag survives nesting and context switches.

* `CpuOk`              — what `noff`, `origin` and the flag of a CPU have to do with the spinlocks it has and
                         with where it stands; one lemma per step of `spinlock.c`.
* `LoopOk`             — `noff` in the loop of `proc_scheduler`.
* `Inv`                — these for all CPUs, with the spinlocks, the threads and what traps have stopped.
* `interrupts_survive` — what holds in every state of every run.
-/

namespace WhuOS
namespace Sched
namespace Intr

open Lib
open Smp (Lk)

variable {C K : Type}

/-! ## One CPU -/

/-- The calls of `push_off` that no spinlock marked with the CPU accounts for. -/
def pending : Pc K → Nat
  | .acqCheck _ | .acqSpin _ | .acqMark _ | .putc | .relUnlock _ | .popCheck | .popCount => 1
  | _ => 0

/-- A place in none of the functions, or before their first change. -/
def Plain : Pc K → Prop
  | .out | .pushGet _ | .relCheck _ | .user | .leave => True
  | _ => False

theorem Plain.pending {pc : Pc K} (h : Plain pc) : pending pc = 0 := by
  cases pc <;> first | rfl | exact h.elim

/-- A sequence that has begun, in the first `push_off`. -/
def First (f sie : Bool) : Pc K → Prop
  | .pushGet _ => sie = f
  | .pushOff old _ => old = f ∧ sie = f
  | .pushCount old _ => old = f
  | _ => False

/-- The flag that is kept for the end of the sequence: in `origin`, or by `proc_sched`. -/
def Saved (f origin : Bool) : Pc K → Prop
  | .restore intena => intena = f
  | _ => origin = f

/-- The sequence of a level, if it is known. -/
def SpanOk (v : Level K) (noff : Nat) (origin sie : Bool) : Prop :=
  match v.span with
  | none => True
  | some (f, 0) => noff = 0 ∧ First f sie v.pc
  | some (f, d + 1) => noff = d + 1 ∧ Saved f origin v.pc

theorem SpanOk.move {pc pc' : Pc K} {sp : Option (Bool × Nat)} {noff : Nat} {origin origin' sie : Bool}
    (h : SpanOk ⟨pc, sp⟩ noff origin sie) (hf : ∀ f sie, ¬ First f sie pc)
    (hr : ∀ f, Saved f origin pc → Saved f origin' pc') : SpanOk ⟨pc', sp⟩ noff origin' sie := by
  match sp with
  | none => trivial
  | some (f, 0) => exact absurd h.2 (hf f sie)
  | some (f, d + 1) => exact ⟨h.1, hr f h.2⟩

/-- A CPU with the spinlocks `held` marked with it that executes `v`. -/
structure CpuOk (held : Set (Lk K)) (noff : Nat) (origin sie : Bool) (v : Level K) : Prop where
  count : held.encard + pending v.pc = noff
  off : sie = true → noff = 0
  counted : ∀ old r, v.pc = .pushCount old r → sie = false
  marked : ∀ l, v.pc = .relUnmark l → l ∈ held
  span : SpanOk v noff origin sie
  user : v.pc = .user ∨ v.pc = .leave → noff = 0

namespace CpuOk

variable {held : Set (Lk K)} {noff : Nat} {origin sie old : Bool} {r : Reason K} {l : Lk K}
  {sp : Option (Bool × Nat)} {v : Level K}

theorem off_of_pos (h : CpuOk held noff origin sie v) (hn : 0 < noff) : sie = false := by
  by_contra hs
  have := h.off (by simpa using hs)
  omega

theorem encard_le (h : CpuOk held noff origin sie v) : held.encard ≤ noff := by
  rw [← h.count]; exact le_self_add

theorem pos_of_pending (h : CpuOk held noff origin sie v) (hp : pending v.pc = 1) : 0 < noff := by
  have hc := h.count
  rw [hp] at hc
  by_contra hn
  have : noff = 0 := by omega
  rw [this] at hc
  simp at hc

theorem pos_of_mem (h : CpuOk held noff origin sie v) (hl : l ∈ held) : 0 < noff := by
  by_contra hn
  have h0 : held.encard ≤ 0 := by
    have := h.encard_le
    rwa [show noff = 0 by omega] at this
  rw [nonpos_iff_eq_zero, Set.encard_eq_zero] at h0
  rw [h0] at hl
  exact hl

theorem pending_zero (h : CpuOk held 0 origin sie v) : pending v.pc = 0 := by
  by_contra hp
  have h1 : pending v.pc = 1 := by
    cases hpc : v.pc <;> first | rfl | (rw [hpc] at hp; exact absurd rfl hp)
  exact absurd (h.pos_of_pending h1) (by omega)

theorem span_none (h : CpuOk held 0 origin sie v) (hf : ∀ f sie, ¬ First f sie v.pc) :
    v.span = none := by
  have hs := h.span
  unfold SpanOk at hs
  split at hs
  · assumption
  · exact absurd hs.2 (hf _ _)
  · exact absurd hs.1 (by omega)

theorem pushGet (h : CpuOk held noff origin sie ⟨.pushGet r, sp⟩) :
    CpuOk held noff origin sie ⟨.pushOff sie r, sp⟩ where
  count := h.count
  off := h.off
  counted := by rintro _ _ ⟨⟩
  marked := by rintro _ ⟨⟩
  span := by
    have hs := h.span
    match sp with
    | none => trivial
    | some (f, 0) => exact ⟨hs.1, hs.2, hs.2⟩
    | some (f, d + 1) => exact hs
  user := by rintro (⟨⟨⟩⟩ | ⟨⟨⟩⟩)

theorem pushOff (h : CpuOk held noff origin sie ⟨.pushOff old r, sp⟩) :
    CpuOk held noff origin false ⟨.pushCount old r, sp⟩ where
  count := h.count
  off := by rintro ⟨⟩
  counted := fun _ _ _ => rfl
  marked := by rintro _ ⟨⟩
  span := by
    have hs := h.span
    match sp with
    | none => trivial
    | some (f, 0) => exact ⟨hs.1, hs.2.1⟩
    | some (f, d + 1) => exact hs
  user := by rintro (⟨⟨⟩⟩ | ⟨⟨⟩⟩)

theorem pushCount (h : CpuOk held noff origin sie ⟨.pushCount old r, sp⟩) :
    CpuOk held (noff + 1) (if noff = 0 then old else origin) sie
      (Level.push ⟨.pushCount old r, sp⟩ r.next) where
  count := by
    have hc := h.count
    have hp : pending r.next = 1 := by cases r <;> rfl
    simp only [pending, Nat.cast_zero, add_zero] at hc
    show held.encard + pending r.next = _
    rw [hp, hc]; rfl
  off := fun hs => absurd (h.counted _ _ rfl) (by simp [hs])
  counted := by cases r <;> rintro _ _ ⟨⟩
  marked := by cases r <;> rintro _ ⟨⟩
  span := by
    have hs := h.span
    match sp with
    | none => trivial
    | some (f, 0) =>
      obtain ⟨rfl, hold⟩ := hs
      refine ⟨rfl, ?_⟩
      cases r <;> exact hold
    | some (f, d + 1) =>
      obtain ⟨rfl, ho⟩ := hs
      refine ⟨rfl, ?_⟩
      rw [if_neg (by omega)]
      cases r <;> exact ho
  user := by cases r <;> rintro (⟨⟨⟩⟩ | ⟨⟨⟩⟩)

theorem move {pc pc' : Pc K} (h : CpuOk held noff origin sie ⟨pc, sp⟩)
    (hp : pending pc' = pending pc) (hc : ∀ old r, pc' ≠ .pushCount old r)
    (hm : ∀ l, pc' = .relUnmark l → l ∈ held) (hf : ∀ f sie, ¬ First f sie pc)
    (hr : ∀ f, Saved f origin pc → Saved f origin pc') (hu : pc' ≠ .user ∧ pc' ≠ .leave) :
    CpuOk held noff origin sie ⟨pc', sp⟩ where
  count := by have := h.count; rwa [← hp] at this
  off := h.off
  counted := fun old r he => absurd he (hc old r)
  marked := hm
  span := h.span.move hf hr
  user := by rintro (he | he); exacts [absurd he hu.1, absurd he hu.2]

theorem inside {pc pc' : Pc K} (h : CpuOk held noff origin sie ⟨pc, sp⟩) (hp : pending pc = 1)
    (hp' : pending pc' = 1) : CpuOk held noff origin sie ⟨pc', sp⟩ := by
  refine h.move (by rw [hp, hp']) ?_ ?_ ?_ ?_ ?_
  · rintro old r rfl; cases hp'
  · rintro l rfl; cases hp'
  · intro f i hf
    cases pc <;> first | exact hf | cases hp
  · intro f hf
    have ho : origin = f := by cases pc <;> first | exact hf | cases hp
    cases pc' <;> first | exact ho | cases hp'
  · constructor <;> (rintro rfl; cases hp')

theorem acqMark (h : CpuOk held noff origin sie ⟨.acqMark l, sp⟩) (hl : l ∉ held) :
    CpuOk (insert l held) noff origin sie ⟨.out, sp⟩ where
  count := by
    rw [Set.encard_insert_of_notMem hl]
    simpa [pending] using h.count
  off := h.off
  counted := by rintro _ _ ⟨⟩
  marked := by rintro _ ⟨⟩
  span := h.span.move (fun _ _ => id) fun _ => id
  user := by rintro (⟨⟨⟩⟩ | ⟨⟨⟩⟩)

theorem relUnmark (h : CpuOk held noff origin sie ⟨.relUnmark l, sp⟩) :
    CpuOk (held \ {l}) noff origin sie ⟨.relUnlock l, sp⟩ where
  count := by
    have := Set.encard_sdiff_singleton_add_one (h.marked l rfl)
    show _ + ((1 : Nat) : ENat) = _
    rw [Nat.cast_one, this]
    simpa [pending] using h.count
  off := h.off
  counted := by rintro _ _ ⟨⟩
  marked := by rintro _ ⟨⟩
  span := h.span.move (fun _ _ => id) fun _ => id
  user := by rintro (⟨⟨⟩⟩ | ⟨⟨⟩⟩)

theorem popCount (h : CpuOk held noff origin sie ⟨.popCount, sp⟩) :
    CpuOk held (noff - 1) origin (popSie (noff - 1) origin sie) (Level.pop ⟨.popCount, sp⟩) where
  count := by
    have hpos := h.pos_of_pending rfl
    have hc := h.count
    obtain ⟨n, rfl⟩ : ∃ n, noff = n + 1 := ⟨noff - 1, by omega⟩
    simp only [pending, Nat.cast_add, Nat.cast_one] at hc
    have := ENat.add_left_injective_of_ne_top ENat.one_ne_top hc
    simpa [Level.pop, pending] using this
  off := by
    intro hs
    unfold popSie at hs
    split at hs
    · rename_i h0; exact h0.1
    · have := h.off hs; omega
  counted := by rintro _ _ ⟨⟩
  marked := by rintro _ ⟨⟩
  span := by
    have hs := h.span
    match sp with
    | none => trivial
    | some (f, 0) => exact hs.2.elim
    | some (f, 1) => trivial
    | some (f, d + 2) =>
      obtain ⟨rfl, ho⟩ := hs
      exact ⟨rfl, ho⟩
  user := by rintro (⟨⟨⟩⟩ | ⟨⟨⟩⟩)

theorem popSie_eq {f : Bool} (h : CpuOk held noff origin sie ⟨.popCount, some (f, 1)⟩) :
    popSie (noff - 1) origin sie = f := by
  obtain ⟨rfl, ho⟩ := h.span
  have hs : sie = false := h.off_of_pos (by omega)
  have ho : origin = f := ho
  subst hs ho
  cases origin <;> rfl

theorem balanced {x : Ctx C} (h : CpuOk held noff origin sie ⟨.popCount, sp⟩) {e : Span}
    (he : e ∈ balanced x ⟨.popCount (K := K), sp⟩ (popSie (noff - 1) origin sie)) :
    e.before = e.after := by
  unfold Intr.balanced at he
  split at he
  · rename_i hv
    cases hv
    rw [List.mem_singleton] at he
    rw [he]
    exact h.popSie_eq.symm
  · cases he

theorem restore {intena : Bool} (h : CpuOk held noff origin sie ⟨.restore intena, sp⟩) :
    CpuOk held noff intena sie ⟨.out, sp⟩ where
  count := h.count
  off := h.off
  counted := by rintro _ _ ⟨⟩
  marked := by rintro _ ⟨⟩
  span := h.span.move (fun _ _ => id) fun _ => id
  user := by rintro (⟨⟨⟩⟩ | ⟨⟨⟩⟩)

theorem enter (h : CpuOk held noff origin sie v) (hv : v.pc = .out) :
    CpuOk held noff origin sie (v.enter noff sie r) where
  count := by have := h.count; rw [hv] at this; exact this
  off := h.off
  counted := by rintro _ _ ⟨⟩
  marked := by rintro _ ⟨⟩
  span := by
    have hs := h.span
    obtain ⟨pc, sp⟩ := v
    cases hv
    unfold Level.enter
    split
    · rename_i h0; exact ⟨h0.2, rfl⟩
    · match sp with
      | none => trivial
      | some (f, 0) => exact hs.2.elim
      | some (f, d + 1) => exact hs
  user := by rintro (⟨⟨⟩⟩ | ⟨⟨⟩⟩)

theorem plain (h : CpuOk held noff origin sie v) (hv : pending v.pc = 0) (pc : Pc K) (sie' : Bool)
    (hpc : Plain pc) (hs : sie' = true → noff = 0) (hu : pc = .user ∨ pc = .leave → noff = 0) :
    CpuOk held noff origin sie' ⟨pc, none⟩ where
  count := by have := h.count; rw [hv] at this; show _ + _ = _; rw [hpc.pending]; exact this
  off := hs
  counted := by rintro old r rfl; exact hpc.elim
  marked := by rintro l rfl; exact hpc.elim
  span := trivial
  user := hu

end CpuOk

/-! ## The loop of `proc_scheduler` -/

/-- The depth of the spinlocks where the loop goes on. -/
def Loop.depth : Loop → Nat
  | .head | .acquire _ | .tail => 0
  | .test _ | .back _ => 1
  | .print _ => 2

/-- A `push_off` that is still to come before the function returns. -/
def toCome : Pc K → Nat
  | .pushGet (.acquire _) | .pushOff _ (.acquire _) | .pushCount _ (.acquire _) => 1
  | _ => 0

/-- A `pop_off` that is still to come. -/
def toGo : Pc K → Nat
  | .putc | .relCheck _ | .relUnmark _ | .relUnlock _ | .popCheck | .popCount => 1
  | _ => 0

def LoopOk (l : Loop) (v : Level K) (noff : Nat) : Prop :=
  v.span = none ∧ noff + toCome v.pc = l.depth + toGo v.pc

/-! ## All of them -/

/-- The spinlocks that are marked with the CPU. -/
def heldBy (s : State C K) (c : C) : Set (Lk K) := {l | s.cpuid l = some c}

/-- The level of the loop itself, and `noff` there. -/
def bottom (s : State C K) (c : C) : Level K × Nat :=
  match (s.under (.sched c)).getLast? with
  | none => (s.level (.sched c), s.noff c)
  | some fr => (fr.1, 0)

structure SchedOk (s : State C K) (c : C) : Prop where
  loop : s.on c = none → LoopOk (s.loop c) (bottom s c).1 (bottom s c).2
  back : ∀ t, s.on c = some t →
    s.loop c = .back t ∧ s.level (.sched c) = ⟨.out, none⟩ ∧ s.under (.sched c) = []

/-- A place where the lock is taken but not marked. -/
def Between (l : Lk K) : Pc K → Prop
  | .acqMark l' | .relUnlock l' => l' = l
  | _ => False

structure Locks (s : State C K) : Prop where
  marked : ∀ l c, s.cpuid l = some c → s.locked l = true
  between : ∀ l c, Between l (s.pc c) → s.locked l = true ∧ s.cpuid l = none
  alone : ∀ l c c', Between l (s.pc c) → Between l (s.pc c') → c = c'

/-- What a thread does first when `proc_scheduler` switches to it: `fork_return`, or the end of
`proc_sched`. -/
def AwayOk (v : Level K) : Prop :=
  v = ⟨.out, none⟩ ∨ ∃ intena, v.pc = .restore intena ∧ (v.span = none ∨ v.span = some (intena, 1))

theorem CpuOk.resume {held : Set (Lk K)} {origin sie : Bool} {v : Level K}
    (h : CpuOk held 1 origin sie ⟨.out, none⟩) (hv : AwayOk v) : CpuOk held 1 origin sie v := by
  rcases hv with rfl | ⟨intena, hpc, hsp⟩
  · exact h
  · obtain ⟨pc, sp⟩ := v
    subst hpc
    refine ⟨h.count, h.off, by rintro _ _ ⟨⟩, by rintro _ ⟨⟩, ?_, by rintro (⟨⟨⟩⟩ | ⟨⟨⟩⟩)⟩
    rcases hsp with rfl | rfl
    · trivial
    · exact ⟨rfl, rfl⟩

theorem AwayOk.not_between {v : Level K} (h : AwayOk v) (l : Lk K) : ¬ Between l v.pc := by
  rcases h with rfl | ⟨intena, hpc, -⟩
  · exact id
  · rw [hpc]; exact id

structure Threads (s : State C K) : Prop where
  running : ∀ c t, s.on c = some t → s.state t = .running
  one : ∀ c c' t, s.on c = some t → s.on c' = some t → c = c'
  away : ∀ t, (∀ c, s.on c ≠ some t) → s.state t ≠ .unused → AwayOk (s.level (.thread t))

/-- What an interrupt has stopped. -/
structure FrameOk (fr : Level K × Bool) : Prop where
  spie : fr.2 = true
  pending : pending fr.1.pc = 0
  counted : ∀ old r, fr.1.pc ≠ .pushCount old r
  marked : ∀ l, fr.1.pc ≠ .relUnmark l
  span : ∀ origin, SpanOk fr.1 0 origin true

structure Inv (s : State C K) : Prop where
  cpu : ∀ c, CpuOk (heldBy s c) (s.noff c) (s.origin c) (s.sie c) (s.level (s.ctx c))
  sched : ∀ c, SchedOk s c
  locks : Locks s
  threads : Threads s
  frames : ∀ x, ∀ fr ∈ s.under x, FrameOk fr
  done : ∀ e ∈ s.done, e.before = e.after

variable {s s' : State C K} {c c' : C} {t : Slot} {l : Lk K}

theorem Locks.mono (h : Locks s) (hlk : s'.locked = s.locked) (hid : s'.cpuid = s.cpuid)
    (hpc : ∀ l c, Between l (s'.pc c) → Between l (s.pc c)) : Locks s' where
  marked := by rw [hlk, hid]; exact h.marked
  between := by rw [hlk, hid]; exact fun l c hb => h.between l c (hpc l c hb)
  alone := fun l c c' h1 h2 => h.alone l c c' (hpc l c h1) (hpc l c' h2)

theorem ctx_thread (h : s.on c = some t) : s.ctx c = .thread t := by simp [State.ctx, h]

theorem ctx_sched (h : s.on c = none) : s.ctx c = .sched c := by simp [State.ctx, h]

theorem Threads.ctx_ne (h : Threads s) (hne : c' ≠ c) : s.ctx c' ≠ s.ctx c := by
  intro he
  unfold State.ctx at he
  split at he <;> split at he <;> cases he
  · exact hne rfl
  · exact hne (h.one c' c _ ‹_› ‹_›)

/-- What a step of `c` leaves alone on the other CPUs. -/
structure Others (s s' : State C K) (c : C) : Prop where
  noff : ∀ c', c' ≠ c → s'.noff c' = s.noff c'
  origin : ∀ c', c' ≠ c → s'.origin c' = s.origin c'
  sie : ∀ c', c' ≠ c → s'.sie c' = s.sie c'
  on : ∀ c', c' ≠ c → s'.on c' = s.on c'
  loop : ∀ c', c' ≠ c → s'.loop c' = s.loop c'
  held : ∀ c', c' ≠ c → heldBy s' c' = heldBy s c'
  level : ∀ c', c' ≠ c → s'.level (s.ctx c') = s.level (s.ctx c')
  sched : ∀ c', c' ≠ c → s'.level (.sched c') = s.level (.sched c')
  under : ∀ c', c' ≠ c → s'.under (.sched c') = s.under (.sched c')

namespace Others

theorem ctx (h : Others s s' c) (hne : c' ≠ c) : s'.ctx c' = s.ctx c' := by
  simp only [State.ctx, h.on c' hne]

theorem pc (h : Others s s' c) (hne : c' ≠ c) : s'.pc c' = s.pc c' := by
  rw [State.pc, State.pc, h.ctx hne, h.level c' hne]

end Others

variable [DecidableEq C]

theorem Inv.change (h : Inv s) (ho : Others s s' c)
    (hcpu : CpuOk (heldBy s' c) (s'.noff c) (s'.origin c) (s'.sie c) (s'.level (s'.ctx c)))
    (hsched : SchedOk s' c) (hlocks : Locks s') (hth : Threads s')
    (hfr : ∀ x, ∀ fr ∈ s'.under x, FrameOk fr) (hdone : ∀ e ∈ s'.done, e.before = e.after) :
    Inv s' where
  cpu := by
    intro c'
    by_cases hne : c' = c
    · subst hne; exact hcpu
    · rw [ho.held c' hne, ho.noff c' hne, ho.origin c' hne, ho.sie c' hne, ho.ctx hne, ho.level c' hne]
      exact h.cpu c'
  sched := by
    intro c'
    by_cases hne : c' = c
    · subst hne; exact hsched
    · have hb : bottom s' c' = bottom s c' := by
        simp only [bottom, ho.under c' hne, ho.sched c' hne, ho.noff c' hne]
      constructor
      · rw [ho.on c' hne, ho.loop c' hne, hb]; exact (h.sched c').loop
      · rw [ho.on c' hne, ho.loop c' hne, ho.sched c' hne, ho.under c' hne]; exact (h.sched c').back
  locks := hlocks
  threads := hth
  frames := hfr
  done := hdone

/-! ### Steps that switch nothing -/

/-- A step of what `c` executes, to the level `v`. -/
structure Local (s s' : State C K) (c : C) (v : Level K) : Prop where
  on : s'.on = s.on
  state : s'.state = s.state
  under : s'.under = s.under
  level : s'.level = upd s.level (s.ctx c) v
  cpu : ∀ c', c' ≠ c → s'.noff c' = s.noff c' ∧ s'.origin c' = s.origin c' ∧ s'.sie c' = s.sie c' ∧
    s'.loop c' = s.loop c'

namespace Local

variable {v : Level K}

theorem ctx (hl : Local s s' c v) : s'.ctx c' = s.ctx c' := by simp only [State.ctx, hl.on]

theorem level_self (hl : Local s s' c v) : s'.level (s'.ctx c) = v := by
  rw [hl.ctx, hl.level, upd_same]

theorem pc_self (hl : Local s s' c v) : s'.pc c = v.pc := by rw [State.pc, hl.level_self]

theorem others (hl : Local s s' c v) (hth : Threads s)
    (hheld : ∀ c', c' ≠ c → heldBy s' c' = heldBy s c') : Others s s' c where
  noff := fun c' hne => (hl.cpu c' hne).1
  origin := fun c' hne => (hl.cpu c' hne).2.1
  sie := fun c' hne => (hl.cpu c' hne).2.2.1
  on := fun c' _ => by rw [hl.on]
  loop := fun c' hne => (hl.cpu c' hne).2.2.2
  held := hheld
  level := fun c' hne => by rw [hl.level, upd_of_ne (hth.ctx_ne hne)]
  sched := fun c' hne => by
    rw [hl.level, upd_of_ne]
    unfold State.ctx
    split <;> simp [hne]
  under := fun c' _ => by rw [hl.under]

theorem threads (hl : Local s s' c v) (h : Threads s) : Threads s' where
  running := by rw [hl.on, hl.state]; exact h.running
  one := by rw [hl.on]; exact h.one
  away := by
    intro t hon hst
    rw [hl.on] at hon
    rw [hl.state] at hst
    rw [hl.level, upd_of_ne]
    · exact h.away t hon hst
    · unfold State.ctx
      split
      · simp
      · rename_i t' ht'
        rintro ⟨⟩
        exact hon c ht'

theorem sched (hl : Local s s' c v) (h : SchedOk s c)
    (hloop : inLoop s c = true → LoopOk (s'.loop c) v (s'.noff c))
    (hkeep : inLoop s c = false → s'.loop c = s.loop c) : SchedOk s' c where
  loop := by
    intro hon
    rw [hl.on] at hon
    by_cases hu : s.under (.sched c) = []
    · have hb : bottom s' c = (v, s'.noff c) := by
        have : s'.level (.sched c) = v := by rw [hl.level, ctx_sched hon, upd_same]
        simp [bottom, hl.under, hu, this]
      rw [hb]
      exact hloop (by simp [inLoop, hon, hu])
    · have hb : bottom s' c = bottom s c := by
        unfold bottom
        rw [hl.under, List.getLast?_eq_some_getLast hu]
      rw [hb, hkeep (by simp [inLoop, hon, hu])]
      exact h.loop hon
  back := by
    intro t hon
    rw [hl.on] at hon
    rw [hkeep (by simp [inLoop, hon]), hl.level, ctx_thread hon, upd_of_ne (by simp), hl.under]
    exact h.back t hon

end Local

theorem Inv.quiet {v : Level K} (h : Inv s) (hl : Local s s' c v) (hlk : s'.locked = s.locked)
    (hid : s'.cpuid = s.cpuid) (hb : ∀ l, Between l v.pc → Between l (s.pc c))
    (hcpu : CpuOk (heldBy s c) (s'.noff c) (s'.origin c) (s'.sie c) v)
    (hloop : inLoop s c = true → LoopOk (s'.loop c) v (s'.noff c))
    (hkeep : inLoop s c = false → s'.loop c = s.loop c)
    (hdone : ∀ e ∈ s'.done, e.before = e.after) : Inv s' := by
  have hheld : ∀ c', heldBy s' c' = heldBy s c' := fun c' => by simp only [heldBy, hid]
  have ho := hl.others h.threads fun c' _ => hheld c'
  have hpc : ∀ l c', Between l (s'.pc c') → Between l (s.pc c') := by
    intro l c' hbl
    by_cases hne : c' = c
    · subst hne; rw [hl.pc_self] at hbl; exact hb l hbl
    · rwa [ho.pc hne] at hbl
  refine h.change ho ?_ (hl.sched (h.sched c) hloop hkeep) (h.locks.mono hlk hid hpc)
    (hl.threads h.threads) ?_ hdone
  · rw [hheld, hl.level_self]; exact hcpu
  · rw [hl.under]; exact h.frames

/-! ### Steps of `spinlock.c` -/

omit [DecidableEq C] in
theorem Inv.loopOk (h : Inv s) (hin : inLoop s c = true) :
    LoopOk (s.loop c) (s.level (s.ctx c)) (s.noff c) := by
  simp only [inLoop, decide_eq_true_eq] at hin
  have := (h.sched c).loop hin.1
  simp only [bottom, hin.2, List.getLast?_nil] at this
  rwa [ctx_sched hin.1]

theorem LoopOk.move {lp : Loop} {v v' : Level K} {n n' : Nat} (h : LoopOk lp v n)
    (hsp : v.span = none → v'.span = none)
    (hn : n' + toCome v'.pc + toGo v.pc = n + toCome v.pc + toGo v'.pc) : LoopOk lp v' n' := by
  obtain ⟨h1, h2⟩ := h
  exact ⟨hsp h1, by omega⟩

theorem Inv.moveCall {v : Level K} (h : Inv s) (hl : Local s s' c v) (hlk : s'.locked = s.locked)
    (hid : s'.cpuid = s.cpuid) (hloop : s'.loop = s.loop) (hdone : s'.done = s.done)
    (hb : ∀ l, ¬ Between l v.pc)
    (hcpu : CpuOk (heldBy s c) (s'.noff c) (s'.origin c) (s'.sie c) v)
    (hsp : (s.level (s.ctx c)).span = none → v.span = none)
    (hn : s'.noff c + toCome v.pc + toGo (s.pc c) = s.noff c + toCome (s.pc c) + toGo v.pc) :
    Inv s' :=
  h.quiet hl hlk hid (fun l hbl => absurd hbl (hb l)) hcpu
    (fun hin => by rw [hloop]; exact (h.loopOk hin).move hsp hn) (fun _ => by rw [hloop])
    (by rw [hdone]; exact h.done)

theorem Inv.atLock [DecidableEq K] {pc : Pc K} {sp : Option (Bool × Nat)} (h : Inv s) (l : Lk K)
    (pc' : Pc K)
    (lk : Bool) (id : Option C) (hv : s.level (s.ctx c) = ⟨pc, sp⟩)
    (hmine : ∀ c', c' ≠ c → s.cpuid l ≠ some c' ∧ ¬ Between l (s.pc c'))
    (hid : ∀ c', id = some c' → c' = c ∧ lk = true)
    (hb : ∀ l', Between l' pc' → l' = l ∧ lk = true ∧ id = none)
    (hcpu : CpuOk {l' | upd s.cpuid l id l' = some c} (s.noff c) (s.origin c) (s.sie c) ⟨pc', sp⟩)
    (hn : toCome pc' + toGo pc = toCome pc + toGo pc') :
    Inv ({ s with locked := upd s.locked l lk, cpuid := upd s.cpuid l id }.setPc (s.ctx c) pc') := by
  have hl : Local s ({ s with locked := upd s.locked l lk, cpuid := upd s.cpuid l id }.setPc (s.ctx c) pc')
      c ⟨pc', sp⟩ := ⟨rfl, rfl, rfl, by simp [State.setPc, hv], fun _ _ => ⟨rfl, rfl, rfl, rfl⟩⟩
  have hpc : s.pc c = pc := by rw [State.pc, hv]
  have ho := hl.others h.threads fun c' hne => by
    ext l'
    by_cases hll : l' = l
    · subst hll
      have : id ≠ some c' := fun he => hne (hid c' he).1
      simp [heldBy, State.setPc, this, (hmine c' hne).1]
    · simp [heldBy, State.setPc, hll]
  have hother : ∀ l' c', c' ≠ c → Between l' (s.pc c') → l' ≠ l := by
    rintro l' c' hne hbl rfl
    exact (hmine c' hne).2 hbl
  refine h.change ho ?_ (hl.sched (h.sched c) (fun hin => (h.loopOk hin).move ?_ ?_) fun _ => rfl)
    ⟨fun l' c' => ?_, fun l' c' hbl => ?_, fun l' c1 c2 h1 h2 => ?_⟩ (hl.threads h.threads) h.frames h.done
  · rw [hl.level_self]; exact hcpu
  · rw [hv]; exact fun hs => hs
  · rw [hv]; simp only [State.setPc]; omega
  · simp only [State.setPc, upd_apply]
    split
    · exact fun he => (hid c' he).2
    · exact h.locks.marked l' c'
  · by_cases hne : c' = c
    · subst hne
      rw [hl.pc_self] at hbl
      obtain ⟨rfl, hlk, hnone⟩ := hb l' hbl
      simp [State.setPc, hlk, hnone]
    · rw [ho.pc hne] at hbl
      simpa [State.setPc, hother l' c' hne hbl] using h.locks.between l' c' hbl
  · by_cases hc1 : c1 = c <;> by_cases hc2 : c2 = c
    · rw [hc1, hc2]
    · subst hc1
      rw [hl.pc_self] at h1
      rw [ho.pc hc2] at h2
      exact absurd (hb l' h1).1 (hother l' c2 hc2 h2)
    · subst hc2
      rw [hl.pc_self] at h2
      rw [ho.pc hc1] at h1
      exact absurd (hb l' h2).1 (hother l' c1 hc1 h1)
    · rw [ho.pc hc1] at h1
      rw [ho.pc hc2] at h2
      exact h.locks.alone l' c1 c2 h1 h2

omit [DecidableEq C] in
theorem Locks.mine_of_between (h : Locks s) (hb : Between l (s.pc c)) (c' : C) (hne : c' ≠ c) :
    s.cpuid l ≠ some c' ∧ ¬ Between l (s.pc c') := by
  obtain ⟨-, hid⟩ := h.between l c hb
  exact ⟨by simp [hid], fun hb' => hne (h.alone l c' c hb' hb)⟩

theorem local_setPc {v : Level K} {pc : Pc K} (hv : s.level (s.ctx c) = v) :
    Local s (s.setPc (s.ctx c) pc) c ⟨pc, v.span⟩ :=
  ⟨rfl, rfl, rfl, by simp [State.setPc, hv], fun _ _ => ⟨rfl, rfl, rfl, rfl⟩⟩

theorem Inv.goCall [DecidableEq K] (h : Inv s) (hs : goCall s c (s.ctx c) (s.pc c) = some s') : Inv s' := by
  have hcpu := h.cpu c
  obtain ⟨pc, sp, hv⟩ : ∃ pc sp, s.level (s.ctx c) = ⟨pc, sp⟩ := ⟨_, _, rfl⟩
  have hpc : s.pc c = pc := by rw [State.pc, hv]
  rw [hv] at hcpu
  rw [hpc] at hs
  cases pc with
  | out | user => cases hs
  | pushGet r =>
    cases hs
    refine h.moveCall (local_setPc hv) rfl rfl rfl rfl (fun _ => id) hcpu.pushGet (by rw [hv]; exact id) ?_
    rw [hpc]
    cases r <;> rfl
  | pushOff old r =>
    cases hs
    refine h.moveCall (c := c) (v := ⟨.pushCount old r, sp⟩)
      ⟨rfl, rfl, rfl, by simp [State.setPc, hv], fun _ hne => by simp [State.setPc, hne]⟩
      rfl rfl rfl rfl (fun _ => id) ?_ (by rw [hv]; exact id) ?_
    · simpa [State.setPc] using hcpu.pushOff
    · rw [hpc]
      cases r <;> rfl
  | pushCount old r =>
    cases hs
    refine h.moveCall (c := c) (v := Level.push ⟨.pushCount old r, sp⟩ r.next)
      ⟨rfl, rfl, rfl, by simp [hv], fun _ hne => by simp [hne]⟩
      rfl rfl rfl rfl ?_ ?_ (by rw [hv]; rintro rfl; rfl) ?_
    · cases r <;> exact fun _ => id
    · simpa using hcpu.pushCount
    · rw [hpc]
      cases r <;> simp [Level.push, Reason.next, toCome, toGo]
  | acqCheck l =>
    simp only [Intr.goCall] at hs
    split at hs <;> cases hs
    refine h.moveCall (local_setPc hv) rfl rfl rfl rfl (fun _ => id) ?_ (by rw [hv]; exact id) (by rw [hpc]; rfl)
    exact hcpu.inside rfl rfl
  | putc =>
    cases hs
    refine h.moveCall (local_setPc hv) rfl rfl rfl rfl (fun _ => id) ?_ (by rw [hv]; exact id) (by rw [hpc]; rfl)
    exact hcpu.inside rfl rfl
  | relCheck l =>
    simp only [Intr.goCall] at hs
    split at hs <;> cases hs
    rename_i hhold
    refine h.moveCall (local_setPc hv) rfl rfl rfl rfl (fun _ => id) ?_ (by rw [hv]; exact id) (by rw [hpc]; rfl)
    refine hcpu.move rfl (by rintro _ _ ⟨⟩) ?_ (fun _ _ => id) (fun _ => id) (by simp)
    rintro _ ⟨⟩
    simpa [State.holding, heldBy] using (Bool.and_eq_true_iff.mp hhold).2
  | popCheck =>
    simp only [Intr.goCall] at hs
    split at hs <;> cases hs
    refine h.moveCall (local_setPc hv) rfl rfl rfl rfl (fun _ => id) ?_ (by rw [hv]; exact id) (by rw [hpc]; rfl)
    exact hcpu.inside rfl rfl
  | popCount =>
    cases hs
    refine h.quiet (c := c) (v := Level.pop ⟨.popCount, sp⟩)
      ⟨rfl, rfl, rfl, by simp [hv], fun _ hne => by simp [hne]⟩ rfl rfl (fun _ => False.elim) ?_ ?_
      (fun _ => rfl) ?_
    · simpa using hcpu.popCount
    · intro hin
      have hlo := h.loopOk hin
      have hpos := hcpu.pos_of_pending rfl
      rw [hv] at hlo
      refine hlo.move ?_ ?_
      · rintro rfl; rfl
      · simp only [upd_same, Level.pop, toCome, toGo]; omega
    · intro e he
      rcases List.mem_append.mp he with he | he
      · rw [hv] at he; exact hcpu.balanced he
      · exact h.done e he
  | restore intena =>
    cases hs
    refine h.moveCall (c := c) (v := ⟨.out, sp⟩)
      ⟨rfl, rfl, rfl, by simp [State.setPc, hv], fun _ hne => by simp [State.setPc, hne]⟩
      rfl rfl rfl rfl (fun _ => id) ?_ (by rw [hv]; exact id) (by rw [hpc]; rfl)
    simpa [State.setPc] using hcpu.restore
  | leave =>
    cases hs
    have h0 : s.noff c = 0 := hcpu.user (.inr rfl)
    rw [h0] at hcpu
    have hsp : sp = none := hcpu.span_none fun _ _ => id
    subst hsp
    refine h.moveCall (c := c) (v := ⟨.user, none⟩)
      ⟨rfl, rfl, rfl, by simp [State.setPc, hv], fun _ hne => by simp [State.setPc, hne]⟩
      rfl rfl rfl rfl (fun _ => id) ?_ (fun _ => rfl) (by rw [hpc]; rfl)
    have := hcpu.plain rfl .user true trivial (fun _ => rfl) fun _ => rfl
    simpa [State.setPc, h0] using this
  | acqSpin l =>
    simp only [Intr.goCall] at hs
    split at hs <;> cases hs
    rename_i hfree
    have hid : s.cpuid l = none := by
      by_contra hne
      obtain ⟨c', hc'⟩ := Option.ne_none_iff_exists'.mp hne
      exact hfree (h.locks.marked l c' hc')
    have := h.atLock (c := c) l (.acqMark l) true none hv
      (fun c' _ => ⟨by simp [hid], fun hb => hfree (h.locks.between l c' hb).1⟩) (by rintro _ ⟨⟩)
      (by rintro _ rfl; exact ⟨rfl, rfl, rfl⟩) ?_ rfl
    · rwa [← hid, upd_self] at this
    · rw [← hid, upd_self]
      exact hcpu.inside rfl rfl
  | acqMark l =>
    cases hs
    have hself : Between l (s.pc c) := by rw [hpc]; rfl
    obtain ⟨hlk, hid⟩ := h.locks.between l c hself
    have := h.atLock (c := c) l .out true (some c) hv
      (h.locks.mine_of_between hself) (by rintro _ ⟨⟩; exact ⟨rfl, rfl⟩) (fun _ => False.elim) ?_ rfl
    · rwa [← hlk, upd_self] at this
    · have hins : {l' | upd s.cpuid l (some c) l' = some c} = insert l (heldBy s c) := by
        ext l'
        by_cases he : l' = l <;> simp [heldBy, he]
      rw [hins]
      exact hcpu.acqMark (by simp [heldBy, hid])
  | relUnmark l =>
    cases hs
    have hid : s.cpuid l = some c := hcpu.marked l rfl
    have hlk := h.locks.marked l c hid
    have := h.atLock (c := c) l (.relUnlock l) true none hv
      (fun c' hne => ⟨by simpa [hid] using Ne.symm hne, fun hb => by
        have := (h.locks.between l c' hb).2
        rw [hid] at this
        cases this⟩) (by rintro _ ⟨⟩) (by rintro _ rfl; exact ⟨rfl, rfl, rfl⟩) ?_ rfl
    · rwa [← hlk, upd_self] at this
    · have hdel : {l' | upd s.cpuid l none l' = some c} = heldBy s c \ {l} := by
        ext l'
        by_cases he : l' = l <;> simp [heldBy, he]
      rw [hdel]
      exact hcpu.relUnmark
  | relUnlock l =>
    cases hs
    have hself : Between l (s.pc c) := by rw [hpc]; rfl
    obtain ⟨-, hid⟩ := h.locks.between l c hself
    have := h.atLock (c := c) l .popCheck false none hv
      (h.locks.mine_of_between hself) (by rintro _ ⟨⟩) (fun _ => False.elim) ?_ rfl
    · rwa [← hid, upd_self] at this
    · rw [← hid, upd_self]
      exact hcpu.inside rfl rfl

/-! ### The scheduler -/

omit [DecidableEq C] in
theorem Inv.atLoop (h : Inv s) (hin : inLoop s c = true) (hout : s.pc c = .out) :
    s.level (s.ctx c) = ⟨.out, none⟩ ∧ s.noff c = (s.loop c).depth := by
  obtain ⟨hsp, hn⟩ := h.loopOk hin
  have hpc : (s.level (s.ctx c)).pc = .out := hout
  rw [hpc] at hn
  refine ⟨?_, by simpa [toCome, toGo] using hn⟩
  rw [← hpc, ← hsp]

theorem Inv.loopStep (h : Inv s) (hin : inLoop s c = true) (hout : s.pc c = .out) (sie : Bool) (lp : Loop)
    (hd : lp.depth = (s.loop c).depth) (hs : sie = true → s.sie c = true ∨ (s.loop c).depth = 0) :
    Inv { s with sie := upd s.sie c sie, loop := upd s.loop c lp } := by
  obtain ⟨hv, hn⟩ := h.atLoop hin hout
  have hcpu := h.cpu c
  rw [hv] at hcpu
  refine h.quiet (c := c) (v := ⟨.out, none⟩)
    ⟨rfl, rfl, rfl, by simp [← hv], fun _ hne => by simp [hne]⟩ rfl rfl (fun _ => False.elim) ?_ ?_ ?_ h.done
  · have := hcpu.plain rfl .out sie trivial (fun he => by
      rcases hs he with h1 | h1
      · exact hcpu.off h1
      · rw [hn, h1]) (by rintro (⟨⟨⟩⟩ | ⟨⟨⟩⟩))
    simpa using this
  · intro _
    exact ⟨rfl, by simp [hn, hd, toCome, toGo]⟩
  · intro hf
    rw [hin] at hf
    cases hf

theorem Inv.toCall {f : Pc K} {lp : Loop} (h : Inv s) (hin : inLoop s c = true) (hout : s.pc c = .out)
    (hf : Plain f) (hu : f ≠ .user ∧ f ≠ .leave)
    (hd : (s.loop c).depth + toCome f = lp.depth + toGo f) : Inv (toCall s c f lp) := by
  obtain ⟨hv, hn⟩ := h.atLoop hin hout
  obtain ⟨hon, -⟩ : s.on c = none ∧ s.under (.sched c) = [] := by simpa [inLoop] using hin
  have hcpu := h.cpu c
  rw [hv] at hcpu
  refine h.quiet (c := c) (v := ⟨f, none⟩)
    ⟨rfl, rfl, rfl, ?_, fun _ hne => by simp [Intr.toCall, State.setPc, hne]⟩ rfl rfl ?_ ?_ ?_ ?_ h.done
  · rw [ctx_sched hon] at hv ⊢
    simp [Intr.toCall, State.setPc, hv]
  · intro l hb
    cases f <;> first | exact hb.elim | exact hf.elim
  · exact hcpu.plain rfl f (s.sie c) hf hcpu.off (by rintro (he | he); exacts [absurd he hu.1, absurd he hu.2])
  · intro _
    exact ⟨rfl, by simp [Intr.toCall, State.setPc, hn, hd]⟩
  · intro hf
    rw [hin] at hf
    cases hf

theorem Inv.switchTo {i : Slot} (h : Inv s) (hin : inLoop s c = true) (hout : s.pc c = .out)
    (hlp : s.loop c = .test i) (hst : s.state i = .runnable) :
    Inv { s with
      state := upd s.state i .running
      on := upd s.on c (some i)
      loop := upd s.loop c (.back i) } := by
  obtain ⟨hv, hn⟩ := h.atLoop hin hout
  obtain ⟨hon, hu⟩ : s.on c = none ∧ s.under (.sched c) = [] := by simpa [inLoop] using hin
  have haway : ∀ c', s.on c' ≠ some i := by
    intro c' hc'
    have := h.threads.running c' i hc'
    rw [hst] at this
    cases this
  have hi := h.threads.away i haway (by rw [hst]; exact PState.noConfusion)
  have ho : Others s { s with
      state := upd s.state i .running
      on := upd s.on c (some i)
      loop := upd s.loop c (.back i) } c :=
    ⟨fun _ _ => rfl, fun _ _ => rfl, fun _ _ => rfl, fun _ hne => upd_of_ne hne,
      fun _ hne => upd_of_ne hne, fun _ _ => rfl, fun _ _ => rfl, fun _ _ => rfl, fun _ _ => rfl⟩
  have hcpu := h.cpu c
  rw [hv, hn, hlp] at hcpu
  refine h.change ho ?_ ⟨?_, ?_⟩ (h.locks.mono rfl rfl ?_) ⟨?_, ?_, ?_⟩ h.frames h.done
  · rw [ctx_thread (upd_same ..), hn, hlp]
    exact hcpu.resume hi
  · simp
  · intro t ht
    obtain rfl : i = t := by simpa using ht
    rw [ctx_sched hon] at hv
    exact ⟨upd_same .., hv, hu⟩
  · intro l c' hb
    by_cases hne : c' = c
    · subst hne
      rw [State.pc, ctx_thread (upd_same ..)] at hb
      exact absurd hb (hi.not_between l)
    · rwa [ho.pc hne] at hb
  · intro c' t ht
    by_cases hti : t = i
    · rw [hti]; exact upd_same ..
    · have hne : c' ≠ c := by rintro rfl; exact hti (by simpa using ht.symm)
      simp only [upd_of_ne hne] at ht
      simp only [upd_of_ne hti]
      exact h.threads.running c' t ht
  · intro c1 c2 t h1 h2
    by_cases hc1 : c1 = c <;> by_cases hc2 : c2 = c
    · rw [hc1, hc2]
    · subst hc1
      obtain rfl : i = t := by simpa using h1
      exact absurd ((ho.on c2 hc2).symm.trans h2) (haway c2)
    · subst hc2
      obtain rfl : i = t := by simpa using h2
      exact absurd ((ho.on c1 hc1).symm.trans h1) (haway c1)
    · exact h.threads.one c1 c2 t ((ho.on c1 hc1).symm.trans h1) ((ho.on c2 hc2).symm.trans h2)
  · intro t hno hstt
    have hti : t ≠ i := by rintro rfl; exact hno c (upd_same ..)
    refine h.threads.away t (fun c' hc' => ?_) (by simpa [hti] using hstt)
    by_cases hne : c' = c
    · rw [hne, hon] at hc'; cases hc'
    · exact hno c' ((ho.on c' hne).trans hc')

theorem Inv.goLoop (h : Inv s) (hin : inLoop s c = true) (hout : s.pc c = .out) :
    Inv (goLoop s c (s.loop c)) := by
  cases hlp : s.loop c with
  | head => exact h.loopStep hin hout _ _ (by rw [hlp]; rfl) (by simp [hlp, Loop.depth])
  | tail => exact h.loopStep hin hout _ _ (by rw [hlp]; rfl) (by simp [hlp, Loop.depth])
  | acquire i =>
    simp only [Intr.goLoop]
    split
    · exact h.toCall hin hout trivial (by simp) (by rw [hlp]; rfl)
    · have := h.loopStep hin hout (s.sie c) .tail (by rw [hlp]; rfl) .inl
      rwa [upd_self] at this
  | test i =>
    simp only [Intr.goLoop]
    split
    · exact h.switchTo hin hout hlp ‹_›
    · exact h.toCall hin hout trivial (by simp) (by rw [hlp]; rfl)
  | print i | back i => exact h.toCall hin hout trivial (by simp) (by rw [hlp]; rfl)

/-! ### The calls -/

omit [DecidableEq C] in
theorem Inv.setState {st : PState} (h : Inv s) (ht : s.state t ≠ .running)
    (hst : st ≠ .unused → s.state t ≠ .unused) : Inv { s with state := upd s.state t st } := by
  refine ⟨h.cpu, fun c => ⟨(h.sched c).loop, (h.sched c).back⟩,
    ⟨h.locks.marked, h.locks.between, h.locks.alone⟩, ⟨?_, h.threads.one, ?_⟩, h.frames, h.done⟩
  · intro c t' hon
    have hrun := h.threads.running c t' hon
    have hne : t' ≠ t := by rintro rfl; exact ht hrun
    rw [← hrun]
    exact upd_of_ne hne
  · intro t' hon hun
    refine h.threads.away t' hon ?_
    by_cases he : t' = t
    · subst he
      exact hst (by simpa using hun)
    · simpa [he] using hun

theorem Inv.start (h : Inv s) (ht : s.state t = .unused) :
    Inv { s with
      state := upd s.state t .runnable
      level := upd s.level (.thread t) ⟨.out, none⟩
      under := upd s.under (.thread t) [] } := by
  have hctx : ∀ c, s.ctx c ≠ .thread t := by
    intro c he
    unfold State.ctx at he
    split at he <;> cases he
    have := h.threads.running c t ‹_›
    rw [ht] at this
    cases this
  have hlv : ∀ c, upd s.level (.thread t) ⟨.out, none⟩ (s.ctx c) = s.level (s.ctx c) :=
    fun c => upd_of_ne (hctx c)
  refine ⟨fun c => ?_, fun c => ⟨(h.sched c).loop, (h.sched c).back⟩, h.locks.mono rfl rfl fun l c => ?_,
    ⟨fun c t' hon => ?_, h.threads.one, fun t' hon hun => ?_⟩, fun x fr hfr => ?_, h.done⟩
  · show CpuOk _ _ _ _ (upd s.level (.thread t) ⟨.out, none⟩ (s.ctx c))
    rw [hlv]
    exact h.cpu c
  · show Between l (upd s.level (.thread t) ⟨.out, none⟩ (s.ctx c)).pc → _
    rw [hlv]
    exact id
  · have hrun := h.threads.running c t' hon
    have hne : t' ≠ t := by rintro rfl; rw [ht] at hrun; cases hrun
    rw [← hrun]
    exact upd_of_ne hne
  · by_cases he : t' = t
    · subst he
      exact .inl (upd_same ..)
    · have := h.threads.away t' hon (by simpa [he] using hun)
      simpa [he] using this
  · by_cases he : x = .thread t
    · subst he
      simp at hfr
    · exact h.frames x fr (by simpa [he] using hfr)

theorem Inv.switchFrom {st : PState} (h : Inv s) (hon : s.on c = some t) (hout : s.pc c = .out)
    (hok : schedOk s c t st = true) :
    Inv ({ s with state := upd s.state t st, on := upd s.on c none }.setPc (.thread t)
      (.restore (s.origin c))) := by
  simp only [schedOk, Bool.and_eq_true, beq_iff_eq, decide_eq_true_eq, Bool.not_eq_true'] at hok
  obtain ⟨⟨⟨-, hn⟩, hst⟩, -⟩ := hok
  obtain ⟨hlp, hsv, hu⟩ := (h.sched c).back t hon
  have hx := ctx_thread hon
  have hcpu := h.cpu c
  have hpc : (s.level (s.ctx c)).pc = .out := hout
  have hne : ∀ c', c' ≠ c → s.ctx c' ≠ .thread t := fun c' hc' => hx ▸ h.threads.ctx_ne hc'
  have ho : Others s ({ s with state := upd s.state t st, on := upd s.on c none }.setPc (.thread t)
      (.restore (s.origin c))) c :=
    ⟨fun _ _ => rfl, fun _ _ => rfl, fun _ _ => rfl, fun _ hc' => upd_of_ne hc', fun _ _ => rfl,
      fun _ _ => rfl, fun c' hc' => upd_of_ne (hne c' hc'), fun _ _ => by simp [State.setPc], fun _ _ => rfl⟩
  refine h.change ho ?_ ⟨fun _ => ?_, fun t' ht' => ?_⟩ (h.locks.mono rfl rfl ?_) ⟨?_, ?_, ?_⟩ h.frames h.done
  · have hlv : ({ s with state := upd s.state t st, on := upd s.on c none }.setPc (.thread t)
        (.restore (s.origin c))).level (.sched c) = ⟨.out, none⟩ := by simp [State.setPc, hsv]
    rw [ctx_sched (upd_same ..), hlv]
    exact hcpu.plain (by rw [hpc]; rfl) .out (s.sie c) trivial hcpu.off (by rintro (⟨⟨⟩⟩ | ⟨⟨⟩⟩))
  · have hb : bottom ({ s with state := upd s.state t st, on := upd s.on c none }.setPc (.thread t)
        (.restore (s.origin c))) c = (⟨.out, none⟩, 1) := by
      simp [bottom, State.setPc, hu, hsv, hn]
    rw [hb]
    show LoopOk (s.loop c) _ _
    rw [hlp]
    exact ⟨rfl, rfl⟩
  · simp [State.setPc] at ht'
  · intro l c' hb
    by_cases hc' : c' = c
    · subst hc'
      rw [State.pc, ctx_sched (upd_same ..)] at hb
      simp [State.setPc, hsv, Between] at hb
    · rwa [ho.pc hc'] at hb
  · intro c' t' ht'
    have hc' : c' ≠ c := by rintro rfl; simp [State.setPc] at ht'
    have hon' : s.on c' = some t' := (ho.on c' hc').symm.trans ht'
    have htt : t' ≠ t := by rintro rfl; exact hc' (h.threads.one c' c t' hon' hon)
    rw [← h.threads.running c' t' hon']
    exact upd_of_ne htt
  · intro c1 c2 t' h1 h2
    have hc1 : c1 ≠ c := by rintro rfl; simp [State.setPc] at h1
    have hc2 : c2 ≠ c := by rintro rfl; simp [State.setPc] at h2
    exact h.threads.one c1 c2 t' ((ho.on c1 hc1).symm.trans h1) ((ho.on c2 hc2).symm.trans h2)
  · intro t' hno hun
    by_cases htt : t' = t
    · subst htt
      refine .inr ⟨s.origin c, by simp [State.setPc], ?_⟩
      -- what the thread has open is its own lock
      have hsp := hcpu.span
      rw [hx, hn] at hsp
      rw [hx] at hpc
      unfold SpanOk at hsp
      simp only [State.setPc, upd_same]
      split at hsp
      · exact .inl ‹_›
      · exact absurd hsp.1 (by omega)
      · rename_i f d hspan
        obtain ⟨hd, hf⟩ := hsp
        obtain rfl : d = 0 := by omega
        rw [hpc] at hf
        rw [hspan, show s.origin c = f from hf]
        exact .inr rfl
    · have hlv := h.threads.away t' (fun c' hc' => ?_) (by simpa [State.setPc, htt] using hun)
      · simpa [State.setPc, htt] using hlv
      · by_cases hcc : c' = c
        · rw [hcc, hon] at hc'; exact htt (Option.some.inj hc').symm
        · exact hno c' ((ho.on c' hcc).trans hc')

theorem Inv.call {op : Op K} (h : Inv s) (hin : ¬ inLoop s c) (hout : s.pc c = .out)
    (hs : call s c (s.ctx c) op = some s') : Inv s' := by
  have hcpu := h.cpu c
  obtain ⟨pc, sp, hv⟩ : ∃ pc sp, s.level (s.ctx c) = ⟨pc, sp⟩ := ⟨_, _, rfl⟩
  obtain rfl : pc = .out := by rw [State.pc, hv] at hout; exact hout
  -- none of the steps below is one of the loop
  have hquiet : ∀ {s' : State C K} {v : Level K}, Local s s' c v → s'.locked = s.locked →
      s'.cpuid = s.cpuid → s'.loop = s.loop → s'.done = s.done → (∀ l, ¬ Between l v.pc) →
      CpuOk (heldBy s c) (s'.noff c) (s'.origin c) (s'.sie c) v → Inv s' :=
    fun hl hlk hid hlp hd hb hc => h.quiet hl hlk hid (fun l hbl => absurd hbl (hb l)) hc
      (fun hi => absurd hi hin) (fun _ => by rw [hlp]) (by rw [hd]; exact h.done)
  cases op with
  | acquire l | putc =>
    cases hs
    exact hquiet ⟨rfl, rfl, rfl, rfl, fun _ _ => ⟨rfl, rfl, rfl, rfl⟩⟩ rfl rfl rfl rfl (fun _ => id)
      (hcpu.enter hout)
  | release l =>
    cases hs
    rw [hv] at hcpu
    exact hquiet (local_setPc hv) rfl rfl rfl rfl (fun _ => id)
      (hcpu.move rfl (by rintro _ _ ⟨⟩) (by rintro _ ⟨⟩) (fun _ _ => id) (fun _ => id) (by simp))
  | sched st =>
    cases hon : s.on c with
    | none => rw [ctx_sched hon] at hs; cases hs
    | some t =>
      rw [ctx_thread hon] at hs
      simp only [Intr.call] at hs
      split at hs <;> cases hs
      exact h.switchFrom hon hout ‹_›
  | wakeup t =>
    simp only [Intr.call] at hs
    split at hs <;> cases hs
    rename_i ht
    exact h.setState (by rw [ht.2]; exact PState.noConfusion) fun _ => by rw [ht.2]; exact PState.noConfusion
  | start t =>
    simp only [Intr.call] at hs
    split at hs <;> cases hs
    rename_i ht
    exact h.start ht.2
  | free t =>
    simp only [Intr.call] at hs
    split at hs <;> cases hs
    rename_i ht
    exact h.setState (by rw [ht.2]; exact PState.noConfusion) fun hne => absurd rfl hne
  | leave =>
    cases hon : s.on c with
    | none => rw [ctx_sched hon] at hs; cases hs
    | some t =>
      have hx := ctx_thread hon
      rw [hx] at hs
      simp only [Intr.call] at hs
      split at hs <;> cases hs
      rename_i h0
      rw [h0.2, hv] at hcpu
      obtain rfl : sp = none := hcpu.span_none fun _ _ => id
      refine hquiet (v := ⟨.leave, none⟩) ⟨rfl, rfl, rfl, ?_, fun _ hne => by simp [State.setPc, hne]⟩
        rfl rfl rfl rfl (fun _ => id) ?_
      · rw [hx] at hv ⊢
        simp [State.setPc, hv]
      · have := hcpu.plain rfl .leave false trivial (fun _ => rfl) fun _ => rfl
        simpa [State.setPc, h0.2] using this

/-! ### Traps -/

theorem Inv.relevel {v : Level K} {u : List (Level K × Bool)} {sie : Bool} (h : Inv s)
    (hcpu : CpuOk (heldBy s c) (s.noff c) (s.origin c) sie v) (hb : ∀ l, ¬ Between l v.pc)
    (hfr : ∀ fr ∈ u, FrameOk fr)
    (hloop : s.on c = none → match u.getLast? with
      | none => LoopOk (s.loop c) v (s.noff c)
      | some fr => LoopOk (s.loop c) fr.1 0) :
    Inv { s with
      sie := upd s.sie c sie
      level := upd s.level (s.ctx c) v
      under := upd s.under (s.ctx c) u } := by
  have hsc : ∀ c', c' ≠ c → Ctx.sched c' ≠ s.ctx c := by
    intro c' hne
    unfold State.ctx
    split <;> simp [hne]
  have ho : Others s { s with
      sie := upd s.sie c sie
      level := upd s.level (s.ctx c) v
      under := upd s.under (s.ctx c) u } c :=
    ⟨fun _ _ => rfl, fun _ _ => rfl, fun _ hne => upd_of_ne hne, fun _ _ => rfl, fun _ _ => rfl,
      fun _ _ => rfl, fun _ hne => upd_of_ne (h.threads.ctx_ne hne), fun c' hne => upd_of_ne (hsc c' hne),
      fun c' hne => upd_of_ne (hsc c' hne)⟩
  refine h.change ho ?_ ⟨fun hon => ?_, fun t hon => ?_⟩ (h.locks.mono rfl rfl ?_)
    ⟨h.threads.running, h.threads.one, ?_⟩ ?_ h.done
  · show CpuOk _ _ _ (upd s.sie c sie c) (upd s.level (s.ctx c) v (s.ctx c))
    rw [upd_same, upd_same]
    exact hcpu
  · have hx := ctx_sched (s := s) hon
    have := hloop hon
    simp only [bottom, hx, upd_same]
    split at this <;> exact this
  · have hx := ctx_thread (s := s) hon
    obtain ⟨h1, h2, h3⟩ := (h.sched c).back t hon
    refine ⟨h1, ?_, ?_⟩
    · simpa [hx] using h2
    · simpa [hx] using h3
  · intro l c' hbl
    by_cases hne : c' = c
    · subst hne
      have : Between l (upd s.level (s.ctx c') v (s.ctx c')).pc := hbl
      rw [upd_same] at this
      exact absurd this (hb l)
    · rwa [ho.pc hne] at hbl
  · intro t hno hun
    have hx : Ctx.thread t ≠ s.ctx c := by
      intro he
      unfold State.ctx at he
      split at he <;> cases he
      exact hno c ‹_›
    simp only [upd_of_ne hx]
    exact h.threads.away t hno hun
  · intro x fr hm
    by_cases hx : x = s.ctx c
    · subst hx
      simp only [upd_same] at hm
      exact hfr fr hm
    · simp only [upd_of_ne hx] at hm
      exact h.frames x fr hm

theorem CpuOk.frame {held : Set (Lk K)} {origin : Bool} {noff : Nat} {v : Level K}
    (h : CpuOk held noff origin true v) : FrameOk (v, true) := by
  obtain rfl := h.off rfl
  refine ⟨rfl, h.pending_zero, fun old r hc => ?_, fun l hl => ?_, fun o => ?_⟩
  · cases h.counted old r hc
  · exact absurd (h.pos_of_mem (h.marked l hl)) (by omega)
  · obtain ⟨pc, sp⟩ := v
    have hs := h.span
    match sp with
    | none => trivial
    | some (f, 0) => exact hs
    | some (f, d + 1) => exact absurd hs.1 (by omega)

theorem FrameOk.cpu {fr : Level K × Bool} {held : Set (Lk K)} {origin sie : Bool} {v : Level K}
    (hf : FrameOk fr) (h : CpuOk held 0 origin sie v) : CpuOk held 0 origin fr.2 fr.1 where
  count := by
    have hc := h.count
    rw [h.pending_zero] at hc
    rw [hf.pending]
    exact hc
  off := fun _ => rfl
  counted := fun old r hc => absurd hc (hf.counted old r)
  marked := fun l hl => absurd hl (hf.marked l)
  span := by rw [hf.spie]; exact hf.span origin
  user := fun _ => rfl

theorem not_between_of_pending {pc : Pc K} (h : pending pc = 0) (l : Lk K) : ¬ Between l pc := by
  cases pc <;> first | exact id | cases h

theorem Inv.step [DecidableEq K] {a : Act C K} (h : Inv s) (hs : step s a = some s') : Inv s' := by
  cases a with
  | go c =>
    simp only [Intr.step] at hs
    split at hs
    · split at hs <;> cases hs
      exact h.goLoop ‹_› ‹_›
    · exact h.goCall hs
  | call c op =>
    simp only [Intr.step] at hs
    split at hs
    · rename_i hc
      exact h.call hc.2 hc.1 hs
    · cases hs
  | print c =>
    simp only [Intr.step] at hs
    split at hs
    · rename_i hc
      split at hs <;> cases hs
      all_goals
        rename_i hlp
        exact h.toCall hc.2 hc.1 trivial (by simp) (by rw [hlp]; rfl)
    · cases hs
  | interrupt c =>
    simp only [Intr.step] at hs
    split at hs <;> cases hs
    rename_i hc
    have hcpu := h.cpu c
    rw [hc.1] at hcpu
    have h0 : s.noff c = 0 := hcpu.off rfl
    refine h.relevel (hcpu.plain ?_ .out false trivial (by rintro ⟨⟩) (by rintro (⟨⟨⟩⟩ | ⟨⟨⟩⟩))) (fun _ => id) ?_ ?_
    · rw [h0] at hcpu; exact hcpu.pending_zero
    · intro fr hm
      rcases List.mem_cons.mp hm with rfl | hm
      · rw [hc.1]; exact hcpu.frame
      · exact h.frames _ fr hm
    · intro hon
      rw [ctx_sched hon]
      cases hu : s.under (.sched c) with
      | nil =>
        have := h.loopOk (c := c) (by simp [inLoop, hon, hu])
        rw [h0, ctx_sched hon] at this
        exact this
      | cons fr rest =>
        have := (h.sched c).loop hon
        simp only [bottom, hu] at this
        rw [List.getLast?_cons_cons]
        split <;> rename_i hl <;> rw [hl] at this
        · simp at hl
        · exact this
  | sret c =>
    simp only [Intr.step] at hs
    split at hs
    · cases hs
    · rename_i v spie rest hu
      split at hs <;> cases hs
      rename_i hc
      have hfr := h.frames (s.ctx c) (v, spie) (by rw [hu]; exact List.mem_cons_self ..)
      have hcpu := h.cpu c
      rw [hc.2] at hcpu
      refine h.relevel ?_ (not_between_of_pending hfr.pending) ?_ ?_
      · rw [hc.2]; exact hfr.cpu hcpu
      · exact fun fr hm => h.frames _ fr (by rw [hu]; exact List.mem_cons_of_mem _ hm)
      · intro hon
        rw [ctx_sched hon] at hu
        have := (h.sched c).loop hon
        simp only [bottom, hu] at this
        cases rest with
        | nil => rw [hc.2]; exact this
        | cons fr rest =>
          rw [List.getLast?_cons_cons] at this
          split <;> rename_i hl <;> rw [hl] at this
          · simp at hl
          · exact this
  | trap c syscall =>
    simp only [Intr.step] at hs
    split at hs <;> cases hs
    rename_i hpc
    have hcpu := h.cpu c
    have h0 : s.noff c = 0 := hcpu.user (.inl hpc)
    rw [h0] at hcpu
    have hsp : (s.level (s.ctx c)).span = none := hcpu.span_none (by
      rw [show (s.level (s.ctx c)).pc = .user from hpc]; exact fun _ _ => id)
    refine h.moveCall (c := c) (v := ⟨.out, none⟩)
      ⟨rfl, rfl, rfl, by simp [State.setPc, hsp], fun _ hne => by simp [State.setPc, hne]⟩ rfl rfl rfl rfl
      (fun _ => id) ?_ (fun _ => rfl) (by rw [hpc]; rfl)
    have := hcpu.plain (by
      rw [show (s.level (s.ctx c)).pc = .user from hpc]; rfl) .out syscall trivial (fun _ => rfl) fun _ => rfl
    simpa [State.setPc, h0] using this

omit [DecidableEq C] in
theorem Inv.boot : Inv (boot : State C K) where
  cpu := fun c => by
    refine ⟨?_, fun _ => rfl, by rintro _ _ ⟨⟩, by rintro _ ⟨⟩, trivial, by rintro (⟨⟨⟩⟩ | ⟨⟨⟩⟩)⟩
    simp [heldBy, Intr.boot, pending, State.ctx]
  sched := fun c => ⟨fun _ => ⟨rfl, rfl⟩, by rintro _ ⟨⟩⟩
  locks := ⟨by rintro _ _ ⟨⟩, fun _ _ => False.elim, fun _ _ _ => False.elim⟩
  threads := ⟨by rintro _ _ ⟨⟩, by rintro _ _ _ ⟨⟩, fun _ _ _ => .inl rfl⟩
  frames := by rintro _ _ ⟨⟩
  done := by rintro _ ⟨⟩

variable [DecidableEq K]

/-- In every state of every run, on any CPUs: the interrupts of a CPU with `noff > 0` are off, `noff` is
at least the number of spinlocks that are marked with the CPU, and every balanced sequence of acquires and
releases of a thread has left the flag as it was. -/
theorem interrupts_survive (as : List (Act C K)) (s : State C K) (hrun : run step boot as = some s) :
    (∀ c, 0 < s.noff c → s.sie c = false) ∧ (∀ c, {l | s.cpuid l = some c}.encard ≤ s.noff c) ∧
      ∀ e ∈ s.done, e.before = e.after := by
  have h : Inv s := run_inv (I := Inv) (fun _ _ _ h _ hs => h.step hs) as .boot (runOk_true as _) hrun
  exact ⟨fun c => (h.cpu c).off_of_pos, fun c => (h.cpu c).encard_le, h.done⟩

/-- CPU 0 starts `proczero`, which goes to user mode and makes a system call. There it takes its lock with
the interrupts on, and `proc_sched` switches away; the scheduler of CPU 0 gives the lock up. -/
def sleepOnZero : List (Act (Fin 2) Unit) :=
  List.replicate 9 (.go 0) ++ [.call 0 (.release (.proc 0))] ++ List.replicate 5 (.go 0) ++
    [.call 0 .leave, .go 0, .trap 0 true, .call 0 (.acquire (.proc 0))] ++ List.replicate 6 (.go 0) ++
    [.call 0 (.sched .runnable)] ++ List.replicate 6 (.go 0)

/-- CPU 1 goes on with it: it gives the lock up there. -/
def wakeOnOne : List (Act (Fin 2) Unit) :=
  List.replicate 10 (.go 1) ++ [.call 1 (.release (.proc 0))] ++ List.replicate 5 (.go 1)

theorem interrupts_survive_migration : ∃ s : State (Fin 2) Unit,
    run step boot (sleepOnZero ++ wakeOnOne) = some s ∧ s.done = [⟨0, true, true⟩] ∧ s.sie 1 = true ∧
    ∀ e ∈ s.done, e.before = e.after := by
  have h : (run step boot (sleepOnZero ++ wakeOnOne)).any
      (fun s => decide (s.done = [⟨0, true, true⟩] ∧ s.sie 1 = true)) = true := by
    decide +kernel
  obtain ⟨s, hs, hd, hsie⟩ := exists_of_any h
  exact ⟨s, hs, hd, hsie, (interrupts_survive _ s hs).2.2⟩

end Intr
end Sched
end WhuOS
