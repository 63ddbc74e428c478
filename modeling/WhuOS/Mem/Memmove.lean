import WhuOS.Lib.Update
import WhuOS.Mem.Walk

/-!
# WhuOS.Mem.Memmove

The two `memmove` functions, byte by byte: the one of the kernel (`kernel/lib/str.c`), which copies
backwards when the destination starts inside the source, and the one of the user library
(`user/user_lib.c`), which always copies forwards. Pointers are 64 bits wide.

* `copyForward_eq`, `copyBackward_eq` — what each loop leaves in memory. A forward copy over a
  distance `p = dst - src` repeats the first `p` source bytes.
* `Str.memmove_eq` — the kernel's function is the one write that the memory code's `memmove` takes it
  for.
* `memmoves_move_iff` — when both functions move the bytes.
-/

namespace WhuOS
namespace Mem

open Lib

/-! ## The model -/

/-- A pointer after arithmetic on it. -/
def ptr (a : Nat) : Nat := a % 2 ^ 64

/-- `while (n-- > 0) *d++ = *s++;` -/
def copyForward : Nat → Nat → Nat → Bytes → Bytes
  | 0, _, _, m => m
  | n + 1, d, s, m => copyForward n (ptr (d + 1)) (ptr (s + 1)) (upd m d (m s))

/-- `while (n-- > 0) *--d = *--s;` -/
def copyBackward : Nat → Nat → Nat → Bytes → Bytes
  | 0, _, _, m => m
  | n + 1, d, s, m =>
    let d := ptr (d + (2 ^ 64 - 1))
    let s := ptr (s + (2 ^ 64 - 1))
    copyBackward n d s (upd m d (m s))

/-- `memmove` of `kernel/lib/str.c`. -/
def Str.memmove (dst src : Nat) (n : UInt32) (m : Bytes) : Bytes :=
  if n = 0 then m
  else if src < dst ∧ ptr (src + n.toNat) > dst then
    copyBackward n.toNat (ptr (dst + n.toNat)) (ptr (src + n.toNat)) m
  else copyForward n.toNat dst src m

/-- `memmove` of `user/user_lib.c`. -/
def UserLib.memmove (dst src : Nat) (n : UInt32) (m : Bytes) : Bytes :=
  copyForward n.toNat dst src m

/-! ## The loops -/

theorem ptr_of_lt {a : Nat} (h : a < 2 ^ 64) : ptr a = a := Nat.mod_eq_of_lt h

theorem ptr_pred {a : Nat} (h : a + 1 ≤ 2 ^ 64) : ptr (ptr (a + 1) + (2 ^ 64 - 1)) = a := by
  unfold ptr; omega

section Loops

variable {m : Bytes} {d s : Nat}

theorem copyForward_succ : ∀ {n : Nat} {d s : Nat} {m : Bytes},
    d + n < 2 ^ 64 → s + n < 2 ^ 64 →
    copyForward (n + 1) d s m = upd (copyForward n d s m) (d + n) (copyForward n d s m (s + n)) := by
  intro n
  induction n with
  | zero => intro d s m _ _; rfl
  | succ n ih =>
    intro d s m hd hs
    rw [copyForward, ptr_of_lt (by omega), ptr_of_lt (by omega), ih (by omega) (by omega)]
    simp only [copyForward, ptr_of_lt (show d + 1 < 2 ^ 64 by omega),
      ptr_of_lt (show s + 1 < 2 ^ 64 by omega), Nat.add_assoc, Nat.add_comm 1 n]

theorem write_succ (n : Nat) (f : Nat → UInt8) :
    m.write d (n + 1) f = upd (m.write d n f) (d + n) (f n) := by
  funext x
  simp only [Bytes.write, upd_apply]
  by_cases hx : x = d + n
  · subst hx
    rw [if_pos (by omega), if_pos rfl, Nat.add_sub_cancel_left]
  · rw [if_neg hx]
    by_cases hin : d ≤ x ∧ x < d + n
    · rw [if_pos (by omega), if_pos hin]
    · rw [if_neg (by omega), if_neg hin]

/-- A forward copy writes `f`, if each source byte is `f` of its index when its turn comes. -/
theorem copyForward_write {f : Nat → UInt8} : ∀ {n : Nat}, d + n ≤ 2 ^ 64 → s + n ≤ 2 ^ 64 →
    (∀ k, k < n → m.write d k f (s + k) = f k) → copyForward n d s m = m.write d n f := by
  intro n
  induction n with
  | zero => intro _ _ _; simp [copyForward]
  | succ n ih =>
    intro hd hs hf
    rw [copyForward_succ (by omega) (by omega), ih (by omega) (by omega) fun k hk => hf k (by omega),
      hf n (by omega), write_succ]

theorem copyForward_eq {n : Nat} (hd : d + n ≤ 2 ^ 64) (hs : s + n ≤ 2 ^ 64)
    (h : d ≤ s ∨ s + n ≤ d) : copyForward n d s m = m.write d n fun i => m (s + i) :=
  copyForward_write hd hs fun _ _ => Bytes.write_outside (by omega)

/-- Forwards over the distance `p`: from index `p` on, the byte that is read has been written. -/
theorem copyForward_overlap {n p : Nat} (hp : 0 < p) (hd : s + p + n ≤ 2 ^ 64) :
    copyForward n (s + p) s m = m.write (s + p) n fun i => m (s + i % p) := by
  refine copyForward_write hd (by omega) fun k _ => ?_
  by_cases hk : k < p
  · rw [Bytes.write_outside (by omega), Nat.mod_eq_of_lt hk]
  · obtain ⟨j, rfl⟩ : ∃ j, k = p + j := ⟨k - p, by omega⟩
    rw [← Nat.add_assoc, Bytes.write_inside (by omega), Nat.add_mod_left]

theorem copyBackward_eq : ∀ {n : Nat} {m : Bytes}, d + n ≤ 2 ^ 64 → s ≤ d →
    copyBackward n (ptr (d + n)) (ptr (s + n)) m = m.write d n fun i => m (s + i) := by
  intro n
  induction n with
  | zero => intro m _ _; simp [copyBackward]
  | succ n ih =>
    intro m hd hs
    have hpd : d + n = ptr (d + n) := (ptr_of_lt (by omega)).symm
    have hps : s + n = ptr (s + n) := (ptr_of_lt (by omega)).symm
    rw [copyBackward, ← Nat.add_assoc, ← Nat.add_assoc, ptr_pred (by omega), ptr_pred (by omega)]
    -- the last byte is written first; the source bytes before it are still the old ones
    have hold : ∀ i, i < n → upd m (d + n) (m (s + n)) (s + i) = m (s + i) := fun i hi =>
      upd_of_ne (by omega)
    rw [hpd, hps, ih (by omega) hs, ← hpd, ← hps, Bytes.write_congr hold, write_succ]
    funext x
    simp only [Bytes.write, upd_apply]
    by_cases hx : x = d + n
    · rw [if_neg (by omega), if_pos hx, if_pos hx]
    · rw [if_neg hx, if_neg hx]

end Loops

/-! ## Both functions -/

/-- `m'` is `m` with the `n` bytes from `src` on moved to `dst`. -/
def Moved (dst src n : Nat) (m m' : Bytes) : Prop := m.Moves (dst + ·) (src + ·) n m'

theorem moved_write (dst src n : Nat) (m : Bytes) :
    Moved dst src n m (m.write dst n fun i => m (src + i)) := Bytes.moves_write dst n (src + ·)

theorem Str.memmove_eq {dst src : Nat} {n : UInt32} (m : Bytes) (hd : dst + n.toNat < 2 ^ 64)
    (hs : src + n.toNat < 2 ^ 64) :
    Str.memmove dst src n m = m.write dst n.toNat fun i => m (src + i) := by
  unfold Str.memmove
  rw [ptr_of_lt hs]
  split
  · rename_i h0
    simp [h0]
  · split
    · rename_i h
      rw [← ptr_of_lt hs]
      exact copyBackward_eq (by omega) (by omega)
    · exact copyForward_eq (by omega) (by omega) (by omega)

/-- A forward copy moves the bytes exactly if the destination does not start inside the source, or
the source repeats itself over the distance. -/
theorem moved_copyForward_iff {dst src n : Nat} {m : Bytes} (hd : dst + n ≤ 2 ^ 64)
    (hs : src + n ≤ 2 ^ 64) :
    Moved dst src n m (copyForward n dst src m) ↔
      dst ≤ src ∨ src + n ≤ dst ∨ ∀ i, i < n → m (src + i) = m (src + i % (dst - src)) := by
  by_cases hsafe : dst ≤ src ∨ src + n ≤ dst
  · rw [copyForward_eq hd hs hsafe]
    refine iff_of_true (moved_write dst src n m) ?_
    rcases hsafe with h | h
    · exact .inl h
    · exact .inr (.inl h)
  · obtain ⟨p, rfl⟩ : ∃ p, dst = src + p := ⟨dst - src, by omega⟩
    rw [copyForward_overlap (by omega) hd, Nat.add_sub_cancel_left]
    constructor
    · rintro ⟨hin, -⟩
      refine .inr (.inr fun i hi => ?_)
      rw [← hin i hi, Bytes.write_inside hi]
    · rintro (h | h | h)
      · exact (hsafe (.inl h)).elim
      · exact (hsafe (.inr h)).elim
      · rw [← Bytes.write_congr h]
        exact moved_write (src + p) src n m

/-- The kernel's `memmove` always moves the bytes, the user library's only when the destination does
not start inside the source or the source repeats itself over the distance. -/
theorem memmoves_move_iff (m : Bytes) (dst src : Nat) (n : UInt32) (hd : dst + n.toNat < 2 ^ 64)
    (hs : src + n.toNat < 2 ^ 64) :
    (Moved dst src n.toNat m (Str.memmove dst src n m) ∧
        Moved dst src n.toNat m (UserLib.memmove dst src n m)) ↔
      dst ≤ src ∨ src + n.toNat ≤ dst ∨
        ∀ i, i < n.toNat → m (src + i) = m (src + i % (dst - src)) := by
  rw [Str.memmove_eq m hd hs, and_iff_right (moved_write dst src n.toNat m)]
  exact moved_copyForward_iff (by omega) (by omega)

/-- `memmove(p + 2, p, 6)` on the bytes 0, 1, 0, 1, …: the source repeats itself. -/
theorem memmoves_move_iff_six :
    Moved 1002 1000 6 (fun a => UInt8.ofNat (a % 2))
        (Str.memmove 1002 1000 6 fun a => UInt8.ofNat (a % 2)) ∧
      Moved 1002 1000 6 (fun a => UInt8.ofNat (a % 2))
        (UserLib.memmove 1002 1000 6 fun a => UInt8.ofNat (a % 2)) :=
  (memmoves_move_iff (fun a => UInt8.ofNat (a % 2)) 1002 1000 6 (by decide) (by decide)).mpr
    (.inr (.inr (by decide)))

/-- The user library's `memmove(p + 1, p, 3)` on the bytes 1, 2, 3, 4 leaves 1, 1, 1, 1. -/
theorem user_memmove_smears :
    UserLib.memmove 1001 1000 3 (fun a => UInt8.ofNat (a - 999)) 1002 = 1 ∧
      ¬ Moved 1001 1000 3 (fun a => UInt8.ofNat (a - 999))
          (UserLib.memmove 1001 1000 3 fun a => UInt8.ofNat (a - 999)) := by
  refine ⟨by decide, fun h => ?_⟩
  exact absurd (h.1 1 (by decide)) (by decide)

end Mem
end WhuOS
