import Mathlib.Data.List.Basic
import WhuOS.Lib.Update

/-!
# WhuOS.Lib.Slots

A queue in an array of `n` slots whose ends are counters taken modulo `n`. The counters never shrink; an
index of any multiple of `n` bits gives the same slot.

* `Holds slots n start items` — the slots from `start` on hold `items`.
* `Holds.push`, `Holds.pop`   — writing behind the last item, and passing the first one.
* `drained_iff`               — a queue that never fills up is empty iff its ends have the same slot.
-/

namespace WhuOS
namespace Lib
namespace Slots

variable {α : Type} {slots : Nat → α} {n start : Nat} {items : List α} {x : α}

def Holds (slots : Nat → α) (n start : Nat) (items : List α) : Prop :=
  ∀ k x, items[k]? = some x → slots ((start + k) % n) = x

/-- Two positions less than `n` apart have different slots. -/
theorem slot_ne {a k : Nat} (hk : k < n) (h0 : 0 < k) : (a + k) % n ≠ a % n := by
  intro he
  have hd := Nat.sub_mod_eq_zero_of_mod_eq he
  rw [Nat.add_sub_cancel_left, Nat.mod_eq_of_lt hk] at hd
  omega

theorem Holds.nil : Holds slots n start [] := fun k x h => by simp at h

theorem Holds.push (h : Holds slots n start items) (hn : items.length < n) :
    Holds (upd slots ((start + items.length) % n) x) n start (items ++ [x]) := by
  intro k y hy
  rcases Nat.lt_trichotomy k items.length with hk | rfl | hk
  · rw [List.getElem?_append_left hk] at hy
    have hne : (start + k) % n ≠ (start + items.length) % n := by
      have := slot_ne (a := start + k) (k := items.length - k) (n := n) (by omega) (by omega)
      rw [show start + k + (items.length - k) = start + items.length by omega] at this
      exact this.symm
    rw [upd_of_ne hne]
    exact h k y hy
  · rw [List.getElem?_append_right (Nat.le_refl _)] at hy
    simp only [Nat.sub_self, List.getElem?_cons_zero, Option.some.injEq] at hy
    rw [upd_same, hy]
  · rw [List.getElem?_append_right (by omega)] at hy
    rw [List.getElem?_eq_none (by simp only [List.length_singleton]; omega)] at hy
    cases hy

theorem Holds.head (h : Holds slots n start (x :: items)) : slots (start % n) = x := h 0 x rfl

theorem Holds.pop (h : Holds slots n start (x :: items)) : Holds slots n (start + 1) items := by
  intro k y hy
  rw [show start + 1 + k = start + (k + 1) by omega]
  exact h (k + 1) y hy

theorem drained_iff (hn : items.length < n) : start % n = (start + items.length) % n ↔ items = [] := by
  constructor
  · intro h
    by_contra hne
    exact slot_ne hn (List.length_pos_iff.mpr hne) h.symm
  · rintro rfl
    rfl

end Slots
end Lib
end WhuOS
