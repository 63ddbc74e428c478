import Mathlib.Algebra.Group.Int.Defs
import Mathlib.Algebra.Ring.Nat

/-!
# WhuOS.Lib.Bytes

Byte-addressed memory and little-endian numbers in it.

* `le f n`          — the number that the bytes `f 0, …, f (n-1)` spell, least significant first.
* `write m a n src` — `n` bytes at `a` replaced.
* `load_store_same`, `load_write_other` — what is read back, and what is left alone.
* `Moves dst src n` — bytes moved from the places `src i` to the places `dst i`, for `i < n`, and
  nothing else changed; moves that do not disturb each other add up (`Moves.append`).
-/

namespace WhuOS
namespace Lib

/-- The number spelled by `n` bytes, least significant first. The factor `256 ^ n` stands on the
left, so that unfolding the product does not count it down. -/
def le (f : Nat → UInt8) : Nat → Nat
  | 0 => 0
  | n + 1 => le f n + 256 ^ n * (f n).toNat

/-- Byte `i` of the number `v`. -/
def leByte (v i : Nat) : UInt8 := UInt8.ofNat (v / 256 ^ i)

theorem le_congr {f g : Nat → UInt8} : ∀ {n : Nat}, (∀ i, i < n → f i = g i) → le f n = le g n := by
  intro n
  induction n with
  | zero => intro _; rfl
  | succ n ih =>
    intro h
    simp only [le]
    rw [ih (fun i hi => h i (by omega)), h n (by omega)]

theorem le_lt (f : Nat → UInt8) : ∀ n : Nat, le f n < 256 ^ n := by
  intro n
  induction n with
  | zero => simp [le]
  | succ n ih =>
    have hb : (f n).toNat ≤ 255 := by have := (f n).toNat_lt; omega
    calc le f n + 256 ^ n * (f n).toNat
        < 256 ^ n + 256 ^ n * 255 := Nat.add_lt_add_of_lt_of_le ih (Nat.mul_le_mul_left _ hb)
      _ = 256 ^ (n + 1) := by rw [Nat.pow_succ]; omega

theorem le_leByte (v : Nat) : ∀ n : Nat, le (leByte v) n = v % 256 ^ n := by
  intro n
  induction n with
  | zero => simp [le, Nat.mod_one]
  | succ n ih =>
    simp only [le, ih, leByte]
    rw [Nat.pow_succ, Nat.mod_mul, UInt8.toNat_ofNat']

/-- The bytes of a number. -/
theorem leByte_le (f : Nat → UInt8) : ∀ {n i : Nat}, i < n → leByte (le f n) i = f i := by
  intro n
  induction n with
  | zero => intro i hi; omega
  | succ n ih =>
    intro i hi
    have hlow : leByte (le f n + 256 ^ n * (f n).toNat) i =
        UInt8.ofNat ((le f n + 256 ^ n * (f n).toNat) / 256 ^ i) := rfl
    rw [le, hlow]
    by_cases h : i < n
    · -- the new byte is above byte `i`
      have hpow : 256 ^ n = 256 ^ i * (256 * 256 ^ (n - i - 1)) := by
        rw [← Nat.pow_succ', ← Nat.pow_add, show i + (n - i - 1 + 1) = n by omega]
      rw [hpow, Nat.mul_assoc, Nat.add_mul_div_left _ _ (Nat.pow_pos (by decide)), Nat.mul_assoc,
        ← ih h, leByte]
      apply UInt8.toNat_inj.mp
      rw [UInt8.toNat_ofNat', UInt8.toNat_ofNat', Nat.add_mul_mod_self_left]
    · rw [show i = n by omega, Nat.add_mul_div_left _ _ (Nat.pow_pos (by decide)),
        Nat.div_eq_of_lt (le_lt f n), Nat.zero_add, UInt8.ofNat_toNat]

theorem le_zero : ∀ n : Nat, le (fun _ => 0) n = 0 := by
  intro n
  induction n with
  | zero => rfl
  | succ n ih => simp [le, ih]

/-- A memory: a byte at every address. -/
abbrev Bytes := Nat → UInt8

namespace Bytes

variable {m : Bytes}

/-- Replace `n` bytes from `a` on by those of `src`. -/
def write (m : Bytes) (a n : Nat) (src : Nat → UInt8) : Bytes :=
  fun x => if a ≤ x ∧ x < a + n then src (x - a) else m x

/-- The `n`-byte number at `a`. -/
def load (n : Nat) (m : Bytes) (a : Nat) : Nat := le (fun i => m (a + i)) n

/-- Store the `n`-byte number `v` at `a`. -/
def store (n : Nat) (m : Bytes) (a v : Nat) : Bytes := m.write a n (leByte v)

theorem write_inside {a n i : Nat} {src : Nat → UInt8} (h : i < n) :
    m.write a n src (a + i) = src i := by
  have : a ≤ a + i ∧ a + i < a + n := by omega
  simp [write, this]

variable {a n k b : Nat}

theorem write_outside {x : Nat} {src : Nat → UInt8} (h : x < a ∨ a + n ≤ x) :
    m.write a n src x = m x := by
  have : ¬ (a ≤ x ∧ x < a + n) := by omega
  simp [write, this]

@[simp] theorem write_zero (a : Nat) (src : Nat → UInt8) : m.write a 0 src = m := by
  funext x
  exact write_outside (by omega)

/-- Two writes one after the other. -/
theorem write_append {f g : Nat → UInt8} :
    (m.write a n f).write (a + n) k g = m.write a (n + k) fun i => if i < n then f i else g (i - n) := by
  funext x
  simp only [write]
  by_cases h1 : a + n ≤ x ∧ x < a + n + k
  · have h2 : a ≤ x ∧ x < a + (n + k) := by omega
    have h3 : ¬ x - a < n := by omega
    rw [if_pos h1, if_pos h2, if_neg h3, Nat.sub_sub]
  · rw [if_neg h1]
    by_cases h2 : a ≤ x ∧ x < a + n
    · rw [if_pos h2, if_pos (by omega), if_pos (by omega)]
    · rw [if_neg h2, if_neg (by omega)]

theorem write_congr {f g : Nat → UInt8} (h : ∀ i, i < n → f i = g i) :
    m.write a n f = m.write a n g := by
  funext x
  simp only [write]
  split
  · exact h _ (by omega)
  · rfl

/-- The bytes at `src i` moved to `dst i`, for `i < n`; every other byte is unchanged. -/
def Moves (dst src : Nat → Nat) (n : Nat) (m m' : Bytes) : Prop :=
  (∀ i, i < n → m' (dst i) = m (src i)) ∧ ∀ a, (∀ i, i < n → a ≠ dst i) → m' a = m a

theorem moves_write (a n : Nat) (src : Nat → Nat) :
    Moves (a + ·) src n m (m.write a n fun i => m (src i)) := by
  refine ⟨fun i hi => write_inside hi, fun x hx => ?_⟩
  by_cases h : a ≤ x ∧ x < a + n
  · exact (hx (x - a) (by omega) (by simp only; omega)).elim
  · exact write_outside (by omega)

theorem Moves.congr {dst dst' src src' : Nat → Nat} {m' : Bytes}
    (h : Moves dst src n m m') (hd : ∀ i, i < n → dst' i = dst i)
    (hs : ∀ i, i < n → src' i = src i) : Moves dst' src' n m m' := by
  refine ⟨fun i hi => ?_, fun a ha => h.2 a fun i hi => ?_⟩
  · rw [hd i hi, hs i hi]
    exact h.1 i hi
  · rw [← hd i hi]
    exact ha i hi

/-- One move after another: the second neither overwrites what the first one brought nor reads it. -/
theorem Moves.append {dst src : Nat → Nat} {m₁ m₂ : Bytes} (h₁ : Moves dst src n m m₁)
    (h₂ : Moves (fun i => dst (n + i)) (fun i => src (n + i)) k m₁ m₂)
    (hd : ∀ i j, i < n → j < k → dst i ≠ dst (n + j))
    (hs : ∀ i j, i < n → j < k → src (n + j) ≠ dst i) : Moves dst src (n + k) m m₂ := by
  refine ⟨fun i hi => ?_, fun a ha => ?_⟩
  · by_cases hin : i < n
    · rw [h₂.2 _ fun j hj => hd i j hin hj]
      exact h₁.1 i hin
    · obtain ⟨j, rfl⟩ : ∃ j, i = n + j := ⟨i - n, by omega⟩
      rw [h₂.1 j (by omega)]
      exact h₁.2 _ fun i hi => hs i j hi (by omega)
  · rw [h₂.2 a fun j hj => ha (n + j) (by omega)]
    exact h₁.2 a fun i hi => ha i (by omega)

theorem load_lt (n : Nat) (m : Bytes) (a : Nat) : load n m a < 256 ^ n := le_lt _ n

theorem load_congr {m' : Bytes} (h : ∀ i, i < n → m' (a + i) = m (a + i)) :
    load n m' a = load n m a := le_congr h

theorem load_store_same {v : Nat} (h : v < 256 ^ n) : load n (store n m a v) a = v := by
  have : load n (store n m a v) a = le (leByte v) n := le_congr fun i hi => write_inside hi
  rw [this, le_leByte, Nat.mod_eq_of_lt h]

theorem load_write_other {src : Nat → UInt8} (h : b + k ≤ a ∨ a + n ≤ b) :
    load k (m.write a n src) b = load k m b :=
  load_congr fun i hi => write_outside (by omega)

theorem load_store_other {v : Nat} (h : b + n ≤ a ∨ a + n ≤ b) :
    load n (store n m a v) b = load n m b := load_write_other h

/-- A number inside a cleared range. -/
theorem load_clear (h : a ≤ b ∧ b + k ≤ a + n) :
    load k (m.write a n (fun _ => 0)) b = 0 := by
  rw [← le_zero k]
  refine le_congr fun i hi => ?_
  have : a ≤ b + i ∧ b + i < a + n := by omega
  simp [write, this]

end Bytes
end Lib
end WhuOS
