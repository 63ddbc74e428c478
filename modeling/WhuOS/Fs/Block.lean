import Mathlib.Order.Fin.Basic
import WhuOS.Lib.Update

/-!
# WhuOS.Fs.Block

Disk blocks as byte arrays, and the little-endian 16- and 32-bit numbers the C structures keep
in them.
-/

namespace WhuOS
namespace Fs

abbrev BLOCK_SIZE : Nat := 1024

abbrev Block := Fin BLOCK_SIZE → UInt8

namespace Block

def zero : Block := fun _ => 0

/-- `data[i]`; the code only reads inside the block. -/
def byte (d : Block) (i : Nat) : UInt8 := if h : i < BLOCK_SIZE then d ⟨i, h⟩ else 0

/-- `memmove(data + off, src, n)`. -/
def blit (d : Block) (off n : Nat) (src : Nat → UInt8) : Block :=
  fun i => if off ≤ i.val ∧ i.val < off + n then src (i.val - off) else d i

end Block
end Fs
end WhuOS
