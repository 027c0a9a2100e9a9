import Mathlib.Algebra.Group.Nat.Basic
import Mathlib.Data.List.GetD

/-!
# Byte-addressed memory

Kernel memory as the two crates touch it: a byte at every address. A write of
a byte string changes exactly the addresses it covers.
-/

namespace Lkmodel

/-- Writing `bytes` at `addr`. -/
def writeBytes (mem : Nat → UInt8) (addr : Nat) (bytes : List UInt8) : Nat → UInt8 :=
  fun a => if addr ≤ a ∧ a < addr + bytes.length then bytes.getD (a - addr) 0 else mem a

theorem writeBytes_of_not_mem {mem : Nat → UInt8} {addr a : Nat} {bytes : List UInt8}
    (h : a < addr ∨ addr + bytes.length ≤ a) : writeBytes mem addr bytes a = mem a :=
  if_neg (by omega)

theorem writeBytes_at (mem : Nat → UInt8) (addr : Nat) (bytes : List UInt8) {i : Nat}
    (hi : i < bytes.length) : writeBytes mem addr bytes (addr + i) = bytes[i] := by
  rw [writeBytes, if_pos (by omega), Nat.add_sub_cancel_left, List.getD_eq_getElem _ _ hi]

end Lkmodel
