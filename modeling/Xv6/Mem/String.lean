import Mathlib
import Xv6.Lib.Bytes

/-! # `memmove` of `kernel/string.c`

    Memory is a buffer of bytes indexed by address; the ranges are those of
    one byte array, so no address wraps.  `memmove` picks its direction by
    one test: it copies down when the destination starts inside the source
    past its start, and up otherwise; `memmove_eq` says that either way the
    result is the copy `Bytes.copyBytes`, for every `n` and every overlap. -/

namespace Xv6.Mem

/-- `memmove(dst, src, n)`: the pointer it returns and the memory after it. -/
def memmove (mem : Nat → UInt8) (dst src : Nat) (n : UInt32) : Nat × (Nat → UInt8) :=
  if n = 0 then (dst, mem)
  else if src < dst ∧ src + n.toNat > dst then
    (dst, Bytes.copyDown mem (dst + n.toNat) (src + n.toNat) n.toNat)
  else (dst, Bytes.copyUp mem dst src n.toNat)

/-- `memcpy(dst, src, n)`, which "exists to placate GCC". -/
def memcpy (mem : Nat → UInt8) (dst src : Nat) (n : UInt32) : Nat × (Nat → UInt8) :=
  memmove mem dst src n

theorem memmove_eq (mem : Nat → UInt8) (dst src : Nat) (n : UInt32) :
    memmove mem dst src n = (dst, Bytes.copyBytes mem dst mem src n.toNat) := by
  unfold memmove
  split_ifs with h0 hdown
  · rw [h0, UInt32.toNat_zero, Bytes.copyBytes_zero]
  -- copying down, the source lies below the destination
  · rw [Bytes.copyDown_eq _ _ _ _ (by omega)]
  · rw [Bytes.copyUp_eq _ _ _ _ (by omega)]

end Xv6.Mem
