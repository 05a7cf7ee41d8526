import Mathlib
import Xv6.Mem.String

/-! # The string routines of `ulib.c`

    A C string is the list of its characters; the byte at the end of the
    list reads as NUL.  `strchr` stops at a NUL, as the C loop `for(; *s;
    s++)` does, and `strlen` counts the bytes before the first one.

    `memmove` takes an `int` count and picks its direction by another test
    than the kernel's: it copies up only when the source lies above the
    destination.  `memmove_overlap_safe` shows that both are the copy
    `Bytes.copyBytes`, for every count and overlap; `memcpy`, which passes its
    `uint` count on as an `int`, copies nothing from `2^31` bytes on. -/

namespace Xv6.User

/-- The byte that ends a C string. -/
def NUL : Char := Char.ofNat 0

/-- `strchr(s, c)`: the offset of the first `c` in `s`, unless a NUL
    comes first. -/
def strchr : List Char → Char → Option Nat
  | [], _ => none
  | x :: s, c => if x = NUL then none else if x = c then some 0 else (strchr s c).map (· + 1)

theorem strchr_lt_length {s : List Char} {c : Char} {i : Nat} (h : strchr s c = some i) :
    i < s.length := by
  induction s generalizing i with
  | nil => cases h
  | cons x s ih =>
    simp only [strchr] at h
    split_ifs at h
    · cases h
      simp
    · obtain ⟨j, hj, rfl⟩ := Option.map_eq_some_iff.mp h
      simpa using ih hj

/-- `strchr` finds no character the string lacks. -/
theorem strchr_of_not_mem {s : List Char} {c : Char} (h : c ∉ s) : strchr s c = none := by
  induction s with
  | nil => rfl
  | cons x s ih =>
    have hx : x ≠ c := fun hx => h (hx ▸ List.mem_cons_self)
    simp [strchr, hx, ih (fun hc => h (List.mem_cons_of_mem _ hc))]

/-- In a set with no NUL, `strchr` finds exactly the members. -/
theorem strchr_isSome_iff {s : List Char} {c : Char} (h : NUL ∉ s) :
    (strchr s c).isSome = true ↔ c ∈ s := by
  induction s with
  | nil => simp [strchr]
  | cons x s ih =>
    have hx : x ≠ NUL := fun hx => h (hx ▸ List.mem_cons_self)
    rw [strchr, if_neg hx, List.mem_cons, ← ih (fun hn => h (List.mem_cons_of_mem _ hn))]
    by_cases hxc : x = c
    · simp [hxc]
    · simp [hxc, Ne.symm hxc]

/-- `strlen(s)`: the bytes before the first NUL. -/
def strlen : List Char → Nat
  | [] => 0
  | c :: s => if c = NUL then 0 else strlen s + 1

theorem strlen_le_length (s : List Char) : strlen s ≤ s.length := by
  induction s with
  | nil => simp [strlen]
  | cons c s ih =>
    rw [strlen]
    split_ifs
    · simp
    · simp [ih]

/-- No NUL comes before `strlen`. -/
theorem nul_not_mem_take_strlen (s : List Char) : NUL ∉ s.take (strlen s) := by
  induction s with
  | nil => simp
  | cons c s ih =>
    rw [strlen]
    split_ifs with hc
    · simp
    · rw [List.take_succ_cons, List.mem_cons, not_or]
      exact ⟨Ne.symm hc, ih⟩

/-! ## `memmove` -/

/-- `memmove(vdst, vsrc, n)`: the pointer it returns and the memory after it.
    `while(n-- > 0)` runs no round for `n ≤ 0`, so the pointers that
    `dst += n` moves back are then never used. -/
def memmove (mem : Nat → UInt8) (vdst vsrc : Nat) (n : Int32) : Nat × (Nat → UInt8) :=
  if vsrc > vdst then (vdst, Bytes.copyUp mem vdst vsrc n.toInt.toNat)
  else (vdst, Bytes.copyDown mem (vdst + n.toInt.toNat) (vsrc + n.toInt.toNat) n.toInt.toNat)

/-- `memcpy(dst, src, n)`: `memmove(dst, src, (int)n)`. -/
def memcpy (mem : Nat → UInt8) (dst src : Nat) (n : UInt32) : Nat × (Nat → UInt8) :=
  memmove mem dst src n.toInt32

theorem memmove_eq (mem : Nat → UInt8) (vdst vsrc : Nat) (n : Int32) :
    memmove mem vdst vsrc n = (vdst, Bytes.copyBytes mem vdst mem vsrc n.toInt.toNat) := by
  unfold memmove
  split_ifs with hup
  · rw [Bytes.copyUp_eq _ _ _ _ (by omega)]
  -- copying down, the source lies at or below the destination
  · rw [Bytes.copyDown_eq _ _ _ _ (by omega)]

/-- A `uint` count from `2^31` on is a negative `int`: `memcpy` copies nothing. -/
theorem memcpy_of_ge {n : UInt32} (h : 2 ^ 31 ≤ n.toNat) (mem : Nat → UInt8) (dst src : Nat) :
    memcpy mem dst src n = (dst, mem) := by
  have hneg : n.toInt32.toInt < 0 := by
    have hlt := n.toNat_lt
    rw [← Int32.toInt_toBitVec, UInt32.toBitVec_toInt32, BitVec.toInt_eq_toNat_cond,
      if_neg (by rw [UInt32.toNat_toBitVec]; omega), UInt32.toNat_toBitVec]
    omega
  rw [memcpy, memmove_eq, Int.toNat_of_nonpos (Int.le_of_lt hneg), Bytes.copyBytes_zero]

theorem memmove_overlap_safe (mem : Nat → UInt8) (dst src : Nat) :
    (∀ n : UInt32, Mem.memmove mem dst src n = (dst, Bytes.copyBytes mem dst mem src n.toNat)) ∧
      ∀ n : Int32, memmove mem dst src n = (dst, Bytes.copyBytes mem dst mem src n.toInt.toNat) :=
  ⟨Mem.memmove_eq mem dst src, memmove_eq mem dst src⟩

end Xv6.User
