import Xv6.Lib.Numeral
import Xv6.User.Ulib

/-! # `printf` of the user library (`user/printf.c`)

    `printint(xx, base, sgn)` takes a `long long`: a negative value to be
    printed signed is negated in `long long` and printed as the unsigned
    result, with a `-` after the digits in `buf`; the whole buffer is then
    printed backwards.  The kernel's `printint` has the same body over
    lower-case digits, so `printintBuf` is stated once over the table of
    digits and the two `printint`s are instances of it.

    An argument is passed in a 64-bit slot; `va_arg(ap, int)` reads its low
    32 bits.  `%x` fetches an `int` and passes it on as a `long long`, so
    the sign is extended before the number is printed unsigned.

    * `digitLoop_eq`: the digit loop writes `Numeral.numeral` backwards;
    * `toNat_toUInt64_neg`: negation in `long long`, wrapping at
      `LLONG_MIN`, gives the magnitude of every negative value;
    * `readInt_printint_signed`, `readNat_printint_unsigned`: what
      `printint` prints reads back as its argument, signed or unsigned;
    * `length_printintBuf_le`: in bases from 10 on, `buf[20]` holds it;
    * `vprintf_d_reads_back`, `vprintf_x_reads_back`: the conversions of
      `vprintf`, stated by `PrintsAs`. -/

namespace Xv6.User

open Numeral

/-- A base `printint` is called with: dividing by it shrinks a number, so
    the digit loop ends. -/
structure Base where
  val : Nat
  one_lt : 1 < val

/-- Base 10. -/
def dec : Base := ⟨10, by decide⟩

/-- Base 16. -/
def hex : Base := ⟨16, by decide⟩

/-- `do { buf[i++] = digits[x % base]; } while((x /= base) != 0);`: the
    digits of `x` as they land in `buf`, the lowest first. -/
def digitLoop (digits : List Char) (base : Base) (x : Nat) : List Char :=
  digits.getD (x % base.val) NUL ::
    if _h : x / base.val = 0 then [] else digitLoop digits base (x / base.val)
termination_by x
decreasing_by
  exact Nat.div_lt_self (Nat.pos_of_ne_zero fun hx => _h (by rw [hx, Nat.zero_div])) base.one_lt

/-- What the body of `printint(xx, base, sgn)` leaves in `buf`, over its
    table of `digits`: the digits, lowest first, then the sign.  `-xx` is
    the machine's negation, which wraps at `LLONG_MIN`. -/
def printintBuf (digits : List Char) (xx : Int64) (base : Base) (sgn : Bool) : List Char :=
  let neg := sgn && decide (xx < 0)
  let x : UInt64 := if neg then (-xx).toUInt64 else xx.toUInt64
  digitLoop digits base x.toNat ++ if neg then ['-'] else []

/-- `digits[]` of `user/printf.c`. -/
def digits : List Char := "0123456789ABCDEF".toList

/-- `printint(fd, xx, base, sgn)`: `while(--i >= 0) putc(fd, buf[i]);`. -/
def printint (xx : Int64) (base : Base) (sgn : Bool) : List Char :=
  (printintBuf digits xx base sgn).reverse

/-- The loop of `printptr`, `i` rounds left: each prints the top four bits
    of `x` and shifts them out. -/
def printptrLoop (digits : List Char) : Nat → UInt64 → List Char
  | 0, _ => []
  | i + 1, x => digits.getD (x >>> 60).toNat NUL :: printptrLoop digits i (x <<< 4)

/-- `printptr(fd, x)`: `0x` and the sixteen hexadecimal digits of `x`. -/
def printptr (x : UInt64) : List Char :=
  '0' :: 'x' :: printptrLoop digits 16 x

/-- `va_arg(ap, int)`: the low 32 bits of the next slot. -/
def argInt (ap : List UInt64) : Int32 := (ap.headD 0).toUInt32.toInt32

/-- `vprintf(fd, fmt, ap)`: the bytes written to `fd`, one `putc` each.
    The arguments are the 64-bit slots `ap`; `str p` is the memory from
    address `p` on, read up to its first NUL. -/
def vprintf (str : UInt64 → List Char) : List Char → List UInt64 → List Char
  | [], _ => []
  | c :: fmt, ap =>
    if c = NUL then []
    else if c ≠ '%' then c :: vprintf str fmt ap
    else
      match fmt with
      | [] => []
      | c :: fmt =>
        if c = NUL then []
        else if c = 'd' then printint (argInt ap).toInt64 dec true ++ vprintf str fmt ap.tail
        else if c = 'x' then printint (argInt ap).toInt64 hex false ++ vprintf str fmt ap.tail
        else if c = 'p' then printptr (ap.headD 0) ++ vprintf str fmt ap.tail
        else if c = 's' then
          (if ap.headD 0 = 0 then "(null)".toList else (str (ap.headD 0)).takeWhile (· != NUL)) ++
            vprintf str fmt ap.tail
        -- `putc(fd, va_arg(ap, int))` keeps the low byte
        else if c = 'c' then Char.ofNat (ap.headD 0).toUInt8.toNat :: vprintf str fmt ap.tail
        else if c = '%' then '%' :: vprintf str fmt ap
        else '%' :: c :: vprintf str fmt ap

/-! ## The digit loop -/

theorem digitLoop_eq (digits : List Char) (base : Base) (x : Nat) :
    digitLoop digits base x = (numeral (digits.getD · NUL) base.val x).reverse := by
  induction x using Nat.strong_induction_on with
  | _ x ih =>
    have hb := base.one_lt
    rw [digitLoop]
    split_ifs with hq
    · -- one digit: `x < base`
      have hx : x < base.val := (Nat.div_eq_zero_iff_lt (by omega)).mp hq
      by_cases h0 : x = 0
      · simp [numeral, h0]
      · rw [numeral, if_neg h0, Nat.digits_of_lt base.val x h0 hx, Nat.mod_eq_of_lt hx]
        rfl
    · have h0 : x ≠ 0 := fun h => hq (by rw [h, Nat.zero_div])
      have hlt : x / base.val < x := Nat.div_lt_self (Nat.pos_of_ne_zero h0) hb
      rw [ih _ hlt]
      unfold numeral
      rw [if_neg hq, if_neg h0, Nat.digits_eq_cons_digits_div hb h0]
      simp

/-! ## `long long` to magnitude -/

theorem toNat_toUInt64_of_nonneg {xx : Int64} (h : 0 ≤ xx.toInt) :
    xx.toUInt64.toNat = xx.toInt.toNat := by
  have hlt := xx.toBitVec.isLt
  rw [← Int64.toInt_toBitVec, BitVec.toInt_eq_toNat_cond] at h ⊢
  rw [← UInt64.toNat_toBitVec, Int64.toBitVec_toUInt64]
  split_ifs at h ⊢ with hc
  · simp
  · omega

/-- Negating in `long long` and reading the result unsigned gives the
    magnitude of every negative value, `LLONG_MIN` too: its negation wraps
    to itself, whose unsigned reading is `2^63`. -/
theorem toNat_toUInt64_neg {xx : Int64} (h : xx.toInt < 0) :
    (-xx).toUInt64.toNat = xx.toInt.natAbs := by
  have hlt := xx.toBitVec.isLt
  rw [← Int64.toInt_toBitVec, BitVec.toInt_eq_toNat_cond] at h ⊢
  rw [← UInt64.toNat_toBitVec, Int64.toBitVec_toUInt64, Int64.toBitVec_neg, BitVec.toNat_neg]
  split_ifs at h ⊢ with hc
  · omega
  · rw [Nat.mod_eq_of_lt (by omega)]
    omega

/-! ## `printint` -/

section Printint

variable (digits : List Char) (xx : Int64) (base : Base)

theorem printintBuf_unsigned :
    printintBuf digits xx base false =
      (numeral (digits.getD · NUL) base.val xx.toUInt64.toNat).reverse := by
  simp [printintBuf, digitLoop_eq]

theorem printintBuf_signed :
    printintBuf digits xx base true =
      if xx.toInt < 0 then (numeral (digits.getD · NUL) base.val xx.toInt.natAbs).reverse ++ ['-']
      else (numeral (digits.getD · NUL) base.val xx.toInt.toNat).reverse := by
  have hiff : xx < 0 ↔ xx.toInt < 0 := Int64.lt_iff_toInt_lt
  by_cases hneg : xx.toInt < 0
  · have hlt : xx < 0 := hiff.mpr hneg
    simp only [printintBuf, Bool.true_and, hlt, decide_true, ↓reduceIte, if_pos hneg, digitLoop_eq,
      toNat_toUInt64_neg hneg]
  · have hnot : ¬xx < 0 := fun h => hneg (hiff.mp h)
    simp only [printintBuf, Bool.true_and, hnot, decide_false, Bool.false_eq_true, ↓reduceIte,
      if_neg hneg, digitLoop_eq, toNat_toUInt64_of_nonneg (Int.not_lt.mp hneg), List.append_nil]

variable {digits} (htbl : Reads (digits.getD · NUL) base.val)
include htbl

/-- **ROUND TRIP**: signed, `printint` prints a value that reads back as
    it. -/
theorem readInt_printint_signed :
    readInt base.val (printintBuf digits xx base true).reverse = some xx.toInt := by
  rw [printintBuf_signed]
  split_ifs with hneg
  · rw [List.reverse_append, List.reverse_reverse, List.reverse_singleton, List.singleton_append,
      readInt_minus_numeral htbl base.one_lt]
    congr 1
    omega
  · rw [List.reverse_reverse, readInt_numeral htbl base.one_lt]
    congr 1
    omega

/-- **ROUND TRIP**: unsigned, `printint` prints the argument's unsigned
    reading. -/
theorem readNat_printint_unsigned :
    readNat base.val (printintBuf digits xx base false).reverse = some xx.toUInt64.toNat := by
  rw [printintBuf_unsigned, List.reverse_reverse, readNat_numeral htbl base.one_lt]

end Printint

/-- In bases from 10 on, what `printint` leaves in `buf` fits its 20 bytes:
    at most 20 digits unsigned, and at most 19 digits and a sign signed,
    since no magnitude passes `2^63` there. -/
theorem length_printintBuf_le (digits : List Char) (xx : Int64) (base : Base) (sgn : Bool)
    (h10 : 10 ≤ base.val) : (printintBuf digits xx base sgn).length ≤ 20 := by
  have hb := base.one_lt
  have hpow (k : Nat) : 10 ^ k ≤ base.val ^ k := Nat.pow_le_pow_left h10 k
  have hunsigned : (numeral (digits.getD · NUL) base.val xx.toUInt64.toNat).length ≤ 20 :=
    length_numeral_le hb (by omega)
      (lt_of_lt_of_le (lt_of_lt_of_le xx.toUInt64.toNat_lt (by decide)) (hpow 20))
  cases sgn with
  | false =>
    rw [printintBuf_unsigned, List.length_reverse]
    exact hunsigned
  | true =>
    have hrange := xx.toInt_lt
    have hrange' := xx.le_toInt
    rw [printintBuf_signed]
    split_ifs with hneg
    · have hmag : xx.toInt.natAbs < 10 ^ 19 := by omega
      have : (numeral (digits.getD · NUL) base.val xx.toInt.natAbs).length ≤ 19 :=
        length_numeral_le hb (by omega) (lt_of_lt_of_le hmag (hpow 19))
      simp only [List.length_append, List.length_reverse, List.length_singleton]
      omega
    · have hmag : xx.toInt.toNat < 10 ^ 20 := by omega
      rw [List.length_reverse]
      exact length_numeral_le hb (by omega) (lt_of_lt_of_le hmag (hpow 20))

/-! ## `vprintf` -/

theorem digits_reads : Reads (digits.getD · NUL) 16 := by
  unfold Reads
  decide

theorem vprintf_d (str : UInt64 → List Char) (a : UInt64) (fmt : List Char) (ap : List UInt64) :
    vprintf str ('%' :: 'd' :: fmt) (a :: ap) =
      (printintBuf digits a.toUInt32.toInt32.toInt64 dec true).reverse ++ vprintf str fmt ap := by
  simp [vprintf, printint, argInt, NUL]

theorem vprintf_x (str : UInt64 → List Char) (a : UInt64) (fmt : List Char) (ap : List UInt64) :
    vprintf str ('%' :: 'x' :: fmt) (a :: ap) =
      (printintBuf digits a.toUInt32.toInt32.toInt64 hex false).reverse ++ vprintf str fmt ap := by
  simp [vprintf, printint, argInt, NUL]

/-- A character of the format other than `%` is printed as it is. -/
theorem vprintf_lit (str : UInt64 → List Char) {c : Char} (hc : c ≠ NUL) (hp : c ≠ '%')
    (fmt : List Char) (ap : List UInt64) : vprintf str (c :: fmt) ap = c :: vprintf str fmt ap := by
  rw [vprintf.eq_def]
  simp only [if_neg hc, if_pos hp]

theorem vprintf_s (str : UInt64 → List Char) {a : UInt64} (ha : a ≠ 0) (fmt : List Char)
    (ap : List UInt64) :
    vprintf str ('%' :: 's' :: fmt) (a :: ap) = (str a).takeWhile (· != NUL) ++ vprintf str fmt ap := by
  simp [vprintf, ha, NUL]

/-- `run` prints the conversion `conv` of the slot `a` as characters that
    `read` takes back to `v`, whatever format and arguments follow. -/
def PrintsAs {α : Type} (run : List Char → List UInt64 → List Char) (conv : List Char) (a : UInt64)
    (read : List Char → Option α) (v : α) : Prop :=
  ∀ fmt ap, ∃ out, run ('%' :: conv ++ fmt) (a :: ap) = out ++ run fmt ap ∧ read out = some v

/-- `%d` prints the `int` in the slot so that it reads back. -/
theorem vprintf_d_reads_back (str : UInt64 → List Char) (a : UInt64) :
    PrintsAs (vprintf str) ['d'] a (readInt 10) a.toUInt32.toInt32.toInt := by
  intro fmt ap
  refine ⟨_, vprintf_d str a fmt ap, ?_⟩
  rw [show (10 : Nat) = dec.val from rfl, readInt_printint_signed _ dec (digits_reads.mono (by decide)),
    Int32.toInt_toInt64]

/-- `%x` prints the `int` in the slot sign-extended to 64 bits: a negative
    one comes out as sixteen digits, its value plus `2^64`. -/
theorem vprintf_x_reads_back (str : UInt64 → List Char) (a : UInt64) :
    PrintsAs (vprintf str) ['x'] a (readNat 16) a.toUInt32.toInt32.toInt64.toUInt64.toNat := by
  intro fmt ap
  refine ⟨_, vprintf_x str a fmt ap, ?_⟩
  rw [show (16 : Nat) = hex.val from rfl, readNat_printint_unsigned _ hex digits_reads]

end Xv6.User
