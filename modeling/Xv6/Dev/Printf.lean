import Xv6.User.Printf

/-! # `printf` of the kernel (`kernel/printf.c`)

    The kernel's `printint` is the user library's body over lower-case
    digits (`User.printintBuf`), printed through `consputc`.  `printf`
    looks ahead up to two characters after a `%` for the `l` and `ll`
    sizes, and fetches each 32-bit conversion's argument as an `int` or a
    `uint32`, each 64-bit one as a `uint64`, before passing it on as a
    `long long`.

    * `putAll_bytes`: `consputc` prints a byte it is given as itself;
    * `printf_reads_back`: every integer conversion prints its argument so
      that it reads back under the conversion's signed or unsigned reading,
      and the conversions of the user library's `vprintf` next to them. -/

namespace Xv6.Dev

open Numeral
open Xv6.User (NUL Base dec hex printintBuf printptrLoop printintBuf_unsigned printintBuf_signed
  PrintsAs)

/-- `BACKSPACE`. -/
def BACKSPACE : Nat := 0x100

/-- `consputc(c)`: the bytes sent to the UART for the `int` `c`, read as
    the number its bits spell. -/
def consputc (c : Nat) : List Char :=
  if c = BACKSPACE then ['\x08', ' ', '\x08'] else [Char.ofNat (c % 256)]

/-- One `consputc` for each character of `s`. -/
def putAll (s : List Char) : List Char := s.flatMap fun c => consputc c.toNat

/-- `digits[]` of `kernel/printf.c`. -/
def digits : List Char := "0123456789abcdef".toList

/-- `printint(xx, base, sign)`: `while(--i >= 0) consputc(buf[i]);`. -/
def printint (xx : Int64) (base : Base) (sign : Bool) : List Char :=
  putAll (printintBuf digits xx base sign).reverse

/-- `printptr(x)`. -/
def printptr (x : UInt64) : List Char :=
  putAll ('0' :: 'x' :: printptrLoop digits 16 x)

/-- `printf(fmt, ...)`: the bytes sent to the console.  The arguments are
    the 64-bit slots `ap`; `str p` is the memory from address `p` on, read
    up to its first NUL.  A character of `fmt` is a byte, which `& 0xff`
    keeps. -/
def printf (str : UInt64 → List Char) : List Char → List UInt64 → List Char
  | [], _ => []
  | cx :: fmt, ap =>
    if cx = NUL then []
    else if cx ≠ '%' then consputc cx.toNat ++ printf str fmt ap
    else
      let c0 := fmt.headD NUL
      let c1 := if c0 ≠ NUL then fmt.getD 1 NUL else NUL
      let c2 := if c1 ≠ NUL then fmt.getD 2 NUL else NUL
      let a := ap.headD 0
      if c0 = 'd' then printint a.toUInt32.toInt32.toInt64 dec true ++ printf str (fmt.drop 1) ap.tail
      else if c0 = 'l' ∧ c1 = 'd' then printint a.toInt64 dec true ++ printf str (fmt.drop 2) ap.tail
      else if c0 = 'l' ∧ c1 = 'l' ∧ c2 = 'd' then
        printint a.toInt64 dec true ++ printf str (fmt.drop 3) ap.tail
      else if c0 = 'u' then
        printint a.toUInt32.toUInt64.toInt64 dec false ++ printf str (fmt.drop 1) ap.tail
      else if c0 = 'l' ∧ c1 = 'u' then printint a.toInt64 dec false ++ printf str (fmt.drop 2) ap.tail
      else if c0 = 'l' ∧ c1 = 'l' ∧ c2 = 'u' then
        printint a.toInt64 dec false ++ printf str (fmt.drop 3) ap.tail
      else if c0 = 'x' then
        printint a.toUInt32.toUInt64.toInt64 hex false ++ printf str (fmt.drop 1) ap.tail
      else if c0 = 'l' ∧ c1 = 'x' then printint a.toInt64 hex false ++ printf str (fmt.drop 2) ap.tail
      else if c0 = 'l' ∧ c1 = 'l' ∧ c2 = 'x' then
        printint a.toInt64 hex false ++ printf str (fmt.drop 3) ap.tail
      else if c0 = 'p' then printptr a ++ printf str (fmt.drop 1) ap.tail
      else if c0 = 'c' then consputc a.toUInt32.toNat ++ printf str (fmt.drop 1) ap.tail
      else if c0 = 's' then
        putAll (if a = 0 then "(null)".toList else (str a).takeWhile (· != NUL)) ++
          printf str (fmt.drop 1) ap.tail
      else if c0 = '%' then consputc '%'.toNat ++ printf str (fmt.drop 1) ap
      else if c0 = NUL then []
      -- an unknown `%` sequence is printed to draw attention
      else consputc '%'.toNat ++ consputc c0.toNat ++ printf str (fmt.drop 1) ap
termination_by fmt => fmt.length
decreasing_by all_goals simp only [List.length_drop, List.length_cons]; omega

/-! ## Bytes through `consputc` -/

theorem consputc_byte {c : Char} (h : c.toNat < 256) : consputc c.toNat = [c] := by
  have hne : c.toNat ≠ BACKSPACE := by unfold BACKSPACE; omega
  rw [consputc, if_neg hne, Nat.mod_eq_of_lt h, Char.ofNat_toNat]

/-- A string of bytes goes to the UART as it is. -/
theorem putAll_bytes {s : List Char} (h : ∀ c ∈ s, c.toNat < 256) : putAll s = s := by
  induction s with
  | nil => rfl
  | cons c s ih =>
    rw [putAll, List.flatMap_cons, consputc_byte (h c List.mem_cons_self)]
    exact congrArg (c :: ·) (ih fun d hd => h d (List.mem_cons_of_mem _ hd))

theorem digits_reads : Reads (digits.getD · NUL) 16 := by
  unfold Reads
  decide

/-- What the body of `printint` leaves in `buf` is made of bytes: digits
    from the table and `-`. -/
theorem printintBuf_bytes (xx : Int64) (base : Base) (sign : Bool) (hb : base.val ≤ 16) :
    ∀ c ∈ printintBuf digits xx base sign, c.toNat < 256 := by
  have hdig : ∀ d < 16, (digits.getD d NUL).toNat < 256 := by decide
  have hnum : ∀ x, ∀ c ∈ (numeral (digits.getD · NUL) base.val x).reverse, c.toNat < 256 := by
    intro x c hc
    rw [List.mem_reverse] at hc
    unfold numeral at hc
    split_ifs at hc
    · rw [List.mem_singleton.mp hc]
      exact hdig 0 (by decide)
    · obtain ⟨d, hd, rfl⟩ := List.mem_map.mp hc
      exact hdig d (by have := Nat.digits_lt_base base.one_lt (List.mem_reverse.mp hd); omega)
  cases sign with
  | false => rw [printintBuf_unsigned]; exact hnum _
  | true =>
    rw [printintBuf_signed]
    split_ifs
    · intro c hc
      rcases List.mem_append.mp hc with hc | hc
      · exact hnum _ c hc
      · rw [List.mem_singleton.mp hc]
        decide
    · exact hnum _

theorem printint_eq (xx : Int64) (base : Base) (sign : Bool) (hb : base.val ≤ 16) :
    printint xx base sign = (printintBuf digits xx base sign).reverse := by
  rw [printint, putAll_bytes fun c hc => printintBuf_bytes xx base sign hb c (List.mem_reverse.mp hc)]

/-! ## The integer conversions -/

section Conversions

variable (str : UInt64 → List Char) (a : UInt64) (fmt : List Char) (ap : List UInt64)

theorem printf_d : printf str ('%' :: 'd' :: fmt) (a :: ap) =
    printint a.toUInt32.toInt32.toInt64 dec true ++ printf str fmt ap := by
  rw [printf]
  simp [NUL]

theorem printf_u : printf str ('%' :: 'u' :: fmt) (a :: ap) =
    printint a.toUInt32.toUInt64.toInt64 dec false ++ printf str fmt ap := by
  rw [printf]
  simp [NUL]

theorem printf_x : printf str ('%' :: 'x' :: fmt) (a :: ap) =
    printint a.toUInt32.toUInt64.toInt64 hex false ++ printf str fmt ap := by
  rw [printf]
  simp [NUL]

theorem printf_ld : printf str ('%' :: 'l' :: 'd' :: fmt) (a :: ap) =
    printint a.toInt64 dec true ++ printf str fmt ap := by
  rw [printf]
  simp [NUL]

theorem printf_lu : printf str ('%' :: 'l' :: 'u' :: fmt) (a :: ap) =
    printint a.toInt64 dec false ++ printf str fmt ap := by
  rw [printf]
  simp [NUL]

theorem printf_lx : printf str ('%' :: 'l' :: 'x' :: fmt) (a :: ap) =
    printint a.toInt64 hex false ++ printf str fmt ap := by
  rw [printf]
  simp [NUL]

theorem printf_lld : printf str ('%' :: 'l' :: 'l' :: 'd' :: fmt) (a :: ap) =
    printint a.toInt64 dec true ++ printf str fmt ap := by
  rw [printf]
  simp [NUL]

theorem printf_llu : printf str ('%' :: 'l' :: 'l' :: 'u' :: fmt) (a :: ap) =
    printint a.toInt64 dec false ++ printf str fmt ap := by
  rw [printf]
  simp [NUL]

theorem printf_llx : printf str ('%' :: 'l' :: 'l' :: 'x' :: fmt) (a :: ap) =
    printint a.toInt64 hex false ++ printf str fmt ap := by
  rw [printf]
  simp [NUL]

end Conversions

section Reading

variable {str : UInt64 → List Char} {a : UInt64} {xx : Int64}

/-- A signed conversion prints the `long long` it passes on so that it
    reads back. -/
theorem printsAs_signed (conv : List Char)
    (h : ∀ fmt ap,
      printf str ('%' :: conv ++ fmt) (a :: ap) = printint xx dec true ++ printf str fmt ap) :
    PrintsAs (printf str) conv a (readInt 10) xx.toInt := by
  intro fmt ap
  refine ⟨_, (h fmt ap).trans (by rw [printint_eq _ _ _ (by decide)]), ?_⟩
  exact User.readInt_printint_signed xx dec (digits_reads.mono (by decide))

/-- An unsigned conversion prints the `long long` it passes on as the
    number its bits spell. -/
theorem printsAs_unsigned (conv : List Char) (base : Base) (hb : base.val ≤ 16)
    (h : ∀ fmt ap,
      printf str ('%' :: conv ++ fmt) (a :: ap) = printint xx base false ++ printf str fmt ap) :
    PrintsAs (printf str) conv a (readNat base.val) xx.toUInt64.toNat := by
  intro fmt ap
  refine ⟨_, (h fmt ap).trans (by rw [printint_eq _ _ _ hb]), ?_⟩
  exact User.readNat_printint_unsigned xx base (digits_reads.mono hb)

end Reading

/-- The integer conversions of both `printf`s, on every 64-bit argument
    slot `a`: the kernel's read back as the `int`, `uint32`, `long long`
    or `uint64` they fetch, the user library's `%d` as the `int` and its
    `%x` as the `int` sign-extended to 64 bits; and `printint`'s `buf`
    holds what it is given in both bases it is called with. -/
theorem printf_reads_back (str : UInt64 → List Char) (a : UInt64) :
    PrintsAs (printf str) ['d'] a (readInt 10) a.toUInt32.toInt32.toInt ∧
      PrintsAs (printf str) ['u'] a (readNat 10) a.toUInt32.toNat ∧
      PrintsAs (printf str) ['x'] a (readNat 16) a.toUInt32.toNat ∧
      PrintsAs (printf str) ['l', 'd'] a (readInt 10) a.toInt64.toInt ∧
      PrintsAs (printf str) ['l', 'u'] a (readNat 10) a.toNat ∧
      PrintsAs (printf str) ['l', 'x'] a (readNat 16) a.toNat ∧
      PrintsAs (printf str) ['l', 'l', 'd'] a (readInt 10) a.toInt64.toInt ∧
      PrintsAs (printf str) ['l', 'l', 'u'] a (readNat 10) a.toNat ∧
      PrintsAs (printf str) ['l', 'l', 'x'] a (readNat 16) a.toNat ∧
      PrintsAs (User.vprintf str) ['d'] a (readInt 10) a.toUInt32.toInt32.toInt ∧
      PrintsAs (User.vprintf str) ['x'] a (readNat 16) a.toUInt32.toInt32.toInt64.toUInt64.toNat ∧
      ∀ (tbl : List Char) (xx : Int64) (sgn : Bool),
        (printintBuf tbl xx dec sgn).length ≤ 20 ∧ (printintBuf tbl xx hex sgn).length ≤ 20 := by
  -- a 32-bit argument is widened to a `long long` without changing its value
  have hd := printsAs_signed ['d'] (printf_d str a)
  rw [Int32.toInt_toInt64] at hd
  have hu := printsAs_unsigned ['u'] dec (by decide) (printf_u str a)
  have hx := printsAs_unsigned ['x'] hex (by decide) (printf_x str a)
  rw [UInt64.toUInt64_toInt64, UInt32.toNat_toUInt64] at hu hx
  -- a 64-bit one is passed on as its own bits
  have hlu := printsAs_unsigned ['l', 'u'] dec (by decide) (printf_lu str a)
  have hlx := printsAs_unsigned ['l', 'x'] hex (by decide) (printf_lx str a)
  have hllu := printsAs_unsigned ['l', 'l', 'u'] dec (by decide) (printf_llu str a)
  have hllx := printsAs_unsigned ['l', 'l', 'x'] hex (by decide) (printf_llx str a)
  rw [UInt64.toUInt64_toInt64] at hlu hlx hllu hllx
  refine ⟨hd, hu, hx, printsAs_signed ['l', 'd'] (printf_ld str a), hlu, hlx,
    printsAs_signed ['l', 'l', 'd'] (printf_lld str a), hllu, hllx,
    User.vprintf_d_reads_back str a, User.vprintf_x_reads_back str a, ?_⟩
  intro tbl xx sgn
  exact ⟨User.length_printintBuf_le tbl xx dec sgn (by decide),
    User.length_printintBuf_le tbl xx hex sgn (by decide)⟩

/-- `printf("%x", -1)` in user space: the `int` `-1`, passed in its slot as
    all ones, prints as a numeral of `2^64 - 1`, not of the `uint32`
    `2^32 - 1`. -/
theorem vprintf_x_minus_one :
    PrintsAs (User.vprintf fun _ => []) ['x'] 0xFFFFFFFFFFFFFFFF (readNat 16) (2 ^ 64 - 1) ∧
      (2 ^ 64 - 1 : Nat) ≠ 2 ^ 32 - 1 := by
  have h := (printf_reads_back (fun _ => []) 0xFFFFFFFFFFFFFFFF).2.2.2.2.2.2.2.2.2.2.1
  exact ⟨h, by decide⟩

end Xv6.Dev
