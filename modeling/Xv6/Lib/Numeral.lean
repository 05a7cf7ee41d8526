import Mathlib

/-! # Numerals

    A numeral in base `b` is written most significant digit first, one
    character a digit.  `readNat` reads one back: it takes `0`-`9`, `a`-`f`
    and `A`-`F` as digits, wants at least one, and refuses a leading zero;
    `readInt` allows a `-` before it.  A writer that sends each digit `d < b`
    to a character read as `d` writes `numeral`, which is `Nat.digits`
    reversed, and reads back as the number written.

    * `digitsIn_map`: the characters of a table are read as their digits;
    * `readNat_numeral`, `readInt_numeral`, `readInt_minus_numeral`: round
      trips;
    * `length_numeral_le`: a number below `b ^ k` takes at most `k`
      characters. -/

namespace Numeral

/-- The value of a digit character, in bases up to 16, in either case. -/
def digitValue (c : Char) : Option Nat :=
  if '0' ≤ c ∧ c ≤ '9' then some (c.toNat - '0'.toNat)
  else if 'a' ≤ c ∧ c ≤ 'f' then some (c.toNat - 'a'.toNat + 10)
  else if 'A' ≤ c ∧ c ≤ 'F' then some (c.toNat - 'A'.toNat + 10)
  else none

/-- The digits of `s` in base `b`, if each character is one. -/
def digitsIn (b : Nat) : List Char → Option (List Nat)
  | [] => some []
  | c :: s =>
    match digitValue c with
    | some d => if d < b then (digitsIn b s).map (d :: ·) else none
    | none => none

/-- `s` read as a numeral in base `b`: at least one digit, and no leading
    zero before another digit. -/
def readNat (b : Nat) (s : List Char) : Option Nat :=
  if s = [] ∨ (s.head? = some '0' ∧ 1 < s.length) then none
  else (digitsIn b s).map fun ds => Nat.ofDigits b ds.reverse

/-- An optional `-`, then a numeral in base `b`. -/
def readInt (b : Nat) (s : List Char) : Option Int :=
  if s.head? = some '-' then (readNat b s.tail).map fun v : Nat => -(v : Int)
  else (readNat b s).map fun v : Nat => (v : Int)

/-- `x` in base `b` over the digit characters `tbl`, most significant
    digit first; zero is the one digit `tbl 0`. -/
def numeral (tbl : Nat → Char) (b x : Nat) : List Char :=
  if x = 0 then [tbl 0] else (Nat.digits b x).reverse.map tbl

section Table

variable {tbl : Nat → Char} {b : Nat}

/-- A table of digit characters for base `b`: the character at `d < b` is
    read as `d`. -/
def Reads (tbl : Nat → Char) (b : Nat) : Prop := ∀ d < b, digitValue (tbl d) = some d

theorem Reads.mono (htbl : Reads tbl b) {b' : Nat} (h : b' ≤ b) : Reads tbl b' :=
  fun d hd => htbl d (by omega)

theorem digitsIn_map (htbl : Reads tbl b) :
    ∀ l : List Nat, (∀ d ∈ l, d < b) → digitsIn b (l.map tbl) = some l
  | [], _ => rfl
  | d :: l, hl => by
    have hd := hl d List.mem_cons_self
    rw [List.map_cons, digitsIn, htbl d hd]
    simp only [if_pos hd]
    rw [digitsIn_map htbl l fun e he => hl e (List.mem_cons_of_mem _ he)]
    rfl

/-- Only the digit zero is written `0`. -/
theorem eq_zero_of_tbl_eq (htbl : Reads tbl b) {d : Nat} (hd : d < b) (h : tbl d = '0') :
    d = 0 := by
  have := htbl d hd
  rw [h] at this
  exact (Option.some.inj this).symm

/-- No digit is written `-`. -/
theorem tbl_ne_minus (htbl : Reads tbl b) {d : Nat} (hd : d < b) : tbl d ≠ '-' := by
  intro h
  have := htbl d hd
  rw [h] at this
  cases this

theorem numeral_ne_nil (tbl : Nat → Char) (b x : Nat) : numeral tbl b x ≠ [] := by
  unfold numeral
  split_ifs with hx
  · simp
  · simpa using Nat.digits_ne_nil_iff_ne_zero.mpr hx

/-- The first character of a numeral is its leading digit. -/
theorem head?_numeral (hb : 1 < b) (x : Nat) :
    ∃ d < b, (numeral tbl b x).head? = some (tbl d) ∧ (d = 0 → x = 0) := by
  unfold numeral
  split_ifs with hx
  · exact ⟨0, by omega, rfl, fun _ => hx⟩
  · have hne : Nat.digits b x ≠ [] := Nat.digits_ne_nil_iff_ne_zero.mpr hx
    refine ⟨(Nat.digits b x).getLast hne, Nat.digits_lt_base hb (List.getLast_mem hne), ?_,
      fun h => absurd h (Nat.getLast_digit_ne_zero b hx)⟩
    rw [List.head?_map, List.head?_reverse, List.getLast?_eq_some_getLast hne]
    rfl

theorem digitsIn_numeral (htbl : Reads tbl b) (hb : 1 < b) (x : Nat) :
    digitsIn b (numeral tbl b x) = some (if x = 0 then [0] else (Nat.digits b x).reverse) := by
  unfold numeral
  split_ifs with hx
  · exact digitsIn_map htbl [0] (by simp; omega)
  · exact digitsIn_map htbl _ fun d hd => Nat.digits_lt_base hb (List.mem_reverse.mp hd)

/-- **ROUND TRIP**: a numeral reads back as the number written. -/
theorem readNat_numeral (htbl : Reads tbl b) (hb : 1 < b) (x : Nat) :
    readNat b (numeral tbl b x) = some x := by
  have hlead : ¬((numeral tbl b x).head? = some '0' ∧ 1 < (numeral tbl b x).length) := by
    rintro ⟨h0, hlen⟩
    obtain ⟨d, hd, hhead, hzero⟩ := @head?_numeral tbl b hb x
    rw [hhead, Option.some.injEq] at h0
    have hx := hzero (eq_zero_of_tbl_eq htbl hd h0)
    simp [numeral, hx] at hlen
  rw [readNat, if_neg (not_or.mpr ⟨numeral_ne_nil tbl b x, hlead⟩), digitsIn_numeral htbl hb]
  split_ifs with hx
  · simp [hx]
  · simp [Nat.ofDigits_digits]

/-- A numeral does not start with `-`. -/
theorem readInt_numeral (htbl : Reads tbl b) (hb : 1 < b) (x : Nat) :
    readInt b (numeral tbl b x) = some (x : Int) := by
  obtain ⟨d, hd, hhead, -⟩ := @head?_numeral tbl b hb x
  have hminus : (numeral tbl b x).head? ≠ some '-' := by
    rw [hhead, ne_eq, Option.some.injEq]
    exact tbl_ne_minus htbl hd
  rw [readInt, if_neg hminus, readNat_numeral htbl hb]
  rfl

theorem readInt_minus_numeral (htbl : Reads tbl b) (hb : 1 < b) (x : Nat) :
    readInt b ('-' :: numeral tbl b x) = some (-(x : Int)) := by
  simp only [readInt, List.head?_cons, if_true, List.tail_cons, readNat_numeral htbl hb,
    Option.map_some]

theorem length_numeral_le (hb : 1 < b) {x k : Nat} (hk : 0 < k) (hx : x < b ^ k) :
    (numeral tbl b x).length ≤ k := by
  unfold numeral
  split_ifs with h0
  · simp only [List.length_singleton]
    omega
  · simpa using (Nat.digits_length_le_iff hb x).mpr hx

end Table

end Numeral
