import Mathlib
import Xv6.User.Printf

/-! # `wc` (`wc.c`)

    `wc(fd, name)` reads `fd` in blocks of at most `sizeof(buf) = 512`
    bytes and runs one round of its `for` loop per byte, carrying the
    counters `l`, `w`, `c` (C `int`s) and the flag `inword` from one block
    to the next.  A byte is a separator when `strchr(" \r\t\n\v", ·)` finds
    it; `strchr` stops at the string's NUL, so a NUL byte in the input is
    a byte of a word.  Read number `k` returns at most what `chunk k` says,
    `none` for `-1`.

    * `foldl_wcByte`: the loop over the bytes counts newlines, words (the
      nonempty runs between separators, `words`) and bytes, however the
      counters started, as `Int32` sums;
    * `wcLoop_eq`: however the reads split the input, the counters are
      those of the whole input;
    * `wc_eq_wcLine`: `wc` prints the number of newlines, words and
      bytes of an input shorter than `2^31` bytes, and the name;
    * `wcMain_prints_counts`: `main` prints that line for every file. -/

namespace Xv6.User

open Numeral

/-- `" \r\t\n\v"`. -/
def wcSpaces : List Char := [' ', '\r', '\t', '\n', '\x0b']

/-- The counters of `wc`. -/
structure WcState where
  l : Int32
  w : Int32
  c : Int32
  inword : Bool

/-- One round of the `for` loop, on the byte `b`. -/
def wcByte (st : WcState) (b : Char) : WcState :=
  let c := st.c + 1
  let l := if b = '\n' then st.l + 1 else st.l
  if (strchr wcSpaces b).isSome then { st with l, c, inword := false }
  else if !st.inword then { st with l, c, w := st.w + 1, inword := true }
  else { st with l, c }

/-- The `while` loop over the reads: `inp` is what `fd` has still to
    deliver, `k` the number of the next read; `none` when a read fails. -/
def wcLoop (chunk : Nat → Option Nat) : Nat → WcState → List Char → Nat → Option WcState
  | 0, st, _, _ => some st
  | fuel + 1, st, inp, k =>
      match chunk k with
      | none => none
      | some m =>
          let n := min m (min 512 inp.length)
          if 0 < n then wcLoop chunk fuel ((inp.take n).foldl wcByte st) (inp.drop n) (k + 1)
          else some st

/-- `wc(fd, name)` on the input `inp`: the bytes written to fd 1, and
    whether it called `exit(1)`.  An `int` is passed in the low 32 bits of
    its slot, all that `va_arg(ap, int)` reads. -/
def wc (str : UInt64 → List Char) (chunk : Nat → Option Nat) (inp : List Char) (name : UInt64) :
    List Char × Bool :=
  match wcLoop chunk (inp.length + 1) ⟨0, 0, 0, false⟩ inp 0 with
  | none => ("wc: read error\n".toList, true)
  | some st =>
      (vprintf str "%d %d %d %s\n".toList
        [st.l.toUInt32.toUInt64, st.w.toUInt32.toUInt64, st.c.toUInt32.toUInt64, name], false)

/-- The loop of `main` over `argv[1..]`, each argument with what `open`
    gives: the file's bytes, or `none` when it fails. -/
def wcFiles (str : UInt64 → List Char) (chunk : Nat → Nat → Option Nat) :
    Nat → List (UInt64 × Option (List Char)) → List Char
  | _, [] => []
  | _, (name, none) :: _ => vprintf str "wc: cannot open %s\n".toList [name]
  | i, (name, some inp) :: args =>
      let r := wc str (chunk i) inp name
      r.1 ++ if r.2 then [] else wcFiles str chunk (i + 1) args

/-- `main(argc, argv)`: with no argument `wc` counts the standard input
    under the name `""` at `empty`. -/
def wcMain (str : UInt64 → List Char) (chunk : Nat → Nat → Option Nat) (stdin : List Char)
    (empty : UInt64) (args : List (UInt64 × Option (List Char))) : List Char :=
  if args = [] then (wc str (chunk 0) stdin empty).1 else wcFiles str chunk 1 args

/-! ## Words -/

/-- Does the text start inside a word? -/
def startsWord : List Char → Bool
  | [] => false
  | b :: _ => b ∉ wcSpaces

/-- The number of words of a text: its nonempty pieces between
    separators. -/
def words (s : List Char) : Nat := (s.splitOnP (· ∈ wcSpaces)).countP (· ≠ [])

/-- Whether the loop is inside a word after the text, from `inword`. -/
def inwordAfter : Bool → List Char → Bool
  | b, [] => b
  | _, x :: xs => inwordAfter (x ∉ wcSpaces) xs

theorem strchr_wcSpaces (b : Char) : (strchr wcSpaces b).isSome = decide (b ∈ wcSpaces) := by
  have hnul : NUL ∉ wcSpaces := by decide
  rw [Bool.eq_iff_iff, strchr_isSome_iff hnul, decide_eq_true_iff]

/-- The first piece of `splitOnP` is empty exactly when the text does not
    start inside a word. -/
theorem splitOnP_head (s : List Char) :
    ∃ h t, s.splitOnP (· ∈ wcSpaces) = h :: t ∧ (h ≠ [] ↔ startsWord s = true) := by
  cases s with
  | nil => exact ⟨[], [], rfl, by simp [startsWord]⟩
  | cons x xs =>
      rw [List.splitOnP_cons_eq_if_modifyHead]
      by_cases hx : x ∈ wcSpaces
      · exact ⟨[], xs.splitOnP (· ∈ wcSpaces), by simp [hx], by simp [startsWord, hx]⟩
      · obtain ⟨h, t, hs, -⟩ := splitOnP_head xs
        refine ⟨x :: h, t, ?_, by simp [startsWord, hx]⟩
        simp [hx, hs]

@[simp] theorem words_nil : words [] = 0 := rfl

theorem words_cons_space {x : Char} (hx : x ∈ wcSpaces) (xs : List Char) :
    words (x :: xs) = words xs := by
  simp [words, List.splitOnP_cons_eq_if_modifyHead, hx]

/-- A byte of a word starts a new one unless the text after it continues
    it. -/
theorem words_cons_word {x : Char} (hx : x ∉ wcSpaces) (xs : List Char) :
    words (x :: xs) + (if startsWord xs then 1 else 0) = words xs + 1 := by
  obtain ⟨h, t, hs, hiff⟩ := splitOnP_head xs
  simp only [words, List.splitOnP_cons_eq_if_modifyHead, hx, decide_false, Bool.false_eq_true, if_false, hs,
    List.modifyHead_cons]
  by_cases hh : h = []
  · have hsw : startsWord xs = false := by simpa [hh] using hiff
    simp [hh, hsw]
  · simp [hh, hiff.mp hh]

theorem startsWord_le_words (xs : List Char) : (if startsWord xs then 1 else 0) ≤ words xs := by
  obtain ⟨h, t, hs, hiff⟩ := splitOnP_head xs
  by_cases hsw : startsWord xs = true
  · have hh : h ≠ [] := hiff.mpr hsw
    simp only [hsw, if_true, words, hs, List.countP_cons]
    simp [hh]
  · simp [hsw]

/-- A text has at most as many words as bytes. -/
theorem words_le_length (s : List Char) : words s ≤ s.length := by
  induction s with
  | nil => simp
  | cons x xs ih =>
      by_cases hx : x ∈ wcSpaces
      · rw [words_cons_space hx, List.length_cons]
        omega
      · have := words_cons_word hx xs
        rw [List.length_cons]
        omega

/-! ## The byte loop -/

/-- One byte, on counters that are `Int32` images of naturals. -/
theorem wcByte_ofNat (l w c : Nat) (b : Bool) (x : Char) :
    wcByte ⟨Int32.ofNat l, Int32.ofNat w, Int32.ofNat c, b⟩ x =
      ⟨Int32.ofNat (l + if x = '\n' then 1 else 0),
        Int32.ofNat (w + if x ∉ wcSpaces ∧ b = false then 1 else 0), Int32.ofNat (c + 1),
        decide (x ∉ wcSpaces)⟩ := by
  have hl : (if x = '\n' then Int32.ofNat l + 1 else Int32.ofNat l) =
      Int32.ofNat (l + if x = '\n' then 1 else 0) := by
    split_ifs <;> simp [Int32.ofNat_add]
  simp only [wcByte, strchr_wcSpaces, hl]
  by_cases hx : x ∈ wcSpaces
  · simp [hx, Int32.ofNat_add]
  · cases b <;> simp [hx, Int32.ofNat_add]

/-- **THE BYTE LOOP**: from counters `l`, `w`, `c`, the loop over a text
    adds its newlines, its words (less the one it continues when it starts
    inside a word) and its bytes. -/
theorem foldl_wcByte (s : List Char) :
    ∀ (l w c : Nat) (b : Bool),
      s.foldl wcByte ⟨Int32.ofNat l, Int32.ofNat w, Int32.ofNat c, b⟩ =
        ⟨Int32.ofNat (l + s.count '\n'),
          Int32.ofNat (w + (words s - if b ∧ startsWord s then 1 else 0)),
          Int32.ofNat (c + s.length), inwordAfter b s⟩ := by
  induction s with
  | nil => intro l w c b; simp [inwordAfter]
  | cons x xs ih =>
      intro l w c b
      rw [List.foldl_cons, wcByte_ofNat, ih]
      have hle := startsWord_le_words xs
      -- the counts of `x :: xs` from those of `xs`
      have hw : w + (if x ∉ wcSpaces ∧ b = false then 1 else 0) +
          (words xs - if decide (x ∉ wcSpaces) = true ∧ startsWord xs = true then 1 else 0) =
          w + (words (x :: xs) - if b = true ∧ startsWord (x :: xs) = true then 1 else 0) := by
        by_cases hx : x ∈ wcSpaces
        · simp [hx, words_cons_space, startsWord]
        · -- `b` says whether `x` starts a word, `startsWord xs` whether `xs` continues it
          have hcons := words_cons_word hx xs
          have hsw : startsWord (x :: xs) = true := by simp [startsWord, hx]
          have hxd : decide (x ∉ wcSpaces) = true := by simp [hx]
          rw [hsw, hxd]
          cases hs : startsWord xs <;> cases b <;>
            simp only [hs, hx, if_true, if_false, Bool.false_eq_true, Bool.true_eq_false,
              not_false_eq_true, and_true, and_false] at hcons hle ⊢ <;> omega
      simp only [List.count_cons, List.length_cons, inwordAfter, hw, beq_iff_eq]
      congr 2 <;> omega

/-- **THE READS DO NOT MATTER**: when every read returns bytes or `0`
    only at the end, the counters are those of the whole input. -/
theorem wcLoop_eq {chunk : Nat → Option Nat} (hchunk : ∀ k, ∃ m, chunk k = some m ∧ 0 < m) :
    ∀ (fuel : Nat) (st : WcState) (inp : List Char) (k : Nat), inp.length < fuel →
      wcLoop chunk fuel st inp k = some (inp.foldl wcByte st)
  | 0, _, _, _, h => absurd h (Nat.not_lt_zero _)
  | fuel + 1, st, inp, k, h => by
      obtain ⟨m, hm, hpos⟩ := hchunk k
      simp only [wcLoop, hm]
      split_ifs with hn
      · -- the read delivered `n` bytes; the rest comes after
        rw [wcLoop_eq hchunk fuel _ _ (k + 1) (by rw [List.length_drop]; omega), ← List.foldl_append,
          List.take_append_drop]
      · -- a read of `0` bytes: the input is spent
        have hnil : inp = [] := List.eq_nil_of_length_eq_zero (by omega)
        subst hnil
        rfl

/-! ## What `wc` prints -/

/-- `%d` of a count below `2^31`: its decimal numeral. -/
theorem vprintf_count (str : UInt64 → List Char) {n : Nat} (hn : n < 2 ^ 31) (fmt : List Char)
    (ap : List UInt64) :
    vprintf str ('%' :: 'd' :: fmt) ((Int32.ofNat n).toUInt32.toUInt64 :: ap) =
      numeral (digits.getD · NUL) 10 n ++ vprintf str fmt ap := by
  rw [vprintf_d, printintBuf_signed]
  have hint : (Int32.ofNat n).toInt64.toInt = n := by simp [Int32.toInt_ofNat_of_lt hn]
  simp only [UInt32.toUInt32_toUInt64, Int32.toInt32_toUInt32, hint]
  rw [if_neg (Int.not_lt.mpr (Int.natCast_nonneg n)), List.reverse_reverse]
  rfl

/-- The line `wc` is meant to print for a text: the numbers of its
    newlines, words and bytes in decimal, then the name. -/
def wcLine (str : UInt64 → List Char) (inp : List Char) (name : UInt64) : List Char :=
  numeral (digits.getD · NUL) 10 (inp.count '\n') ++ ' ' ::
    numeral (digits.getD · NUL) 10 (words inp) ++ ' ' ::
    numeral (digits.getD · NUL) 10 inp.length ++ ' ' ::
    ((str name).takeWhile (· != NUL) ++ ['\n'])

/-- For reads that each return bytes, or `0` once the input is spent,
    `wc` prints `wcLine` of an input shorter than `2^31` bytes and does not
    exit. -/
theorem wc_eq_wcLine (str : UInt64 → List Char) {chunk : Nat → Option Nat}
    (hchunk : ∀ k, ∃ m, chunk k = some m ∧ 0 < m) {inp : List Char} (hlen : inp.length < 2 ^ 31)
    {name : UInt64} (hname : name ≠ 0) :
    wc str chunk inp name = (wcLine str inp name, false) := by
  have hcount : inp.count '\n' < 2 ^ 31 := lt_of_le_of_lt (List.count_le_length) hlen
  have hwords : words inp < 2 ^ 31 := lt_of_le_of_lt (words_le_length inp) hlen
  have hrun := wcLoop_eq hchunk (inp.length + 1) ⟨0, 0, 0, false⟩ inp 0 (Nat.lt_succ_self _)
  have hfold : inp.foldl wcByte ⟨0, 0, 0, false⟩ =
      ⟨Int32.ofNat (inp.count '\n'), Int32.ofNat (words inp), Int32.ofNat inp.length,
        inwordAfter false inp⟩ := by
    simpa using foldl_wcByte inp 0 0 0 false
  rw [wc, hrun]
  dsimp only
  rw [hfold]
  have hfmt : "%d %d %d %s\n".toList =
      '%' :: 'd' :: ' ' :: '%' :: 'd' :: ' ' :: '%' :: 'd' :: ' ' :: '%' :: 's' :: ['\n'] := rfl
  rw [hfmt, vprintf_count str hcount, vprintf_lit str (by decide) (by decide),
    vprintf_count str hwords, vprintf_lit str (by decide) (by decide), vprintf_count str hlen,
    vprintf_lit str (by decide) (by decide), vprintf_s str hname,
    vprintf_lit str (by decide) (by decide)]
  simp [vprintf, wcLine]

section Main

variable (str : UInt64 → List Char) {chunk : Nat → Nat → Option Nat}

/-- The loop over the arguments prints one `wcLine` per file. -/
theorem wcFiles_eq (hchunk : ∀ i k, ∃ m, chunk i k = some m ∧ 0 < m)
    (args : List (UInt64 × List Char)) (hargs : ∀ a ∈ args, a.2.length < 2 ^ 31 ∧ a.1 ≠ 0) :
    ∀ i, wcFiles str chunk i (args.map fun a => (a.1, some a.2)) =
      (args.map fun a => wcLine str a.2 a.1).flatten := by
  induction args with
  | nil => intro i; rfl
  | cons a args ih =>
      intro i
      obtain ⟨hlen, hname⟩ := hargs a List.mem_cons_self
      have hrest : ∀ b ∈ args, b.2.length < 2 ^ 31 ∧ b.1 ≠ 0 :=
        fun b hb => hargs b (List.mem_cons_of_mem a hb)
      simp only [List.map_cons, wcFiles, wc_eq_wcLine str (hchunk i) hlen hname, if_false,
        Bool.false_eq_true, ih hrest, List.flatten_cons]

/-- **WC**: when every file opens and every read returns bytes, or `0`
    once the input is spent, `wc` prints, for each file shorter than
    `2^31` bytes in the order of the arguments, the numbers of its
    newlines, words and bytes and its name; with no argument it does so
    for the standard input under the empty name. -/
theorem wcMain_prints_counts (hchunk : ∀ i k, ∃ m, chunk i k = some m ∧ 0 < m)
    {stdin : List Char} (hstdin : stdin.length < 2 ^ 31) {empty : UInt64} (hempty : empty ≠ 0)
    (args : List (UInt64 × List Char)) (hargs : ∀ a ∈ args, a.2.length < 2 ^ 31 ∧ a.1 ≠ 0) :
    wcMain str chunk stdin empty (args.map fun a => (a.1, some a.2)) =
      if args = [] then wcLine str stdin empty else (args.map fun a => wcLine str a.2 a.1).flatten := by
  by_cases hnil : args = []
  · subst hnil
    simp [wcMain, wc_eq_wcLine str (hchunk 0) hstdin hempty]
  · have hmap : (args.map fun a => (a.1, some a.2)) ≠ [] := by simpa using hnil
    rw [wcMain, if_neg hmap, if_neg hnil, wcFiles_eq str hchunk args hargs]

/-- `wc` of two files, read three bytes at a time. -/
theorem wcMain_two_files :
    wcMain (fun p => if p = 1 then "a".toList else "b".toList) (fun _ _ => some 3) [] 5
        [(1, some "hi there\n".toList), (2, some "x\ny z\n".toList)] =
      "1 2 9 a\n2 3 6 b\n".toList :=
  (wcMain_prints_counts _ (fun _ _ => ⟨3, rfl, by decide⟩) (by decide) (by decide)
    [(1, "hi there\n".toList), (2, "x\ny z\n".toList)] (by decide)).trans (by decide)

end Main

end Xv6.User
