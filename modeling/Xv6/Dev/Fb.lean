import Xv6.Lib.Bytes
import Xv6.Lib.Int32
import Xv6.Mem.PageTable

/-! # The framebuffer device

    `fbdev_write` of `devfb.c`.  A write of exactly `fb_size_bytes` bytes
    copies into `fb_mem` from its start; a write of at least 16 bytes is a
    rectangle, four `int`s `x, y, w, h` and then `w * h` pixels row by row,
    row `row` copied to `fb + (y + row) * FB_WIDTH + x`; a shorter write
    copies to the start.  The header is checked in `int`, which wraps on the
    RISC-V target.

    A call is modelled by the byte stores it makes, each at its offset from
    `fb` (an offset outside `[0, fb_size_bytes)` is kernel memory that is not
    `fb_mem`), and by its return value.  The lock changes nothing here, and
    neither does `fb_print_ascii_if_needed`, whose body is empty.

    * `rectBad_eq_false_iff`: when `x + w` and `y + h` fit in an `int`, the
      check accepts exactly the rectangles inside the framebuffer;
    * `fbdev_write_inside`: then every store lands in `fb_mem`;
    * `fbdev_write_rect`: and a rectangle write that returns `16 + 4 * w * h`
      has replaced exactly the rectangle's pixels by the payload;
    * `fbdev_write_stores_past_fb`: with `x = 0x7fffffff` and `w = 1` the
      sum wraps, the check passes, and the pixel is stored far past
      `fb_mem`. -/

namespace Xv6.Dev

open Xv6.Mem (MAXVA)
open Bytes (storeAll storeAll_append storeAll_of_not_mem)

/-- `FB_WIDTH`. -/
def FB_WIDTH : Nat := 128

/-- `FB_HEIGHT`. -/
def FB_HEIGHT : Nat := 128

/-- `fb_size_bytes`, `FB_WIDTH * FB_HEIGHT * sizeof(uint32)`. -/
def fb_size_bytes : Int32 := Int32.ofNat (FB_WIDTH * FB_HEIGHT * 4)

/-- User memory as `either_copyin` reads it: the byte at each virtual
    address, `none` where the copy fails.  Nothing at or above `MAXVA` can
    be read: `walkaddr` refuses it. -/
structure UserMem where
  byte : Nat → Option UInt8
  above : ∀ a, MAXVA ≤ a → byte a = none

/-- `either_copyin(dst, 1, src, len)` into kernel memory: the stores it
    makes, byte `k` of the source to `dst + k` in order, up to the first
    byte it cannot read, and whether all `len` bytes came.  `copyin` moves
    whole pages and a page is readable as a whole, so it stops where the
    first unreadable byte is. -/
def copyin (um : UserMem) (dst : Int) (src : Nat) : Nat → List (Int × UInt8) × Bool
  | 0 => ([], true)
  | len + 1 =>
      match um.byte src with
      | none => ([], false)
      | some b =>
          let r := copyin um (dst + 1) (src + 1) len
          ((dst, b) :: r.1, r.2)

/-- The `uint32` with the little-endian bytes `b0 b1 b2 b3`. -/
def leWord (b0 b1 b2 b3 : UInt8) : UInt32 :=
  b0.toUInt32 ||| b1.toUInt32 <<< 8 ||| b2.toUInt32 <<< 16 ||| b3.toUInt32 <<< 24

/-- The `uint32` at user address `a`, if its four bytes can be read. -/
def userWord (um : UserMem) (a : Nat) : Option UInt32 := do
  let b0 ← um.byte a
  let b1 ← um.byte (a + 1)
  let b2 ← um.byte (a + 2)
  let b3 ← um.byte (a + 3)
  pure (leWord b0 b1 b2 b3)

/-- `either_copyin(header, user_src, src, 16)` and the casts
    `(int)header[k]`: the rectangle `x, y, w, h`, `none` when the copy fails. -/
def rectHeader (um : UserMem) (src : Nat) : Option (Int32 × Int32 × Int32 × Int32) := do
  let x ← userWord um src
  let y ← userWord um (src + 4)
  let w ← userWord um (src + 8)
  let h ← userWord um (src + 12)
  pure (x.toInt32, y.toInt32, w.toInt32, h.toInt32)

/-- The "basic validation" of a rectangle header, in `int`. -/
def rectBad (x y w h : Int32) : Bool :=
  w ≤ 0 || h ≤ 0 || x < 0 || y < 0 ||
    x + w > Int32.ofNat FB_WIDTH || y + h > Int32.ofNat FB_HEIGHT

/-- `expected`, `16 + (uint64)w * (uint64)h * sizeof(uint32)`. -/
def rectExpected (w h : Int32) : UInt64 :=
  16 + w.toInt64.toUInt64 * h.toInt64.toUInt64 * 4

/-- `user_off` of row `row`, `src + 16 + (uint64)row * (uint64)w * sizeof(uint32)`. -/
def rowOff (src : Nat) (w : Int32) (row : Nat) : Nat :=
  (src + 16 + row * w.toInt64.toUInt64.toNat * 4) % 2 ^ 64

/-- `dst` of row `row`, in `uint32`s from `fb`: `(y + row) * FB_WIDTH + x`. -/
def rowDst (x y : Int32) (row : Nat) : Int32 :=
  (y + Int32.ofNat row) * Int32.ofNat FB_WIDTH + x

/-- The row loop of a rectangle write from row `row`: each row moves
    `w * sizeof(uint32)` bytes from `rowOff` to `rowDst`; a failed copy
    ends the write. -/
def rowLoop (um : UserMem) (src : Nat) (x y w h : Int32) : Nat → Nat → List (Int × UInt8) × Bool
  | 0, _ => ([], true)
  | fuel + 1, row =>
      if (row : Int) < h.toInt then
        let r := copyin um (4 * (rowDst x y row).toInt) (rowOff src w row)
          (w.toInt64.toUInt64.toNat * 4)
        if r.2 then
          let r' := rowLoop um src x y w h fuel (row + 1)
          (r.1 ++ r'.1, r'.2)
        else (r.1, false)
      else ([], true)

/-- The rectangle branch of `fbdev_write`, once the header is read. -/
def rectWrite (um : UserMem) (src : Nat) (n x y w h : Int32) : List (Int × UInt8) × Int32 :=
  if rectBad x y w h then ([], -1)
  else if n.toInt64.toUInt64 < rectExpected w h then ([], -1)
  else
    -- `row < h` with `row` from `0`, so `h` rounds
    let r := rowLoop um src x y w h h.toInt.toNat 0
    (r.1, if r.2 then (rectExpected w h).toUInt32.toInt32 else -1)

/-- `fbdev_write(1, src, n)`: the stores and the return value. -/
def fbdev_write (um : UserMem) (src : Nat) (n : Int32) : List (Int × UInt8) × Int32 :=
  if n ≤ 0 then ([], 0)
  else if n = fb_size_bytes then
    let r := copyin um 0 src n.toInt.toNat
    (r.1, if r.2 then n else -1)
  else if n ≥ 16 then
    match rectHeader um src with
    | none => ([], -1)
    | some (x, y, w, h) => rectWrite um src n x y w h
  else
    let n := if n > fb_size_bytes then fb_size_bytes else n
    let r := copyin um 0 src n.toInt.toNat
    (r.1, if r.2 then n else -1)

/-- Pixel `p` of kernel memory `mem`, addressed in bytes from `fb`. -/
def pixel (mem : Int → UInt8) (p : Int) : UInt32 :=
  leWord (mem (4 * p)) (mem (4 * p + 1)) (mem (4 * p + 2)) (mem (4 * p + 3))

/-! ## Copies -/

/-- Every store of a copy lands in `[dst, dst + len)`. -/
theorem copyin_stores (um : UserMem) :
    ∀ {len : Nat} {dst : Int} {src : Nat},
      ∀ s ∈ (copyin um dst src len).1, dst ≤ s.1 ∧ s.1 < dst + len
  | 0, _, _, s, hs => nomatch hs
  | len + 1, dst, src, s, hs => by
      cases hb : um.byte src with
      | none => simp [copyin, hb] at hs
      | some b =>
          simp only [copyin, hb] at hs
          rcases List.mem_cons.mp hs with rfl | hs
          · exact ⟨Int.le_refl _, by omega⟩
          · have := copyin_stores um s hs
            omega

/-- A copy that read all `len` bytes has stored byte `k` of the source at
    `dst + k`. -/
theorem copyin_ok (um : UserMem) :
    ∀ {len : Nat} {dst : Int} {src : Nat}, (copyin um dst src len).2 = true →
      ∀ (mem : Int → UInt8) (k : Nat), k < len →
        um.byte (src + k) = some (storeAll mem (copyin um dst src len).1 (dst + k))
  | 0, _, _, _, _, k, hk => absurd hk (Nat.not_lt_zero k)
  | len + 1, dst, src, hok, mem, k, hk => by
      cases hb : um.byte src with
      | none => simp [copyin, hb] at hok
      | some b =>
          simp only [copyin, hb] at hok ⊢
          rw [storeAll]
          cases k with
          | zero =>
              -- the rest of the copy stores above `dst`
              have hrest : ∀ s ∈ (copyin um (dst + 1) (src + 1) len).1, s.1 ≠ dst + (0 : Nat) :=
                fun s hs => by have := copyin_stores um s hs; omega
              rw [storeAll_of_not_mem hrest, show dst + ((0 : Nat) : Int) = dst by omega,
                Function.update_self, Nat.add_zero]
              exact hb
          | succ k =>
              have := copyin_ok um hok (Function.update mem dst b) k (by omega)
              rw [show src + (k + 1) = src + 1 + k by omega, this]
              congr 2
              omega

/-! ## The check in `int` -/

/-- The sums `x + w` and `y + h` of the check fit in an `int`. -/
def SumsFit (x y w h : Int32) : Prop :=
  x.toInt + w.toInt < 2 ^ 31 ∧ y.toInt + h.toInt < 2 ^ 31

/-- A rectangle inside the framebuffer, in integers. -/
structure RectFits (x y w h : Int32) : Prop where
  w_pos : 0 < w.toInt
  h_pos : 0 < h.toInt
  x_nonneg : 0 ≤ x.toInt
  y_nonneg : 0 ≤ y.toInt
  right : x.toInt + w.toInt ≤ FB_WIDTH
  bottom : y.toInt + h.toInt ≤ FB_HEIGHT

theorem toInt_FB_WIDTH : (Int32.ofNat FB_WIDTH).toInt = FB_WIDTH :=
  Int32.toInt_ofNat_of_lt (by decide)

theorem toInt_FB_HEIGHT : (Int32.ofNat FB_HEIGHT).toInt = FB_HEIGHT :=
  Int32.toInt_ofNat_of_lt (by decide)

/-- **THE CHECK**: when the sums fit, the check accepts exactly the
    rectangles inside the framebuffer. -/
theorem rectBad_eq_false_iff {x y w h : Int32} (hfit : SumsFit x y w h) :
    rectBad x y w h = false ↔ RectFits x y w h := by
  simp only [rectBad, Bool.or_eq_false_iff, decide_eq_false_iff_not, Int32.le_iff_toInt_le,
    Int32.lt_iff_toInt_lt, Int.not_le, Int.not_lt, Int32.toInt_zero, toInt_FB_WIDTH,
    toInt_FB_HEIGHT]
  constructor
  · rintro ⟨⟨⟨⟨⟨hw, hh⟩, hx⟩, hy⟩, hxw⟩, hyh⟩
    rw [Int32.toInt_add_of_range (by omega) hfit.1] at hxw
    rw [Int32.toInt_add_of_range (by omega) hfit.2] at hyh
    exact ⟨hw, hh, hx, hy, hxw, hyh⟩
  · rintro ⟨hw, hh, hx, hy, hxw, hyh⟩
    rw [Int32.toInt_add_of_range (by omega) hfit.1, Int32.toInt_add_of_range (by omega) hfit.2]
    exact ⟨⟨⟨⟨⟨hw, hh⟩, hx⟩, hy⟩, hxw⟩, hyh⟩

/-! ## Rows -/

/-- Every store of the rows from `row` lands in one row `r ≥ row` below
    `h`, among its `w` pixels. -/
theorem rowLoop_stores (um : UserMem) (src : Nat) (x y w h : Int32) :
    ∀ {fuel row : Nat}, ∀ s ∈ (rowLoop um src x y w h fuel row).1,
      ∃ r, row ≤ r ∧ (r : Int) < h.toInt ∧ 4 * (rowDst x y r).toInt ≤ s.1 ∧
        s.1 < 4 * (rowDst x y r).toInt + (w.toInt64.toUInt64.toNat * 4 : Nat)
  | 0, _, s, hs => nomatch hs
  | fuel + 1, row, s, hs => by
      simp only [rowLoop] at hs
      split at hs
      · rename_i hrow
        split at hs
        · rcases List.mem_append.mp hs with hs | hs
          · exact ⟨row, Nat.le_refl _, hrow, copyin_stores um s hs⟩
          · obtain ⟨r, hr, hrest⟩ := rowLoop_stores um src x y w h s hs
            exact ⟨r, by omega, hrest⟩
        · exact ⟨row, Nat.le_refl _, hrow, copyin_stores um s hs⟩
      · nomatch hs

section Fits

variable {x y w h : Int32} (hf : RectFits x y w h)
include hf

/-- The pixels of a row, as the copy counts them. -/
theorem RectFits.width : (w.toInt64.toUInt64.toNat : Int) = w.toInt := by
  have hw : 0 ≤ w.toInt64 := by
    rw [Int64.le_iff_toInt_le, Int32.toInt_toInt64]
    exact (Int.le_of_lt hf.w_pos)
  rw [Int64.toNat_toUInt64_of_le hw, Int32.toNatClampNeg_toInt64, Int32.toNatClampNeg]
  exact Int.toNat_of_nonneg (Int.le_of_lt hf.w_pos)

/-- Row `r` of the rectangle starts at pixel `(y + r) * FB_WIDTH + x`: no
    step of `rowDst` wraps. -/
theorem RectFits.rowDst_toInt {r : Nat} (hr : (r : Int) < h.toInt) :
    (rowDst x y r).toInt = (y.toInt + r) * FB_WIDTH + x.toInt := by
  have hb := hf.bottom
  have hx := hf.right
  have hy := hf.y_nonneg
  have hx0 := hf.x_nonneg
  have hw := hf.w_pos
  simp only [FB_WIDTH, FB_HEIGHT] at hb hx
  have hrow : (y + Int32.ofNat r).toInt = y.toInt + r := by
    have hr' : (Int32.ofNat r).toInt = r := Int32.toInt_ofNat_of_lt (by omega)
    rw [Int32.toInt_add_of_range (a := y) (b := Int32.ofNat r) (by omega) (by omega), hr']
  have hmul : ((y + Int32.ofNat r) * Int32.ofNat FB_WIDTH).toInt = (y.toInt + r) * FB_WIDTH := by
    rw [Int32.toInt_mul_of_range (a := y + Int32.ofNat r) (b := Int32.ofNat FB_WIDTH)
      (by rw [hrow, toInt_FB_WIDTH, FB_WIDTH]; omega) (by rw [hrow, toInt_FB_WIDTH, FB_WIDTH]; omega), hrow,
      toInt_FB_WIDTH]
  rw [rowDst, Int32.toInt_add_of_range (a := (y + Int32.ofNat r) * Int32.ofNat FB_WIDTH) (b := x)
    (by rw [hmul, FB_WIDTH]; omega) (by rw [hmul, FB_WIDTH]; omega), hmul]

/-- Rows of a rectangle inside the framebuffer lie apart: a store of a
    later row is past the whole of row `r`. -/
theorem RectFits.row_apart {r r' : Nat} (hrr : r < r') (hr' : (r' : Int) < h.toInt) :
    4 * (rowDst x y r).toInt + (w.toInt64.toUInt64.toNat * 4 : Nat) ≤ 4 * (rowDst x y r').toInt := by
  have hx := hf.right
  have hx0 := hf.x_nonneg
  have hw := hf.width
  simp only [FB_WIDTH] at hx
  rw [hf.rowDst_toInt (by omega), hf.rowDst_toInt hr', FB_WIDTH]
  push_cast
  omega

/-- **ROWS**: rows that all copied have put byte `k` of row `r`'s payload at
    byte `k` of row `r`, and no later row writes over it. -/
theorem RectFits.rowLoop_ok (um : UserMem) (src : Nat) :
    ∀ {fuel row : Nat}, h.toInt ≤ row + fuel → (rowLoop um src x y w h fuel row).2 = true →
      ∀ (mem : Int → UInt8) (r k : Nat), row ≤ r → (r : Int) < h.toInt →
        k < w.toInt64.toUInt64.toNat * 4 →
        um.byte (rowOff src w r + k) =
          some (storeAll mem (rowLoop um src x y w h fuel row).1 (4 * (rowDst x y r).toInt + k))
  | 0, row, hfuel, _, _, r, _, hr, hrh, _ => by omega
  | fuel + 1, row, hfuel, hok, mem, r, k, hr, hrh, hk => by
      have hrow : (row : Int) < h.toInt := by omega
      simp only [rowLoop, if_pos hrow] at hok ⊢
      split at hok
      · rename_i hcopy
        rw [if_pos hcopy, storeAll_append]
        rcases Nat.eq_or_lt_of_le hr with rfl | hlt
        · -- the later rows store past this one
          have hlater : ∀ s ∈ (rowLoop um src x y w h fuel (row + 1)).1,
              s.1 ≠ 4 * (rowDst x y row).toInt + k := by
            intro s hs
            obtain ⟨r', hr', hr'h, hlo, -⟩ := rowLoop_stores um src x y w h s hs
            have := hf.row_apart (Nat.lt_of_lt_of_le (Nat.lt_succ_self row) hr') hr'h
            omega
          rw [storeAll_of_not_mem hlater]
          exact copyin_ok um hcopy mem k hk
        · exact RectFits.rowLoop_ok um src (by omega) hok _ r k hlt hrh hk
      · cases hok

/-- A store of row `r` lands in `fb_mem`. -/
theorem RectFits.row_inside {r : Nat} (hr : (r : Int) < h.toInt) {a : Int}
    (hlo : 4 * (rowDst x y r).toInt ≤ a)
    (hhi : a < 4 * (rowDst x y r).toInt + (w.toInt64.toUInt64.toNat * 4 : Nat)) :
    0 ≤ a ∧ a < fb_size_bytes.toInt := by
  have hb := hf.bottom
  have hx := hf.right
  have hy := hf.y_nonneg
  have hx0 := hf.x_nonneg
  have hw := hf.width
  have hsize : fb_size_bytes.toInt = 65536 := Int32.toInt_ofNat_of_lt (by decide)
  simp only [FB_WIDTH, FB_HEIGHT] at hb hx
  rw [hf.rowDst_toInt hr, FB_WIDTH] at hlo hhi
  push_cast at hhi
  rw [hsize]
  constructor <;> omega

end Fits

/-! ## `fbdev_write` -/

variable {um : UserMem} {src : Nat}

theorem toInt_fb_size_bytes : fb_size_bytes.toInt = 65536 :=
  Int32.toInt_ofNat_of_lt (by decide)

/-- A write of 16 bytes or more that is not the whole framebuffer is a
    rectangle write. -/
theorem fbdev_write_of_rect {n x y w h : Int32} (hn : 16 ≤ n) (hne : n ≠ fb_size_bytes)
    (hhdr : rectHeader um src = some (x, y, w, h)) :
    fbdev_write um src n = rectWrite um src n x y w h := by
  have hpos : ¬ n ≤ 0 := by
    rw [Int32.le_iff_toInt_le] at hn ⊢
    have h16 : (16 : Int32).toInt = 16 := rfl
    rw [Int32.toInt_zero]
    omega
  simp only [fbdev_write, if_neg hpos, if_neg hne, if_pos (show n ≥ 16 from hn), hhdr]

/-- A copy from the start of `fb` of at most `fb_size_bytes` bytes lands in
    `fb_mem`. -/
theorem copyin_inside {m : Int32} (hm : m ≤ fb_size_bytes) :
    ∀ s ∈ (copyin um 0 src m.toInt.toNat).1, 0 ≤ s.1 ∧ s.1 < fb_size_bytes.toInt := by
  intro s hs
  have := copyin_stores um s hs
  have hle := Int32.le_iff_toInt_le.mp hm
  omega

/-- A rectangle write whose sums fit stores only in `fb_mem`. -/
theorem rectWrite_inside {n x y w h : Int32} (hfit : SumsFit x y w h) :
    ∀ s ∈ (rectWrite um src n x y w h).1, 0 ≤ s.1 ∧ s.1 < fb_size_bytes.toInt := by
  intro s hs
  unfold rectWrite at hs
  split at hs
  · nomatch hs
  · rename_i hbad
    have hf := (rectBad_eq_false_iff hfit).mp (Bool.eq_false_iff.mpr hbad)
    split at hs
    · nomatch hs
    · obtain ⟨r, -, hr, hlo, hhi⟩ := rowLoop_stores um src x y w h s hs
      exact hf.row_inside hr hlo hhi

/-- **IN BOUNDS**: when the header's sums fit in an `int`, every store of
    `fbdev_write` lands in `fb_mem`. -/
theorem fbdev_write_inside {n : Int32}
    (hfit : ∀ x y w h, rectHeader um src = some (x, y, w, h) → SumsFit x y w h) :
    ∀ s ∈ (fbdev_write um src n).1, 0 ≤ s.1 ∧ s.1 < fb_size_bytes.toInt := by
  intro s hs
  unfold fbdev_write at hs
  split at hs
  · nomatch hs
  · split at hs
    · rename_i hfull
      exact copyin_inside (Int32.le_of_eq hfull) s hs
    · split at hs
      · split at hs
        · nomatch hs
        · rename_i x y w h hhdr
          exact rectWrite_inside (hfit x y w h hhdr) s hs
      · -- the fallback copies at most `fb_size_bytes`
        refine copyin_inside ?_ s hs
        split
        · exact Int32.le_refl _
        · rename_i hgt
          exact Int32.not_lt.mp hgt

/-- A user buffer at address `0`: the header `x = 0x7fffffff, y = 0, w = 1,
    h = 1` and one pixel. -/
def wrapBuffer : UserMem where
  byte a := if a < 20 then
      some ([0xFF, 0xFF, 0xFF, 0x7F, 0, 0, 0, 0, 1, 0, 0, 0, 1, 0, 0, 0, 0xFF, 0xFF, 0xFF, 0xFF].getD a 0)
    else none
  above _ ha := if_neg (by simp only [MAXVA] at ha; omega)

/-- `x + w` wraps to `INT_MIN`, so the check passes a rectangle at
    `x = 2^31 - 1`: the write returns `20` after storing its pixel at
    byte `4 * (2^31 - 1)` from `fb`, far past `fb_mem`. -/
theorem fbdev_write_stores_past_fb :
    rectHeader wrapBuffer 0 = some (0x7fffffff, 0, 1, 1) ∧ rectBad 0x7fffffff 0 1 1 = false ∧
      (fbdev_write wrapBuffer 0 20).2 = 20 ∧
      (fbdev_write wrapBuffer 0 20).1.map Prod.fst =
        [8589934588, 8589934589, 8589934590, 8589934591] ∧
      fb_size_bytes.toInt < 8589934588 := by
  decide

/-- A rectangle write that did not fail passed the check and copied every
    row. -/
theorem rectWrite_ok {n x y w h : Int32} (hfit : SumsFit x y w h)
    (hret : (rectWrite um src n x y w h).2 ≠ -1) :
    RectFits x y w h ∧ (rowLoop um src x y w h h.toInt.toNat 0).2 = true ∧
      (rectWrite um src n x y w h).1 = (rowLoop um src x y w h h.toInt.toNat 0).1 := by
  unfold rectWrite at hret ⊢
  split at hret
  · exact absurd rfl hret
  · rename_i hbad
    rw [if_neg hbad]
    split at hret
    · exact absurd rfl hret
    · rename_i hexp
      rw [if_neg hexp]
      refine ⟨(rectBad_eq_false_iff hfit).mp (Bool.eq_false_iff.mpr hbad), ?_, rfl⟩
      by_contra hok
      exact hret (if_neg hok)

/-- A pixel is its four bytes. -/
theorem pixel_congr {m m' : Int → UInt8} {p : Int}
    (h : ∀ j : Nat, j < 4 → m (4 * p + j) = m' (4 * p + j)) : pixel m p = pixel m' p := by
  have h0 : m (4 * p) = m' (4 * p) := by simpa using h 0 (by decide)
  have h1 : m (4 * p + 1) = m' (4 * p + 1) := h 1 (by decide)
  have h2 : m (4 * p + 2) = m' (4 * p + 2) := h 2 (by decide)
  have h3 : m (4 * p + 3) = m' (4 * p + 3) := h 3 (by decide)
  simp only [pixel, h0, h1, h2, h3]

/-- A user word whose four bytes are those of a pixel reads as that pixel. -/
theorem userWord_eq_pixel {a : Nat} {m : Int → UInt8} {p : Int}
    (h : ∀ j : Nat, j < 4 → um.byte (a + j) = some (m (4 * p + j))) :
    userWord um a = some (pixel m p) := by
  have h0 : um.byte a = some (m (4 * p)) := by simpa using h 0 (by decide)
  have h1 : um.byte (a + 1) = some (m (4 * p + 1)) := h 1 (by decide)
  have h2 : um.byte (a + 2) = some (m (4 * p + 2)) := h 2 (by decide)
  have h3 : um.byte (a + 3) = some (m (4 * p + 3)) := h 3 (by decide)
  simp only [userWord, h0, h1, h2, h3, pixel]
  rfl

/-- **RECTANGLE**: a rectangle write whose sums fit and that returns
    `16 + 4 * w * h` has put payload word `r * w + i` at pixel
    `(x + i, y + r)` and left every other pixel as it was. -/
theorem fbdev_write_rect {n x y w h : Int32} (hn : 16 ≤ n) (hne : n ≠ fb_size_bytes)
    (hhdr : rectHeader um src = some (x, y, w, h)) (hfit : SumsFit x y w h)
    (hret : (fbdev_write um src n).2.toInt = 16 + 4 * w.toInt * h.toInt) (mem : Int → UInt8) :
    (∀ r i : Nat, (r : Int) < h.toInt → (i : Int) < w.toInt →
      userWord um (src + 16 + 4 * (r * w.toInt.toNat + i)) =
        some (pixel (storeAll mem (fbdev_write um src n).1)
          ((y.toInt + r) * FB_WIDTH + (x.toInt + i)))) ∧
    (∀ p : Int, (∀ r i : Nat, (r : Int) < h.toInt → (i : Int) < w.toInt →
        p ≠ (y.toInt + r) * FB_WIDTH + (x.toInt + i)) →
      pixel (storeAll mem (fbdev_write um src n).1) p = pixel mem p) := by
  rw [fbdev_write_of_rect hn hne hhdr] at hret ⊢
  have hne1 : (rectWrite um src n x y w h).2 ≠ -1 := by
    intro h1
    rw [h1, Int.mul_assoc] at hret
    have : (-1 : Int32).toInt = -1 := rfl
    omega
  obtain ⟨hf, hok, hst⟩ := rectWrite_ok hfit hne1
  have hw := hf.width
  have hx := hf.right
  have hy := hf.bottom
  have hx0 := hf.x_nonneg
  have hy0 := hf.y_nonneg
  simp only [FB_WIDTH, FB_HEIGHT] at hx hy
  rw [hst]
  constructor
  · intro r i hr hi
    -- the header was read, so `src` is a user address and `rowOff` does not wrap
    have hsrc : src < MAXVA := by
      by_contra hge
      simp [rectHeader, userWord, um.above src (Nat.le_of_not_lt hge)] at hhdr
    have hrw : r * w.toInt.toNat ≤ 128 * 128 :=
      Nat.mul_le_mul (by omega) (by omega)
    have hoff : rowOff src w r = src + 16 + r * w.toInt.toNat * 4 := by
      rw [rowOff, show w.toInt64.toUInt64.toNat = w.toInt.toNat by omega]
      exact Nat.mod_eq_of_lt (by simp only [MAXVA] at hsrc; omega)
    apply userWord_eq_pixel
    intro j hj
    have := hf.rowLoop_ok um src (by omega) hok mem r (4 * i + j) (Nat.zero_le r) (by omega)
      (by omega)
    rw [hoff, hf.rowDst_toInt (by omega), FB_WIDTH] at this
    rw [show src + 16 + 4 * (r * w.toInt.toNat + i) + j = src + 16 + r * w.toInt.toNat * 4 + (4 * i + j) by
      rw [Nat.mul_comm r]; omega, this]
    congr 2
    simp only [FB_WIDTH]
    push_cast
    omega
  · intro p hp
    apply pixel_congr
    intro j hj
    apply storeAll_of_not_mem
    intro s hs heq
    obtain ⟨r, -, hr, hlo, hhi⟩ := rowLoop_stores um src x y w h s hs
    rw [hf.rowDst_toInt hr, FB_WIDTH] at hlo hhi
    -- the store is byte `j` of pixel `p - ((y + r) * FB_WIDTH + x)` of row `r`
    apply hp r (p - ((y.toInt + r) * 128 + x.toInt)).toNat hr (by push_cast at hhi; omega)
    push_cast at hhi
    simp only [FB_WIDTH]
    omega

end Xv6.Dev
