import Mathlib
import Xv6.Lib.Int32
import Xv6.Dev.Fb

/-! # Drawing into the framebuffer (`fb.c`, `libfb.c`)

    The kernel draws into `fb_mem` and the user library into its copy
    `fb_buffer`, pixel by pixel through `fb_draw_pixel` and
    `libfb_draw_pixel`, which drop a pixel off the screen.  Memory is
    modelled from the start of the array on, in `uint32`s: index `i` is
    `fb_mem[i]` below `FB_WIDTH * FB_HEIGHT`, and what lies past the array
    above.  Coordinates and loop counters are `int`s, `Int32`.

    * `fbClearSized_apply`, `fb_clear_rounds_up`: the unrolled loop of
      `fb_clear` writes the colour to every index below the pixel count
      rounded up to a multiple of four, past the array unless the count is
      a multiple of four;
    * `drawPoints_apply`: a figure drawn point by point in one colour
      colours exactly its points on the screen.

    The `write` of the whole buffer to `/dev/fb` that ends each `libfb`
    call is `fbdev_write` (`Fb`) and is left out here. -/

namespace Xv6.Dev

/-! ## `fb_clear` -/

/-- The unrolled loop of `fb_clear` from `i`: four stores while `i < size`. -/
def clearQuads (size : Nat) (color : UInt32) : Nat → Nat → (Nat → UInt32) → Nat → UInt32
  | 0, _, mem => mem
  | fuel + 1, i, mem =>
      if i < size then
        clearQuads size color fuel (i + 4)
          (Function.update (Function.update (Function.update (Function.update mem i color) (i + 1) color)
            (i + 2) color) (i + 3) color)
      else mem

/-- The remainder loop of `fb_clear` from `i`: one store while `i < size`.
    From `0` it is the plain loop `for(i = 0; i < size; i++)`. -/
def clearRest (size : Nat) (color : UInt32) : Nat → Nat → (Nat → UInt32) → Nat → UInt32
  | 0, _, mem => mem
  | fuel + 1, i, mem =>
      if i < size then clearRest size color fuel (i + 1) (Function.update mem i color) else mem

/-- `fb_clear(color)` for `size` pixels; each loop advances, so `size`
    iterations are enough for both. -/
def fbClearSized (size : Nat) (color : UInt32) (mem : Nat → UInt32) : Nat → UInt32 :=
  clearRest size color size (size / 4 * 4) (clearQuads size color size 0 mem)

/-- `fb_clear(color)`. -/
def fb_clear (color : UInt32) (mem : Nat → UInt32) : Nat → UInt32 :=
  fbClearSized (FB_WIDTH * FB_HEIGHT) color mem

section Clear

variable {size : Nat} {color : UInt32}

/-- The remainder loop writes `[i, size)`. -/
theorem clearRest_apply : ∀ {fuel i : Nat} (mem : Nat → UInt32) (j : Nat), size ≤ i + fuel →
    clearRest size color fuel i mem j = if i ≤ j ∧ j < size then color else mem j
  | 0, i, mem, j, h => by
    rw [clearRest, if_neg (by omega)]
  | fuel + 1, i, mem, j, h => by
    rw [clearRest]
    split
    · rw [clearRest_apply _ _ (by omega), Function.update_apply]
      split_ifs <;> first | rfl | omega
    · rw [if_neg (by omega)]

/-- The unrolled loop writes `[i, i + 4·⌈(size - i) / 4⌉)`: each round
    stores four words whatever is left of `size`. -/
theorem clearQuads_apply : ∀ {fuel i : Nat} (mem : Nat → UInt32) (j : Nat), size ≤ i + 4 * fuel →
    clearQuads size color fuel i mem j = if i ≤ j ∧ j < i + 4 * ((size - i + 3) / 4) then color else mem j
  | 0, i, mem, j, h => by
    rw [clearQuads, if_neg (by omega)]
  | fuel + 1, i, mem, j, h => by
    rw [clearQuads]
    split
    · rw [clearQuads_apply _ _ (by omega)]
      simp only [Function.update_apply]
      split_ifs <;> first | rfl | omega
    · rw [if_neg (by omega)]

/-- `fb_clear` writes the colour to every index below the pixel count
    rounded up to a multiple of four, and nowhere else. -/
theorem fbClearSized_apply (mem : Nat → UInt32) (j : Nat) :
    fbClearSized size color mem j = if j < 4 * ((size + 3) / 4) then color else mem j := by
  rw [fbClearSized, clearRest_apply _ _ (by omega), clearQuads_apply _ _ (by omega)]
  split_ifs <;> first | rfl | omega

end Clear

/-- **UNROLLED CLEAR**: for every pixel count `N` and colour, the unrolled
    loop of `fb_clear` colours exactly the indices below `4·⌈N/4⌉`, and it
    has the effect of the plain loop `for(i = 0; i < N; i++)` exactly when
    `N` is a multiple of four, as `FB_WIDTH * FB_HEIGHT` is: otherwise it
    also writes the `uint32`s past the array up to the next multiple of
    four. -/
theorem fb_clear_rounds_up (N : Nat) (c : UInt32) :
    (∀ mem, fbClearSized N c mem = fun j => if j < 4 * ((N + 3) / 4) then c else mem j) ∧
      ((∀ mem, fbClearSized N c mem = clearRest N c N 0 mem) ↔ N % 4 = 0) ∧
      ∀ mem, fb_clear c mem = clearRest (FB_WIDTH * FB_HEIGHT) c (FB_WIDTH * FB_HEIGHT) 0 mem := by
  have hplain : ∀ {M : Nat} mem, M % 4 = 0 → fbClearSized M c mem = clearRest M c M 0 mem := by
    intro M mem hM
    funext j
    rw [fbClearSized_apply, clearRest_apply _ _ (by omega)]
    split_ifs <;> first | rfl | omega
  refine ⟨fun mem => funext (fbClearSized_apply mem), ⟨fun h => ?_, fun h mem => hplain mem h⟩,
    fun mem => hplain mem (by decide)⟩
  -- a memory that does not hold `c` at index `N` tells the two apart
  by_contra hN
  have hN' := congrFun (h fun _ => c + 1) N
  rw [fbClearSized_apply, clearRest_apply _ _ (by omega), if_pos (by omega), if_neg (by omega)] at hN'
  exact absurd hN' (by simp)

/-- With five pixels the clear writes `fb_mem[5]`, `fb_mem[6]` and
    `fb_mem[7]`, past the array, where the plain loop writes nothing. -/
theorem fb_clear_five_past_end :
    (fbClearSized 5 1 (fun _ => 0) 5 = 1 ∧ fbClearSized 5 1 (fun _ => 0) 6 = 1 ∧
        fbClearSized 5 1 (fun _ => 0) 7 = 1) ∧
      (clearRest 5 1 5 0 (fun _ => 0) 5 = 0 ∧ clearRest 5 1 5 0 (fun _ => 0) 6 = 0 ∧
        clearRest 5 1 5 0 (fun _ => 0) 7 = 0) := by
  decide

/-! ## Pixels -/

/-- `in_bounds(x, y)`. -/
def in_bounds (x y : Int32) : Bool :=
  !(x < 0 || x ≥ Int32.ofNat FB_WIDTH || y < 0 || y ≥ Int32.ofNat FB_HEIGHT)

/-- The index `y * FB_WIDTH + x` of a pixel, an `int`. -/
def pixelIndex (x y : Int32) : Int32 := y * Int32.ofNat FB_WIDTH + x

/-- `fb_draw_pixel(x, y, color)`. -/
def fb_draw_pixel (x y : Int32) (color : UInt32) (mem : Nat → UInt32) : Nat → UInt32 :=
  if in_bounds x y then Function.update mem (pixelIndex x y).toInt.toNat color else mem

/-- The points of a figure drawn in order with `fb_draw_pixel`, each in
    the colour its position gives. -/
def paintPoints (pts : List (Int32 × Int32)) (col : Int32 × Int32 → UInt32) (mem : Nat → UInt32) :
    Nat → UInt32 :=
  pts.foldl (fun m p => fb_draw_pixel p.1 p.2 (col p) m) mem

/-- The points of a figure drawn in order with `fb_draw_pixel` in one
    colour. -/
def drawPoints (pts : List (Int32 × Int32)) (color : UInt32) (mem : Nat → UInt32) : Nat → UInt32 :=
  paintPoints pts (fun _ => color) mem

/-- The user library's state: `fb_fd` and `fb_buffer`. -/
structure Libfb where
  fd : Int32
  buffer : Nat → UInt32

/-- `libfb_draw_pixel(x, y, color)`: nothing without `/dev/fb` open. -/
def libfb_draw_pixel (x y : Int32) (color : UInt32) (s : Libfb) : Libfb :=
  if s.fd < 0 then s
  else if x < 0 || x ≥ Int32.ofNat FB_WIDTH || y < 0 || y ≥ Int32.ofNat FB_HEIGHT then s
  else { s with buffer := Function.update s.buffer (pixelIndex x y).toInt.toNat color }

/-- The points of a figure drawn in order with `libfb_draw_pixel`, each in
    the colour its position gives. -/
def libfbPaint (pts : List (Int32 × Int32)) (col : Int32 × Int32 → UInt32) (s : Libfb) : Libfb :=
  pts.foldl (fun s p => libfb_draw_pixel p.1 p.2 (col p) s) s

/-- The points of a figure drawn in order with `libfb_draw_pixel` in one
    colour. -/
def libfbDrawPoints (pts : List (Int32 × Int32)) (color : UInt32) (s : Libfb) : Libfb :=
  libfbPaint pts (fun _ => color) s

/-- A pixel `fb_draw_pixel` writes. -/
def Hits (pts : List (Int32 × Int32)) (j : Nat) : Prop :=
  ∃ p ∈ pts, in_bounds p.1 p.2 = true ∧ (pixelIndex p.1 p.2).toInt.toNat = j

instance (pts : List (Int32 × Int32)) (j : Nat) : Decidable (Hits pts j) := by
  unfold Hits
  infer_instance

/-- The pixel at index `j` of the screen. -/
def cellAt (j : Nat) : Int32 × Int32 := (Int32.ofNat (j % FB_WIDTH), Int32.ofNat (j / FB_WIDTH))

theorem in_bounds_iff {x y : Int32} :
    in_bounds x y = true ↔ 0 ≤ x.toInt ∧ x.toInt < FB_WIDTH ∧ 0 ≤ y.toInt ∧ y.toInt < FB_HEIGHT := by
  simp only [in_bounds, Bool.not_eq_true', Bool.or_eq_false_iff, decide_eq_false_iff_not, ge_iff_le,
    Int32.lt_iff_toInt_lt, Int32.le_iff_toInt_le, Int32.toInt_zero, toInt_FB_WIDTH, toInt_FB_HEIGHT]
  omega

theorem pixelIndex_toInt {x y : Int32} (h : in_bounds x y = true) :
    (pixelIndex x y).toInt = y.toInt * FB_WIDTH + x.toInt := by
  rw [in_bounds_iff] at h
  unfold FB_WIDTH FB_HEIGHT at h
  have hmul : (y * Int32.ofNat FB_WIDTH).toInt = y.toInt * FB_WIDTH := by
    rw [Int32.toInt_mul_of_range] <;> rw [toInt_FB_WIDTH] <;> unfold FB_WIDTH <;> omega
  unfold pixelIndex
  rw [Int32.toInt_add_of_range] <;> rw [hmul] <;> unfold FB_WIDTH <;> omega

/-- A pixel on the screen is the one its index names. -/
theorem eq_cellAt {p : Int32 × Int32} {j : Nat} (hb : in_bounds p.1 p.2 = true)
    (hj : (pixelIndex p.1 p.2).toInt.toNat = j) : p = cellAt j ∧ j < FB_WIDTH * FB_HEIGHT := by
  have hidx := pixelIndex_toInt hb
  rw [in_bounds_iff] at hb
  unfold cellAt
  unfold FB_WIDTH FB_HEIGHT at *
  refine ⟨Prod.ext ?_ ?_, by omega⟩ <;> apply Int32.toInt_inj.mp <;>
    rw [Int32.toInt_ofNat_of_lt (by omega)] <;> omega

theorem cellAt_toInt {j : Nat} (hj : j < FB_WIDTH * FB_HEIGHT) :
    (cellAt j).1.toInt = (j % FB_WIDTH : Nat) ∧ (cellAt j).2.toInt = (j / FB_WIDTH : Nat) := by
  unfold FB_WIDTH FB_HEIGHT at hj
  exact ⟨Int32.toInt_ofNat_of_lt (by unfold FB_WIDTH; omega), Int32.toInt_ofNat_of_lt (by unfold FB_WIDTH; omega)⟩

/-- Every index of the screen is a pixel on it. -/
theorem cellAt_hits {j : Nat} (hj : j < FB_WIDTH * FB_HEIGHT) :
    in_bounds (cellAt j).1 (cellAt j).2 = true ∧ (pixelIndex (cellAt j).1 (cellAt j).2).toInt.toNat = j := by
  obtain ⟨hx, hy⟩ := cellAt_toInt hj
  have hb : in_bounds (cellAt j).1 (cellAt j).2 = true := by
    rw [in_bounds_iff, hx, hy]
    unfold FB_WIDTH FB_HEIGHT at *
    omega
  refine ⟨hb, ?_⟩
  rw [pixelIndex_toInt hb, hx, hy]
  unfold FB_WIDTH
  omega

/-- **PAINT**: drawing points, each in the colour its position gives,
    colours exactly the indices of those on the screen, whatever their
    order and repetitions. -/
theorem paintPoints_apply (col : Int32 × Int32 → UInt32) :
    ∀ (pts : List (Int32 × Int32)) (mem : Nat → UInt32) (j : Nat),
      paintPoints pts col mem j = if Hits pts j then col (cellAt j) else mem j
  | [], mem, j => by
    rw [if_neg fun ⟨_, hp, _⟩ => nomatch hp]
    rfl
  | p :: pts, mem, j => by
    rw [paintPoints, List.foldl_cons, ← paintPoints, paintPoints_apply col pts]
    unfold fb_draw_pixel
    by_cases hj : Hits pts j
    · rw [if_pos hj, if_pos ⟨_, List.mem_cons_of_mem _ hj.choose_spec.1, hj.choose_spec.2⟩]
    · rw [if_neg hj]
      by_cases hp : in_bounds p.1 p.2 = true ∧ (pixelIndex p.1 p.2).toInt.toNat = j
      · rw [if_pos hp.1, hp.2, Function.update_self, if_pos ⟨p, List.mem_cons_self, hp⟩,
          (eq_cellAt hp.1 hp.2).1]
      · have hnot : ¬ Hits (p :: pts) j := by
          rintro ⟨q, hq, hqb⟩
          rcases List.mem_cons.mp hq with rfl | hq
          · exact hp hqb
          · exact hj ⟨q, hq, hqb⟩
        rw [if_neg hnot]
        split
        · next hb =>
          rw [Function.update_of_ne fun h => hp ⟨hb, h.symm⟩]
        · rfl

/-- **FIGURE**: drawing points in one colour colours exactly the indices of
    those on the screen. -/
theorem drawPoints_apply (color : UInt32) (pts : List (Int32 × Int32)) (mem : Nat → UInt32) (j : Nat) :
    drawPoints pts color mem j = if Hits pts j then color else mem j :=
  paintPoints_apply _ pts mem j

/-- `libfb_draw_pixel` with `/dev/fb` open is `fb_draw_pixel` on the
    buffer. -/
theorem libfb_draw_pixel_buffer {s : Libfb} (hfd : 0 ≤ s.fd.toInt) (x y : Int32) (color : UInt32) :
    (libfb_draw_pixel x y color s).buffer = fb_draw_pixel x y color s.buffer ∧
      (libfb_draw_pixel x y color s).fd = s.fd := by
  have hfd' : ¬ s.fd < 0 := by
    rw [Int32.lt_iff_toInt_lt]
    simpa using hfd
  unfold libfb_draw_pixel fb_draw_pixel in_bounds
  rw [if_neg hfd']
  by_cases hb : (x < 0 || x ≥ Int32.ofNat FB_WIDTH || y < 0 || y ≥ Int32.ofNat FB_HEIGHT) = true
  · simp [hb]
  · simp [Bool.eq_false_iff.mpr hb]

/-- The library paints the same figure into its buffer. -/
theorem libfbPaint_buffer (col : Int32 × Int32 → UInt32) :
    ∀ (pts : List (Int32 × Int32)) {s : Libfb}, 0 ≤ s.fd.toInt →
      (libfbPaint pts col s).buffer = paintPoints pts col s.buffer ∧ (libfbPaint pts col s).fd = s.fd
  | [], _, _ => ⟨rfl, rfl⟩
  | p :: pts, s, hfd => by
    obtain ⟨hb, hf⟩ := libfb_draw_pixel_buffer hfd p.1 p.2 (col p)
    rw [libfbPaint, List.foldl_cons, ← libfbPaint]
    obtain ⟨hb', hf'⟩ := libfbPaint_buffer col pts (hf ▸ hfd)
    rw [hb', hf', hb, hf]
    exact ⟨rfl, rfl⟩

theorem libfbPaint_append (col : Int32 × Int32 → UInt32) (pts pts' : List (Int32 × Int32)) (s : Libfb) :
    libfbPaint (pts ++ pts') col s = libfbPaint pts' col (libfbPaint pts col s) :=
  List.foldl_append

theorem libfbDrawPoints_buffer (color : UInt32) (pts : List (Int32 × Int32)) {s : Libfb}
    (hfd : 0 ≤ s.fd.toInt) : (libfbDrawPoints pts color s).buffer = drawPoints pts color s.buffer :=
  (libfbPaint_buffer _ pts hfd).1

/-! ## Lines

    The segment Bresenham's loop approximates: along a major axis of
    extent `D` and a minor one of extent `d ≤ D`, the `k`-th point is
    `k` unit steps `s` along the major axis and `J k` unit steps `t` along
    the minor one, where `J k = ⌈(k·d - ⌊D/2⌋) / D⌉` is the minor offset
    the loop's error term rounds to. -/

/-- The minor offset of the `k`-th point, `⌈(k·d - ⌊D/2⌋) / D⌉`. -/
def lineMinor (D d k : Nat) : Nat := (k * d + (D - 1 - D / 2)) / D

/-- The `k`-th point of the segment from `(a₀, b₀)`, as `(major, minor)`. -/
def linePoint (a₀ b₀ : Int) (D d : Nat) (s t : Int) (k : Nat) : Int × Int :=
  (a₀ + k * s, b₀ + lineMinor D d k * t)

/-- A rasterisation of the segment from `(a₀, b₀)` to `(a₁, b₁)` along
    its major axis `a`: one point per major step from end to end, the minor
    coordinate moving by at most one towards its end, every point within
    half a pixel of the segment. -/
structure Raster (a₀ b₀ a₁ b₁ : Int) (P : List (Int × Int)) : Prop where
  length : P.length = (a₁ - a₀).natAbs + 1
  head : P.head? = some (a₀, b₀)
  last : P.getLast? = some (a₁, b₁)
  steps : P.IsChain fun p q => q.1 - p.1 = (a₁ - a₀).sign ∧ (q.2 - p.2 = 0 ∨ q.2 - p.2 = (b₁ - b₀).sign)
  close : ∀ p ∈ P, |(|p.2 - b₀| * |a₁ - a₀| - |p.1 - a₀| * |b₁ - b₀|)| ≤ |a₁ - a₀| / 2

section LineMinor

variable {D d : Nat}

/-- The error term `⌊D/2⌋ - k·d + J k · D` lies in `[0, D)`. -/
theorem lineMinor_err (hD : 0 < D) (k : Nat) :
    k * d ≤ lineMinor D d k * D + D / 2 ∧ lineMinor D d k * D + D / 2 < k * d + D := by
  have h₁ := Nat.div_mul_le_self (k * d + (D - 1 - D / 2)) D
  have h₂ := Nat.lt_div_mul_add (a := k * d + (D - 1 - D / 2)) hD
  unfold lineMinor
  omega

/-- The error bounds determine the minor offset. -/
theorem lineMinor_eq_of_err (hD : 0 < D) {k J : Nat} (h₁ : k * d ≤ J * D + D / 2)
    (h₂ : J * D + D / 2 < k * d + D) : lineMinor D d k = J := by
  unfold lineMinor
  apply Nat.div_eq_of_lt_le
  · omega
  · rw [Nat.add_one_mul]
    omega

theorem lineMinor_zero (D d : Nat) : lineMinor D d 0 = 0 := by
  rcases Nat.eq_zero_or_pos D with rfl | hD
  · simp [lineMinor]
  · exact lineMinor_eq_of_err hD (by omega) (by omega)

/-- The last point reaches the minor end. -/
theorem lineMinor_self (hdD : d ≤ D) : lineMinor D d D = d := by
  rcases Nat.eq_zero_or_pos D with rfl | hD
  · simp [lineMinor]
    omega
  · have hcomm : D * d = d * D := Nat.mul_comm D d
    exact lineMinor_eq_of_err hD (by omega) (by omega)

/-- One major step moves the minor offset by one exactly when the error
    term drops below zero, as the loop's `if (err < 0)` does. -/
theorem lineMinor_succ (hD : 0 < D) (hdD : d ≤ D) (k : Nat) :
    lineMinor D d (k + 1) =
      if lineMinor D d k * D + D / 2 < (k + 1) * d then lineMinor D d k + 1 else lineMinor D d k := by
  obtain ⟨h₁, h₂⟩ := lineMinor_err (d := d) hD k
  rw [Nat.add_one_mul] at *
  split
  · exact lineMinor_eq_of_err hD (by rw [Nat.add_one_mul, Nat.add_one_mul]; omega)
      (by rw [Nat.add_one_mul, Nat.add_one_mul]; omega)
  · exact lineMinor_eq_of_err hD (by rw [Nat.add_one_mul]; omega) (by rw [Nat.add_one_mul]; omega)

theorem lineMinor_le (hdD : d ≤ D) {k : Nat} (hk : k ≤ D) : lineMinor D d k ≤ d := by
  calc lineMinor D d k ≤ lineMinor D d D :=
        Nat.div_le_div_right (Nat.add_le_add_right (Nat.mul_le_mul_right d hk) _)
    _ = d := lineMinor_self hdD

/-- The minor offset moves by zero or one per major step. -/
theorem lineMinor_step (hD : 0 < D) (hdD : d ≤ D) (k : Nat) :
    lineMinor D d (k + 1) = lineMinor D d k ∨ lineMinor D d (k + 1) = lineMinor D d k + 1 := by
  rw [lineMinor_succ hD hdD]
  split
  · exact Or.inr rfl
  · exact Or.inl rfl

end LineMinor

section Unit

variable {s : Int}

/-- A unit step `s = ±1` keeps magnitudes and gives its sign to a positive
    extent. -/
theorem abs_mul_unit (hs : s = 1 ∨ s = -1) (x : Int) : |x * s| = |x| := by
  rcases hs with rfl | rfl
  · rw [Int.mul_one]
  · rw [Int.mul_neg_one, abs_neg]

theorem natAbs_mul_unit (hs : s = 1 ∨ s = -1) (n : Nat) : ((n : Int) * s).natAbs = n := by
  rcases hs with rfl | rfl <;> simp

theorem sign_mul_unit (hs : s = 1 ∨ s = -1) {n : Nat} (hn : 0 < n) : ((n : Int) * s).sign = s := by
  rw [Int.sign_mul, Int.sign_eq_one_of_pos (by omega), Int.one_mul]
  rcases hs with rfl | rfl <;> rfl

end Unit

/-- The points `0 … D` of the segment are a rasterisation of it. -/
theorem raster_linePoint (a₀ b₀ : Int) {D d : Nat} {s t : Int} (hdD : d ≤ D)
    (hs : s = 1 ∨ s = -1) (ht : t = 1 ∨ t = -1) :
    Raster a₀ b₀ (a₀ + D * s) (b₀ + d * t) ((List.range (D + 1)).map (linePoint a₀ b₀ D d s t)) where
  length := by
    rw [List.length_map, List.length_range, add_sub_cancel_left, natAbs_mul_unit hs]
  head := by
    rw [List.head?_map, List.head?_range]
    simp [linePoint, lineMinor_zero]
  last := by
    rw [List.getLast?_map, List.getLast?_range]
    simp [linePoint, lineMinor_self hdD]
  steps := by
    rw [List.isChain_map, List.isChain_range_succ]
    intro m hm
    have hD : 0 < D := by omega
    simp only [linePoint, add_sub_cancel_left]
    refine ⟨by rw [sign_mul_unit hs hD]; push_cast; ring, ?_⟩
    rcases lineMinor_step hD hdD m with h | h <;> rw [Nat.succ_eq_add_one, h]
    · exact Or.inl (by ring)
    · have hd : 0 < d := Nat.lt_of_lt_of_le (Nat.succ_pos _) (h ▸ lineMinor_le hdD hm)
      exact Or.inr (by rw [sign_mul_unit ht hd]; push_cast; ring)
  close := by
    intro p hp
    obtain ⟨k, hk, rfl⟩ := List.mem_map.mp hp
    rw [List.mem_range] at hk
    simp only [linePoint, add_sub_cancel_left, abs_mul_unit hs, abs_mul_unit ht, Int.abs_natCast]
    rcases Nat.eq_zero_or_pos D with rfl | hD
    · simp [show k = 0 by omega, lineMinor_zero]
    · obtain ⟨h₁, h₂⟩ := lineMinor_err (d := d) hD k
      rw [abs_le]
      constructor <;> omega

/-! ### The loop of `fb_draw_line` -/

/-- The loop of `fb_draw_line` along its major axis: the shallow branch
    `for (x = x0; x != x1; x += sx)` and, with the axes swapped, the steep
    one.  From `(maj, min)` with error `err` it plots the point, lowers the
    error by the minor delta and, when that drops below zero, steps the
    minor coordinate and adds the major delta back.  The points come as
    `(major, minor)`. -/
def lineLoop (majEnd smaj smin dmaj dmin : Int32) : Nat → Int32 → Int32 → Int32 → List (Int32 × Int32)
  | 0, _, _, _ => []
  | fuel + 1, maj, min, err =>
      if maj = majEnd then []
      else
        let err := err - dmin
        (maj, min) ::
          if err < 0 then lineLoop majEnd smaj smin dmaj dmin fuel (maj + smaj) (min + smin) (err + dmaj)
          else lineLoop majEnd smaj smin dmaj dmin fuel (maj + smaj) min err

/-- The points `fb_draw_line(x0, y0, x1, y1)` plots, in order: the loop of
    the branch the deltas select, then `(x1, y1)`.  Drawing a pixel does not
    touch the loop's variables, so the points are computed first and drawn
    after.  Each round moves the major coordinate by one towards its end,
    so `2^32` rounds reach it from anywhere. -/
def linePoints (x0 y0 x1 y1 : Int32) : List (Int32 × Int32) :=
  let dx := x1 - x0
  let dy := y1 - y0
  let sx : Int32 := if dx ≥ 0 then 1 else -1
  let sy : Int32 := if dy ≥ 0 then 1 else -1
  let dx := if dx ≥ 0 then dx else -dx
  let dy := if dy ≥ 0 then dy else -dy
  if dx > dy then lineLoop x1 sx sy dx dy (2 ^ 32) x0 y0 (dx / 2) ++ [(x1, y1)]
  else (lineLoop y1 sy sx dy dx (2 ^ 32) y0 x0 (dy / 2)).map Prod.swap ++ [(x1, y1)]

/-- `fb_draw_line(x0, y0, x1, y1, color)`. -/
def fb_draw_line (x0 y0 x1 y1 : Int32) (color : UInt32) (mem : Nat → UInt32) : Nat → UInt32 :=
  drawPoints (linePoints x0 y0 x1 y1) color mem

/-- `libfb_draw_line(x0, y0, x1, y1, color)`. -/
def libfb_draw_line (x0 y0 x1 y1 : Int32) (color : UInt32) (s : Libfb) : Libfb :=
  libfbDrawPoints (linePoints x0 y0 x1 y1) color s

/-- A point's integer coordinates. -/
def pointToInt (p : Int32 × Int32) : Int × Int := (p.1.toInt, p.2.toInt)

/-- What a branch of `fb_draw_line` hands its loop: the deltas `D ≥ d` of
    the major and minor axes, the unit steps `s` and `t` towards the ends,
    a major end `D` steps from the start `a₀`, and a minor end `d` steps
    from `b₀`, all `int`s. -/
structure LineSetup (a₀ b₀ : Int) (D d : Nat) (s t : Int) (majEnd smaj smin dmaj dmin : Int32) : Prop where
  dmaj : dmaj.toInt = D
  dmin : dmin.toInt = d
  le : d ≤ D
  smaj : smaj.toInt = s
  unit_s : s = 1 ∨ s = -1
  smin : smin.toInt = t
  unit_t : t = 1 ∨ t = -1
  majEnd : majEnd.toInt = a₀ + D * s
  start : -2 ^ 31 ≤ a₀ ∧ a₀ < 2 ^ 31
  minStart : -2 ^ 31 ≤ b₀ ∧ b₀ < 2 ^ 31
  minEnd : -2 ^ 31 ≤ b₀ + d * t ∧ b₀ + d * t < 2 ^ 31

/-- The loop's variables at the `k`-th point: the point itself, and the
    error `⌊D/2⌋ - k·d + J k · D`. -/
def LineAt (a₀ b₀ : Int) (D d : Nat) (s t : Int) (k : Nat) (maj min err : Int32) : Prop :=
  (maj.toInt, min.toInt) = linePoint a₀ b₀ D d s t k ∧
    err.toInt = ((D / 2 : Nat) : Int) - k * d + lineMinor D d k * D

section LineLoop

variable {a₀ b₀ s t : Int} {D d : Nat} {majEnd smaj smin dmaj dmin : Int32}

/-- **LINE STEP**: before the end, one round plots the `k`-th point and
    leaves the variables at the `k+1`-th. -/
theorem LineSetup.step (hset : LineSetup a₀ b₀ D d s t majEnd smaj smin dmaj dmin) {k : Nat}
    (hk : k < D) {maj min err : Int32} (hat : LineAt a₀ b₀ D d s t k maj min err) (fuel : Nat) :
    ∃ maj' min' err', lineLoop majEnd smaj smin dmaj dmin (fuel + 1) maj min err =
        (maj, min) :: lineLoop majEnd smaj smin dmaj dmin fuel maj' min' err' ∧
      LineAt a₀ b₀ D d s t (k + 1) maj' min' err' := by
  obtain ⟨hpt, herr⟩ := hat
  simp only [linePoint, Prod.mk.injEq] at hpt
  obtain ⟨hmaj, hmin⟩ := hpt
  have hD : 0 < D := by omega
  obtain ⟨he₁, he₂⟩ := lineMinor_err (d := d) hD k
  have hJ := lineMinor_le hset.le (show k + 1 ≤ D from hk)
  have hsucc := lineMinor_succ hD hset.le k
  have hDlt : (D : Int) < 2 ^ 31 := hset.dmaj ▸ Int32.toInt_lt dmaj
  have hdD := hset.le
  have hend := hset.majEnd
  have hend₁ := Int32.le_toInt majEnd
  have hend₂ := Int32.toInt_lt majEnd
  have hdmin := hset.dmin
  have hdmaj := hset.dmaj
  have hsmaj := hset.smaj
  have hsmin := hset.smin
  have ⟨hs₁, hs₂⟩ := hset.start
  have ⟨hb₁, hb₂⟩ := hset.minEnd
  have ⟨hc₁, hc₂⟩ := hset.minStart
  -- the loop has not reached its end
  have hne : maj ≠ majEnd := by
    intro h
    have := congrArg Int32.toInt h
    rcases hset.unit_s with rfl | rfl <;> omega
  -- no `int` operation of the round wraps
  have herr' : (err - dmin).toInt = err.toInt - d := by
    rw [Int32.toInt_sub_of_range] <;> omega
  have hmaj' : (maj + smaj).toInt = a₀ + (k + 1 : Nat) * s := by
    rw [Int32.toInt_add_of_range] <;> rcases hset.unit_s with rfl | rfl <;> push_cast <;> omega
  refine ⟨maj + smaj, ?_⟩
  rw [lineLoop, if_neg hne]
  by_cases hlt : lineMinor D d k * D + D / 2 < (k + 1) * d
  · -- the error drops below zero: the minor coordinate steps
    rw [if_pos hlt] at hsucc
    rw [Nat.add_one_mul] at hlt
    have hneg : err - dmin < 0 := by
      rw [Int32.lt_iff_toInt_lt, herr']
      simp only [Int32.toInt_zero]
      omega
    refine ⟨min + smin, err - dmin + dmaj, by simp only [if_pos hneg], ⟨?_, ?_⟩⟩
    · rw [linePoint, hsucc, Prod.mk.injEq]
      refine ⟨hmaj', ?_⟩
      rw [Int32.toInt_add_of_range] <;> rcases hset.unit_t with rfl | rfl <;> push_cast <;> omega
    · have hsum : (err - dmin + dmaj).toInt = err.toInt - d + D := by
        rw [Int32.toInt_add_of_range, herr', hdmaj] <;> rw [herr', hdmaj] <;> omega
      rw [hsum, hsucc, herr]
      push_cast
      ring
  · -- the error stays non-negative: the minor coordinate stays
    rw [if_neg hlt] at hsucc
    rw [Nat.add_one_mul] at hlt
    have hpos : ¬ err - dmin < 0 := by
      rw [Int32.lt_iff_toInt_lt, herr']
      simp only [Int32.toInt_zero]
      omega
    refine ⟨min, err - dmin, by simp only [if_neg hpos], ⟨?_, ?_⟩⟩
    · rw [linePoint, hsucc, Prod.mk.injEq]
      exact ⟨hmaj', hmin⟩
    · rw [herr', hsucc, herr]
      push_cast
      ring

/-- **LINE RUN**: from the `k`-th point with `r` points left before the
    end, the loop plots the points `k … k + r - 1`. -/
theorem LineSetup.run (hset : LineSetup a₀ b₀ D d s t majEnd smaj smin dmaj dmin) :
    ∀ (r k fuel : Nat) {maj min err : Int32}, k + r = D → r ≤ fuel → LineAt a₀ b₀ D d s t k maj min err →
      (lineLoop majEnd smaj smin dmaj dmin fuel maj min err).map pointToInt =
        (List.range' k r).map (linePoint a₀ b₀ D d s t)
  | 0, k, fuel, maj, min, err, hk, _, hat => by
    -- at the end `maj` is `majEnd`, whatever fuel is left
    have hend : maj = majEnd := by
      apply Int32.toInt_inj.mp
      have hmaj := congrArg Prod.fst hat.1
      simp only [linePoint] at hmaj
      rw [hmaj, hset.majEnd, ← hk, Nat.add_zero]
    cases fuel <;> simp [lineLoop, hend]
  | r + 1, k, fuel + 1, maj, min, err, hk, hfuel, hat => by
    obtain ⟨maj', min', err', hloop, hat'⟩ := hset.step (by omega) hat fuel
    rw [hloop, List.map_cons, hset.run r (k + 1) fuel (by omega) (by omega) hat', List.range'_succ,
      List.map_cons]
    exact congrArg (· :: _) hat.1
  | _ + 1, _, 0, _, _, _, _, hfuel, _ => absurd hfuel (by omega)

/-- From the start the loop plots the points `0 … D - 1`; with the end
    drawn after it, the points `0 … D`. -/
theorem LineSetup.points (hset : LineSetup a₀ b₀ D d s t majEnd smaj smin dmaj dmin) {maj min err : Int32}
    (hmaj : maj.toInt = a₀) (hmin : min.toInt = b₀) (herr : err.toInt = ((D / 2 : Nat) : Int))
    {fuel : Nat} (hfuel : D ≤ fuel) :
    (lineLoop majEnd smaj smin dmaj dmin fuel maj min err).map pointToInt ++ [(majEnd.toInt, b₀ + d * t)] =
      (List.range (D + 1)).map (linePoint a₀ b₀ D d s t) := by
  have hat : LineAt a₀ b₀ D d s t 0 maj min err := by
    refine ⟨?_, ?_⟩ <;> simp [linePoint, lineMinor_zero, hmaj, hmin, herr]
  rw [hset.run D 0 fuel (Nat.zero_add D) hfuel hat, List.range_succ, List.map_append,
    List.range_eq_range']
  simp [linePoint, lineMinor_self hset.le, hset.majEnd]

end LineLoop

/-- The unit step `fb_draw_line` takes towards an end: `1` unless the
    delta is negative. -/
def unitStep (X : Int) : Int := if 0 ≤ X then 1 else -1

theorem unitStep_unit (X : Int) : unitStep X = 1 ∨ unitStep X = -1 := by
  unfold unitStep
  split
  · exact Or.inl rfl
  · exact Or.inr rfl

theorem natAbs_mul_unitStep (X : Int) : (X.natAbs : Int) * unitStep X = X := by
  unfold unitStep
  split <;> omega

/-- A delta of `fb_draw_line`, its step and its magnitude, when the
    difference of the ends is an `int` other than `INT_MIN`. -/
theorem delta_toInt {a₀ a₁ : Int32} (h : -2 ^ 31 < a₁.toInt - a₀.toInt ∧ a₁.toInt - a₀.toInt < 2 ^ 31) :
    (if a₁ - a₀ ≥ 0 then (1 : Int32) else -1).toInt = unitStep (a₁.toInt - a₀.toInt) ∧
      (if a₁ - a₀ ≥ 0 then a₁ - a₀ else -(a₁ - a₀)).toInt = (a₁.toInt - a₀.toInt).natAbs := by
  have hsub : (a₁ - a₀).toInt = a₁.toInt - a₀.toInt := Int32.toInt_sub_of_range (by omega) (by omega)
  have hge : a₁ - a₀ ≥ 0 ↔ 0 ≤ a₁.toInt - a₀.toInt := by
    rw [ge_iff_le, Int32.le_iff_toInt_le, hsub, Int32.toInt_zero]
  unfold unitStep
  by_cases hX : 0 ≤ a₁.toInt - a₀.toInt
  · rw [if_pos (hge.mpr hX), if_pos (hge.mpr hX), if_pos hX, hsub]
    exact ⟨rfl, by omega⟩
  · rw [if_neg (mt hge.mp hX), if_neg (mt hge.mp hX), if_neg hX, Int32.toInt_neg_of_ne (a := a₁ - a₀) (by omega), hsub]
    exact ⟨by decide, by omega⟩

/-- The loop a branch of `fb_draw_line` runs, along `a` with `b` minor,
    once the deltas are `int`s other than `INT_MIN` and `b`'s is the
    smaller. -/
theorem lineSetup_of_deltas {a₀ a₁ b₀ b₁ : Int32}
    (ha : -2 ^ 31 < a₁.toInt - a₀.toInt ∧ a₁.toInt - a₀.toInt < 2 ^ 31)
    (hb : -2 ^ 31 < b₁.toInt - b₀.toInt ∧ b₁.toInt - b₀.toInt < 2 ^ 31)
    (hle : (b₁.toInt - b₀.toInt).natAbs ≤ (a₁.toInt - a₀.toInt).natAbs) :
    LineSetup a₀.toInt b₀.toInt (a₁.toInt - a₀.toInt).natAbs (b₁.toInt - b₀.toInt).natAbs
      (unitStep (a₁.toInt - a₀.toInt)) (unitStep (b₁.toInt - b₀.toInt)) a₁
      (if a₁ - a₀ ≥ 0 then 1 else -1) (if b₁ - b₀ ≥ 0 then 1 else -1)
      (if a₁ - a₀ ≥ 0 then a₁ - a₀ else -(a₁ - a₀)) (if b₁ - b₀ ≥ 0 then b₁ - b₀ else -(b₁ - b₀)) where
  dmaj := (delta_toInt ha).2
  dmin := (delta_toInt hb).2
  le := hle
  smaj := (delta_toInt ha).1
  unit_s := unitStep_unit _
  smin := (delta_toInt hb).1
  unit_t := unitStep_unit _
  majEnd := by rw [natAbs_mul_unitStep]; omega
  start := ⟨Int32.le_toInt a₀, Int32.toInt_lt a₀⟩
  minStart := ⟨Int32.le_toInt b₀, Int32.toInt_lt b₀⟩
  minEnd := by
    rw [natAbs_mul_unitStep]
    exact ⟨by have := Int32.le_toInt b₁; omega, by have := Int32.toInt_lt b₁; omega⟩

section Branches

variable {x0 y0 x1 y1 : Int32}
  (hx : -2 ^ 31 < x1.toInt - x0.toInt ∧ x1.toInt - x0.toInt < 2 ^ 31)
  (hy : -2 ^ 31 < y1.toInt - y0.toInt ∧ y1.toInt - y0.toInt < 2 ^ 31)
include hx hy

/-- The shallow branch plots the segment's points along `x`. -/
theorem linePoints_shallow (hlt : (y1.toInt - y0.toInt).natAbs < (x1.toInt - x0.toInt).natAbs) :
    (linePoints x0 y0 x1 y1).map pointToInt =
      (List.range ((x1.toInt - x0.toInt).natAbs + 1)).map
        (linePoint x0.toInt y0.toInt (x1.toInt - x0.toInt).natAbs (y1.toInt - y0.toInt).natAbs
          (unitStep (x1.toInt - x0.toInt)) (unitStep (y1.toInt - y0.toInt))) := by
  have hset := lineSetup_of_deltas hx hy hlt.le
  have hbranch : (if y1 - y0 ≥ 0 then y1 - y0 else -(y1 - y0)) < (if x1 - x0 ≥ 0 then x1 - x0 else -(x1 - x0)) := by
    rw [Int32.lt_iff_toInt_lt, (delta_toInt hx).2, (delta_toInt hy).2]
    omega
  have herr : ((if x1 - x0 ≥ 0 then x1 - x0 else -(x1 - x0)) / 2).toInt =
      (((x1.toInt - x0.toInt).natAbs / 2 : Nat) : Int) := by
    rw [Int32.toInt_div_two (by rw [(delta_toInt hx).2]; omega), (delta_toInt hx).2]
    omega
  have hend : [(x1, y1)].map pointToInt =
      [(x1.toInt, y0.toInt + ((y1.toInt - y0.toInt).natAbs : Int) * unitStep (y1.toInt - y0.toInt))] := by
    rw [natAbs_mul_unitStep, add_sub_cancel]
    rfl
  unfold linePoints
  dsimp only
  rw [if_pos hbranch, List.map_append, hend, hset.points rfl rfl herr (by omega)]

/-- The steep branch plots the segment's points along `y`. -/
theorem linePoints_steep (hle : (x1.toInt - x0.toInt).natAbs ≤ (y1.toInt - y0.toInt).natAbs) :
    (linePoints x0 y0 x1 y1).map (pointToInt ∘ Prod.swap) =
      (List.range ((y1.toInt - y0.toInt).natAbs + 1)).map
        (linePoint y0.toInt x0.toInt (y1.toInt - y0.toInt).natAbs (x1.toInt - x0.toInt).natAbs
          (unitStep (y1.toInt - y0.toInt)) (unitStep (x1.toInt - x0.toInt))) := by
  have hset := lineSetup_of_deltas hy hx hle
  have hbranch : ¬ (if y1 - y0 ≥ 0 then y1 - y0 else -(y1 - y0)) < (if x1 - x0 ≥ 0 then x1 - x0 else -(x1 - x0)) := by
    rw [Int32.lt_iff_toInt_lt, (delta_toInt hx).2, (delta_toInt hy).2]
    omega
  have herr : ((if y1 - y0 ≥ 0 then y1 - y0 else -(y1 - y0)) / 2).toInt =
      (((y1.toInt - y0.toInt).natAbs / 2 : Nat) : Int) := by
    rw [Int32.toInt_div_two (by rw [(delta_toInt hy).2]; omega), (delta_toInt hy).2]
    omega
  have hend : [(x1, y1)].map (pointToInt ∘ Prod.swap) =
      [(y1.toInt, x0.toInt + ((x1.toInt - x0.toInt).natAbs : Int) * unitStep (x1.toInt - x0.toInt))] := by
    rw [natAbs_mul_unitStep, add_sub_cancel]
    rfl
  -- the loop's points come back as `(x, y)`: swapping them again gives its own
  have hswap : (pointToInt ∘ Prod.swap) ∘ Prod.swap = pointToInt := by
    funext p
    rfl
  unfold linePoints
  dsimp only
  rw [if_neg hbranch, List.map_append, hend, List.map_map, hswap, hset.points rfl rfl herr (by omega)]

end Branches

/-- **BRESENHAM**: for ends whose differences are `int`s other than
    `INT_MIN`, `fb_draw_line` and `libfb_draw_line` plot `max(|dx|, |dy|) + 1`
    points that rasterise the segment along its major axis (`x` when
    `|dx| > |dy|`, else `y`): from `(x0, y0)` to `(x1, y1)`, one major step
    at a time, the minor coordinate moving by at most one towards its end,
    each point within half a pixel of the segment; they colour exactly the
    points on the screen. -/
theorem fb_draw_line_bresenham (x0 y0 x1 y1 : Int32)
    (hx : -2 ^ 31 < x1.toInt - x0.toInt ∧ x1.toInt - x0.toInt < 2 ^ 31)
    (hy : -2 ^ 31 < y1.toInt - y0.toInt ∧ y1.toInt - y0.toInt < 2 ^ 31) :
    (linePoints x0 y0 x1 y1).length = max (x1.toInt - x0.toInt).natAbs (y1.toInt - y0.toInt).natAbs + 1 ∧
      (if (y1.toInt - y0.toInt).natAbs < (x1.toInt - x0.toInt).natAbs then
          Raster x0.toInt y0.toInt x1.toInt y1.toInt ((linePoints x0 y0 x1 y1).map pointToInt)
        else Raster y0.toInt x0.toInt y1.toInt x1.toInt ((linePoints x0 y0 x1 y1).map (pointToInt ∘ Prod.swap))) ∧
      (∀ color mem j, fb_draw_line x0 y0 x1 y1 color mem j = if Hits (linePoints x0 y0 x1 y1) j then color else mem j) ∧
      ∀ color (s : Libfb), 0 ≤ s.fd.toInt →
        (libfb_draw_line x0 y0 x1 y1 color s).buffer = fb_draw_line x0 y0 x1 y1 color s.buffer := by
  have hraster : if (y1.toInt - y0.toInt).natAbs < (x1.toInt - x0.toInt).natAbs then
      Raster x0.toInt y0.toInt x1.toInt y1.toInt ((linePoints x0 y0 x1 y1).map pointToInt)
    else Raster y0.toInt x0.toInt y1.toInt x1.toInt ((linePoints x0 y0 x1 y1).map (pointToInt ∘ Prod.swap)) := by
    split
    · next hlt =>
      have h := raster_linePoint x0.toInt y0.toInt hlt.le (unitStep_unit (x1.toInt - x0.toInt))
        (unitStep_unit (y1.toInt - y0.toInt))
      rw [natAbs_mul_unitStep, natAbs_mul_unitStep, add_sub_cancel, add_sub_cancel] at h
      rwa [linePoints_shallow hx hy hlt]
    · next hle =>
      have h := raster_linePoint y0.toInt x0.toInt (Nat.le_of_not_lt hle) (unitStep_unit (y1.toInt - y0.toInt))
        (unitStep_unit (x1.toInt - x0.toInt))
      rw [natAbs_mul_unitStep, natAbs_mul_unitStep, add_sub_cancel, add_sub_cancel] at h
      rwa [linePoints_steep hx hy (Nat.le_of_not_lt hle)]
  refine ⟨?_, hraster, fun color mem j => drawPoints_apply color _ mem j,
    fun color s hfd => libfbDrawPoints_buffer color _ hfd⟩
  -- the count is the raster's along the major axis
  split at hraster
  · have hlen := hraster.length
    rw [List.length_map] at hlen
    omega
  · have hlen := hraster.length
    rw [List.length_map] at hlen
    omega

/-- From `(0, 0)` to `(5, 2)` the line takes six points. -/
theorem fb_draw_line_five_two :
    (linePoints 0 0 5 2).length = 6 ∧
      (linePoints 0 0 5 2).map pointToInt = [(0, 0), (1, 0), (2, 1), (3, 1), (4, 2), (5, 2)] :=
  ⟨(fb_draw_line_bresenham 0 0 5 2 (by decide) (by decide)).1.trans (by decide), by decide⟩

/-- With `x1 - x0 = INT_MIN` the magnitude `-dx` wraps back to `INT_MIN`,
    the steep branch runs no round, and the line is its end alone, where
    `2^31 + 1` points were due. -/
theorem line_int_min_one_point :
    Int32.minValue.toInt - (0 : Int32).toInt = -2 ^ 31 ∧ (linePoints 0 0 Int32.minValue 0).length = 1 := by
  decide

/-! ## Circles -/

/-- The loop of `fb_draw_circle` from the offset `(x, y)` with error
    `err`: the first-octant offsets it plots, one per round while
    `x >= y`.  Each round steps `y`, adds `2*y + 1` to a non-positive
    error, and steps `x` back when the error turns positive. -/
def circleLoop : Nat → Int32 → Int32 → Int32 → List (Int32 × Int32)
  | 0, _, _, _ => []
  | fuel + 1, x, y, err =>
      if x ≥ y then
        (x, y) ::
          let y := y + 1
          let err := if err ≤ 0 then err + 2 * y + 1 else err
          if err > 0 then circleLoop fuel (x - 1) y (err - (2 * (x - 1) + 1))
          else circleLoop fuel x y err
      else []

/-- The offsets `fb_draw_circle(cx, cy, r)` plots; `y` grows every round,
    so `2^32` rounds are more than enough. -/
def circleOffsets (r : Int32) : List (Int32 × Int32) :=
  circleLoop (2 ^ 32) r 0 0

/-- The eight reflections of an offset, in the order the loop draws them. -/
def octants (cx cy : Int32) (p : Int32 × Int32) : List (Int32 × Int32) :=
  [(cx + p.1, cy + p.2), (cx + p.2, cy + p.1), (cx - p.2, cy + p.1), (cx - p.1, cy + p.2),
    (cx - p.1, cy - p.2), (cx - p.2, cy - p.1), (cx + p.2, cy - p.1), (cx + p.1, cy - p.2)]

/-- `fb_draw_circle(cx, cy, r, color)`. -/
def fb_draw_circle (cx cy r : Int32) (color : UInt32) (mem : Nat → UInt32) : Nat → UInt32 :=
  drawPoints ((circleOffsets r).flatMap (octants cx cy)) color mem

/-- `libfb_draw_circle(cx, cy, r, color)`. -/
def libfb_draw_circle (cx cy r : Int32) (color : UInt32) (s : Libfb) : Libfb :=
  libfbDrawPoints ((circleOffsets r).flatMap (octants cx cy)) color s

/-- The loop's variables at the start of a round for radius `R`: the error
    is `x² + y² + 2y - R²`, above `-(2x + 1)`, and not positive while the
    loop goes on. -/
structure CircleAt (R : Int) (x y err : Int32) : Prop where
  error_eq : err.toInt = x.toInt ^ 2 + y.toInt ^ 2 + 2 * y.toInt - R ^ 2
  above : -(2 * x.toInt + 1) < err.toInt
  nonpos : y.toInt ≤ x.toInt → err.toInt ≤ 0
  y_nonneg : 0 ≤ y.toInt
  x_le : x.toInt ≤ R

/-- Past the last round the loop plots nothing, whatever fuel is left. -/
theorem circleLoop_of_lt {x y : Int32} (hxy : x.toInt < y.toInt) (err : Int32) :
    ∀ fuel, circleLoop fuel x y err = []
  | 0 => rfl
  | _ + 1 => by
    rw [circleLoop, if_neg (by rw [ge_iff_le, Int32.le_iff_toInt_le]; omega)]

/-- An offset the loop plots: `0 ≤ y ≤ x`, with `x = ⌊√(R² - y² - 2y)⌋`. -/
def CircleOffset (R : Int) (p : Int32 × Int32) : Prop :=
  0 ≤ p.2.toInt ∧ p.2.toInt ≤ p.1.toInt ∧ p.1.toInt ^ 2 + p.2.toInt ^ 2 + 2 * p.2.toInt ≤ R ^ 2 ∧
    R ^ 2 < (p.1.toInt + 1) ^ 2 + p.2.toInt ^ 2 + 2 * p.2.toInt

theorem CircleAt.offset {x y err : Int32} (hat : CircleAt R x y err) (hxy : y.toInt ≤ x.toInt) :
    CircleOffset R (x, y) := by
  have hnp := hat.nonpos hxy
  have ha := hat.above
  have he := hat.error_eq
  have hsq : (x.toInt + 1) ^ 2 = x.toInt ^ 2 + 2 * x.toInt + 1 := by ring
  refine ⟨hat.y_nonneg, hxy, ?_, ?_⟩ <;> dsimp only <;> omega

section CircleLoop

variable {R : Int} (hR : R ≤ 2 ^ 29)
include hR

/-- **CIRCLE STEP**: a round from `(x, y)` with `y ≤ x` plots it and leaves
    the variables at the next offset, `y` one further and `x - x'` at most
    one. -/
theorem CircleAt.step {x y err : Int32} (hat : CircleAt R x y err) (hxy : y.toInt ≤ x.toInt) :
    ∃ x' y' err', (∀ fuel, circleLoop (fuel + 1) x y err = (x, y) :: circleLoop fuel x' y' err') ∧
      CircleAt R x' y' err' ∧ y'.toInt = y.toInt + 1 ∧ x'.toInt ≤ x.toInt := by
  have hnp := hat.nonpos hxy
  have ha := hat.above
  have hy := hat.y_nonneg
  have hx := hat.x_le
  have he := hat.error_eq
  -- no `int` operation of the round wraps
  have hy1 : (y + 1).toInt = y.toInt + 1 := Int32.toInt_add_of_range (by simp; omega) (by simp; omega)
  have h2y : (2 * (y + 1)).toInt = 2 * (y.toInt + 1) := by
    rw [Int32.toInt_mul_of_range] <;> simp only [hy1, show (2 : Int32).toInt = 2 from rfl] <;> omega
  have herr₀ : (err + 2 * (y + 1)).toInt = err.toInt + 2 * (y.toInt + 1) := by
    rw [Int32.toInt_add_of_range] <;> rw [h2y] <;> omega
  have herr₁ : (err + 2 * (y + 1) + 1).toInt = err.toInt + 2 * (y.toInt + 1) + 1 := by
    rw [Int32.toInt_add_of_range] <;> simp only [herr₀, Int32.toInt_one] <;> omega
  have hle : err ≤ 0 := by
    rw [Int32.le_iff_toInt_le, Int32.toInt_zero]
    exact hnp
  have hround : ∀ fuel, circleLoop (fuel + 1) x y err = (x, y) ::
      if err + 2 * (y + 1) + 1 > 0 then circleLoop fuel (x - 1) (y + 1) (err + 2 * (y + 1) + 1 - (2 * (x - 1) + 1))
      else circleLoop fuel x (y + 1) (err + 2 * (y + 1) + 1) := by
    intro fuel
    rw [circleLoop, if_pos (by rw [ge_iff_le, Int32.le_iff_toInt_le]; exact hxy)]
    simp only [if_pos hle]
  by_cases hpos : err + 2 * (y + 1) + 1 > 0
  · -- the error turns positive: `x` steps back
    have hpos' : 0 < err.toInt + 2 * (y.toInt + 1) + 1 := by
      rwa [gt_iff_lt, Int32.lt_iff_toInt_lt, Int32.toInt_zero, herr₁] at hpos
    have hx1 : (x - 1).toInt = x.toInt - 1 := Int32.toInt_sub_of_range (by simp; omega) (by simp; omega)
    have h2x : (2 * (x - 1)).toInt = 2 * (x.toInt - 1) := by
      rw [Int32.toInt_mul_of_range] <;> simp only [hx1, show (2 : Int32).toInt = 2 from rfl] <;> omega
    have h2x1 : (2 * (x - 1) + 1).toInt = 2 * (x.toInt - 1) + 1 := by
      rw [Int32.toInt_add_of_range] <;> simp only [h2x, Int32.toInt_one] <;> omega
    have herr' : (err + 2 * (y + 1) + 1 - (2 * (x - 1) + 1)).toInt =
        err.toInt + 2 * (y.toInt + 1) + 1 - (2 * (x.toInt - 1) + 1) := by
      rw [Int32.toInt_sub_of_range] <;> rw [herr₁, h2x1] <;> omega
    refine ⟨x - 1, y + 1, _, fun fuel => by rw [hround, if_pos hpos], ⟨?_, ?_, ?_, ?_, ?_⟩, hy1, by omega⟩
    · rw [herr', hx1, hy1, he]
      ring
    · rw [herr', hx1]
      omega
    · rw [herr', hx1, hy1]
      omega
    · rw [hy1]
      omega
    · rw [hx1]
      omega
  · -- the error stays non-positive: `x` stays
    have hneg : err.toInt + 2 * (y.toInt + 1) + 1 ≤ 0 := by
      rw [gt_iff_lt, Int32.lt_iff_toInt_lt, Int32.toInt_zero, herr₁] at hpos
      omega
    refine ⟨x, y + 1, _, fun fuel => by rw [hround, if_neg hpos], ⟨?_, ?_, ?_, ?_, ?_⟩, hy1, le_rfl⟩
    · rw [herr₁, hy1, he]
      ring
    · rw [herr₁]
      omega
    · rw [herr₁]
      intro
      exact hneg
    · rw [hy1]
      omega
    · exact hx

/-- **CIRCLE RUN**: from the start of a round, every offset the loop plots
    is on the circle it tracks, and `n` rounds finish the loop once
    `x - y < n`: more fuel plots nothing more. -/
theorem CircleAt.run : ∀ (n : Nat) {x y err : Int32}, CircleAt R x y err → x.toInt - y.toInt < n →
    ∀ fuel, n ≤ fuel → circleLoop fuel x y err = circleLoop n x y err ∧
      ∀ p ∈ circleLoop fuel x y err, CircleOffset R p
  | 0, x, y, err, _, hn, fuel, _ => by
    rw [circleLoop_of_lt (by omega) err fuel, circleLoop_of_lt (by omega) err 0]
    exact ⟨rfl, fun _ h => nomatch h⟩
  | n + 1, x, y, err, hat, hn, fuel, hfuel => by
    by_cases hxy : y.toInt ≤ x.toInt
    · obtain ⟨x', y', err', hround, hat', hy', hx'⟩ := hat.step hR hxy
      obtain ⟨f, rfl⟩ : ∃ f, fuel = f + 1 := ⟨fuel - 1, by omega⟩
      obtain ⟨hsame, hall⟩ := hat'.run n (by omega) f (by omega)
      rw [hsame] at hall
      rw [hround, hround, hsame]
      refine ⟨rfl, fun p hp => ?_⟩
      rcases List.mem_cons.mp hp with rfl | hp'
      · exact hat.offset hxy
      · exact hall p hp'
    · rw [circleLoop_of_lt (by omega) err fuel, circleLoop_of_lt (by omega) err (n + 1)]
      exact ⟨rfl, fun _ h => nomatch h⟩

end CircleLoop

/-- **MIDPOINT CIRCLE**: for every radius `0 ≤ r ≤ 2^29` the loop of
    `fb_draw_circle` finishes within `r + 1` rounds, and every offset
    `(x, y)` it plots has `0 ≤ y ≤ x` and `x² ≤ r² - y² - 2y < (x + 1)²`:
    it tracks the circle `x² + (y + 1)² = r² + 1`, which lags the circle
    of radius `r` by one row, so `r² - y² ≤ (x + 1)²` fails once `2y`
    outgrows `2x + 1`. -/
theorem fb_draw_circle_offsets (r : Int32) (hr : 0 ≤ r.toInt ∧ r.toInt ≤ 2 ^ 29) :
    circleOffsets r = circleLoop (r.toInt.toNat + 1) r 0 0 ∧ ∀ p ∈ circleOffsets r, CircleOffset r.toInt p := by
  have hat : CircleAt r.toInt r 0 0 :=
    ⟨by simp, by simp; omega, fun _ => by simp, by simp, le_rfl⟩
  exact hat.run hr.2 (r.toInt.toNat + 1) (by rw [Int32.toInt_zero]; omega) (2 ^ 32) (by omega)

/-- With radius `4` the loop plots the offset `(2, 2)`, where
    `r² - y² = 12 > 9 = (x + 1)²`: it is on the lagging circle, not within
    one pixel of the circle of radius `4`. -/
theorem fb_draw_circle_four :
    ((2 : Int32), (2 : Int32)) ∈ circleOffsets 4 ∧ CircleOffset (4 : Int32).toInt (2, 2) ∧
      (4 : Int) ^ 2 - 2 ^ 2 > (2 + 1) ^ 2 := by
  have hmem : ((2 : Int32), (2 : Int32)) ∈ circleOffsets 4 := by decide
  exact ⟨hmem, (fb_draw_circle_offsets 4 (by decide)).2 _ hmem, by decide⟩

/-! ## Gradient -/

/-- The colour `libfb_draw_gradient` gives the pixel `(xx, yy)`:
    `r = (xx*255)/w` and `g = (yy*255)/h` from the pixel's own
    coordinates, `b = 128`, shifted into place and or-ed without masking. -/
def gradientColor (w h : Int32) (p : Int32 × Int32) : UInt32 :=
  let r := p.1 * 255 / w
  let g := p.2 * 255 / h
  let b : Int32 := 128
  ((r <<< 16) ||| (g <<< 8) ||| b).toUInt32

/-- The inner loop of `libfb_draw_gradient`: row `yy` from `xx` on, while
    `xx < x + w`. -/
def gradientRow (x w h yy : Int32) : Nat → Int32 → Libfb → Libfb
  | 0, _, s => s
  | fuel + 1, xx, s =>
      if xx < x + w then gradientRow x w h yy fuel (xx + 1) (libfb_draw_pixel xx yy (gradientColor w h (xx, yy)) s)
      else s

/-- The outer loop: the rows from `yy` on, while `yy < y + h`; each row
    advances `xx` by one, so `2^32` rounds reach its end. -/
def gradientRows (x y w h : Int32) : Nat → Int32 → Libfb → Libfb
  | 0, _, s => s
  | fuel + 1, yy, s =>
      if yy < y + h then gradientRows x y w h fuel (yy + 1) (gradientRow x w h yy (2 ^ 32) x s)
      else s

/-- `libfb_draw_gradient(x, y, w, h)`. -/
def libfb_draw_gradient (x y w h : Int32) (s : Libfb) : Libfb :=
  gradientRows x y w h (2 ^ 32) y s

/-- The pixels `(xx, yy), (xx + 1, yy), …` of a row, `n` of them. -/
def rowCells (xx yy : Int32) : Nat → List (Int32 × Int32)
  | 0 => []
  | n + 1 => (xx, yy) :: rowCells (xx + 1) yy n

/-- The rows `yy, yy + 1, …` of a rectangle, `m` of them, each `n` pixels
    from column `x`. -/
def rectCells (x : Int32) (n : Nat) (yy : Int32) : Nat → List (Int32 × Int32)
  | 0 => []
  | m + 1 => rowCells x yy n ++ rectCells x n (yy + 1) m

theorem mem_rowCells {r : Int32} {p : Int32 × Int32} :
    ∀ {n : Nat} {xx : Int32}, xx.toInt + n < 2 ^ 31 →
      (p ∈ rowCells xx r n ↔ p.2 = r ∧ xx.toInt ≤ p.1.toInt ∧ p.1.toInt < xx.toInt + n)
  | 0, xx, _ => by
    simp only [rowCells, List.not_mem_nil, false_iff]
    omega
  | n + 1, xx, hn => by
    have hxx : (xx + 1).toInt = xx.toInt + 1 :=
      Int32.toInt_add_of_range (by have := Int32.le_toInt xx; simp; omega) (by simp; omega)
    have ih := mem_rowCells (r := r) (p := p) (show (xx + 1).toInt + n < 2 ^ 31 by omega)
    rw [rowCells, List.mem_cons, ih, hxx, Prod.ext_iff]
    dsimp only
    constructor
    · rintro (⟨h₁, h₂⟩ | ⟨h₂, h₁, h₁'⟩)
      · subst h₁
        exact ⟨h₂, by omega, by omega⟩
      · exact ⟨h₂, by omega, by omega⟩
    · rintro ⟨h₂, h₁, h₁'⟩
      by_cases he : p.1.toInt = xx.toInt
      · exact Or.inl ⟨Int32.toInt_inj.mp he, h₂⟩
      · exact Or.inr ⟨h₂, by omega, by omega⟩

theorem mem_rectCells {x : Int32} {n : Nat} (hn : x.toInt + n < 2 ^ 31) {p : Int32 × Int32} :
    ∀ {m : Nat} {yy : Int32}, yy.toInt + m < 2 ^ 31 →
      (p ∈ rectCells x n yy m ↔
        yy.toInt ≤ p.2.toInt ∧ p.2.toInt < yy.toInt + m ∧ x.toInt ≤ p.1.toInt ∧ p.1.toInt < x.toInt + n)
  | 0, yy, _ => by
    simp only [rectCells, List.not_mem_nil, false_iff]
    omega
  | m + 1, yy, hm => by
    have hyy : (yy + 1).toInt = yy.toInt + 1 :=
      Int32.toInt_add_of_range (by have := Int32.le_toInt yy; simp; omega) (by simp; omega)
    have ih := mem_rectCells hn (p := p) (show (yy + 1).toInt + m < 2 ^ 31 by omega)
    rw [rectCells, List.mem_append, mem_rowCells hn, ih, hyy, ← Int32.toInt_inj]
    omega

section Gradient

variable {x y w h : Int32}
  (hxw : -2 ^ 31 ≤ x.toInt + w.toInt ∧ x.toInt + w.toInt < 2 ^ 31)
  (hyh : -2 ^ 31 ≤ y.toInt + h.toInt ∧ y.toInt + h.toInt < 2 ^ 31)

include hxw in
/-- **ROW**: the inner loop paints the row's pixels up to `x + w`. -/
theorem gradientRow_eq (yy : Int32) :
    ∀ (n fuel : Nat) (xx : Int32) (s : Libfb), (x.toInt + w.toInt - xx.toInt).toNat = n → n ≤ fuel →
      gradientRow x w h yy fuel xx s = libfbPaint (rowCells xx yy n) (gradientColor w h) s
  | 0, fuel, xx, s, hn, _ => by
    have hend : ¬ xx < x + w := by
      rw [Int32.lt_iff_toInt_lt, Int32.toInt_add_of_range hxw.1 hxw.2]
      omega
    cases fuel <;> simp only [gradientRow, if_neg hend] <;> rfl
  | n + 1, fuel + 1, xx, s, hn, hfuel => by
    have hlt : xx < x + w := by
      rw [Int32.lt_iff_toInt_lt, Int32.toInt_add_of_range hxw.1 hxw.2]
      omega
    have hxx : (xx + 1).toInt = xx.toInt + 1 :=
      Int32.toInt_add_of_range (by have := Int32.le_toInt xx; simp; omega) (by simp; omega)
    rw [gradientRow, if_pos hlt, gradientRow_eq yy n fuel (xx + 1) _ (by rw [hxx]; omega) (by omega)]
    rfl
  | _ + 1, 0, _, _, _, hfuel => absurd hfuel (by omega)

include hxw hyh in
/-- **ROWS**: the outer loop paints the rectangle's rows up to `y + h`. -/
theorem gradientRows_eq :
    ∀ (m fuel : Nat) (yy : Int32) (s : Libfb), (y.toInt + h.toInt - yy.toInt).toNat = m → m ≤ fuel →
      gradientRows x y w h fuel yy s = libfbPaint (rectCells x w.toInt.toNat yy m) (gradientColor w h) s
  | 0, fuel, yy, s, hm, _ => by
    have hend : ¬ yy < y + h := by
      rw [Int32.lt_iff_toInt_lt, Int32.toInt_add_of_range hyh.1 hyh.2]
      omega
    cases fuel <;> simp only [gradientRows, if_neg hend] <;> rfl
  | m + 1, fuel + 1, yy, s, hm, hfuel => by
    have hlt : yy < y + h := by
      rw [Int32.lt_iff_toInt_lt, Int32.toInt_add_of_range hyh.1 hyh.2]
      omega
    have hyy : (yy + 1).toInt = yy.toInt + 1 :=
      Int32.toInt_add_of_range (by have := Int32.le_toInt yy; simp; omega) (by simp; omega)
    rw [gradientRows, if_pos hlt, gradientRows_eq m fuel (yy + 1) _ (by rw [hyy]; omega) (by omega),
      gradientRow_eq hxw yy w.toInt.toNat (2 ^ 32) x s (by omega) (by have := Int32.toInt_lt w; omega),
      rectCells, libfbPaint_append]
  | _ + 1, 0, _, _, _, hfuel => absurd hfuel (by omega)

end Gradient

/-- **GRADIENT**: when `x + w` and `y + h` are `int`s, with `/dev/fb`
    open, `libfb_draw_gradient(x, y, w, h)` gives every on-screen pixel
    `(xx, yy)` with `x ≤ xx < x + w` and `y ≤ yy < y + h` the colour
    `gradientColor w h (xx, yy)`, computed from the absolute `xx` and `yy`,
    and leaves every other index as it was. -/
theorem libfb_draw_gradient_apply (x y w h : Int32) {s : Libfb} (hfd : 0 ≤ s.fd.toInt)
    (hxw : -2 ^ 31 ≤ x.toInt + w.toInt ∧ x.toInt + w.toInt < 2 ^ 31)
    (hyh : -2 ^ 31 ≤ y.toInt + h.toInt ∧ y.toInt + h.toInt < 2 ^ 31) (j : Nat) :
    (libfb_draw_gradient x y w h s).buffer j =
      if j < FB_WIDTH * FB_HEIGHT ∧ x.toInt ≤ (j % FB_WIDTH : Nat) ∧ ((j % FB_WIDTH : Nat) : Int) < x.toInt + w.toInt ∧
          y.toInt ≤ (j / FB_WIDTH : Nat) ∧ ((j / FB_WIDTH : Nat) : Int) < y.toInt + h.toInt
        then gradientColor w h (cellAt j) else s.buffer j := by
  have hx := Int32.toInt_lt x
  have hy := Int32.toInt_lt y
  have hh := Int32.toInt_lt h
  rw [libfb_draw_gradient, gradientRows_eq hxw hyh _ (2 ^ 32) y s rfl (by omega),
    (libfbPaint_buffer _ _ hfd).1, paintPoints_apply]
  -- the rectangle's pixels on the screen are the indices in range
  have hhits : Hits (rectCells x w.toInt.toNat y (y.toInt + h.toInt - y.toInt).toNat) j ↔
      j < FB_WIDTH * FB_HEIGHT ∧ x.toInt ≤ (j % FB_WIDTH : Nat) ∧ ((j % FB_WIDTH : Nat) : Int) < x.toInt + w.toInt ∧
        y.toInt ≤ (j / FB_WIDTH : Nat) ∧ ((j / FB_WIDTH : Nat) : Int) < y.toInt + h.toInt := by
    constructor
    · rintro ⟨p, hp, hb, hpj⟩
      obtain ⟨rfl, hj⟩ := eq_cellAt hb hpj
      obtain ⟨hcx, hcy⟩ := cellAt_toInt hj
      rw [mem_rectCells (by omega) (by omega), hcx, hcy] at hp
      omega
    · intro hj
      obtain ⟨hcx, hcy⟩ := cellAt_toInt hj.1
      refine ⟨cellAt j, ?_, cellAt_hits hj.1⟩
      rw [mem_rectCells (by omega) (by omega), hcx, hcy]
      omega
  simp only [hhits]

/-- The `gradient` mode of `fbviewer` draws `(10, 10, 100, 100)`: the
    pixel `(109, 10)` gets red `109*255/100 = 277`, past a byte, where the
    offset `99` into the rectangle gives `0xFC0080`. -/
theorem libfb_draw_gradient_fbviewer :
    (libfb_draw_gradient 10 10 100 100 ⟨0, fun _ => 0⟩).buffer (10 * 128 + 109) = 0x1151980 := by
  rw [libfb_draw_gradient_apply 10 10 100 100 (by decide) (by decide) (by decide)]
  decide

end Xv6.Dev
