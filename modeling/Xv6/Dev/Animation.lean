import Mathlib
import Xv6.Dev.Draw
import Xv6.Dev.DebugGraph
import Xv6.Dev.Printf
import Xv6.Lib.Machine

/-! # The bouncing rectangle (`animation.c`, `anim_tick` of `trap.c`)

    A timer interrupt taken in the kernel calls `anim_tick`.  While
    `animation_enabled` is set, every `anim_ticks_per_frame`-th tick moves a
    `w × h` rectangle one pixel along its row, turning at the edges of the
    screen, paints its old position black and its new one red, and records
    a sample for the debug graph.  `sys_start_anim`, `sys_stop_anim` and
    `sys_set_speed` set the flag and the pace; `sys_debuggraph` dumps the
    samples.  No lock guards these statics: the model takes each tick and
    each call as one step.  The machine has the animation's own calls;
    `sys_fb_clear`, `sys_fb_draw_pixel` and writes to `/dev/fb`, by which
    other programs draw on the same screen, are left out.

    `fb_draw_rect` and `libfb_draw_rect` share one double loop over `int`
    coordinates, `rectRows`; `rectRows_eq` gives it once as the fold of the
    rectangle's pixels.

    * `animInv_of_reachable`: in every state the calls reach from boot, the
      rectangle lies on the screen, moves at most one pixel a frame, the
      pace and the tick counter stay in `[1, 1000000]` and below `1000000`,
      and the screen shows the rectangle alone, black before the first
      frame and red from it on;
    * `anim_tick_frames`: from a counter below the pace, `n` ticks draw
      `(counter + n) / pace` frames and leave the counter at the rest. -/

namespace Xv6.Dev

open Machine

/-! ## `fb_draw_rect` -/

section Rect

variable {σ : Type} (plot : Int32 × Int32 → σ → σ)

/-- The inner loop of `fb_draw_rect` and `libfb_draw_rect`: row `yy` from
    `xx` on, while `xx < x + w`, each pixel through `plot`. -/
def rectRow (x w yy : Int32) : Nat → Int32 → σ → σ
  | 0, _, s => s
  | fuel + 1, xx, s => if xx < x + w then rectRow x w yy fuel (xx + 1) (plot (xx, yy) s) else s

/-- The outer loop: the rows from `yy` on, while `yy < y + h`; each loop
    advances by one, so `2^32` rounds reach its end. -/
def rectRows (x y w h : Int32) : Nat → Int32 → σ → σ
  | 0, _, s => s
  | fuel + 1, yy, s =>
      if yy < y + h then rectRows x y w h fuel (yy + 1) (rectRow plot x w yy (2 ^ 32) x s) else s

theorem toInt_succ_of_lt {a : Int32} {b : Int} (h : a.toInt < b) (hb : b < 2 ^ 31) :
    (a + 1).toInt = a.toInt + 1 :=
  Int32.toInt_add_of_range (by have := Int32.le_toInt a; simp; omega) (by simp; omega)

/-- **ROW**: the inner loop draws the row's pixels up to `x + w`, in
    order. -/
theorem rectRow_eq {x w : Int32} (hxw : -2 ^ 31 ≤ x.toInt + w.toInt ∧ x.toInt + w.toInt < 2 ^ 31)
    (yy : Int32) :
    ∀ (n fuel : Nat) (xx : Int32) (s : σ), (x.toInt + w.toInt - xx.toInt).toNat = n → n ≤ fuel →
      rectRow plot x w yy fuel xx s = (rowCells xx yy n).foldl (fun s p => plot p s) s
  | 0, fuel, xx, s, hn, _ => by
    have hend : ¬ xx < x + w := by
      rw [Int32.lt_iff_toInt_lt, Int32.toInt_add_of_range hxw.1 hxw.2]
      omega
    cases fuel <;> simp only [rectRow, if_neg hend] <;> rfl
  | n + 1, fuel + 1, xx, s, hn, hfuel => by
    have hlt : xx < x + w := by
      rw [Int32.lt_iff_toInt_lt, Int32.toInt_add_of_range hxw.1 hxw.2]
      omega
    have hxx : (xx + 1).toInt = xx.toInt + 1 := toInt_succ_of_lt (b := x.toInt + w.toInt) (by omega) (by omega)
    rw [rectRow, if_pos hlt, rectRow_eq hxw yy n fuel (xx + 1) _ (by rw [hxx]; omega) (by omega)]
    rfl
  | _ + 1, 0, _, _, _, hfuel => absurd hfuel (by omega)

/-- **ROWS**: the outer loop draws the rectangle's rows up to `y + h`. -/
theorem rectRows_eq {x y w h : Int32} (hxw : -2 ^ 31 ≤ x.toInt + w.toInt ∧ x.toInt + w.toInt < 2 ^ 31)
    (hyh : -2 ^ 31 ≤ y.toInt + h.toInt ∧ y.toInt + h.toInt < 2 ^ 31) :
    ∀ (m fuel : Nat) (yy : Int32) (s : σ), (y.toInt + h.toInt - yy.toInt).toNat = m → m ≤ fuel →
      rectRows plot x y w h fuel yy s = (rectCells x w.toInt.toNat yy m).foldl (fun s p => plot p s) s
  | 0, fuel, yy, s, hm, _ => by
    have hend : ¬ yy < y + h := by
      rw [Int32.lt_iff_toInt_lt, Int32.toInt_add_of_range hyh.1 hyh.2]
      omega
    cases fuel <;> simp only [rectRows, if_neg hend] <;> rfl
  | m + 1, fuel + 1, yy, s, hm, hfuel => by
    have hlt : yy < y + h := by
      rw [Int32.lt_iff_toInt_lt, Int32.toInt_add_of_range hyh.1 hyh.2]
      omega
    have hyy : (yy + 1).toInt = yy.toInt + 1 := toInt_succ_of_lt (b := y.toInt + h.toInt) (by omega) (by omega)
    rw [rectRows, if_pos hlt, rectRows_eq hxw hyh m fuel (yy + 1) _ (by rw [hyy]; omega) (by omega),
      rectRow_eq plot hxw yy w.toInt.toNat (2 ^ 32) x s (by omega) (by have := Int32.toInt_lt w; omega),
      rectCells, List.foldl_append]
  | _ + 1, 0, _, _, _, hfuel => absurd hfuel (by omega)

end Rect

/-- `fb_draw_rect(x, y, w, h, color)`. -/
def fb_draw_rect (x y w h : Int32) (color : UInt32) (mem : Nat → UInt32) : Nat → UInt32 :=
  rectRows (fun p m => fb_draw_pixel p.1 p.2 color m) x y w h (2 ^ 32) y mem

/-- `libfb_draw_rect(x, y, w, h, color)`, up to its `write` of the buffer
    to `/dev/fb`. -/
def libfb_draw_rect (x y w h : Int32) (color : UInt32) (s : Libfb) : Libfb :=
  rectRows (fun p s => libfb_draw_pixel p.1 p.2 color s) x y w h (2 ^ 32) y s

/-- **RECT**: when `x + w` and `y + h` are `int`s, `fb_draw_rect` colours
    the rectangle's pixels on the screen and leaves every other index as
    it was. -/
theorem fb_draw_rect_apply {x y w h : Int32} (hxw : -2 ^ 31 ≤ x.toInt + w.toInt ∧ x.toInt + w.toInt < 2 ^ 31)
    (hyh : -2 ^ 31 ≤ y.toInt + h.toInt ∧ y.toInt + h.toInt < 2 ^ 31) (color : UInt32)
    (mem : Nat → UInt32) (j : Nat) :
    fb_draw_rect x y w h color mem j =
      if Hits (rectCells x w.toInt.toNat y h.toInt.toNat) j then color else mem j := by
  have hh := Int32.toInt_lt h
  have hrows := rectRows_eq (fun p m => fb_draw_pixel p.1 p.2 color m) hxw hyh
    h.toInt.toNat (2 ^ 32) y mem (by omega) (by omega)
  rw [fb_draw_rect, hrows]
  exact drawPoints_apply color _ mem j

/-- With `/dev/fb` open, `libfb_draw_rect` is `fb_draw_rect` on the
    buffer. -/
theorem libfb_draw_rect_buffer {x y w h : Int32}
    (hxw : -2 ^ 31 ≤ x.toInt + w.toInt ∧ x.toInt + w.toInt < 2 ^ 31)
    (hyh : -2 ^ 31 ≤ y.toInt + h.toInt ∧ y.toInt + h.toInt < 2 ^ 31) (color : UInt32) {s : Libfb}
    (hfd : 0 ≤ s.fd.toInt) :
    (libfb_draw_rect x y w h color s).buffer = fb_draw_rect x y w h color s.buffer := by
  have hh := Int32.toInt_lt h
  have hlib := rectRows_eq (fun p s => libfb_draw_pixel p.1 p.2 color s) hxw hyh
    h.toInt.toNat (2 ^ 32) y s (by omega) (by omega)
  have hfb := rectRows_eq (fun p m => fb_draw_pixel p.1 p.2 color m) hxw hyh
    h.toInt.toNat (2 ^ 32) y s.buffer (by omega) (by omega)
  rw [libfb_draw_rect, fb_draw_rect, hlib, hfb]
  exact libfbDrawPoints_buffer color _ hfd

/-! ## The animation -/

/-- `w` of `animation.c`, the rectangle's width; nothing writes it. -/
def animW : Int32 := 20

/-- `h` of `animation.c`, the rectangle's height. -/
def animH : Int32 := 12

/-- The statics of `animation.c`, `animation_enabled`,
    `anim_ticks_per_frame` and `anim_tick_counter`, the framebuffer (with
    the memory past `fb_mem`), the debug graph's statics, and what the
    calls print on the console. -/
structure Anim where
  enabled : Bool
  ticksPerFrame : Int32
  tickCounter : Int32
  x : Int32
  y : Int32
  dx : Int32
  prevX : Int32
  prevY : Int32
  frameNo : Int32
  fb : Nat → UInt32
  /-- ghost, no variable of the source: whether `draw_next_frame` has run -/
  drawn : Bool
  dbg : DbgState
  out : List Char

/-- The statics as the kernel image holds them, over memory `mem`. -/
def animStatics (mem : Nat → UInt32) : Anim where
  enabled := false
  ticksPerFrame := 10
  tickCounter := 0
  x := 0
  y := 50
  dx := 1
  prevX := 0
  prevY := 50
  frameNo := 0
  fb := mem
  drawn := false
  dbg := dbgBoot
  out := []

/-- The kernel's `printf` of a format with `int` arguments. -/
def kprintf (fmt : String) (args : List Int32) : List Char :=
  printf (fun _ => []) fmt.toList (args.map fun a => a.toUInt32.toUInt64)

/-- `fb_init()`. -/
def fb_init (mem : Nat → UInt32) : Nat → UInt32 := fb_clear 0 mem

/-- `animation_init()`; `anim_frame_state`, which nothing reads, is left
    out. -/
def animation_init (s : Anim) : Anim := { s with fb := fb_init s.fb }

/-- `fbdev_init()`, from `fbdev_register()`. -/
def fbdev_init (s : Anim) : Anim :=
  { s with
    fb := fb_init s.fb
    out := s.out ++ kprintf "[fbdev] /dev/fb initialized (%d bytes)\n" [fb_size_bytes] }

/-- What `main` leaves: `animation_init()`, then `fbdev_register()`. -/
def animBoot (mem : Nat → UInt32) : Anim := fbdev_init (animation_init (animStatics mem))

/-- `animation_update()`: `x += dx`, and at an edge `dx = -dx; x += dx`. -/
def animation_update (s : Anim) : Anim :=
  let x := s.x + s.dx
  let turn := x < 0 || x + animW ≥ Int32.ofNat FB_WIDTH
  { s with
    frameNo := s.frameNo + 1
    prevX := s.x
    prevY := s.y
    -- the guard for a pace of `0`
    ticksPerFrame := if s.ticksPerFrame ≤ 0 then 1 else s.ticksPerFrame
    dx := if turn then -s.dx else s.dx
    x := if turn then x + -s.dx else x }

/-- `erase_previous()`. -/
def erase_previous (s : Anim) : Anim := { s with fb := fb_draw_rect s.prevX s.prevY animW animH 0 s.fb }

/-- `draw_next_frame()`; `fb_print_ascii_if_needed` has an empty body. -/
def draw_next_frame (s : Anim) : Anim :=
  let s := erase_previous s
  { s with fb := fb_draw_rect s.x s.y animW animH 0xff2020 s.fb, drawn := true }

/-- `anim_tick()` at kernel tick `ticks`, which `dbg_record` stamps on the
    sample. -/
def anim_tick (ticks : Nat) (s : Anim) : Anim :=
  if !s.enabled then s
  else
    let s := { s with tickCounter := s.tickCounter + 1 }
    if s.tickCounter < s.ticksPerFrame then s
    else
      let s := draw_next_frame (animation_update { s with tickCounter := 0 })
      { s with dbg := dbg_record ticks s.tickCounter s.dbg }

/-- `sys_start_anim()`, which returns `0`. -/
def sys_start_anim (s : Anim) : Anim :=
  { s with enabled := true, out := s.out ++ kprintf "[kernel] Animation started.\n" [] }

/-- `sys_stop_anim()`, which returns `0`. -/
def sys_stop_anim (s : Anim) : Anim :=
  { s with enabled := false, out := s.out ++ kprintf "[kernel] Animation stopped.\n" [] }

/-- `sys_set_speed()` with `argint(0)` giving `speed`: what it returns, and
    the statics after it. -/
def sys_set_speed (speed : Int32) (s : Anim) : UInt64 × Anim :=
  if speed < 1 then
    (-1, { s with out := s.out ++ kprintf "[kernel] set_speed: invalid speed %d -> must be >= 1\n" [speed] })
  else
    let huge := speed > 1000000
    let out := if huge then s.out ++ kprintf "[kernel] set_speed: clamping huge speed %d -> 1000000\n" [speed]
      else s.out
    let speed := if huge then 1000000 else speed
    (0, { s with
      ticksPerFrame := speed
      out := out ++ kprintf "[kernel] Animation speed set to %d ticks/frame.\n" [speed] })

/-- `sys_debuggraph()`: `dbg_dump_ascii()`, whose printed samples
    `dbg_dump_ascii` gives. -/
def sys_debuggraph (s : Anim) : Anim := { s with dbg := (dbg_dump_ascii s.dbg).1 }

/-- The calls that reach these statics. -/
inductive AnimCall where
  | tick (ticks : Nat)
  | start_anim
  | stop_anim
  | set_speed (speed : Int32)
  | debuggraph

/-- One call. -/
def animStep (s : Anim) : AnimCall → Outcome Anim
  | .tick ticks => .next (anim_tick ticks s)
  | .start_anim => .next (sys_start_anim s)
  | .stop_anim => .next (sys_stop_anim s)
  | .set_speed speed => .next (sys_set_speed speed s).2
  | .debuggraph => .next (sys_debuggraph s)

/-! ## What one call does -/

section Spec

variable (s : Anim)

theorem animation_update_ticksPerFrame (h : 1 ≤ s.ticksPerFrame.toInt) :
    (animation_update s).ticksPerFrame = s.ticksPerFrame := by
  have hpos : ¬ s.ticksPerFrame ≤ 0 := by
    rw [Int32.le_iff_toInt_le]
    simp only [Int32.toInt_zero]
    omega
  simp only [animation_update, if_neg hpos]

/-- `sys_set_speed` changes the pace alone, to the speed clamped to
    `1000000` when it is at least `1`. -/
theorem sys_set_speed_eq (speed : Int32) :
    ∃ out, (sys_set_speed speed s).2 =
      { s with
        ticksPerFrame := if speed < 1 then s.ticksPerFrame else if speed > 1000000 then 1000000 else speed
        out } := by
  unfold sys_set_speed
  by_cases h : speed < 1
  · exact ⟨_, by simp only [if_pos h]; rfl⟩
  · exact ⟨_, by simp only [if_neg h]; rfl⟩

/-- The frame a tick draws: the statics after `animation_update`,
    `draw_next_frame` and `dbg_record`. -/
theorem anim_tick_cases (t : Nat) :
    (s.enabled = false ∧ anim_tick t s = s) ∨
    (s.enabled = true ∧ s.tickCounter + 1 < s.ticksPerFrame ∧
      anim_tick t s = { s with tickCounter := s.tickCounter + 1 }) ∨
    (s.enabled = true ∧ ¬ s.tickCounter + 1 < s.ticksPerFrame ∧
      anim_tick t s =
        { draw_next_frame (animation_update { s with tickCounter := 0 }) with
          dbg := dbg_record t 0 s.dbg }) := by
  unfold anim_tick
  cases hen : s.enabled
  · exact Or.inl ⟨rfl, rfl⟩
  · by_cases hlt : s.tickCounter + 1 < s.ticksPerFrame
    · exact Or.inr (Or.inl ⟨rfl, hlt, by simp [hlt]⟩)
    · exact Or.inr (Or.inr ⟨rfl, hlt, by simp [hlt]; rfl⟩)

end Spec

/-! ## The invariant -/

/-- The test of `animation_update` on the moved `x`, over the integers. -/
theorem turn_iff {x : Int32} (h : -2 ^ 31 ≤ x.toInt + 20 ∧ x.toInt + 20 < 2 ^ 31) :
    (decide (x < 0) || decide (x + animW ≥ Int32.ofNat FB_WIDTH)) = true ↔
      x.toInt < 0 ∨ (FB_WIDTH : Int) ≤ x.toInt + 20 := by
  have hw : animW.toInt = 20 := by decide
  have hfb : (Int32.ofNat FB_WIDTH).toInt = FB_WIDTH := toInt_FB_WIDTH
  have hsum : (x + animW).toInt = x.toInt + 20 := by
    rw [Int32.toInt_add_of_range (a := x) (b := animW) (by rw [hw]; exact h.1) (by rw [hw]; exact h.2), hw]
  simp only [Bool.or_eq_true, decide_eq_true_eq, ge_iff_le, Int32.lt_iff_toInt_lt, Int32.le_iff_toInt_le,
    Int32.toInt_zero, hfb, hsum]

/-- **BOUNCE**: from a place on the screen, `animation_update` moves the
    rectangle one pixel along `dx`, or at an edge keeps it and turns
    `dx`. -/
theorem animation_update_motion {s : Anim} (h0 : 0 ≤ s.x.toInt) (h1 : s.x.toInt + 20 < FB_WIDTH)
    (hdx : s.dx = 1 ∨ s.dx = -1) :
    0 ≤ (animation_update s).x.toInt ∧ (animation_update s).x.toInt + 20 < FB_WIDTH ∧
      ((animation_update s).dx = 1 ∨ (animation_update s).dx = -1) ∧
      ((animation_update s).x.toInt - s.x.toInt).natAbs ≤ 1 := by
  unfold FB_WIDTH at h1 ⊢
  have hd : s.dx.toInt = 1 ∨ s.dx.toInt = -1 := by
    rcases hdx with h | h <;> rw [h] <;> decide
  have hx : (s.x + s.dx).toInt = s.x.toInt + s.dx.toInt := Int32.toInt_add_of_range (by omega) (by omega)
  by_cases ht : (decide (s.x + s.dx < 0) || decide (s.x + s.dx + animW ≥ Int32.ofNat FB_WIDTH)) = true
  · -- at an edge the step is taken back and `dx` turns
    have hneg : (-s.dx).toInt = -s.dx.toInt := Int32.toInt_neg_of_ne (by omega)
    have hback : (s.x + s.dx + -s.dx).toInt = s.x.toInt := by
      rw [Int32.toInt_add_of_range (by omega) (by omega), hx, hneg]
      omega
    simp only [animation_update, ht, if_true, hback]
    refine ⟨h0, h1, ?_, by simp⟩
    rcases hdx with h | h <;> rw [h] <;> decide
  · have hin := (turn_iff (x := s.x + s.dx) (by omega)).not.mp ht
    unfold FB_WIDTH at hin
    simp only [animation_update, ht, if_false, Bool.false_eq_true, hx]
    exact ⟨by omega, by omega, hdx, by omega⟩

/-- Where the rectangle is: on the screen, on row `50`, at most one pixel
    from where the last frame erased it. -/
structure Motion (x dx y prevX prevY : Int32) : Prop where
  x_nonneg : 0 ≤ x.toInt
  x_add_lt : x.toInt + 20 < FB_WIDTH
  dx_unit : dx = 1 ∨ dx = -1
  y_eq : y = 50
  prevY_eq : prevY = 50
  moved_le : (x.toInt - prevX.toInt).natAbs ≤ 1

/-- The pace, and the tick counter that `anim_tick` raises by one. -/
structure Pace (ticksPerFrame tickCounter : Int32) : Prop where
  one_le : 1 ≤ ticksPerFrame.toInt
  le_max : ticksPerFrame.toInt ≤ 1000000
  counter_nonneg : 0 ≤ tickCounter.toInt
  counter_lt : tickCounter.toInt < 1000000

/-- The screen as the animation leaves it over memory `mem`: the
    rectangle at `(x, y)` in colour `c`, black around it on the screen, and
    past `fb_mem` what `mem` held. -/
def picture (mem : Nat → UInt32) (x y : Int32) (c : UInt32) (j : Nat) : UInt32 :=
  if Hits (rectCells x 20 y 12) j then c else if j < FB_WIDTH * FB_HEIGHT then 0 else mem j

/-- The screen shows the rectangle at `(x, y)` alone, black before the
    first frame and red from it on. -/
def Shows (mem : Nat → UInt32) (x y : Int32) (drawn : Bool) (fb : Nat → UInt32) : Prop :=
  fb = picture mem x y (if drawn then 0xff2020 else 0)

/-- What holds in every state the calls reach from boot over `mem`. -/
structure AnimInv (mem : Nat → UInt32) (s : Anim) : Prop where
  motion : Motion s.x s.dx s.y s.prevX s.prevY
  pace : Pace s.ticksPerFrame s.tickCounter
  shows : Shows mem s.x s.y s.drawn s.fb

/-- A pixel drawn on the screen is an index of `fb_mem`. -/
theorem lt_of_hits {pts : List (Int32 × Int32)} {j : Nat} (h : Hits pts j) : j < FB_WIDTH * FB_HEIGHT := by
  obtain ⟨p, -, hb, hpj⟩ := h
  exact (eq_cellAt hb hpj).2

/-- `fb_init` blacks out the screen and nothing past it. -/
theorem fb_init_apply (mem : Nat → UInt32) (j : Nat) :
    fb_init mem j = if j < FB_WIDTH * FB_HEIGHT then 0 else mem j := by
  have hN : 4 * ((FB_WIDTH * FB_HEIGHT + 3) / 4) = FB_WIDTH * FB_HEIGHT := by decide
  rw [fb_init, fb_clear, fbClearSized_apply, hN]

/-- **FRAME**: erasing the rectangle the picture shows and drawing it at
    a new place on the same row gives the picture of the new place. -/
theorem draw_frame_picture {mem : Nat → UInt32} {px x : Int32} {c : UInt32}
    (hpx : 0 ≤ px.toInt ∧ px.toInt + 20 < FB_WIDTH) (hx : 0 ≤ x.toInt ∧ x.toInt + 20 < FB_WIDTH) :
    fb_draw_rect x 50 animW animH 0xff2020 (fb_draw_rect px 50 animW animH 0 (picture mem px 50 c)) =
      picture mem x 50 0xff2020 := by
  have hw : animW.toInt = 20 := by decide
  have hh : animH.toInt = 12 := by decide
  have hwn : animW.toInt.toNat = 20 := by decide
  have hhn : animH.toInt.toNat = 12 := by decide
  have hy : (50 : Int32).toInt = 50 := by decide
  unfold FB_WIDTH at hpx hx
  funext j
  rw [fb_draw_rect_apply (by omega) (by omega), fb_draw_rect_apply (by omega) (by omega), hwn, hhn]
  unfold picture
  by_cases hnew : Hits (rectCells x 20 50 12) j
  · simp only [if_pos hnew]
  · by_cases hold : Hits (rectCells px 20 50 12) j
    · -- the erase leaves black where the new rectangle does not reach
      simp only [if_neg hnew, if_pos hold, if_pos (lt_of_hits hold)]
    · simp only [if_neg hnew, if_neg hold]

theorem animBoot_inv (mem : Nat → UInt32) : AnimInv mem (animBoot mem) := by
  have hm : Motion 0 1 50 0 50 := ⟨by decide, by decide, Or.inl rfl, rfl, rfl, by decide⟩
  have hp : Pace 10 0 := ⟨by decide, by decide, by decide, by decide⟩
  refine ⟨hm, hp, ?_⟩
  -- `animation_init` and `fbdev_init` both clear the screen
  have hfb : (animBoot mem).fb = fb_init (fb_init mem) := by
    simp only [animBoot, fbdev_init, animation_init, animStatics]
  have hx : (animBoot mem).x = 0 := rfl
  have hy : (animBoot mem).y = 50 := rfl
  have hd : (animBoot mem).drawn = false := rfl
  unfold Shows
  rw [hfb, hx, hy, hd, if_neg Bool.false_ne_true]
  funext j
  rw [fb_init_apply, fb_init_apply]
  unfold picture
  by_cases hj : Hits (rectCells 0 20 50 12) j
  · simp only [if_pos hj, if_pos (lt_of_hits hj)]
  · simp only [if_neg hj]
    split_ifs <;> rfl

/-- A tick keeps the invariant: it counts, or draws the next frame. -/
theorem AnimInv.anim_tick {mem : Nat → UInt32} {s : Anim} (hs : AnimInv mem s) (t : Nat) :
    AnimInv mem (anim_tick t s) := by
  have hp := hs.pace
  have hc' : (s.tickCounter + 1).toInt = s.tickCounter.toInt + 1 := toInt_succ_of_lt hp.counter_lt (by norm_num)
  rcases anim_tick_cases s t with ⟨-, heq⟩ | ⟨-, hlt, heq⟩ | ⟨-, -, heq⟩ <;> rw [heq]
  · exact hs
  · -- the counter moves on and stays below the pace
    rw [Int32.lt_iff_toInt_lt, hc'] at hlt
    have h0 := hp.counter_nonneg
    have hmax := hp.le_max
    have hcount : Pace s.ticksPerFrame (s.tickCounter + 1) :=
      ⟨hp.one_le, hmax, by rw [hc']; omega, by rw [hc']; omega⟩
    exact ⟨hs.motion, hcount, hs.shows⟩
  · -- a frame: the rectangle moves and is drawn over its old place
    have hm := hs.motion
    obtain ⟨h0, h1, hdx, hmove⟩ :=
      animation_update_motion (s := { s with tickCounter := 0 }) hm.x_nonneg hm.x_add_lt hm.dx_unit
    have htpf : (animation_update { s with tickCounter := 0 }).ticksPerFrame = s.ticksPerFrame :=
      animation_update_ticksPerFrame _ hp.one_le
    have hfb := hs.shows
    have hdraw : fb_draw_rect (animation_update { s with tickCounter := 0 }).x s.y animW animH 0xff2020
        (fb_draw_rect s.x s.y animW animH 0 s.fb) =
          picture mem (animation_update { s with tickCounter := 0 }).x s.y 0xff2020 := by
      rw [hfb, hm.y_eq]
      exact draw_frame_picture ⟨hm.x_nonneg, hm.x_add_lt⟩ ⟨h0, h1⟩
    have hpace : Pace (animation_update { s with tickCounter := 0 }).ticksPerFrame 0 :=
      ⟨by rw [htpf]; exact hp.one_le, by rw [htpf]; exact hp.le_max, by decide, by decide⟩
    -- the frame sets `drawn`, so the picture is red
    exact ⟨⟨h0, h1, hdx, hm.y_eq, hm.y_eq, hmove⟩, hpace, show _ = picture mem _ _ 0xff2020 from hdraw⟩

/-- `sys_set_speed` keeps the pace in `[1, 1000000]`. -/
theorem Pace.set_speed {s : Anim} (hp : Pace s.ticksPerFrame s.tickCounter) (speed : Int32) :
    Pace (sys_set_speed speed s).2.ticksPerFrame (sys_set_speed speed s).2.tickCounter := by
  obtain ⟨out, heq⟩ := sys_set_speed_eq s speed
  rw [heq]
  have h1 : (1 : Int32).toInt = 1 := by decide
  have hmax : (1000000 : Int32).toInt = 1000000 := by decide
  have hT : 1 ≤ (if speed < 1 then s.ticksPerFrame else if speed > 1000000 then 1000000 else speed).toInt ∧
      (if speed < 1 then s.ticksPerFrame else if speed > 1000000 then 1000000 else speed).toInt ≤ 1000000 := by
    split_ifs with hlo hhi
    · exact ⟨hp.one_le, hp.le_max⟩
    · decide
    · -- a speed in range is taken as it is
      rw [Int32.lt_iff_toInt_lt, h1] at hlo
      rw [gt_iff_lt, Int32.lt_iff_toInt_lt, hmax] at hhi
      omega
  exact ⟨hT.1, hT.2, hp.counter_nonneg, hp.counter_lt⟩

/-- Every call keeps the invariant. -/
theorem animStep_inv {mem : Nat → UInt32} {s s' : Anim} {a : AnimCall} (hs : AnimInv mem s)
    (h : animStep s a = .next s') : AnimInv mem s' := by
  cases a with
  | tick t =>
      cases h
      exact hs.anim_tick t
  | start_anim =>
      cases h
      exact ⟨hs.motion, hs.pace, hs.shows⟩
  | stop_anim =>
      cases h
      exact ⟨hs.motion, hs.pace, hs.shows⟩
  | set_speed speed =>
      cases h
      obtain ⟨out, heq⟩ := sys_set_speed_eq s speed
      have hp := hs.pace.set_speed speed
      rw [heq] at hp ⊢
      exact ⟨hs.motion, hp, hs.shows⟩
  | debuggraph =>
      cases h
      exact ⟨hs.motion, hs.pace, hs.shows⟩

theorem animInv_of_reachable {mem : Nat → UInt32} {s : Anim} (h : Reachable (animBoot mem) animStep s) :
    AnimInv mem s :=
  Reachable.inv (animBoot_inv mem) (fun _ _ _ hs hstep => animStep_inv hs hstep) h

/-! ## Whole runs -/

/-- One tick of a running animation from a counter below the pace: below
    the pace it counts, at the pace it draws a frame and starts over from
    `0`. -/
theorem anim_tick_count {s : Anim} (hp : Pace s.ticksPerFrame s.tickCounter) (hen : s.enabled = true)
    (t : Nat) :
    (anim_tick t s).enabled = true ∧ (anim_tick t s).ticksPerFrame = s.ticksPerFrame ∧
      if s.tickCounter.toInt + 1 < s.ticksPerFrame.toInt then
        (anim_tick t s).tickCounter.toInt = s.tickCounter.toInt + 1 ∧ (anim_tick t s).frameNo = s.frameNo
      else (anim_tick t s).tickCounter = 0 ∧ (anim_tick t s).frameNo = s.frameNo + 1 := by
  have hc' : (s.tickCounter + 1).toInt = s.tickCounter.toInt + 1 := toInt_succ_of_lt hp.counter_lt (by norm_num)
  rcases anim_tick_cases s t with ⟨hoff, -⟩ | ⟨-, hlt, heq⟩ | ⟨-, hge, heq⟩
  · rw [hen] at hoff
    cases hoff
  · rw [Int32.lt_iff_toInt_lt, hc'] at hlt
    rw [heq, if_pos hlt]
    exact ⟨hen, rfl, hc', rfl⟩
  · rw [Int32.lt_iff_toInt_lt, hc'] at hge
    rw [heq, if_neg hge]
    exact ⟨hen, animation_update_ticksPerFrame _ hp.one_le, rfl, rfl⟩

/-- The ticks of a run: `n` ticks from a counter `c` below the pace `T`
    draw `(c + n) / T` frames and leave the counter at `(c + n) % T`. -/
theorem ticks_frames :
    ∀ (ts : List Nat) (s : Anim), Pace s.ticksPerFrame s.tickCounter → s.enabled = true →
      s.tickCounter.toInt < s.ticksPerFrame.toInt →
      (ts.foldl (fun s t => anim_tick t s) s).frameNo =
          s.frameNo + Int32.ofNat ((s.tickCounter.toInt.toNat + ts.length) / s.ticksPerFrame.toInt.toNat) ∧
        (ts.foldl (fun s t => anim_tick t s) s).tickCounter.toInt =
          ((s.tickCounter.toInt.toNat + ts.length) % s.ticksPerFrame.toInt.toNat : Nat)
  | [], s, hp, _, hc => by
    have h0 := hp.counter_nonneg
    have hdiv : s.tickCounter.toInt.toNat / s.ticksPerFrame.toInt.toNat = 0 := Nat.div_eq_of_lt (by omega)
    have hmod : s.tickCounter.toInt.toNat % s.ticksPerFrame.toInt.toNat = s.tickCounter.toInt.toNat :=
      Nat.mod_eq_of_lt (by omega)
    simp only [List.foldl_nil, List.length_nil, Nat.add_zero, hdiv, hmod]
    exact ⟨by simp, by omega⟩
  | t :: ts, s, hp, hen, hc => by
    obtain ⟨hen', htpf, hstep⟩ := anim_tick_count hp hen t
    have h0 := hp.counter_nonneg
    have h1 := hp.one_le
    have hmax := hp.le_max
    rw [List.foldl_cons, List.length_cons]
    split_ifs at hstep with hlt
    · -- counting: the run goes on from `c + 1`
      obtain ⟨hcount, hframe⟩ := hstep
      have hp' : Pace (anim_tick t s).ticksPerFrame (anim_tick t s).tickCounter :=
        ⟨by rw [htpf]; exact h1, by rw [htpf]; exact hmax, by rw [hcount]; omega, by rw [hcount]; omega⟩
      obtain ⟨ihf, ihc⟩ := ticks_frames ts (anim_tick t s) hp' hen' (by rw [hcount, htpf]; exact hlt)
      have hn : (anim_tick t s).tickCounter.toInt.toNat + ts.length = s.tickCounter.toInt.toNat + (ts.length + 1) := by
        omega
      rw [htpf, hframe, hn] at ihf
      rw [htpf, hn] at ihc
      exact ⟨ihf, ihc⟩
    · -- a frame: the run goes on from `0`, one frame on
      obtain ⟨hcount, hframe⟩ := hstep
      have hT : s.tickCounter.toInt.toNat + (ts.length + 1) = ts.length + s.ticksPerFrame.toInt.toNat := by
        omega
      have hp' : Pace (anim_tick t s).ticksPerFrame (anim_tick t s).tickCounter :=
        ⟨by rw [htpf]; exact h1, by rw [htpf]; exact hmax, by rw [hcount]; decide, by rw [hcount]; decide⟩
      obtain ⟨ihf, ihc⟩ :=
        ticks_frames ts (anim_tick t s) hp' hen' (by rw [hcount, htpf, Int32.toInt_zero]; omega)
      have hzero : (anim_tick t s).tickCounter.toInt.toNat = 0 := by rw [hcount]; rfl
      rw [htpf, hframe, hzero, Nat.zero_add] at ihf
      rw [htpf, hzero, Nat.zero_add] at ihc
      have hTpos : 0 < s.ticksPerFrame.toInt.toNat := by omega
      rw [hT, Nat.add_div_right _ hTpos, Nat.add_mod_right]
      refine ⟨?_, ihc⟩
      -- one frame drawn now, the rest by the run
      rw [ihf, Int32.ofNat_add, Int32.add_assoc, Int32.add_comm 1]
      rfl

/-- **PACE**: in a state the calls reach, with the animation on and the
    counter `c` below the pace `T`, `n` ticks in a row draw `(c + n) / T`
    frames and leave the counter at `(c + n) % T`: a frame every `T`
    ticks. -/
theorem anim_tick_frames {mem : Nat → UInt32} {s : Anim} (hreach : Reachable (animBoot mem) animStep s)
    (hen : s.enabled = true) (hc : s.tickCounter.toInt < s.ticksPerFrame.toInt) (ts : List Nat) :
    (ts.foldl (fun s t => anim_tick t s) s).frameNo =
        s.frameNo + Int32.ofNat ((s.tickCounter.toInt.toNat + ts.length) / s.ticksPerFrame.toInt.toNat) ∧
      (ts.foldl (fun s t => anim_tick t s) s).tickCounter.toInt =
        ((s.tickCounter.toInt.toNat + ts.length) % s.ticksPerFrame.toInt.toNat : Nat) :=
  ticks_frames ts s (animInv_of_reachable hreach).pace hen hc

theorem anim_tick_frames_after_start :
    ∃ s, Reachable (animBoot fun _ => 0) animStep s ∧ s.enabled = true ∧ s.frameNo = 0 ∧
      s.tickCounter.toInt < s.ticksPerFrame.toInt ∧
      ((List.replicate 25 0).foldl (fun s t => anim_tick t s) s).frameNo =
          s.frameNo + Int32.ofNat ((s.tickCounter.toInt.toNat + 25) / s.ticksPerFrame.toInt.toNat) ∧
      ((List.replicate 25 0).foldl (fun s t => anim_tick t s) s).tickCounter.toInt =
          ((s.tickCounter.toInt.toNat + 25) % s.ticksPerFrame.toInt.toNat : Nat) := by
  obtain ⟨s, hrun, hen, hf, hc⟩ : ∃ s, replay animStep (animBoot fun _ => 0) [.start_anim] = some s ∧
      s.enabled = true ∧ s.frameNo = 0 ∧ s.tickCounter.toInt < s.ticksPerFrame.toInt :=
    ⟨_, rfl, rfl, rfl, by decide⟩
  have hreach := replay_reachable .init hrun
  exact ⟨s, hreach, hen, hf, hc, anim_tick_frames hreach hen hc (List.replicate 25 0)⟩

end Xv6.Dev
