import Xv6.Lib.RingWindow
import Xv6.Lib.Machine
import Xv6.File.Pipe

/-! # The console's line discipline (`kernel/console.c`)

    Typed bytes reach `consoleintr` from the UART's interrupt; it edits the
    current line in `cons.buf` and commits it to readers.  Three `uint`
    counters run over the ring of `INPUT_BUF_SIZE` bytes: `r` has been read,
    `w` committed and `e` edited.  The bytes in `[r, w)` are `readable`, those
    in `[w, e)` the line being `editing`; `RingWindow` reads both off the
    ring.

    `consoleread` runs under the lock and gives it up by returning or by
    sleeping in its loop; a sleeping call resumes where it stopped.  A run
    of the console is any sequence of typed bytes and pieces of calls by
    any number of readers (`consStep`).  Readers are not killed and their
    copies succeed, and echoing to the UART is not modelled.

    What the line discipline is for is `editStep`: the edited input,
    committed a line at a time.  `lineRead` is the loop of `consoleread`
    read on the queue of readable bytes.

    * `consoleintr_views`: each typed byte does to the queue and the line
      what `editStep` says;
    * `readLoop_lineRead`: a piece of `consoleread` on the ring is
      `lineRead` on its queue;
    * `consStep_inv`: every step keeps the counters in order, the line clean
      and the bytes read a prefix of the edited input;
    * `console_line_discipline`: what holds in every reachable state. -/

namespace Xv6.Dev

open Machine RingWindow
open Xv6.File (Stop)

/-- `INPUT_BUF_SIZE`. -/
def INPUT_BUF_SIZE : Nat := 128

instance : NeZero INPUT_BUF_SIZE := ⟨by decide⟩

/-- A character as the byte it is. -/
def chr (x : Char) : UInt8 := x.toNat.toUInt8

/-- `C(x)`: control-`x`. -/
def C (x : Char) : UInt8 := chr x - chr '@'

/-- `cons`, without its lock. -/
structure Cons where
  buf : Fin INPUT_BUF_SIZE → UInt8
  r : UInt32
  w : UInt32
  e : UInt32

/-- The slot `i % INPUT_BUF_SIZE`. -/
def slotOf (i : UInt32) : Fin INPUT_BUF_SIZE := slot INPUT_BUF_SIZE i.toNat

/-! ## The code -/

/-- The kill-line loop of `consoleintr`, run at most `fuel` times; each
    round moves `e` one back, so `e - w` rounds take it to `w`, where the
    loop of the source stops too. -/
def killLine : Nat → Cons → Cons
  | 0, cons => cons
  | fuel + 1, cons =>
      if cons.e ≠ cons.w ∧ cons.buf (slotOf (cons.e - 1)) ≠ chr '\n' then
        killLine fuel { cons with e := cons.e - 1 }
      else cons

/-- `consoleintr(c)`, without the echo and `procdump`. -/
def consoleintr (c : UInt8) (cons : Cons) : Cons :=
  if c = C 'P' then cons
  else if c = C 'U' then killLine (cons.e - cons.w).toNat cons
  else if c = C 'H' ∨ c = chr '\x7f' then
    if cons.e ≠ cons.w then { cons with e := cons.e - 1 } else cons
  else if c ≠ 0 ∧ cons.e - cons.r < UInt32.ofNat INPUT_BUF_SIZE then
    let c := if c = chr '\r' then chr '\n' else c
    -- store for consumption by `consoleread`
    let cons := { cons with buf := Function.update cons.buf (slotOf cons.e) c, e := cons.e + 1 }
    if c = chr '\n' ∨ c = C 'D' ∨ cons.e - cons.r = UInt32.ofNat INPUT_BUF_SIZE then
      -- a whole line (or end-of-file) has arrived: wake up `consoleread`
      { cons with w := cons.e }
    else cons
  else cons

/-- The loop of `consoleread(user_dst, dst, n)` under the lock, with `n`
    of `target` bytes to go: the console after it, the bytes it copied out,
    and how it stops.  `dst i` is whether `either_copyout` of byte `i`
    succeeds; `killed` is `killed(myproc())`. -/
def readLoop (killed : Bool) (dst : Nat → Bool) (target : Nat) :
    Nat → Cons → Cons × List UInt8 × Stop
  | 0, cons => (cons, [], .ret target)
  | n + 1, cons =>
      if cons.r = cons.w then
        -- wait until the interrupt handler has put some input in the buffer
        if killed then (cons, [], .ret (-1)) else (cons, [], .sleep (target - (n + 1)))
      else
        let c := cons.buf (slotOf cons.r)
        let cons := { cons with r := cons.r + 1 }
        if c = C 'D' then
          -- end-of-file; after data the `^D` is saved for the next call
          if n + 1 < target then ({ cons with r := cons.r - 1 }, [], .ret ↑(target - (n + 1)))
          else (cons, [], .ret ↑(target - (n + 1)))
        else if !dst (target - (n + 1)) then (cons, [], .ret ↑(target - (n + 1)))
        else if c = chr '\n' then (cons, [c], .ret ↑(target - n))
        else
          let res := readLoop killed dst target n cons
          (res.1, c :: res.2.1, res.2.2)

/-- `consoleread(user_dst, dst, n)`, until it returns or first sleeps. -/
def consoleread (killed : Bool) (dst : Nat → Bool) (n : Nat) (cons : Cons) :
    Cons × List UInt8 × Stop :=
  readLoop killed dst n n cons

/-! ## What the line discipline is for -/

/-- The edited input: what typing `c` does to the committed text and the
    line being edited, when `room` more bytes fit in the buffer.  `^U`
    kills the line, backspace and delete erase its last byte, `NUL` and
    `^P` are no input, and a byte that does not fit is lost; a newline, a
    `^D` or a full buffer commits the line. -/
def editStep (room : Nat) (committed line : List UInt8) (c : UInt8) : List UInt8 × List UInt8 :=
  if c = C 'U' then (committed, [])
  else if c = C 'H' ∨ c = chr '\x7f' then (committed, line.dropLast)
  else if c = 0 ∨ c = C 'P' ∨ room = 0 then (committed, line)
  else
    let c := if c = chr '\r' then chr '\n' else c
    if c = chr '\n' ∨ c = C 'D' ∨ room = 1 then (committed ++ line ++ [c], [])
    else (committed, line ++ [c])

/-- The loop of `consoleread` on the queue `q` of readable bytes: the bytes
    it copies, the queue it leaves, and how it stops. -/
def lineRead (target : Nat) : Nat → List UInt8 → List UInt8 × List UInt8 × Stop
  | 0, q => ([], q, .ret target)
  | n + 1, [] => ([], [], .sleep (target - (n + 1)))
  | n + 1, c :: q =>
      if c = C 'D' then
        if n + 1 < target then ([], c :: q, .ret ↑(target - (n + 1)))
        else ([], q, .ret ↑(target - (n + 1)))
      else if c = chr '\n' then ([c], q, .ret ↑(target - n))
      else
        let res := lineRead target n q
        (c :: res.1, res.2.1, res.2.2)

/-! ## The ring and its two queues -/

namespace Cons

/-- `w - r`: bytes committed and not yet read. -/
def pending (cons : Cons) : Nat := (cons.w - cons.r).toNat

/-- `e - w`: bytes of the line being edited. -/
def editLen (cons : Cons) : Nat := (cons.e - cons.w).toNat

/-- The committed bytes not yet read, oldest first. -/
def readable (cons : Cons) : List UInt8 := window cons.buf cons.r.toNat cons.pending

/-- The line being edited. -/
def editing (cons : Cons) : List UInt8 := window cons.buf cons.w.toNat cons.editLen

/-- The counters in order: `[r, w)` and `[w, e)` fit in the ring together. -/
def Ordered (cons : Cons) : Prop := cons.pending + cons.editLen ≤ INPUT_BUF_SIZE

variable {cons : Cons}

theorem pending_eq_zero : cons.r = cons.w ↔ cons.pending = 0 := by
  have ha := cons.r.toNat_lt
  have hb := cons.w.toNat_lt
  rw [UInt32.ext_iff, pending, UInt32.toNat_sub]
  omega

theorem editLen_eq_zero : cons.e = cons.w ↔ cons.editLen = 0 := by
  have ha := cons.e.toNat_lt
  have hb := cons.w.toNat_lt
  rw [UInt32.ext_iff, editLen, UInt32.toNat_sub]
  omega

/-- `e - r` is the two queues together. -/
theorem toNat_e_sub_r (h : cons.Ordered) : (cons.e - cons.r).toNat = cons.pending + cons.editLen := by
  have ha := cons.r.toNat_lt
  have hb := cons.w.toNat_lt
  have hc := cons.e.toNat_lt
  simp only [Ordered, pending, editLen, INPUT_BUF_SIZE, UInt32.toNat_sub] at h ⊢
  omega

/-- `w` is `pending` past `r`, and `e` is `editLen` past `w`, slot for slot. -/
theorem w_mod : (cons.r.toNat + cons.pending) % INPUT_BUF_SIZE = cons.w.toNat % INPUT_BUF_SIZE := by
  have ha := cons.r.toNat_lt
  have hb := cons.w.toNat_lt
  simp only [pending, INPUT_BUF_SIZE, UInt32.toNat_sub]
  omega

theorem e_mod : (cons.w.toNat + cons.editLen) % INPUT_BUF_SIZE = cons.e.toNat % INPUT_BUF_SIZE := by
  have ha := cons.w.toNat_lt
  have hb := cons.e.toNat_lt
  simp only [editLen, INPUT_BUF_SIZE, UInt32.toNat_sub]
  omega

/-- **TAKE**: reading a byte pops the head of the readable queue. -/
theorem readable_take (h : cons.r ≠ cons.w) :
    cons.readable = cons.buf (slotOf cons.r) :: ({ cons with r := cons.r + 1 } : Cons).readable ∧
      ({ cons with r := cons.r + 1 } : Cons).pending + 1 = cons.pending := by
  have ha := cons.r.toNat_lt
  have hb := cons.w.toNat_lt
  have hne : cons.r.toNat ≠ cons.w.toNat := fun e => h (UInt32.toNat_inj.mp e)
  have hcount : ({ cons with r := cons.r + 1 } : Cons).pending + 1 = cons.pending := by
    simp only [pending, UInt32.toNat_sub, UInt32.toNat_add, UInt32.toNat_one]
    omega
  refine ⟨?_, hcount⟩
  have hstart : (cons.r.toNat + 1) % INPUT_BUF_SIZE = (cons.r + 1).toNat % INPUT_BUF_SIZE := by
    simp only [UInt32.toNat_add, UInt32.toNat_one, INPUT_BUF_SIZE]
    omega
  rw [readable, readable, ← hcount, window_cons, window_start _ hstart]
  rfl

/-- A byte read and put back leaves the console as it was. -/
theorem unread (cons : Cons) : ({ cons with r := cons.r + 1 - 1 } : Cons) = cons := by
  rw [UInt32.add_sub_cancel]

/-- The last byte of the line sits at `e - 1`. -/
theorem editing_last {k : Nat} (h : cons.editLen = k + 1) :
    cons.editing = ({ cons with e := cons.e - 1 } : Cons).editing ++ [cons.buf (slotOf (cons.e - 1))] ∧
      ({ cons with e := cons.e - 1 } : Cons).editLen = k := by
  have ha := cons.w.toNat_lt
  have hb := cons.e.toNat_lt
  have hk : ({ cons with e := cons.e - 1 } : Cons).editLen = k := by
    simp only [editLen, UInt32.toNat_sub, UInt32.toNat_one] at h ⊢
    omega
  refine ⟨?_, hk⟩
  have hslot : slot INPUT_BUF_SIZE (cons.w.toNat + k) = slotOf (cons.e - 1) := by
    simp only [editLen, UInt32.toNat_sub] at h
    simp only [slotOf, slot, UInt32.toNat_sub, UInt32.toNat_one, Fin.mk.injEq, INPUT_BUF_SIZE]
    omega
  rw [editing, editing, h, hk, window, hslot]

/-- **STORE**: a byte stored at `e` while the ring has room goes after the
    line and leaves the readable queue alone. -/
theorem store_views (ho : cons.pending + cons.editLen < INPUT_BUF_SIZE) (c : UInt8) :
    let cons' : Cons := { cons with buf := Function.update cons.buf (slotOf cons.e) c, e := cons.e + 1 }
    cons'.readable = cons.readable ∧ cons'.editing = cons.editing ++ [c] ∧
      cons'.pending = cons.pending ∧ cons'.editLen = cons.editLen + 1 := by
  intro cons'
  have ha := cons.w.toNat_lt
  have hb := cons.e.toNat_lt
  have hlen : cons'.editLen = cons.editLen + 1 := by
    simp only [cons', editLen, INPUT_BUF_SIZE, UInt32.toNat_sub, UInt32.toNat_add,
      UInt32.toNat_one] at ho ⊢
    omega
  -- the slot of `e` closes both queues
  have hfromw : slotOf cons.e = slot INPUT_BUF_SIZE (cons.w.toNat + cons.editLen) := by
    simp only [slotOf, slot, Fin.mk.injEq]
    exact cons.e_mod.symm
  have hfromr : slotOf cons.e = slot INPUT_BUF_SIZE (cons.r.toNat + (cons.pending + cons.editLen)) := by
    simp only [slotOf, slot, Fin.mk.injEq]
    rw [← Nat.add_assoc, Nat.add_mod, cons.w_mod, ← Nat.add_mod, cons.e_mod]
  have hp : cons'.pending = cons.pending := rfl
  refine ⟨?_, ?_, hp, hlen⟩
  · exact window_congr fun j hj => Function.update_of_ne (hfromr ▸ slot_ne (by omega) ho) _ _
  · show window (Function.update cons.buf (slotOf cons.e) c) cons.w.toNat cons'.editLen = _
    rw [hlen, hfromw]
    exact window_store (by omega) c

/-- **COMMIT**: moving `w` to `e` makes the line readable after the queue. -/
theorem commit_views (ho : cons.Ordered) :
    ({ cons with w := cons.e } : Cons).readable = cons.readable ++ cons.editing ∧
      ({ cons with w := cons.e } : Cons).editing = [] ∧
      ({ cons with w := cons.e } : Cons).pending = cons.pending + cons.editLen := by
  have hp : ({ cons with w := cons.e } : Cons).pending = cons.pending + cons.editLen :=
    toNat_e_sub_r ho
  refine ⟨?_, ?_, hp⟩
  · rw [readable, hp, window_append, editing, window_start _ cons.w_mod]
    rfl
  · have hz : ({ cons with w := cons.e } : Cons).editLen = 0 := by simp [editLen]
    rw [editing, hz]
    rfl

end Cons

open Cons

/-! ## What a typed byte does -/

section Intr

variable {cons : Cons}

/-- `^U` on a line without a newline erases all of it. -/
theorem killLine_clean : ∀ (k : Nat) {cons : Cons}, cons.editLen = k → chr '\n' ∉ cons.editing →
    killLine k cons = { cons with e := cons.w }
  | 0, cons, hk, _ => by
      have hew : cons.e = cons.w := editLen_eq_zero.mpr hk
      show cons = { cons with e := cons.w }
      obtain ⟨buf, r, w, e⟩ := cons
      simp only at hew
      rw [hew]
  | k + 1, cons, hk, hclean => by
      obtain ⟨hlast, hk'⟩ := cons.editing_last hk
      have hne : cons.e ≠ cons.w := fun hew => by
        rw [editLen_eq_zero.mp hew] at hk
        omega
      have hnl : cons.buf (slotOf (cons.e - 1)) ≠ chr '\n' := fun hc =>
        hclean (by rw [hlast, ← hc]; exact List.mem_append_right _ (List.mem_singleton_self _))
      rw [killLine, if_pos ⟨hne, hnl⟩,
        killLine_clean k hk' fun hm => hclean (by rw [hlast]; exact List.mem_append_left _ hm)]

/-- The kill-line loop only moves `e` back, never past `w`: what it erases
    is a suffix of the line. -/
theorem killLine_prefix : ∀ (k : Nat) (cons : Cons),
    (killLine k cons).r = cons.r ∧ (killLine k cons).w = cons.w ∧ (killLine k cons).buf = cons.buf ∧
      (killLine k cons).editing <+: cons.editing
  | 0, cons => ⟨rfl, rfl, rfl, List.prefix_refl _⟩
  | k + 1, cons => by
      rw [killLine]
      split
      · next hstep =>
          obtain ⟨k', hk'⟩ : ∃ k', cons.editLen = k' + 1 :=
            ⟨cons.editLen - 1, by have := mt editLen_eq_zero.mpr hstep.1; omega⟩
          obtain ⟨hlast, -⟩ := cons.editing_last hk'
          obtain ⟨hr, hw, hbuf, hpre⟩ := killLine_prefix k { cons with e := cons.e - 1 }
          exact ⟨hr, hw, hbuf, hpre.trans (hlast ▸ List.prefix_append _ _)⟩
      · exact ⟨rfl, rfl, rfl, List.prefix_refl _⟩

/-- Erasing drops the last byte of the line, if there is one. -/
theorem erase_views :
    (if cons.e ≠ cons.w then ({ cons with e := cons.e - 1 } : Cons) else cons).editing =
      cons.editing.dropLast ∧
    (if cons.e ≠ cons.w then ({ cons with e := cons.e - 1 } : Cons) else cons).readable = cons.readable ∧
    (if cons.e ≠ cons.w then ({ cons with e := cons.e - 1 } : Cons) else cons).pending = cons.pending ∧
    (if cons.e ≠ cons.w then ({ cons with e := cons.e - 1 } : Cons) else cons).editLen ≤ cons.editLen := by
  by_cases hew : cons.e = cons.w
  · rw [if_neg (not_not.mpr hew)]
    have hz : cons.editing = [] := by rw [editing, editLen_eq_zero.mp hew]; rfl
    exact ⟨by rw [hz]; rfl, rfl, rfl, Nat.le_refl _⟩
  · rw [if_pos hew]
    obtain ⟨k, hk⟩ : ∃ k, cons.editLen = k + 1 :=
      ⟨cons.editLen - 1, by have := mt editLen_eq_zero.mpr hew; omega⟩
    obtain ⟨hlast, hk'⟩ := cons.editing_last hk
    exact ⟨by rw [hlast, List.dropLast_concat], rfl, rfl, by omega⟩

theorem lt_size_iff (ho : cons.Ordered) :
    cons.e - cons.r < UInt32.ofNat INPUT_BUF_SIZE ↔ cons.pending + cons.editLen < INPUT_BUF_SIZE := by
  rw [UInt32.lt_iff_toNat_lt, toNat_e_sub_r ho]
  rfl

theorem full_after_store_iff (ho : cons.pending + cons.editLen < INPUT_BUF_SIZE) :
    cons.e + 1 - cons.r = UInt32.ofNat INPUT_BUF_SIZE ↔ cons.pending + cons.editLen + 1 = INPUT_BUF_SIZE := by
  have ha := cons.r.toNat_lt
  have hb := cons.w.toNat_lt
  have hc := cons.e.toNat_lt
  have hsize : (UInt32.ofNat INPUT_BUF_SIZE).toNat = 128 := rfl
  rw [UInt32.ext_iff, hsize]
  simp only [pending, editLen, INPUT_BUF_SIZE, UInt32.toNat_sub, UInt32.toNat_add,
    UInt32.toNat_one] at ho ⊢
  omega

/-- **TYPED BYTE**: on ordered counters and a line without a newline,
    `consoleintr(c)` appends to the readable queue what `editStep`
    commits, leaves as the line what `editStep` leaves, and keeps the
    counters in order. -/
theorem consoleintr_views (ho : cons.Ordered) (hclean : chr '\n' ∉ cons.editing)
    (committed : List UInt8) (c : UInt8) :
    ∃ X, (consoleintr c cons).readable = cons.readable ++ X ∧
      (editStep (INPUT_BUF_SIZE - (cons.pending + cons.editLen)) committed cons.editing c).1 =
        committed ++ X ∧
      (consoleintr c cons).editing =
        (editStep (INPUT_BUF_SIZE - (cons.pending + cons.editLen)) committed cons.editing c).2 ∧
      (consoleintr c cons).Ordered := by
  have hPU : C 'P' ≠ C 'U' := by decide
  have hPH : ¬(C 'P' = C 'H' ∨ C 'P' = chr '\x7f') := by decide
  have hUH : ¬(C 'U' = C 'H' ∨ C 'U' = chr '\x7f') := by decide
  by_cases hP : c = C 'P'
  · -- `procdump()`: no input
    subst hP
    refine ⟨[], ?_, ?_, ?_, ?_⟩ <;> simp [consoleintr, editStep, hPU, hPH, ho]
  by_cases hU : c = C 'U'
  · -- kill the line
    subst hU
    have hkill : consoleintr (C 'U') cons = { cons with e := cons.w } := by
      rw [consoleintr, if_neg hPU.symm, if_pos rfl]
      exact killLine_clean _ rfl hclean
    have hz : ({ cons with e := cons.w } : Cons).editLen = 0 := by simp [editLen]
    refine ⟨[], ?_, ?_, ?_, ?_⟩
    · rw [hkill, List.append_nil]
      rfl
    · simp [editStep]
    · rw [hkill, editing, hz]
      simp [editStep, window]
    · rw [hkill]
      show cons.pending + _ ≤ _
      rw [hz]
      exact Nat.le_trans (Nat.le_add_right _ _) ho
  by_cases hH : c = C 'H' ∨ c = chr '\x7f'
  · -- erase the last byte
    have herase : consoleintr c cons =
        if cons.e ≠ cons.w then ({ cons with e := cons.e - 1 } : Cons) else cons := by
      rw [consoleintr, if_neg hP, if_neg hU, if_pos hH]
    obtain ⟨hed, hrd, hpend, hlen⟩ := @erase_views cons
    rw [herase]
    refine ⟨[], by rw [hrd, List.append_nil], by simp [editStep, hU, hH], ?_, ?_⟩
    · rw [hed]
      simp [editStep, hU, hH]
    · show _ + _ ≤ _
      rw [hpend]
      exact Nat.le_trans (Nat.add_le_add_left hlen _) ho
  -- every other byte is input, stored while the ring has room
  have hother : consoleintr c cons =
      if c ≠ 0 ∧ cons.e - cons.r < UInt32.ofNat INPUT_BUF_SIZE then
        let c := if c = chr '\r' then chr '\n' else c
        let cons := { cons with buf := Function.update cons.buf (slotOf cons.e) c, e := cons.e + 1 }
        if c = chr '\n' ∨ c = C 'D' ∨ cons.e - cons.r = UInt32.ofNat INPUT_BUF_SIZE then
          { cons with w := cons.e }
        else cons
      else cons := by
    rw [consoleintr, if_neg hP, if_neg hU, if_neg hH]
  rw [hother]
  by_cases hin : c ≠ 0 ∧ cons.pending + cons.editLen < INPUT_BUF_SIZE
  · rw [if_pos ⟨hin.1, (lt_size_iff ho).mpr hin.2⟩]
    dsimp only
    have hroom : INPUT_BUF_SIZE - (cons.pending + cons.editLen) ≠ 0 := by omega
    have hdrop : ¬(c = 0 ∨ c = C 'P' ∨ INPUT_BUF_SIZE - (cons.pending + cons.editLen) = 0) := by
      rintro (h0 | h0 | h0)
      exacts [hin.1 h0, hP h0, hroom h0]
    simp only [editStep, if_neg hU, if_neg hH, if_neg hdrop, full_after_store_iff hin.2,
      show INPUT_BUF_SIZE - (cons.pending + cons.editLen) = 1 ↔
        cons.pending + cons.editLen + 1 = INPUT_BUF_SIZE by omega]
    generalize (if c = chr '\r' then chr '\n' else c) = c'
    obtain ⟨hrd, hed, hpend, hlen⟩ := store_views hin.2 c'
    by_cases hcommit : c' = chr '\n' ∨ c' = C 'D' ∨ cons.pending + cons.editLen + 1 = INPUT_BUF_SIZE
    · -- a newline, a `^D` or a full ring commits the line
      simp only [if_pos hcommit]
      obtain ⟨hrd', hed', hpend'⟩ := @commit_views
        { cons with buf := Function.update cons.buf (slotOf cons.e) c', e := cons.e + 1 }
        (by show _ + _ ≤ _; rw [hpend, hlen]; omega)
      have hz : Cons.editLen ⟨Function.update cons.buf (slotOf cons.e) c', cons.r, cons.e + 1,
          cons.e + 1⟩ = 0 := by simp [editLen]
      refine ⟨cons.editing ++ [c'], ?_, by simp only [List.append_assoc], hed', ?_⟩
      · exact hrd'.trans (by rw [hrd, hed])
      · show _ + _ ≤ _
        rw [hz, Nat.add_zero]
        exact hpend'.trans_le (by rw [hpend, hlen]; omega)
    · -- otherwise the line grows
      simp only [if_neg hcommit]
      refine ⟨[], by rw [hrd, List.append_nil], by rw [List.append_nil], hed, ?_⟩
      show _ + _ ≤ _
      rw [hpend, hlen]
      omega
  · rw [if_neg fun h => hin ⟨h.1, (lt_size_iff ho).mp h.2⟩]
    have hdrop : c = 0 ∨ c = C 'P' ∨ INPUT_BUF_SIZE - (cons.pending + cons.editLen) = 0 := by
      by_cases h0 : c = 0
      · exact .inl h0
      · have hfull : ¬cons.pending + cons.editLen < INPUT_BUF_SIZE := fun h => hin ⟨h0, h⟩
        exact .inr (.inr (by omega))
    refine ⟨[], by rw [List.append_nil], ?_, ?_, ho⟩ <;> simp [editStep, hU, hH, hdrop]

/-- **ERASE**: backspace, delete and `^U` move only `e`, and what they
    erase is a suffix of the line: never a readable byte. -/
theorem erase_only_line {c : UInt8} (hc : c = C 'H' ∨ c = chr '\x7f' ∨ c = C 'U') :
    (consoleintr c cons).r = cons.r ∧ (consoleintr c cons).w = cons.w ∧
      (consoleintr c cons).buf = cons.buf ∧ (consoleintr c cons).editing <+: cons.editing := by
  have hP : c ≠ C 'P' := by rcases hc with rfl | rfl | rfl <;> decide
  rcases hc with hH | hH | hU
  all_goals first
    | -- backspace or delete
      have hU : c ≠ C 'U' := by rw [hH]; decide
      rw [consoleintr, if_neg hP, if_neg hU, if_pos (by simp [hH])]
      obtain ⟨hed, -, -, -⟩ := @erase_views cons
      refine ⟨?_, ?_, ?_, hed ▸ List.dropLast_prefix _⟩ <;> split <;> rfl
    | -- kill the line
      rw [hU, consoleintr, if_neg (by decide), if_pos rfl]
      exact killLine_prefix _ cons

end Intr

/-! ## What a piece of a read does -/

section Read

variable (target : Nat)

/-- **FIFO**: `lineRead` takes a prefix of the queue and copies it without
    its `^D`. -/
theorem lineRead_fifo : ∀ (n : Nat) (q : List UInt8),
    ∃ taken, q = taken ++ (lineRead target n q).2.1 ∧
      (lineRead target n q).1 = taken.filter (· ≠ C 'D')
  | 0, q => ⟨[], by simp [lineRead]⟩
  | n + 1, [] => ⟨[], by simp [lineRead]⟩
  | n + 1, c :: q => by
      by_cases hD : c = C 'D'
      · by_cases hlt : n + 1 < target
        · exact ⟨[], by simp [lineRead, hD, hlt]⟩
        · exact ⟨[c], by simp [lineRead, hD, hlt]⟩
      by_cases hnl : c = chr '\n'
      · refine ⟨[c], ?_, ?_⟩ <;> simp only [lineRead, if_neg hD, if_pos hnl]
        · rfl
        · simp [hD]
      obtain ⟨taken, hq, hout⟩ := lineRead_fifo n q
      refine ⟨c :: taken, ?_, ?_⟩
      · simp only [lineRead, if_neg hD, if_neg hnl, List.cons_append, ← hq]
      · simp only [lineRead, if_neg hD, if_neg hnl, hout]
        simp [hD]

/-- A piece copies at most one line, and a piece that sleeps none. -/
theorem lineRead_newline : ∀ (n : Nat) (q : List UInt8),
    chr '\n' ∉ (lineRead target n q).1.dropLast ∧
      ∀ i, (lineRead target n q).2.2 = .sleep i → chr '\n' ∉ (lineRead target n q).1
  | 0, q => by simp [lineRead]
  | n + 1, [] => by simp [lineRead]
  | n + 1, c :: q => by
      by_cases hD : c = C 'D'
      · by_cases hlt : n + 1 < target <;> simp [lineRead, hD, hlt]
      by_cases hnl : c = chr '\n'
      · simp only [lineRead, if_neg hD, if_pos hnl]
        simp
      obtain ⟨hline, hsleep⟩ := lineRead_newline n q
      simp only [lineRead, if_neg hD, if_neg hnl]
      refine ⟨?_, fun i hi => ?_⟩
      · rcases hout : (lineRead target n q).1 with _ | ⟨d, out⟩
        · simp
        · rw [List.dropLast_cons_cons, List.mem_cons, not_or]
          exact ⟨Ne.symm hnl, hout ▸ hline⟩
      · rw [List.mem_cons, not_or]
        exact ⟨Ne.symm hnl, hsleep i hi⟩

/-- How many bytes a piece has moved when it stops: a piece sleeps only on
    an empty queue, with room left. -/
theorem lineRead_count : ∀ (n : Nat) (q : List UInt8), n ≤ target →
    (∀ i, (lineRead target n q).2.2 = .sleep i →
      i = target - n + (lineRead target n q).1.length ∧ (lineRead target n q).2.1 = [] ∧
        (lineRead target n q).1.length < n) ∧
    (∀ v, (lineRead target n q).2.2 = .ret v → v = ↑(target - n + (lineRead target n q).1.length))
  | 0, q, _ => by simp [lineRead]
  | n + 1, [], _ => by simp [lineRead]
  | n + 1, c :: q, hn => by
      by_cases hD : c = C 'D'
      · by_cases hlt : n + 1 < target <;> simp [lineRead, hD, hlt]
      by_cases hnl : c = chr '\n'
      · have hres : lineRead target (n + 1) (c :: q) = ([c], q, .ret ↑(target - n)) := by
          simp only [lineRead, if_neg hD, if_pos hnl]
        rw [hres]
        refine ⟨(fun i hi => nomatch hi), fun v hv => ?_⟩
        cases hv
        rw [List.length_singleton]
        congr 1
        omega
      obtain ⟨hsleep, hret⟩ := lineRead_count n q (by omega)
      simp only [lineRead, if_neg hD, if_neg hnl, List.length_cons]
      refine ⟨fun i hi => ?_, fun v hv => ?_⟩
      · obtain ⟨hi', hrest, hlen⟩ := hsleep i hi
        exact ⟨by omega, hrest, by omega⟩
      · rw [hret v hv]
        congr 1
        omega

/-- The first byte a call sees: a `^D` ends it with nothing copied, any
    other byte is copied first. -/
theorem lineRead_first {c : UInt8} {q : List UInt8} (ht : 0 < target) :
    (c = C 'D' → (lineRead target target (c :: q)).1 = [] ∧
      (lineRead target target (c :: q)).2.2 = .ret 0) ∧
    (c ≠ C 'D' → (lineRead target target (c :: q)).1.head? = some c) := by
  obtain ⟨n, rfl⟩ : ∃ n, target = n + 1 := ⟨target - 1, by omega⟩
  refine ⟨fun hD => by simp [lineRead, hD], fun hD => ?_⟩
  by_cases hnl : c = chr '\n'
  · simp only [lineRead, if_neg hD, if_pos hnl]
    rfl
  · simp [lineRead, hD, hnl]

/-- The first byte a call sees, given what it copied before this piece: a
    `^D` seen first ends the call with nothing copied, any other is the first
    byte copied, and a call that has seen nothing sleeps. -/
theorem lineRead_seen {out q : List UInt8} (hD : C 'D' ∉ out) (hlt : out.length < target) :
    (out.head?.or q.head? = some (C 'D') →
      out ++ (lineRead target (target - out.length) q).1 = [] ∧
        (lineRead target (target - out.length) q).2.2 = .ret 0) ∧
    (out.head?.or q.head? ≠ some (C 'D') →
      out.head?.or q.head? = (out ++ (lineRead target (target - out.length) q).1).head?) ∧
    (out.head?.or q.head? = none → ∃ i, (lineRead target (target - out.length) q).2.2 = .sleep i) := by
  rcases out with _ | ⟨c₀, out⟩
  · -- nothing copied yet: the piece starts the call's loop afresh
    rcases q with _ | ⟨c, q⟩
    · obtain ⟨n, hn⟩ : ∃ n, target - 0 = n + 1 := ⟨target - 1, by simp at hlt ⊢; omega⟩
      simp [hn, lineRead]
    · obtain ⟨hDfirst, hother⟩ := lineRead_first target (c := c) (q := q) (by simpa using hlt)
      simp only [List.length_nil, Nat.sub_zero, List.nil_append, List.head?_nil, Option.none_or,
        List.head?_cons, Option.some.injEq, reduceCtorEq, IsEmpty.forall_iff, and_true]
      exact ⟨hDfirst, fun hc => (hother fun h => hc (h ▸ rfl)).symm⟩
  · -- the call has copied `c₀`, which is not a `^D`
    have hc₀ : c₀ ≠ C 'D' := fun h => hD (h ▸ List.mem_cons_self ..)
    simp [hc₀]

/-- **READ PIECE**: a piece of `consoleread` by a reader that is not killed
    and whose copies succeed is `lineRead` on the readable queue: it moves
    only `r`, forward, and leaves the queue that `lineRead` leaves. -/
theorem readLoop_lineRead : ∀ (n : Nat) (cons : Cons),
    let res := readLoop false (fun _ => true) target n cons
    res.1 = { cons with r := res.1.r } ∧ res.1.pending ≤ cons.pending ∧
      res.1.readable = (lineRead target n cons.readable).2.1 ∧
      res.2 = ((lineRead target n cons.readable).1, (lineRead target n cons.readable).2.2)
  | 0, cons => ⟨rfl, Nat.le_refl _, rfl, rfl⟩
  | n + 1, cons => by
      intro res
      by_cases hrw : cons.r = cons.w
      · -- nothing to read: the call sleeps
        have hq : cons.readable = [] := by rw [readable, pending_eq_zero.mp hrw]; rfl
        have hres : res = (cons, [], .sleep (target - (n + 1))) := by
          simp only [res, readLoop, if_pos hrw, Bool.false_eq_true, if_false]
        rw [hres, hq]
        exact ⟨rfl, Nat.le_refl _, rfl, rfl⟩
      obtain ⟨hq, hcount⟩ := readable_take hrw
      rw [hq]
      by_cases hD : cons.buf (slotOf cons.r) = C 'D'
      · by_cases hlt : n + 1 < target
        · -- a `^D` after data is put back
          have hres : res = (cons, [], .ret ↑(target - (n + 1))) := by
            simp only [res, readLoop, if_neg hrw, if_pos hD, if_pos hlt, unread]
          rw [hres]
          refine ⟨rfl, Nat.le_refl _, ?_, ?_⟩ <;> simp [lineRead, hD, hlt, hq]
        · have hres : res = ({ cons with r := cons.r + 1 }, [], .ret ↑(target - (n + 1))) := by
            simp only [res, readLoop, if_neg hrw, if_pos hD, if_neg hlt]
          rw [hres]
          refine ⟨rfl, show ({ cons with r := cons.r + 1 } : Cons).pending ≤ _ by omega, ?_, ?_⟩ <;>
            simp [lineRead, hD, hlt]
      by_cases hnl : cons.buf (slotOf cons.r) = chr '\n'
      · -- a whole line has arrived
        have hres : res = ({ cons with r := cons.r + 1 }, [cons.buf (slotOf cons.r)], .ret ↑(target - n)) := by
          simp only [res, readLoop, if_neg hrw, if_neg hD, Bool.not_true, Bool.false_eq_true, if_false,
            if_pos hnl]
        have habs : lineRead target (n + 1) (cons.buf (slotOf cons.r) :: ({ cons with r := cons.r + 1 } : Cons).readable) =
            ([cons.buf (slotOf cons.r)], ({ cons with r := cons.r + 1 } : Cons).readable,
              .ret ↑(target - n)) := by
          simp only [lineRead, if_neg hD, if_pos hnl]
        rw [hres, habs]
        exact ⟨rfl, show ({ cons with r := cons.r + 1 } : Cons).pending ≤ _ by omega, rfl, rfl⟩
      · -- an ordinary byte is copied and the loop goes on
        obtain ⟨hself, hpend, hrd, hout⟩ := readLoop_lineRead n { cons with r := cons.r + 1 }
        have hres : res = ((readLoop false (fun _ => true) target n { cons with r := cons.r + 1 }).1,
            cons.buf (slotOf cons.r) :: (readLoop false (fun _ => true) target n { cons with r := cons.r + 1 }).2.1,
            (readLoop false (fun _ => true) target n { cons with r := cons.r + 1 }).2.2) := by
          simp only [res, readLoop, if_neg hrw, if_neg hD, Bool.not_true, Bool.false_eq_true, if_false,
            if_neg hnl]
        rw [hres]
        simp only [lineRead, if_neg hD, if_neg hnl]
        refine ⟨hself, by omega, hrd, ?_⟩
        rw [hout]

end Read

/-! ## Runs of the console -/

/-- A reader's call of `consoleread`: none, or asleep in its loop having
    moved `i` of `target` bytes, copied `out`, and seen `first` first. -/
inductive Reader where
  | idle
  | asleep (target i : Nat) (out : List UInt8) (first : Option UInt8)

/-- The console with what its readers and the reference see: the edited
    input `committed` so far and the `line` being edited, as `editStep`
    makes them; every byte copied out, in order; and each finished call's
    first byte seen, bytes copied and result. -/
structure ConsLog where
  cons : Cons
  readers : Nat → Reader
  committed : List UInt8
  line : List UInt8
  delivered : List UInt8
  returned : List (Option UInt8 × List UInt8 × Int)

/-- A typed byte, a call of `consoleread(n)` by reader `p`, or reader `p`
    woken in its loop. -/
inductive ConsAct where
  | intr (c : UInt8)
  | read (p n : Nat)
  | wake (p : Nat)

/-- A piece of reader `p`'s call under the lock, from `i` of `target` bytes
    moved, `out` copied and `first` seen: it returns or sleeps again. -/
def ConsLog.piece (l : ConsLog) (p target i : Nat) (out : List UInt8) (first : Option UInt8) :
    ConsLog :=
  let res := readLoop false (fun _ => true) target (target - i) l.cons
  let first := first.or l.cons.readable.head?
  let out := out ++ res.2.1
  match res.2.2 with
  | .ret v =>
      { l with cons := res.1, readers := Function.update l.readers p .idle,
               delivered := l.delivered ++ res.2.1, returned := l.returned ++ [(first, out, v)] }
  | .sleep i =>
      { l with cons := res.1, readers := Function.update l.readers p (.asleep target i out first),
               delivered := l.delivered ++ res.2.1 }

/-- One step of the console, in any order. -/
def consStep (l : ConsLog) : ConsAct → Outcome ConsLog
  | .intr c =>
      let ed := editStep (INPUT_BUF_SIZE - (l.cons.e - l.cons.r).toNat) l.committed l.line c
      .next { l with cons := consoleintr c l.cons, committed := ed.1, line := ed.2 }
  | .read p n =>
      match l.readers p with
      | .idle => if n = 0 then .blocked else .next (l.piece p n 0 [] none)
      | .asleep .. => .blocked
  | .wake p =>
      match l.readers p with
      | .asleep target i out first =>
          if l.cons.r = l.cons.w then .blocked else .next (l.piece p target i out first)
      | .idle => .blocked

/-- The console at boot: `cons` is zero and no one reads. -/
def consInit : ConsLog := ⟨⟨fun _ => 0, 0, 0, 0⟩, fun _ => .idle, [], [], [], []⟩

/-- A call asleep in its loop has copied `i` bytes, none a newline or a
    `^D`, and saw first the first of them. -/
def Reader.Ok : Reader → Prop
  | .idle => True
  | .asleep target i out first =>
      i = out.length ∧ i < target ∧ chr '\n' ∉ out ∧ C 'D' ∉ out ∧ first = out.head?

/-- The counters in order; the buffer's line is the reference's line, with
    no newline in it; the bytes read out and the readable queue are the
    committed text; calls asleep and finished are as `consoleread` makes
    them. -/
structure ConsLog.Inv (l : ConsLog) : Prop where
  ordered : l.cons.Ordered
  line : l.cons.editing = l.line
  clean : chr '\n' ∉ l.line
  fifo : ∃ consumed, consumed ++ l.cons.readable = l.committed ∧
    l.delivered = consumed.filter (· ≠ C 'D')
  readers : ∀ p, (l.readers p).Ok
  returned : ∀ f out v, (f, out, v) ∈ l.returned →
    v = out.length ∧ chr '\n' ∉ out.dropLast ∧ (v = 0 ↔ f = some (C 'D'))

theorem consInit_inv : consInit.Inv := by
  refine ⟨show Cons.pending _ + Cons.editLen _ ≤ INPUT_BUF_SIZE by decide, rfl, by simp [consInit],
    ⟨[], rfl, rfl⟩, fun _ => trivial, by simp [consInit]⟩

theorem dropLast_append_of_not_mem {x : UInt8} {a b : List UInt8} (ha : x ∉ a) (hb : x ∉ b.dropLast) :
    x ∉ (a ++ b).dropLast := by
  rcases b.eq_nil_or_concat with rfl | ⟨b', y, rfl⟩
  · simp only [List.append_nil]
    exact fun hm => ha (List.dropLast_subset _ hm)
  · simp only [List.concat_eq_append, ← List.append_assoc, List.dropLast_concat] at hb ⊢
    simp only [List.mem_append, not_or]
    exact ⟨ha, hb⟩

/-- The edited line never holds a newline: a newline commits it. -/
theorem editStep_clean {room : Nat} {committed line : List UInt8} (c : UInt8)
    (hclean : chr '\n' ∉ line) : chr '\n' ∉ (editStep room committed line c).2 := by
  unfold editStep
  split
  · simp
  split
  · exact fun hm => hclean (List.dropLast_subset _ hm)
  split
  · exact hclean
  dsimp only
  generalize (if c = chr '\r' then chr '\n' else c) = c'
  split
  · simp
  · next hcommit =>
      intro hm
      rcases List.mem_append.mp hm with hm | hm
      · exact hclean hm
      · exact hcommit (.inl (List.mem_singleton.mp hm).symm)

/-- **PIECE**: a piece of a call in a state of the invariant, from a call
    as the invariant has it, keeps the invariant. -/
theorem ConsLog.Inv.piece {l : ConsLog} (hl : l.Inv) {p target i : Nat} {out : List UInt8}
    {first : Option UInt8} (hr : (Reader.asleep target i out first).Ok) :
    (l.piece p target i out first).Inv := by
  obtain ⟨hi, hlt, hnl, hD, hfirst⟩ := hr
  subst hi hfirst
  obtain ⟨hself, hpend, hrd, hres⟩ := readLoop_lineRead target (target - out.length) l.cons
  obtain ⟨taken, hq, hout⟩ := lineRead_fifo target (target - out.length) l.cons.readable
  obtain ⟨hline, hsleepnl⟩ := lineRead_newline target (target - out.length) l.cons.readable
  obtain ⟨hsleep, hret⟩ := lineRead_count target (target - out.length) l.cons.readable (by omega)
  obtain ⟨hseenD, hseen, hnone⟩ := lineRead_seen target (q := l.cons.readable) hD hlt
  obtain ⟨consumed, hcom, hdel⟩ := hl.fifo
  -- what stays: the line, and the queue minus what the piece took
  have hcons : (readLoop false (fun _ => true) target (target - out.length) l.cons).1.editing =
      l.cons.editing := by rw [hself]; rfl
  have hord : (readLoop false (fun _ => true) target (target - out.length) l.cons).1.Ordered := by
    rw [hself]
    exact Nat.le_trans (Nat.add_le_add_right (hself ▸ hpend) _) hl.ordered
  have hfifo : (consumed ++ taken) ++ (readLoop false (fun _ => true) target (target - out.length) l.cons).1.readable =
      l.committed ∧ l.delivered ++ (readLoop false (fun _ => true) target (target - out.length) l.cons).2.1 =
      (consumed ++ taken).filter (· ≠ C 'D') := by
    rw [hrd, List.append_assoc, ← hq, hcom, hres, hdel, hout, List.filter_append]
    exact ⟨rfl, rfl⟩
  unfold ConsLog.piece
  dsimp only
  rcases hstop : (readLoop false (fun _ => true) target (target - out.length) l.cons).2.2 with v | i'
  · -- the call returns `v`
    dsimp only
    have hstop' : (lineRead target (target - out.length) l.cons.readable).2.2 = .ret v := by
      rw [← hstop, hres]
    refine ⟨hord, hcons.trans hl.line, hl.clean, ⟨_, hfifo.1, hfifo.2⟩, fun p' => ?_, ?_⟩
    · dsimp only
      by_cases hp : p' = p
      · rw [hp, Function.update_self]
        trivial
      · rw [Function.update_of_ne hp]
        exact hl.readers p'
    · intro f out' v' hmem
      dsimp only at hmem
      rcases List.mem_append.mp hmem with hold | hnew
      · exact hl.returned f out' v' hold
      · -- the call that just returned
        simp only [List.mem_singleton, Prod.mk.injEq] at hnew
        obtain ⟨rfl, rfl, rfl⟩ := hnew
        rw [hres]
        dsimp only
        have hv : v' = ↑(out ++ (lineRead target (target - out.length) l.cons.readable).1).length := by
          rw [hret v' hstop', List.length_append]
          congr 1
          omega
        refine ⟨hv, dropLast_append_of_not_mem hnl hline, ?_⟩
        constructor
        · -- nothing copied: the call has seen a `^D` first, for a call that
          -- has seen nothing sleeps
          intro hv0
          have hnil : out ++ (lineRead target (target - out.length) l.cons.readable).1 = [] := by
            rw [hv] at hv0
            exact List.eq_nil_of_length_eq_zero (by exact_mod_cast hv0)
          by_contra hne
          obtain ⟨i, hi⟩ := hnone (by rw [hseen hne, hnil]; rfl)
          rw [hi] at hstop'
          cases hstop'
        · intro hfD
          obtain ⟨hnil, hzero⟩ := hseenD hfD
          rw [hv, hnil]
          rfl
  · -- the call sleeps again
    dsimp only
    have hstop' : (lineRead target (target - out.length) l.cons.readable).2.2 = .sleep i' := by
      rw [← hstop, hres]
    obtain ⟨hi', -, hlen⟩ := hsleep i' hstop'
    refine ⟨hord, hcons.trans hl.line, hl.clean, ⟨_, hfifo.1, hfifo.2⟩, fun p' => ?_, hl.returned⟩
    dsimp only
    by_cases hp : p' = p
    · rw [hp, Function.update_self]
      have hsl := hsleepnl i' hstop'
      rw [hres]
      dsimp only
      refine ⟨by rw [hi', List.length_append]; omega, by omega, ?_, ?_, ?_⟩
      · simp only [List.mem_append, not_or]
        exact ⟨hnl, hsl⟩
      · simp only [List.mem_append, not_or]
        exact ⟨hD, by rw [hout]; simp⟩
      · by_cases hfD : out.head?.or l.cons.readable.head? = some (C 'D')
        · obtain ⟨-, hz⟩ := hseenD hfD
          rw [hz] at hstop'
          cases hstop'
        · exact hseen hfD
    · rw [Function.update_of_ne hp]
      exact hl.readers p'

/-- **STEP**: every step keeps the invariant: a typed byte edits the line
    and commits as `editStep` does, and a piece of a call is `lineRead`. -/
theorem consStep_inv {l l' : ConsLog} {a : ConsAct} (hl : l.Inv) (h : consStep l a = .next l') :
    l'.Inv := by
  cases a with
  | intr c =>
      cases h
      obtain ⟨consumed, hcom, hdel⟩ := hl.fifo
      obtain ⟨X, hrd, hed₁, hed₂, hord⟩ :=
        consoleintr_views hl.ordered (hl.line ▸ hl.clean) l.committed c
      rw [hl.line] at hed₁ hed₂
      refine ⟨hord, ?_, ?_, ⟨consumed, ?_, hdel⟩, hl.readers, hl.returned⟩
      · show _ = (editStep (INPUT_BUF_SIZE - (l.cons.e - l.cons.r).toNat) l.committed l.line c).2
        rw [toNat_e_sub_r hl.ordered, ← hed₂]
      · show chr '\n' ∉ (editStep _ l.committed l.line c).2
        exact editStep_clean c hl.clean
      · show _ = (editStep (INPUT_BUF_SIZE - (l.cons.e - l.cons.r).toNat) l.committed l.line c).1
        rw [toNat_e_sub_r hl.ordered, hed₁, hrd, ← List.append_assoc, hcom]
  | read p n =>
      simp only [consStep] at h
      split at h
      · split at h
        · cases h
        · next hn =>
            cases h
            exact hl.piece ⟨rfl, by omega, List.not_mem_nil, List.not_mem_nil, rfl⟩
      · cases h
  | wake p =>
      simp only [consStep] at h
      split at h
      · next target i out first hasleep =>
          split at h
          · cases h
          · cases h
            have hr := hl.readers p
            rw [hasleep] at hr
            exact hl.piece hr
      · cases h

/-- **LINE DISCIPLINE**: in every run of the console, with readers that
    are not killed and whose copies succeed, `w - r ≤ e - r ≤
    INPUT_BUF_SIZE`; backspace, delete and `^U` erase only bytes of
    `[w, e)`; the buffer's line is the edited line; the bytes read are a
    prefix of the edited input without its `^D`; and every call returns
    the number of bytes it copied, at most one line, and `0` exactly when
    the first byte it saw is a `^D`. -/
theorem console_line_discipline {l : ConsLog} (h : Reachable consInit consStep l) :
    (l.cons.w - l.cons.r).toNat ≤ (l.cons.e - l.cons.r).toNat ∧
    (l.cons.e - l.cons.r).toNat ≤ INPUT_BUF_SIZE ∧
    (∀ c, c = C 'H' ∨ c = chr '\x7f' ∨ c = C 'U' →
      (consoleintr c l.cons).r = l.cons.r ∧ (consoleintr c l.cons).w = l.cons.w ∧
        (consoleintr c l.cons).buf = l.cons.buf ∧ (consoleintr c l.cons).editing <+: l.cons.editing) ∧
    l.cons.editing = l.line ∧
    l.delivered <+: l.committed.filter (· ≠ C 'D') ∧
    (∀ f out v, (f, out, v) ∈ l.returned →
      v = out.length ∧ chr '\n' ∉ out.dropLast ∧ (v = 0 ↔ f = some (C 'D'))) := by
  have hl : l.Inv := Reachable.inv consInit_inv (fun _ _ _ hs hstep => consStep_inv hs hstep) h
  obtain ⟨consumed, hcom, hdel⟩ := hl.fifo
  refine ⟨?_, ?_, fun c hc => erase_only_line hc, hl.line, ?_, hl.returned⟩
  · rw [toNat_e_sub_r hl.ordered]
    exact Nat.le_add_right _ _
  · rw [toNat_e_sub_r hl.ordered]
    exact hl.ordered
  · rw [hdel, ← hcom, List.filter_append]
    exact List.prefix_append _ _

theorem console_line_discipline_hi :
    ∃ l, Reachable consInit consStep l ∧ l.delivered = [chr 'h', chr 'i', chr '\n'] ∧
      l.delivered <+: l.committed.filter (· ≠ C 'D') := by
  have hrun : (replay consStep consInit
      [.intr (chr 'h'), .intr (chr 'i'), .intr (chr '\r'), .read 0 10]).map ConsLog.delivered =
      some [chr 'h', chr 'i', chr '\n'] := by
    decide
  obtain ⟨l, hl, hdel⟩ := Option.map_eq_some_iff.mp hrun
  have hreach := replay_reachable .init hl
  exact ⟨l, hreach, hdel, (console_line_discipline hreach).2.2.2.2.1⟩

/-- `^P` and `NUL` are no input: typed between `a` and a return they are
    never read, so what is read is not a prefix of the typed bytes with
    `\r` made `\n`. -/
theorem consoleread_skips_ctrl_p_and_nul :
    (replay consStep consInit
      [.intr (chr 'a'), .intr (C 'P'), .intr 0, .intr (chr '\r'), .read 0 10]).map ConsLog.delivered =
      some [chr 'a', chr '\n'] ∧
    ¬ [chr 'a', chr '\n'] <+: [chr 'a', C 'P', 0, chr '\n'] := by
  decide

end Xv6.Dev
