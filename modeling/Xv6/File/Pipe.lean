import Xv6.Lib.Machine

/-! # Pipes

    `pipe.c`.  A pipe is a ring of `PIPESIZE` bytes with two `uint`
    counters: `nwrite` bytes have been written into it and `nread` read out
    of it, both counted modulo `2^32`.  The byte of count `c` sits in slot
    `c % PIPESIZE`, and since `PIPESIZE` divides `2^32` the slot does not
    see the wrap.

    `pipewrite` and `piperead` run under the pipe's lock and give it up only
    by returning or by sleeping; a sleeping call resumes its loop where it
    stopped.  A call is modelled by what it does under the lock until then
    (`pipewrite`, `piperead`), and a run of the pipe by any sequence of
    those pieces from any calls (`step`): every interleaving of readers and
    writers is one.  The contents of the copy (`copyin`, `copyout`) are
    given per byte, as whether it succeeds.

    The unread bytes are `contents`, the window of `nwrite - nread` slots
    from `nread`: the ring stands for this FIFO queue.

    * `put_contents`, `take_contents`: a store into a pipe that is not full
      appends to the queue and keeps every unread byte; a read pops the
      head;
    * `pipewrite_spec`, `piperead_spec`: a call's piece moves bytes through
      the queue in order;
    * `pipe_fifo`: in every run, `nwrite - nread ≤ PIPESIZE`, the bytes read
      are a prefix of the bytes written (the rest being the queue), and a
      store never overwrites an unread byte. -/

namespace Xv6.File

open Machine

/-- `PIPESIZE`. -/
def PIPESIZE : Nat := 512

/-- The slot of `data` that byte count `c` uses. -/
def slotAt (c : Nat) : Fin PIPESIZE := ⟨c % PIPESIZE, Nat.mod_lt _ (by decide)⟩

/-- `struct pipe`, without its lock. -/
structure Pipe where
  data : Fin PIPESIZE → UInt8
  nread : UInt32
  nwrite : UInt32
  readopen : Bool
  writeopen : Bool

namespace Pipe

/-- `pi->data[pi->nwrite++ % PIPESIZE] = ch`. -/
def put (pi : Pipe) (ch : UInt8) : Pipe :=
  { pi with data := Function.update pi.data (slotAt pi.nwrite.toNat) ch, nwrite := pi.nwrite + 1 }

/-- `ch = pi->data[pi->nread % PIPESIZE]`, then `pi->nread++`. -/
def take (pi : Pipe) : UInt8 × Pipe :=
  (pi.data (slotAt pi.nread.toNat), { pi with nread := pi.nread + 1 })

/-- How many bytes are unread: `nwrite - nread` in `uint`. -/
def count (pi : Pipe) : Nat := (pi.nwrite - pi.nread).toNat

end Pipe

/-- The `k` bytes of `data` from count `start`. -/
def window (data : Fin PIPESIZE → UInt8) (start : Nat) : Nat → List UInt8
  | 0 => []
  | k + 1 => window data start k ++ [data (slotAt (start + k))]

/-- The unread bytes of a pipe, oldest first. -/
def Pipe.contents (pi : Pipe) : List UInt8 := window pi.data pi.nread.toNat pi.count

/-! ## The code -/

/-- How a call gives up the lock: it returns `r`, or it sleeps having moved
    its first `i` bytes, and resumes its loop there. -/
inductive Stop where
  | ret (r : Int)
  | sleep (i : Nat)
deriving DecidableEq, Repr

/-- The loop of `pipewrite(pi, addr, n)` from byte `i`, under the lock: the
    pipe after it, the bytes it stored, and how it stops.  `src i` is the
    byte `copyin` reads at `addr + i`, `none` where the copy fails; `killed`
    is `killed(pr)`. -/
def pipewriteLoop (killed : Bool) (src : Nat → Option UInt8) (n : Nat) :
    Nat → Nat → Pipe → Pipe × List UInt8 × Stop
  | 0, i, pi => (pi, [], .ret i)
  | fuel + 1, i, pi =>
      if i < n then
        if !pi.readopen || killed then (pi, [], .ret (-1))
        else if pi.nwrite = pi.nread + UInt32.ofNat PIPESIZE then
          -- pipewrite-full: `wakeup(&pi->nread)` and sleep
          (pi, [], .sleep i)
        else
          match src i with
          | none => (pi, [], .ret i)
          | some ch =>
              let r := pipewriteLoop killed src n fuel (i + 1) (pi.put ch)
              (r.1, ch :: r.2.1, r.2.2)
      else (pi, [], .ret i)

/-- `pipewrite` from byte `i` of `n`: `0` at the call, where it slept on a
    resume.  Each round stops or moves one byte, so `n - i + 1` rounds are
    enough. -/
def pipewrite (killed : Bool) (src : Nat → Option UInt8) (n i : Nat) (pi : Pipe) :
    Pipe × List UInt8 × Stop :=
  pipewriteLoop killed src n (n - i + 1) i pi

/-- The copy loop of `piperead(pi, addr, n)` from byte `i`: the pipe after
    it, the bytes it delivered, and its return value.  `dst i` says whether
    `copyout` to `addr + i` succeeds. -/
def pipereadLoop (dst : Nat → Bool) (n : Nat) : Nat → Nat → Pipe → Pipe × List UInt8 × Int
  | 0, i, pi => (pi, [], i)
  | fuel + 1, i, pi =>
      if i < n then
        if pi.nread = pi.nwrite then (pi, [], i)
        else if dst i then
          let r := pipereadLoop dst n fuel (i + 1) pi.take.2
          (r.1, pi.take.1 :: r.2.1, r.2.2)
        else (pi, [], if i = 0 then -1 else i)
      else (pi, [], i)

/-- `piperead(pi, addr, n)` under the lock: it sleeps while the pipe is
    empty and a writer may still come, then copies. -/
def piperead (killed : Bool) (dst : Nat → Bool) (n : Nat) (pi : Pipe) :
    Pipe × List UInt8 × Stop :=
  if pi.nread = pi.nwrite ∧ pi.writeopen then
    if killed then (pi, [], .ret (-1)) else (pi, [], .sleep 0)
  else
    let r := pipereadLoop dst n n 0 pi
    (r.1, r.2.1, .ret r.2.2)

/-- `pipeclose(pi, writable)`: the pipe after it, and whether it is freed. -/
def pipeclose (pi : Pipe) (writable : Bool) : Pipe × Bool :=
  let pi := if writable then { pi with writeopen := false } else { pi with readopen := false }
  (pi, !pi.readopen && !pi.writeopen)

/-- The pipe `pipealloc` makes in a page holding `data`. -/
def pipealloc (data : Fin PIPESIZE → UInt8) : Pipe := ⟨data, 0, 0, true, true⟩

/-! ## The ring and its queue -/

namespace Pipe

variable (pi : Pipe)

/-- The full test of `pipewrite` is a count of `PIPESIZE`, wrap or not. -/
theorem full_iff : pi.nwrite = pi.nread + UInt32.ofNat PIPESIZE ↔ pi.count = PIPESIZE := by
  have ha := pi.nread.toNat_lt
  have hb := pi.nwrite.toNat_lt
  have hsize : (UInt32.ofNat PIPESIZE).toNat = 512 := rfl
  rw [UInt32.ext_iff, count, UInt32.toNat_sub, UInt32.toNat_add, hsize, PIPESIZE]
  omega

/-- The empty test of `piperead` is a count of `0`. -/
theorem empty_iff : pi.nread = pi.nwrite ↔ pi.count = 0 := by
  have ha := pi.nread.toNat_lt
  have hb := pi.nwrite.toNat_lt
  rw [UInt32.ext_iff, count, UInt32.toNat_sub]
  omega

/-- `nwrite` is `nread + count` modulo `2^32`, so the store slot is the one
    right after the unread window: `PIPESIZE` divides `2^32`. -/
theorem slot_nwrite : slotAt pi.nwrite.toNat = slotAt (pi.nread.toNat + pi.count) := by
  have ha := pi.nread.toNat_lt
  have hb := pi.nwrite.toNat_lt
  simp only [slotAt, count, UInt32.toNat_sub, Fin.mk.injEq, PIPESIZE]
  omega

theorem count_put {ch : UInt8} (h : pi.count < PIPESIZE) : (pi.put ch).count = pi.count + 1 := by
  have ha := pi.nread.toNat_lt
  have hb := pi.nwrite.toNat_lt
  simp only [put, count, PIPESIZE, UInt32.toNat_sub, UInt32.toNat_add] at h ⊢
  simp only [UInt32.toNat_one]
  omega

theorem count_take (h : 0 < pi.count) : pi.take.2.count + 1 = pi.count := by
  have ha := pi.nread.toNat_lt
  have hb := pi.nwrite.toNat_lt
  simp only [take, count, UInt32.toNat_sub, UInt32.toNat_add] at h ⊢
  simp only [UInt32.toNat_one]
  omega

end Pipe

theorem window_congr {d d' : Fin PIPESIZE → UInt8} {start : Nat} :
    ∀ {k}, (∀ j < k, d (slotAt (start + j)) = d' (slotAt (start + j))) →
      window d start k = window d' start k
  | 0, _ => rfl
  | k + 1, h => by
      rw [window, window, window_congr fun j hj => h j (by omega), h k (by omega)]

/-- A window depends on its start only through the slot. -/
theorem window_start {d : Fin PIPESIZE → UInt8} {s s' : Nat} (hs : s % PIPESIZE = s' % PIPESIZE) :
    ∀ k, window d s k = window d s' k
  | 0 => rfl
  | k + 1 => by
      have hslot : slotAt (s + k) = slotAt (s' + k) := by
        simp only [slotAt, Fin.mk.injEq, PIPESIZE] at hs ⊢
        omega
      rw [window, window, window_start hs k, hslot]

/-- The oldest byte of a window comes first. -/
theorem window_cons (d : Fin PIPESIZE → UInt8) :
    ∀ (start k : Nat), window d start (k + 1) = d (slotAt start) :: window d (start + 1) k
  | start, 0 => by simp [window]
  | start, k + 1 => by
      rw [window, window_cons d start k, window, List.cons_append,
        show start + 1 + k = start + (k + 1) by omega]

namespace Pipe

variable {pi : Pipe}

/-- **PUT**: storing into a pipe that is not full appends to its queue and
    keeps every unread byte. -/
theorem put_contents (h : pi.count < PIPESIZE) (ch : UInt8) :
    (pi.put ch).contents = pi.contents ++ [ch] := by
  have hc : (pi.put ch).count = pi.count + 1 := pi.count_put h
  -- the store slot is after the window, and the window is shorter than the ring
  have hfresh : ∀ j < pi.count, slotAt (pi.nread.toNat + j) ≠ slotAt pi.nwrite.toNat := by
    intro j hj heq
    rw [slot_nwrite] at heq
    simp only [slotAt, Fin.mk.injEq, PIPESIZE] at heq h
    omega
  simp only [contents, hc, window]
  congr 1
  · exact window_congr fun j hj => Function.update_of_ne (hfresh j hj) _ _
  · show [Function.update pi.data (slotAt pi.nwrite.toNat) ch (slotAt (pi.nread.toNat + pi.count))] = [ch]
    rw [← slot_nwrite, Function.update_self]

/-- **TAKE**: reading a pipe that is not empty pops the head of its queue. -/
theorem take_contents (h : 0 < pi.count) : pi.contents = pi.take.1 :: pi.take.2.contents := by
  have hc := pi.count_take h
  have hstart : pi.take.2.nread.toNat % PIPESIZE = (pi.nread.toNat + 1) % PIPESIZE := by
    simp only [take, UInt32.toNat_add, UInt32.toNat_one, PIPESIZE]
    omega
  obtain ⟨c, hcount⟩ : ∃ c, pi.count = c + 1 := ⟨pi.count - 1, by omega⟩
  rw [contents, contents, hcount, window_cons, ← Nat.add_right_cancel (hcount.symm.trans hc.symm),
    window_start hstart]
  rfl

/-- Closing an end changes neither the ring nor the counters. -/
theorem contents_pipeclose (pi : Pipe) (writable : Bool) :
    (pipeclose pi writable).1.count = pi.count ∧ (pipeclose pi writable).1.contents = pi.contents := by
  cases writable <;> exact ⟨rfl, rfl⟩

end Pipe

/-! ## A call under the lock -/

open Pipe

/-- **WRITE**: a piece of `pipewrite` appends the bytes it stores to the
    queue, and the queue stays within the ring. -/
theorem pipewriteLoop_spec (killed : Bool) (src : Nat → Option UInt8) (n : Nat) :
    ∀ (fuel i : Nat) {pi pi' : Pipe} {out : List UInt8} {stop : Stop}, pi.count ≤ PIPESIZE →
      pipewriteLoop killed src n fuel i pi = (pi', out, stop) →
      pi'.count ≤ PIPESIZE ∧ pi'.contents = pi.contents ++ out
  | 0, _, pi, _, _, _, hc, h => by
      cases h
      exact ⟨hc, (List.append_nil _).symm⟩
  | fuel + 1, i, pi, pi', out, stop, hc, h => by
      have keep : pi.count ≤ PIPESIZE ∧ pi.contents = pi.contents ++ [] :=
        ⟨hc, (List.append_nil _).symm⟩
      simp only [pipewriteLoop] at h
      split at h
      · split at h
        · cases h
          exact keep
        · split at h
          · cases h
            exact keep
          · rename_i hfull
            -- not full: there is room for the byte
            have hlt : pi.count < PIPESIZE := Nat.lt_of_le_of_ne hc (mt (full_iff pi).mpr hfull)
            split at h
            · cases h
              exact keep
            · rename_i ch _
              cases h
              have hc₁ : (pi.put ch).count ≤ PIPESIZE := by
                rw [count_put pi hlt]
                omega
              obtain ⟨hc', hcont⟩ := @pipewriteLoop_spec killed src n fuel (i + 1) (pi.put ch) _ _ _
                hc₁ rfl
              refine ⟨hc', ?_⟩
              rw [hcont, put_contents hlt, List.append_assoc, List.singleton_append]
      · cases h
        exact keep

/-- **READ**: the copy loop of `piperead` takes the bytes it delivers off the
    front of the queue. -/
theorem pipereadLoop_spec (dst : Nat → Bool) (n : Nat) :
    ∀ (fuel i : Nat) {pi pi' : Pipe} {out : List UInt8} {r : Int}, pi.count ≤ PIPESIZE →
      pipereadLoop dst n fuel i pi = (pi', out, r) →
      pi'.count ≤ PIPESIZE ∧ pi.contents = out ++ pi'.contents
  | 0, _, pi, _, _, _, hc, h => by
      cases h
      exact ⟨hc, rfl⟩
  | fuel + 1, i, pi, pi', out, r, hc, h => by
      simp only [pipereadLoop] at h
      split at h
      · split at h
        · cases h
          exact ⟨hc, rfl⟩
        · rename_i hempty
          have hpos : 0 < pi.count := Nat.pos_of_ne_zero (mt (empty_iff pi).mpr hempty)
          split at h
          · cases h
            have hc₁ : pi.take.2.count ≤ PIPESIZE := by
              have := count_take pi hpos
              omega
            obtain ⟨hc', hcont⟩ := @pipereadLoop_spec dst n fuel (i + 1) pi.take.2 _ _ _ hc₁ rfl
            exact ⟨hc', by rw [take_contents hpos, hcont, List.cons_append]⟩
          · cases h
            exact ⟨hc, rfl⟩
      · cases h
        exact ⟨hc, rfl⟩

theorem pipewrite_spec {killed : Bool} {src : Nat → Option UInt8} {n i : Nat} {pi pi' : Pipe}
    {out : List UInt8} {stop : Stop} (hc : pi.count ≤ PIPESIZE)
    (h : pipewrite killed src n i pi = (pi', out, stop)) :
    pi'.count ≤ PIPESIZE ∧ pi'.contents = pi.contents ++ out :=
  pipewriteLoop_spec killed src n _ i hc h

theorem piperead_spec {killed : Bool} {dst : Nat → Bool} {n : Nat} {pi pi' : Pipe}
    {out : List UInt8} {stop : Stop} (hc : pi.count ≤ PIPESIZE)
    (h : piperead killed dst n pi = (pi', out, stop)) :
    pi'.count ≤ PIPESIZE ∧ pi.contents = out ++ pi'.contents := by
  unfold piperead at h
  split at h
  · split at h <;>
    · cases h
      exact ⟨hc, rfl⟩
  · cases h
    exact pipereadLoop_spec dst n n 0 hc rfl

/-! ## Runs of one pipe -/

/-- A pipe, with every byte its `pipewrite` calls stored (`accepted`) and
    every byte its `piperead` calls copied out (`delivered`), in order. -/
structure PipeLog where
  pipe : Pipe
  accepted : List UInt8
  delivered : List UInt8

/-- What a process does with the pipe under its lock: a piece of a
    `pipewrite` from byte `i` (a new call, or one that slept), a
    `piperead`, or a `pipeclose`. -/
inductive PipeAct where
  | write (killed : Bool) (src : Nat → Option UInt8) (n i : Nat)
  | read (killed : Bool) (dst : Nat → Bool) (n : Nat)
  | close (writable : Bool)

/-- One piece, in any order with any other. -/
def pipeStep (l : PipeLog) : PipeAct → Outcome PipeLog
  | .write killed src n i =>
      let r := pipewrite killed src n i l.pipe
      .next ⟨r.1, l.accepted ++ r.2.1, l.delivered⟩
  | .read killed dst n =>
      let r := piperead killed dst n l.pipe
      .next ⟨r.1, l.accepted, l.delivered ++ r.2.1⟩
  | .close writable => .next { l with pipe := (pipeclose l.pipe writable).1 }

/-- A pipe fresh from `pipealloc`, in a page holding `data`. -/
def pipeInit (data : Fin PIPESIZE → UInt8) : PipeLog := ⟨pipealloc data, [], []⟩

/-- The queue fits in the ring and holds exactly the bytes stored and not
    yet copied out. -/
structure PipeLog.Inv (l : PipeLog) : Prop where
  bound : l.pipe.count ≤ PIPESIZE
  fifo : l.delivered ++ l.pipe.contents = l.accepted

theorem pipeInit_inv (data : Fin PIPESIZE → UInt8) : (pipeInit data).Inv := by
  have hzero : (pipeInit data).pipe.count = 0 := by
    simp [pipeInit, pipealloc, Pipe.count]
  refine ⟨by rw [hzero]; exact Nat.zero_le _, ?_⟩
  simp only [Pipe.contents, hzero, window]
  rfl

/-- Every piece keeps the invariant: a write appends to both the queue and
    `accepted`, a read moves the queue's front to `delivered`. -/
theorem pipeStep_inv {l l' : PipeLog} {a : PipeAct} (hl : l.Inv) (h : pipeStep l a = .next l') :
    l'.Inv := by
  cases a with
  | write killed src n i =>
      rcases hr : pipewrite killed src n i l.pipe with ⟨pi', out, stop⟩
      simp only [pipeStep, hr] at h
      cases h
      obtain ⟨hc, hcont⟩ := pipewrite_spec hl.bound hr
      refine ⟨hc, ?_⟩
      show l.delivered ++ pi'.contents = l.accepted ++ out
      rw [hcont, ← List.append_assoc, hl.fifo]
  | read killed dst n =>
      rcases hr : piperead killed dst n l.pipe with ⟨pi', out, stop⟩
      simp only [pipeStep, hr] at h
      cases h
      obtain ⟨hc, hcont⟩ := piperead_spec hl.bound hr
      refine ⟨hc, ?_⟩
      show l.delivered ++ out ++ pi'.contents = l.accepted
      rw [List.append_assoc, ← hcont, hl.fifo]
  | close writable =>
      cases h
      obtain ⟨hc, hcont⟩ := contents_pipeclose l.pipe writable
      exact ⟨hc ▸ hl.bound, hcont ▸ hl.fifo⟩

/-- **PIPE**: in every run of a pipe, whatever the interleaving of readers
    and writers and however far the counters have wrapped, `nwrite - nread`
    is at most `PIPESIZE`; the bytes copied out are a prefix of the bytes
    stored, the rest being the unread queue; and a store, which
    `pipewrite` makes only when its full test fails, keeps every unread
    byte. -/
theorem pipe_fifo {data : Fin PIPESIZE → UInt8} {l : PipeLog}
    (h : Reachable (pipeInit data) pipeStep l) :
    (l.pipe.nwrite - l.pipe.nread).toNat ≤ PIPESIZE ∧ l.delivered <+: l.accepted ∧
      l.delivered ++ l.pipe.contents = l.accepted ∧
      ∀ ch, l.pipe.nwrite ≠ l.pipe.nread + UInt32.ofNat PIPESIZE →
        (l.pipe.put ch).contents = l.pipe.contents ++ [ch] := by
  have hinv : l.Inv := Reachable.inv (pipeInit_inv data) (fun _ _ _ hs hstep => pipeStep_inv hs hstep) h
  refine ⟨hinv.bound, ⟨l.pipe.contents, hinv.fifo⟩, hinv.fifo, fun ch hroom => ?_⟩
  exact put_contents (Nat.lt_of_le_of_ne hinv.bound (mt (full_iff l.pipe).mpr hroom)) ch

/-- A fresh pipe: one call writes the bytes `0, 1, 2`, another reads two. -/
theorem pipe_fifo_write_read :
    ∃ l, Reachable (pipeInit fun _ => 0) pipeStep l ∧ l.accepted = [0, 1, 2] ∧ l.delivered = [0, 1] ∧
      ((l.pipe.nwrite - l.pipe.nread).toNat ≤ PIPESIZE ∧ l.delivered <+: l.accepted ∧
        l.delivered ++ l.pipe.contents = l.accepted ∧
        ∀ ch, l.pipe.nwrite ≠ l.pipe.nread + UInt32.ofNat PIPESIZE →
          (l.pipe.put ch).contents = l.pipe.contents ++ [ch]) := by
  let src : Nat → Option UInt8 := fun k => some (UInt8.ofNat k)
  let w := pipewrite false src 3 0 (pipealloc fun _ => 0)
  let r := piperead false (fun _ => true) 2 w.1
  have h₁ : pipeStep (pipeInit fun _ => 0) (.write false src 3 0) = .next ⟨w.1, [] ++ w.2.1, []⟩ := rfl
  have h₂ : pipeStep ⟨w.1, [] ++ w.2.1, []⟩ (.read false (fun _ => true) 2) =
      .next ⟨r.1, [] ++ w.2.1, [] ++ r.2.1⟩ := rfl
  have hreach := Reachable.step _ (Reachable.step _ Reachable.init h₁) h₂
  exact ⟨_, hreach, by decide, by decide, pipe_fifo hreach⟩

end Xv6.File
