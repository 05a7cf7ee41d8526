import Mathlib
import Xv6.Param
import Xv6.Lib.LinkedRing
import Xv6.Lib.Machine
import Xv6.Lib.Keeps

/-! # The buffer cache (`kernel/bio.c`)

    `bcache` keeps `NBUF` buffers on a circular doubly linked list through
    the sentinel `bcache.head`, most recently used first.  `bget` looks for
    a buffer labelled `(dev, blockno)` from the front and, failing that,
    recycles the least recently used buffer with `refcnt == 0`, scanning
    from the back; `brelse` drops a reference and moves a buffer whose last
    reference went to the front; `bpin` and `bunpin` add and drop a
    reference for the log.

    The list is `LinkedRing.Links` over `Node`, and each pointer statement
    of the source is a `Links.setNext` or `Links.setPrev`.  The buffer's
    sleep lock and data are not modelled: the protocol the callers keep
    (release only a buffer one got, unpin only a pinned one) is the
    machine `bioStep`, whose ghost counters `held` and `pins` count the
    references the callers hold.

    * `bget_cases`: on a listed cache `bget` hits the labelled buffer,
      recycles a buffer with `refcnt == 0`, or panics when every buffer is
      referenced;
    * `bioStep_inv`: every call keeps the list, `refcnt` equal to the
      references held, and the labels distinct;
    * `bcache_lru_labels`: what holds in every reachable state;
    * `bget_after_unmatched_bunpin`: an unmatched `bunpin` wraps `refcnt`,
      after which `bget` returns a buffer with `refcnt == 0`. -/

namespace Xv6.Fs

open LinkedRing LinkedRing.Links Machine
open StateExcept (checkOk exists_of_checkOk ok_bind)

/-- `NBUF`: size of the disk block cache. -/
def NBUF : Nat := MAXOPBLOCKS * 3

instance : NeZero NBUF := ⟨by decide⟩

/-- A node of the list: `bcache.head` or `bcache.buf[i]`. -/
inductive Node where
  | head
  | buf (i : Fin NBUF)
deriving DecidableEq, Repr, Fintype

theorem card_node : Fintype.card Node = NBUF + 1 := by
  rw [← Fintype.card_fin NBUF, ← Fintype.card_option]
  exact Fintype.card_congr
    ⟨fun | .head => none | .buf i => some i, fun | none => .head | some i => .buf i,
      fun x => by cases x <;> rfl, fun x => by cases x <;> rfl⟩

/-- The fields of `struct buf` that the cache code reads or writes. -/
structure Buf where
  valid : Bool
  dev : UInt32
  blockno : UInt32
  refcnt : UInt32
deriving DecidableEq, Repr

/-- `bcache`: the buffers and the `next`/`prev` pointers of every node. -/
structure BCache where
  buf : Fin NBUF → Buf
  links : Links Node

abbrev BioM := StateT BCache (Except String)

namespace BCache

/-- Write buffer `b`. -/
def setBuf (bc : BCache) (b : Fin NBUF) (v : Buf) : BCache :=
  { bc with buf := Function.update bc.buf b v }

@[simp] theorem setBuf_links (bc : BCache) (b : Fin NBUF) (v : Buf) :
    (bc.setBuf b v).links = bc.links := rfl

@[simp] theorem setBuf_self (bc : BCache) (b : Fin NBUF) (v : Buf) : (bc.setBuf b v).buf b = v :=
  Function.update_self _ _ _

theorem setBuf_of_ne (bc : BCache) {b b' : Fin NBUF} (v : Buf) (h : b' ≠ b) :
    (bc.setBuf b v).buf b' = bc.buf b' :=
  Function.update_of_ne h _ _

/-- `b->dev == dev && b->blockno == blockno`. -/
def cached (bc : BCache) (dev blockno : UInt32) : Node → Bool
  | .head => false
  | .buf b => (bc.buf b).dev == dev && (bc.buf b).blockno == blockno

/-- `b->refcnt == 0`. -/
def unused (bc : BCache) : Node → Bool
  | .head => false
  | .buf b => (bc.buf b).refcnt == 0

/-- The first loop of `bget`: from `head.next`, the first buffer labelled
    `(dev, blockno)`. -/
def lookup (bc : BCache) (dev blockno : UInt32) : Option Node :=
  findFrom bc.links.next .head (bc.cached dev blockno) (NBUF + 1) (bc.links.next .head)

/-- The second loop of `bget`: from `head.prev`, the first buffer with
    `refcnt == 0`. -/
def victim (bc : BCache) : Option Node :=
  findFrom bc.links.prev .head bc.unused (NBUF + 1) (bc.links.prev .head)

end BCache

/-- `binit`: the sentinel alone, then each buffer in turn put first. -/
def binit (bc : BCache) : BCache :=
  let L := (bc.links.setPrev .head .head).setNext .head .head
  { bc with links := (List.finRange NBUF).foldl (fun L b => L.pushFront .head (.buf b)) L }

/-- The zero-filled `bcache` before `binit`; its pointers, null in the
    source, are read as the sentinel, and `binit` overwrites them all. -/
def bcacheZero : BCache := ⟨fun _ => ⟨false, 0, 0, 0⟩, ⟨fun _ => .head, fun _ => .head⟩⟩

/-- `bget`, up to the sleep lock: the cached buffer of `(dev, blockno)`
    with one more reference, or a recycled one. -/
def bget (dev blockno : UInt32) : BioM (Fin NBUF) := do
  let bc ← get
  -- Is the block already cached?
  match bc.lookup dev blockno with
  | some (.buf b) =>
      set (bc.setBuf b { bc.buf b with refcnt := (bc.buf b).refcnt + 1 })
      pure b
  | _ =>
    -- Not cached: recycle the least recently used unused buffer.
    match bc.victim with
    | some (.buf b) =>
        set (bc.setBuf b { bc.buf b with dev := dev, blockno := blockno, valid := false, refcnt := 1 })
        pure b
    | _ => throw "bget: no buffers"

/-- `bread`: `bget`, and a block not yet valid is read from the disk. -/
def bread (dev blockno : UInt32) : BioM (Fin NBUF) := do
  let b ← bget dev blockno
  if !((← get).buf b).valid then
    -- `virtio_disk_rw(b, 0)` fills `b->data`, which is not modelled
    modify fun bc => bc.setBuf b { bc.buf b with valid := true }
  pure b

/-- `brelse` after `releasesleep`: drop a reference and, at the last one,
    move the buffer to the front of the list. -/
def brelse (bc : BCache) (b : Fin NBUF) : BCache :=
  let bc := bc.setBuf b { bc.buf b with refcnt := (bc.buf b).refcnt - 1 }
  if (bc.buf b).refcnt = 0 then
    -- no one is waiting for it
    { bc with links := (bc.links.unlink (.buf b)).pushFront .head (.buf b) }
  else bc

/-- `bpin`: `b->refcnt++`. -/
def bpin (bc : BCache) (b : Fin NBUF) : BCache :=
  bc.setBuf b { bc.buf b with refcnt := (bc.buf b).refcnt + 1 }

/-- `bunpin`: `b->refcnt--`. -/
def bunpin (bc : BCache) (b : Fin NBUF) : BCache :=
  bc.setBuf b { bc.buf b with refcnt := (bc.buf b).refcnt - 1 }

/-! ## The list -/

namespace BCache

/-- Every buffer is on the list through `bcache.head`, exactly once. -/
def Listed (bc : BCache) : Prop :=
  ∃ l, bc.links.Ring .head l ∧ (Node.head :: l).Nodup ∧ ∀ b, Node.buf b ∈ l

/-- No two buffers carry one label `(dev, blockno)` with `dev != 0`. -/
def Labelled (bc : BCache) : Prop :=
  ∀ b b', (bc.buf b).dev ≠ 0 → (bc.buf b).dev = (bc.buf b').dev →
    (bc.buf b).blockno = (bc.buf b').blockno → b = b'

variable {bc : BCache} {l : List Node}

theorem length_lt (hnd : (Node.head :: l).Nodup) : l.length < NBUF + 1 := by
  have hle := hnd.length_le_card
  rw [card_node, List.length_cons] at hle
  omega

theorem lookup_eq (hr : bc.links.Ring .head l) (hnd : (Node.head :: l).Nodup) (dev blockno : UInt32) :
    bc.lookup dev blockno = l.find? (bc.cached dev blockno) :=
  hr.scan_next (List.nodup_cons.mp hnd).1 (length_lt hnd) _

theorem victim_eq (hr : bc.links.Ring .head l) (hnd : (Node.head :: l).Nodup) :
    bc.victim = l.reverse.find? bc.unused :=
  hr.scan_prev (List.nodup_cons.mp hnd).1 (length_lt hnd) _

theorem Listed.setBuf (hL : bc.Listed) (b : Fin NBUF) (v : Buf) : (bc.setBuf b v).Listed := hL

/-- In a listed cache every node's `next` and `prev` undo each other. -/
theorem Listed.next_prev (hL : bc.Listed) (x : Node) :
    bc.links.prev (bc.links.next x) = x ∧ bc.links.next (bc.links.prev x) = x := by
  obtain ⟨l, hr, -, hall⟩ := hL
  have hx : x ∈ Node.head :: l := by
    cases x with
    | head => exact List.mem_cons_self ..
    | buf b => exact List.mem_cons_of_mem _ (hall b)
  exact ⟨hr.prev_next hx, hr.next_prev hx⟩

/-- A label written to one buffer keeps the labels distinct when it is that
    buffer's own or no other buffer's. -/
theorem Labelled.setBuf (hl : bc.Labelled) {b : Fin NBUF} {v : Buf}
    (hv : (v.dev = (bc.buf b).dev ∧ v.blockno = (bc.buf b).blockno) ∨
      ∀ b', b' ≠ b → ¬((bc.buf b').dev = v.dev ∧ (bc.buf b').blockno = v.blockno)) :
    (bc.setBuf b v).Labelled := by
  intro b₁ b₂ hdev hd hn
  by_cases h₁ : b₁ = b <;> by_cases h₂ : b₂ = b
  · rw [h₁, h₂]
  · -- `b₁` is the written buffer
    subst h₁
    simp only [setBuf_self, setBuf_of_ne _ _ h₂] at hdev hd hn
    rcases hv with ⟨hvd, hvn⟩ | hfresh
    · exact hl _ _ (hvd ▸ hdev) (hvd ▸ hd) (hvn ▸ hn)
    · exact absurd ⟨hd.symm, hn.symm⟩ (hfresh b₂ h₂)
  · subst h₂
    simp only [setBuf_self, setBuf_of_ne _ _ h₁] at hdev hd hn
    rcases hv with ⟨hvd, hvn⟩ | hfresh
    · exact hl _ _ hdev (hd.trans hvd) (hn.trans hvn)
    · exact absurd ⟨hd, hn⟩ (hfresh b₁ h₁)
  · simp only [setBuf_of_ne _ _ h₁, setBuf_of_ne _ _ h₂] at hdev hd hn
    exact hl _ _ hdev hd hn

end BCache

open BCache

section Calls

variable {bc c : BCache} {dev blockno : UInt32} {b : Fin NBUF}

theorem bget_run_hit (h : bc.lookup dev blockno = some (.buf b)) :
    (bget dev blockno).run bc =
      .ok (b, bc.setBuf b { bc.buf b with refcnt := (bc.buf b).refcnt + 1 }) := by
  simp [bget, h]
  rfl

theorem bget_run_victim (h : bc.lookup dev blockno = none) (hv : bc.victim = some (.buf b)) :
    (bget dev blockno).run bc =
      .ok (b, bc.setBuf b { bc.buf b with dev := dev, blockno := blockno, valid := false, refcnt := 1 }) := by
  simp [bget, h, hv]
  rfl

theorem bget_run_none (h : bc.lookup dev blockno = none) (hv : bc.victim = none) :
    (bget dev blockno).run bc = .error "bget: no buffers" := by
  simp [bget, h, hv]
  rfl

/-- **BGET**: on a listed cache, `bget` returns the buffer labelled
    `(dev, blockno)` with one more reference; or, when none is, a buffer
    with `refcnt == 0`, relabelled; or, when every buffer is referenced,
    panics. -/
theorem bget_cases (hL : bc.Listed) (dev blockno : UInt32) :
    (∃ b, bc.cached dev blockno (.buf b) = true ∧
      (bget dev blockno).run bc =
        .ok (b, bc.setBuf b { bc.buf b with refcnt := (bc.buf b).refcnt + 1 })) ∨
    ((∀ b, bc.cached dev blockno (.buf b) = false) ∧ ∃ b, (bc.buf b).refcnt = 0 ∧
      (bget dev blockno).run bc =
        .ok (b, bc.setBuf b { bc.buf b with dev := dev, blockno := blockno, valid := false, refcnt := 1 })) ∨
    ((∀ b, bc.cached dev blockno (.buf b) = false) ∧ (∀ b, (bc.buf b).refcnt ≠ 0) ∧
      (bget dev blockno).run bc = .error "bget: no buffers") := by
  obtain ⟨l, hr, hnd, hall⟩ := hL
  cases hfind : l.find? (bc.cached dev blockno) with
  | some x =>
      -- the first scan stops at a buffer with the label
      have hx := List.find?_some hfind
      cases x with
      | head => simp [cached] at hx
      | buf b => exact Or.inl ⟨b, hx, bget_run_hit (by rw [lookup_eq hr hnd, hfind])⟩
  | none =>
      have hmiss : ∀ b, bc.cached dev blockno (.buf b) = false := fun b => by
        simpa using List.find?_eq_none.mp hfind _ (hall b)
      have hlook : bc.lookup dev blockno = none := by rw [lookup_eq hr hnd, hfind]
      cases hv : l.reverse.find? bc.unused with
      | some x =>
          have hx := List.find?_some hv
          cases x with
          | head => simp [unused] at hx
          | buf b =>
              refine Or.inr (Or.inl ⟨hmiss, b, by simpa [unused] using hx, ?_⟩)
              exact bget_run_victim hlook (by rw [victim_eq hr hnd, hv])
      | none =>
          refine Or.inr (Or.inr ⟨hmiss, fun b => ?_, bget_run_none hlook (by rw [victim_eq hr hnd, hv])⟩)
          simpa [unused] using List.find?_eq_none.mp hv _ (List.mem_reverse.mpr (hall b))

theorem bread_run (h : (bget dev blockno).run bc = .ok (b, c)) :
    (bread dev blockno).run bc = .ok (b, c.setBuf b { c.buf b with valid := true }) := by
  simp only [bread, StateT.run_bind, h, ok_bind, StateT.run_get]
  cases hv : (c.buf b).valid
  · simp [hv]
    rfl
  · -- already valid: nothing is written, which is the same as writing `valid`
    have hsame : c.setBuf b { c.buf b with valid := true } = c := by
      rw [← hv]
      simp only [setBuf, Function.update_eq_self]
    simp [hv, hsame]
    rfl

theorem bread_run_error {e : String} (h : (bget dev blockno).run bc = .error e) :
    (bread dev blockno).run bc = .error e := by
  simp only [bread, StateT.run_bind, h]
  rfl

theorem BCache.Listed.brelse (hL : bc.Listed) (b : Fin NBUF) : (brelse bc b).Listed := by
  obtain ⟨l, hr, hnd, hall⟩ := hL
  unfold Xv6.Fs.brelse
  dsimp only
  split
  · -- the last reference went: the buffer moves to the front
    obtain ⟨A, B, rfl⟩ := List.append_of_mem (hall b)
    refine ⟨Node.buf b :: (A ++ B), hr.moveFront hnd, ?_, fun b' => ?_⟩
    · exact (List.perm_middle.cons Node.head).nodup_iff.mp hnd
    · exact List.perm_middle.mem_iff.mp (hall b')
  · exact ⟨l, hr, hnd, hall⟩

theorem binit_listed (bc : BCache) : (binit bc).Listed := by
  have hnil : ((bc.links.setPrev .head .head).setNext .head .head).Ring .head [] :=
    ring_nil (by simp) (by simp)
  have hnd : (Node.head :: ((List.finRange NBUF).map Node.buf ++ [])).Nodup := by
    rw [List.append_nil, List.nodup_cons]
    exact ⟨by simp, (List.nodup_finRange NBUF).map fun _ _ e => Node.buf.inj e⟩
  refine ⟨((List.finRange NBUF).map Node.buf).reverse ++ [], ?_, ?_, fun b => by simp⟩
  · have hring := hnil.pushFront_foldl hnd
    rw [List.foldl_map] at hring
    exact hring
  · simpa using hnd

/-- `brelse` writes only `refcnt` of the buffer it releases. -/
theorem brelse_buf (bc : BCache) (b : Fin NBUF) :
    (brelse bc b).buf = (bc.setBuf b { bc.buf b with refcnt := (bc.buf b).refcnt - 1 }).buf := by
  unfold Xv6.Fs.brelse
  dsimp only
  split <;> rfl

end Calls

/-! ## Runs of the cache -/

/-- The cache with the references its callers hold: `held b` buffers got
    from `bget` or `bread` and not yet given to `brelse`, `pins b` calls of
    `bpin` not yet undone by `bunpin`. -/
structure BioSys where
  cache : BCache
  held : Fin NBUF → Nat
  pins : Fin NBUF → Nat

namespace BioSys

/-- Every buffer has fewer than `2^32 - 1` references, so one more fits in
    `refcnt`. -/
def Room (s : BioSys) : Prop := ∀ b, s.held b + s.pins b + 1 < 2 ^ 32

instance (s : BioSys) : Decidable s.Room := inferInstanceAs (Decidable (∀ b : Fin NBUF, s.held b + s.pins b + 1 < 2 ^ 32))

/-- A call of `bget` or `bread`, whose caller then holds the buffer; it is
    made with `dev != 0` and while every buffer has room. -/
def getStep (s : BioSys) (m : BioM (Fin NBUF)) (dev : UInt32) : Outcome BioSys :=
  if dev = 0 ∨ ¬s.Room then .blocked
  else
    match m.run s.cache with
    | .ok (b, c) => .next ⟨c, Function.update s.held b (s.held b + 1), s.pins⟩
    | .error msg => .panic msg

end BioSys

/-- The calls of the file system on the cache. -/
inductive BioAct where
  | bget (dev blockno : UInt32)
  | bread (dev blockno : UInt32)
  | brelse (b : Fin NBUF)
  | bpin (b : Fin NBUF)
  | bunpin (b : Fin NBUF)

/-- One call, by callers that release only a buffer they got and unpin only
    a buffer they pinned. -/
def bioStep (s : BioSys) : BioAct → Outcome BioSys
  | .bget dev blockno => s.getStep (bget dev blockno) dev
  | .bread dev blockno => s.getStep (bread dev blockno) dev
  | .brelse b =>
      if s.held b = 0 then .blocked
      else .next ⟨brelse s.cache b, Function.update s.held b (s.held b - 1), s.pins⟩
  | .bpin b =>
      if s.Room then .next ⟨bpin s.cache b, s.held, Function.update s.pins b (s.pins b + 1)⟩
      else .blocked
  | .bunpin b =>
      if s.pins b = 0 then .blocked
      else .next ⟨bunpin s.cache b, s.held, Function.update s.pins b (s.pins b - 1)⟩

/-- The cache after `binit`, before any call. -/
def bioInit : BioSys := ⟨binit bcacheZero, fun _ => 0, fun _ => 0⟩

/-- Every buffer is on the list once, each `refcnt` counts the references
    held, and the labels are distinct. -/
structure BioSys.Inv (s : BioSys) : Prop where
  listed : s.cache.Listed
  refcnt : ∀ b, (s.cache.buf b).refcnt.toNat = s.held b + s.pins b
  labelled : s.cache.Labelled

theorem toNat_add_one_of_lt {r : UInt32} (h : r.toNat + 1 < 2 ^ 32) : (r + 1).toNat = r.toNat + 1 := by
  rw [UInt32.toNat_add]
  exact Nat.mod_eq_of_lt h

theorem toNat_sub_one_of_ne {r : UInt32} (h : r.toNat ≠ 0) : (r - 1).toNat = r.toNat - 1 :=
  UInt32.toNat_sub_of_le r 1 (by rw [UInt32.le_iff_toNat_le]; exact Nat.one_le_iff_ne_zero.mpr h)

section Steps

variable {s : BioSys}

/-- **ONE WRITE**: a cache whose buffers are those of `s` with buffer `b`
    rewritten keeps the invariant when `b`'s `refcnt` counts its new
    references, the other buffers' counts stay, and `b`'s label is its own
    or no other buffer's. -/
theorem BioSys.Inv.of_buf (hs : s.Inv) {c : BCache} {b : Fin NBUF} {v : Buf}
    {held pins : Fin NBUF → Nat} (hL : c.Listed) (hbuf : c.buf = (s.cache.setBuf b v).buf)
    (hb : v.refcnt.toNat = held b + pins b)
    (hrest : ∀ b', b' ≠ b → held b' + pins b' = s.held b' + s.pins b')
    (hv : (v.dev = (s.cache.buf b).dev ∧ v.blockno = (s.cache.buf b).blockno) ∨
      ∀ b', b' ≠ b → ¬((s.cache.buf b').dev = v.dev ∧ (s.cache.buf b').blockno = v.blockno)) :
    (⟨c, held, pins⟩ : BioSys).Inv := by
  refine ⟨hL, fun b' => ?_, ?_⟩
  · show (c.buf b').refcnt.toNat = _
    rw [hbuf]
    by_cases hb' : b' = b
    · subst hb'
      rw [setBuf_self, hb]
    · rw [setBuf_of_ne _ _ hb', hs.refcnt b', hrest b' hb']
  · have hl := hs.labelled.setBuf hv
    intro b₁ b₂
    show (c.buf b₁).dev ≠ 0 → (c.buf b₁).dev = (c.buf b₂).dev →
      (c.buf b₁).blockno = (c.buf b₂).blockno → b₁ = b₂
    rw [hbuf]
    exact hl b₁ b₂

theorem update_add_of_ne {f g : Fin NBUF → Nat} {b b' : Fin NBUF} (h : b' ≠ b) (v : Nat) :
    Function.update f b v b' + g b' = f b' + g b' := by
  rw [Function.update_of_ne h]

/-- A `bget` that returns from a state with room keeps the invariant, the
    caller now holding the buffer. -/
theorem BioSys.Inv.bget (hs : s.Inv) (hroom : s.Room) {dev blockno : UInt32} {b : Fin NBUF}
    {c : BCache} (hrun : (bget dev blockno).run s.cache = .ok (b, c)) :
    (⟨c, Function.update s.held b (s.held b + 1), s.pins⟩ : BioSys).Inv := by
  rcases bget_cases hs.listed dev blockno with ⟨b', -, h'⟩ | ⟨hmiss, b', h0, h'⟩ | ⟨-, -, h'⟩
  · -- a hit: one more reference to the cached buffer
    obtain ⟨rfl, rfl⟩ := Prod.mk.inj (Except.ok.inj (h'.symm.trans hrun))
    refine hs.of_buf (hs.listed.setBuf _ _) rfl ?_ (fun b' hb' => update_add_of_ne hb' _) (.inl ⟨rfl, rfl⟩)
    rw [toNat_add_one_of_lt (by rw [hs.refcnt]; exact hroom b'), hs.refcnt, Function.update_self]
    omega
  · -- a recycled buffer: it had no reference, and its new label is on no other
    obtain ⟨rfl, rfl⟩ := Prod.mk.inj (Except.ok.inj (h'.symm.trans hrun))
    have hzero := hs.refcnt b'
    rw [h0, UInt32.toNat_zero] at hzero
    refine hs.of_buf (hs.listed.setBuf _ _) rfl ?_ (fun b' hb' => update_add_of_ne hb' _) (.inr ?_)
    · show (1 : UInt32).toNat = _
      rw [Function.update_self, UInt32.toNat_one]
      omega
    · intro b₂ _ ⟨hd, hn⟩
      have hm := hmiss b₂
      simp only [cached, Bool.and_eq_false_iff, beq_eq_false_iff_ne] at hm
      exact hm.elim (· hd) (· hn)
  · exact absurd (h'.symm.trans hrun) (by simp)

/-- Marking a buffer valid keeps the invariant. -/
theorem BioSys.Inv.markValid (hs : s.Inv) (b : Fin NBUF) :
    (⟨s.cache.setBuf b { s.cache.buf b with valid := true }, s.held, s.pins⟩ : BioSys).Inv :=
  hs.of_buf (hs.listed.setBuf _ _) rfl (hs.refcnt b) (fun _ _ => rfl) (.inl ⟨rfl, rfl⟩)

theorem BioSys.getStep_next {m : BioM (Fin NBUF)} {dev : UInt32} {s' : BioSys}
    (h : s.getStep m dev = .next s') :
    s.Room ∧ ∃ b c, m.run s.cache = .ok (b, c) ∧
      s' = ⟨c, Function.update s.held b (s.held b + 1), s.pins⟩ := by
  unfold BioSys.getStep at h
  split at h
  · cases h
  · next hguard =>
      split at h
      · next b c hrun =>
          cases h
          exact ⟨by simpa using (not_or.mp hguard).2, b, c, hrun, rfl⟩
      · cases h

/-- **STEP**: every call keeps the invariant. -/
theorem bioStep_inv {s' : BioSys} {a : BioAct} (hs : s.Inv) (h : bioStep s a = .next s') : s'.Inv := by
  cases a with
  | bget dev blockno =>
      obtain ⟨hroom, b, c, hrun, rfl⟩ := BioSys.getStep_next h
      exact hs.bget hroom hrun
  | bread dev blockno =>
      obtain ⟨hroom, b, c, hrun, rfl⟩ := BioSys.getStep_next h
      -- `bread` is `bget` and then marks the buffer valid
      rcases hget : (Xv6.Fs.bget dev blockno).run s.cache with e | ⟨b', c'⟩
      · rw [bread_run_error hget] at hrun
        cases hrun
      · rw [bread_run hget] at hrun
        obtain ⟨rfl, rfl⟩ := Prod.mk.inj (Except.ok.inj hrun)
        exact (hs.bget hroom hget).markValid _
  | brelse b =>
      simp only [bioStep] at h
      split at h
      · cases h
      · next hheld =>
          cases h
          refine hs.of_buf (hs.listed.brelse b) (brelse_buf _ _) ?_
            (fun b' hb' => update_add_of_ne hb' _) (.inl ⟨rfl, rfl⟩)
          rw [toNat_sub_one_of_ne (by rw [hs.refcnt]; omega), hs.refcnt, Function.update_self]
          omega
  | bpin b =>
      simp only [bioStep] at h
      split at h
      · next hroom =>
          cases h
          refine hs.of_buf (hs.listed.setBuf _ _) rfl ?_ (fun b' hb' => ?_) (.inl ⟨rfl, rfl⟩)
          · rw [toNat_add_one_of_lt (by rw [hs.refcnt]; exact hroom b), hs.refcnt, Function.update_self]
            omega
          · rw [Function.update_of_ne hb']
      · cases h
  | bunpin b =>
      simp only [bioStep] at h
      split at h
      · cases h
      · next hpins =>
          cases h
          refine hs.of_buf (hs.listed.setBuf _ _) rfl ?_ (fun b' hb' => ?_) (.inl ⟨rfl, rfl⟩)
          · rw [toNat_sub_one_of_ne (by rw [hs.refcnt]; omega), hs.refcnt, Function.update_self]
            omega
          · rw [Function.update_of_ne hb']

theorem bioInit_inv : bioInit.Inv := by
  refine ⟨binit_listed bcacheZero, fun _ => rfl, ?_⟩
  intro b _ hdev
  exact absurd rfl hdev

end Steps

theorem add_one_ne_zero_of_lt {r : UInt32} (h : r.toNat + 1 < 2 ^ 32) : r + 1 ≠ 0 := by
  intro he
  have ht := congrArg UInt32.toNat he
  rw [toNat_add_one_of_lt h, UInt32.toNat_zero] at ht
  omega

/-- **BUFFER CACHE**: in every run of callers that release only buffers
    they got and unpin only buffers they pinned, the list through
    `bcache.head` holds each buffer exactly once, with `next` and `prev`
    undoing each other; no two buffers carry one label with `dev != 0`;
    and while every buffer has room for one more reference, `bget`
    returns a referenced buffer with the label asked for, taken from a
    buffer that had it or had no reference, the others untouched, or
    panics when every buffer is referenced. -/
theorem bcache_lru_labels {s : BioSys} (h : Reachable bioInit bioStep s) :
    (∃ l, s.cache.links.Ring .head l ∧ (Node.head :: l).Nodup ∧ ∀ b, Node.buf b ∈ l) ∧
    (∀ x, s.cache.links.prev (s.cache.links.next x) = x ∧
      s.cache.links.next (s.cache.links.prev x) = x) ∧
    (∀ b b', (s.cache.buf b).dev ≠ 0 → (s.cache.buf b).dev = (s.cache.buf b').dev →
      (s.cache.buf b).blockno = (s.cache.buf b').blockno → b = b') ∧
    (s.Room → ∀ dev blockno,
      (∃ b c, (bget dev blockno).run s.cache = .ok (b, c) ∧ (c.buf b).refcnt ≠ 0 ∧
        (c.buf b).dev = dev ∧ (c.buf b).blockno = blockno ∧
        ((s.cache.buf b).refcnt ≠ 0 → (s.cache.buf b).dev = dev ∧ (s.cache.buf b).blockno = blockno) ∧
        ∀ b', b' ≠ b → c.buf b' = s.cache.buf b') ∨
      ((bget dev blockno).run s.cache = .error "bget: no buffers" ∧
        ∀ b, (s.cache.buf b).refcnt ≠ 0)) := by
  have hs : s.Inv := Reachable.inv bioInit_inv (fun _ _ _ hs hstep => bioStep_inv hs hstep) h
  refine ⟨hs.listed, hs.listed.next_prev, hs.labelled, fun hroom dev blockno => ?_⟩
  rcases bget_cases hs.listed dev blockno with ⟨b, hc, hrun⟩ | ⟨-, b, h0, hrun⟩ | ⟨-, hall, hrun⟩
  · -- a hit: the buffer had the label, and one more reference fits
    simp only [cached, Bool.and_eq_true, beq_iff_eq] at hc
    refine .inl ⟨b, _, hrun, ?_, ?_, ?_, fun _ => hc, fun b' hb' => setBuf_of_ne _ _ hb'⟩ <;>
      rw [setBuf_self]
    · exact add_one_ne_zero_of_lt (by rw [hs.refcnt]; exact hroom b)
    · exact hc.1
    · exact hc.2
  · -- a recycled buffer had no reference
    refine .inl ⟨b, _, hrun, ?_, ?_, ?_, fun hne => absurd h0 hne, fun b' hb' => setBuf_of_ne _ _ hb'⟩ <;>
      rw [setBuf_self]
    show (1 : UInt32) ≠ 0
    decide
  · exact .inr ⟨hrun, hall⟩

set_option maxRecDepth 8192 in
theorem bcache_lru_labels_after_reuse :
    ∃ s, Reachable bioInit bioStep s ∧ s.held 0 = 1 ∧
      ∃ l, s.cache.links.Ring .head l ∧ (Node.head :: l).Nodup ∧ ∀ b, Node.buf b ∈ l := by
  have hrun : (replay bioStep bioInit [.bread 1 5, .brelse 0, .bget 1 5]).map (·.held 0) = some 1 := by
    decide
  obtain ⟨s, hs, hheld⟩ := Option.map_eq_some_iff.mp hrun
  have hreach := replay_reachable .init hs
  exact ⟨s, hreach, hheld, (bcache_lru_labels hreach).1⟩

set_option maxRecDepth 8192 in
/-- An unmatched `bunpin`: after `bread(1, 5)` and `brelse` the buffer has
    `refcnt == 0`; `bunpin` wraps it to `2^32 - 1`, and the next
    `bget(1, 5)` hits the buffer and wraps it to `0`, so that it returns a
    buffer with no reference, which the next miss recycles under its
    caller. -/
theorem bget_after_unmatched_bunpin :
    ∃ c, (bread 1 5).run (binit bcacheZero) = .ok (0, c) ∧
      ∃ c', (bget 1 5).run (bunpin (brelse c 0) 0) = .ok (0, c') ∧ (c'.buf 0).refcnt = 0 := by
  obtain ⟨⟨b, c⟩, h₁, rfl, h₂⟩ := exists_of_checkOk (e := (bread 1 5).run (binit bcacheZero))
    (P := fun r : Fin NBUF × BCache => r.1 = 0 ∧
      checkOk (fun r' : Fin NBUF × BCache => r'.1 = 0 ∧ (r'.2.buf 0).refcnt = 0)
        ((bget 1 5).run (bunpin (brelse r.2 0) 0)) = some true)
    (by decide)
  obtain ⟨⟨b', c'⟩, h₃, rfl, h0⟩ := exists_of_checkOk h₂
  exact ⟨c, h₁, c', h₃, h0⟩

end Xv6.Fs
