import Xv6.Lib.Machine
import Xv6.User.MallocLoop

/-! # The heap invariant of `umalloc.c`

    Over a `sbrk` that moves the break up on request (`SbrkGrows`), the
    free list and the blocks the caller holds keep `HeapInv` through any
    sequence of calls `malloc(n)` with `n ≤ 2^31 - 32` and `free` of a held
    block:

    * `HeapInv.alloc`, `HeapInv.morecore`, `HeapInv.malloc`: a returning
      `malloc` hands out a block from inside a free one, or grows the list
      by the new memory first, or returns `0` when `sbrk` fails;
    * `HeapInv.free`: `free` of a held block returns, on enough fuel, and
      puts the block back;
    * `umalloc_free_list_invariant`: the invariant in every state the calls
      reach (`heapStep`), from a first state with no free list. -/

namespace Xv6.User

open Xv6.Mem StateExcept

/-! ## The heap invariant -/

/-- A block handed out by `malloc`, with the bytes it was asked for. -/
structure Alloc where
  blk : Blk
  nbytes : Nat
deriving DecidableEq, Repr

/-- A request the claim allows fits in a `uint` of headers, and covers the
    header and the bytes. -/
theorem nunits_bounds {nbytes : Nat} (h : nbytes ≤ 2 ^ 31 - 32) :
    0 < nunits nbytes ∧ HDRSIZE + nbytes ≤ HDRSIZE * nunits nbytes ∧ nunits nbytes * HDRSIZE < 2 ^ 31 := by
  simp only [nunits, HDRSIZE]
  omega

section Inv

variable {σ : Type}

/-- What the allocator needs of `sbrk`, whose break `brk` reads: a
    request for `n > 0` bytes that returns either fails with `SBRK_ERROR`,
    leaving the break, or returns the old break and moves it up by `n`,
    staying below `2^31`. -/
def SbrkGrows (sbrk : Int32 → StateT σ (Except String) Nat) (brk : σ → Nat) : Prop :=
  ∀ (n : Int32) (s s' : σ) (a : Nat), 0 < n.toInt → (sbrk n).run s = .ok (a, s') →
    (a = SBRK_ERROR ∧ brk s' = brk s) ∨ (a = brk s ∧ brk s' = brk s + n.toInt.toNat ∧ brk s' < 2 ^ 31)

/-- **HEAP INVARIANT** over the memory `sbrk` gave from `start` up: once
    `malloc` has set up `base`, the free list `fl` is the ring from `base`
    through its blocks in address order and back, `freep` on it; the free
    blocks are ordered with gaps between them; every free and every live
    block lies in `[start, brk)`; and every live block keeps its size in
    its header, holds its header and the bytes asked for, and shares no
    byte with another live block or a free one. -/
structure HeapInv (base start : Nat) (brk : σ → Nat) (u : UState σ) (fl : List Blk) (live : List Alloc) :
    Prop where
  ring : u.freep ≠ 0 → Ring u base fl ∧ u.freep ∈ base :: fl.map Blk.addr
  empty : u.freep = 0 → fl = [] ∧ live = []
  sorted : Sorted base fl
  start_le : start ≤ brk u.sys
  brk_lt : brk u.sys < 2 ^ 31
  inside : ∀ c ∈ fl ++ live.map Alloc.blk, start ≤ c.addr ∧ c.lim ≤ brk u.sys
  header : ∀ a ∈ live, (u.hdr a.blk.addr).size = a.blk.size
  covers : ∀ a ∈ live, hadd a.blk.addr 1 + a.nbytes ≤ a.blk.lim
  free_apart : ∀ a ∈ live, ∀ c ∈ fl, a.blk.Apart c
  live_apart : live.Pairwise fun a b => a.blk.Apart b.blk

/-- The allocations after `malloc(nbytes)` returned `p`: none more for
    `0`, else the block whose header is just below `p`, of the size that
    header gives. -/
def record (u : UState σ) (p nbytes : Nat) (live : List Alloc) : List Alloc :=
  if p = 0 then live else ⟨⟨p - HDRSIZE, (u.hdr (p - HDRSIZE)).size⟩, nbytes⟩ :: live

variable {base start : Nat} {brk : σ → Nat} {u u' : UState σ} {fl fl' : List Blk} {live : List Alloc}

theorem HeapInv.live_pos (hinv : HeapInv base start brk u fl live) {a : Alloc} (ha : a ∈ live) :
    0 < a.blk.size := by
  have := hinv.covers a ha
  simp only [Blk.lim, hadd, HDRSIZE] at this
  omega

/-- A live block's header is no node of the ring. -/
theorem HeapInv.live_not_node (hinv : HeapInv base start brk u fl live) (hbs : base < start) {a : Alloc}
    (ha : a ∈ live) : a.blk.addr ∉ base :: fl.map Blk.addr := by
  have hin := hinv.inside a.blk (List.mem_append_right _ (List.mem_map_of_mem ha))
  intro hmem
  rcases List.mem_cons.mp hmem with h | h
  · omega
  · obtain ⟨c, hc, hca⟩ := List.mem_map.mp h
    have := Blk.addr_lt_lim (hinv.live_pos ha)
    have := Blk.addr_lt_lim (hinv.sorted.pos c hc)
    rcases hinv.free_apart a ha c hc with h' | h' <;> omega

/-- **TAKE**: a block `blk` handed out from inside a free block, the free
    list now `fl'` with every block inside an old one and apart from
    `blk`, and no live header touched: the invariant holds with `blk`
    live. -/
theorem HeapInv.take (hinv : HeapInv base start brk u fl live) (hbase : 0 < base) (hsys : u'.sys = u.sys)
    (hr : Ring u' base fl') (hfreep : u'.freep ∈ base :: fl'.map Blk.addr) (hs : Sorted base fl')
    (hsub : ∀ c' ∈ fl', ∃ c ∈ fl, c.addr ≤ c'.addr ∧ c'.lim ≤ c.lim) {blk : Blk} {nbytes : Nat}
    (hblk : ∃ c ∈ fl, c.addr ≤ blk.addr ∧ blk.lim ≤ c.lim) (hap : ∀ c' ∈ fl', blk.Apart c')
    (hsize : (u'.hdr blk.addr).size = blk.size) (hcov : hadd blk.addr 1 + nbytes ≤ blk.lim)
    (hkeep : ∀ a ∈ live, u'.hdr a.blk.addr = u.hdr a.blk.addr) :
    HeapInv base start brk u' fl' (⟨blk, nbytes⟩ :: live) := by
  obtain ⟨c, hc, hlo, hhi⟩ := hblk
  have hfree : ∀ x ∈ base :: fl'.map Blk.addr, x ≠ 0 := by
    intro x hx
    rcases List.mem_cons.mp hx with rfl | hx
    · omega
    · obtain ⟨d, hd, rfl⟩ := List.mem_map.mp hx
      have := hs.above d hd
      omega
  have hcin := hinv.inside c (List.mem_append_left _ hc)
  refine ⟨fun _ => ⟨hr, hfreep⟩, fun h => absurd h (hfree _ hfreep), hs, hsys ▸ hinv.start_le,
    hsys ▸ hinv.brk_lt, fun d hd => ?_, fun a ha => ?_, fun a ha => ?_, fun a ha d hd => ?_, ?_⟩
  · rw [hsys]
    rcases List.mem_append.mp hd with hd | hd
    · obtain ⟨c₀, hc₀, h₁, h₂⟩ := hsub d hd
      have := hinv.inside c₀ (List.mem_append_left _ hc₀)
      omega
    · rcases List.mem_cons.mp hd with rfl | hd
      · omega
      · exact hinv.inside d (List.mem_append_right _ hd)
  · rcases List.mem_cons.mp ha with rfl | ha
    · exact hsize
    · rw [hkeep a ha]
      exact hinv.header a ha
  · rcases List.mem_cons.mp ha with rfl | ha
    · exact hcov
    · exact hinv.covers a ha
  · rcases List.mem_cons.mp ha with rfl | ha
    · exact hap d hd
    · obtain ⟨c₀, hc₀, h₁, h₂⟩ := hsub d hd
      exact (hinv.free_apart a ha c₀ hc₀).mono h₁ h₂
  · refine List.Pairwise.cons (fun a ha => ?_) hinv.live_apart
    exact ((hinv.free_apart a ha c hc).mono hlo hhi).symm

/-- What `malloc` returns for a block whose header is at `a`. -/
theorem record_of_hadd (a nbytes : Nat) (live : List Alloc) :
    record u' (hadd a 1) nbytes live = ⟨⟨a, (u'.hdr a).size⟩, nbytes⟩ :: live := by
  have h₁ : hadd a 1 ≠ 0 := by simp [hadd, HDRSIZE]
  have h₂ : hadd a 1 - HDRSIZE = a := by simp [hadd]
  simp only [record, if_neg h₁, h₂]

end Inv

/-! ## `malloc` keeps the invariant -/

section Malloc

variable {σ : Type} {sbrk : Int32 → StateT σ (Except String) Nat} {fuel base start : Nat} {brk : σ → Nat}
  {u u' : UState σ} {fl : List Blk} {live : List Alloc} {nbytes n p : Nat}

/-- **ALLOCATE**: with a free block that fits, the loop from `freep`
    hands out a block on enough rounds, and keeps the invariant. -/
theorem HeapInv.alloc (hinv : HeapInv base start brk u fl live) (hbase : 0 < base) (hbs : base < start)
    (hne : u.freep ≠ 0) (hn : nbytes ≤ 2 ^ 31 - 32) (hfit : ∃ c ∈ fl, nunits nbytes ≤ c.size)
    (hfl : fl.length < n)
    (hrun : (mallocLoop sbrk fuel (nunits nbytes) n u.freep (u.hdr u.freep).ptr).run u = .ok (p, u')) :
    ∃ fl', HeapInv base start brk u' fl' (record u' p nbytes live) := by
  obtain ⟨hr, hfreep⟩ := hinv.ring hne
  have hs := hinv.sorted
  obtain ⟨hpos, hcov, -⟩ := nunits_bounds hn
  obtain ⟨L, c, H, m, hsplit, hcs, heq⟩ := mallocLoop_fit sbrk fuel hr hs hfreep hpos hfit hfl
  rw [heq] at hrun
  have hcfl : c ∈ fl := by rw [hsplit]; simp
  have hLH : ∀ d ∈ L ++ H, d ∈ fl := fun d hd => by
    rw [hsplit]
    rcases List.mem_append.mp hd with hd | hd <;> simp [hd]
  -- `c` is apart from every other free block
  have hcap : ∀ d ∈ L ++ H, c.Apart d := by
    intro d hd
    rcases List.mem_append.mp hd with hd | hd
    · exact ((hs.gap_of_split hsplit).1 d hd).apart.symm
    · exact ((hs.gap_of_split hsplit).2 d hd).apart
  have hnode : ∀ a ∈ live, a.blk.addr ∉ base :: fl.map Blk.addr := fun a ha => hinv.live_not_node hbs ha
  have hwnode : (L.map Blk.addr).getLastD base ∈ base :: fl.map Blk.addr := by
    rw [hsplit, List.map_append]
    exact List.cons_subset_cons base (List.subset_append_left _ _) List.getLastD_mem_cons
  rcases Nat.eq_or_lt_of_le hcs with hc | hc
  · -- the block fits exactly and leaves the list whole
    obtain ⟨u₀, hrun₀, hsys, hr', hfreep', hframe⟩ := take_exact sbrk fuel (m := m) hr hs hsplit hc.symm
    rw [hrun₀] at hrun
    obtain ⟨rfl, rfl⟩ := Prod.mk.inj (Except.ok.inj hrun)
    have hsize : (u₀.hdr c.addr).size = c.size := by
      rw [hframe c.addr fun h => (below_of_split hs hsplit _ List.getLastD_mem_cons).2.ne h.symm]
      exact hr.sizes c hcfl
    refine ⟨L ++ H, ?_⟩
    rw [record_of_hadd, hsize]
    refine hinv.take hbase hsys hr' hfreep'
      (hs.sublist (by rw [hsplit]; exact List.Sublist.append_left (List.sublist_cons_self c H) L))
      (fun d hd => ⟨d, hLH d hd, Nat.le_refl _, Nat.le_refl _⟩) ⟨c, hcfl, Nat.le_refl _, Nat.le_refl _⟩ hcap
      hsize ?_ fun a ha => hframe _ fun h => hnode a ha (h ▸ hwnode)
    simp only [Blk.lim, hadd, HDRSIZE] at hcov ⊢
    omega
  · -- the block is cut, and its tail handed out
    obtain ⟨u₀, hrun₀, hsys, hr', hfreep', hsize, hframe⟩ := take_split sbrk fuel (m := m) hr hs hsplit hpos hc
    rw [hrun₀] at hrun
    obtain ⟨rfl, rfl⟩ := Prod.mk.inj (Except.ok.inj hrun)
    have hlim := hs.below c hcfl
    have htc : c.addr < hadd c.addr (c.size - nunits nbytes) ∧
        hadd (hadd c.addr (c.size - nunits nbytes)) (nunits nbytes) = c.lim := by
      simp only [Blk.lim, hadd, HDRSIZE] at hlim ⊢
      omega
    set t := hadd c.addr (c.size - nunits nbytes) with ht
    have hin : c.addr ≤ t ∧ (⟨t, nunits nbytes⟩ : Blk).lim ≤ c.lim := ⟨Nat.le_of_lt htc.1, Nat.le_of_eq htc.2⟩
    refine ⟨L ++ ⟨c.addr, c.size - nunits nbytes⟩ :: H, ?_⟩
    rw [record_of_hadd, hsize]
    refine hinv.take hbase hsys hr' hfreep'
      (hs.shrink hsplit rfl (Nat.sub_pos_of_lt hc) (by simp only [Blk.lim, hadd, HDRSIZE]; omega)) (fun d hd => ?_)
      ⟨c, hcfl, hin⟩ (fun d hd => ?_) hsize ?_ fun a ha => ?_
    · -- the head of `c` stays, cut down
      rcases List.mem_append.mp hd with hd | hd
      · exact ⟨d, hLH d (List.mem_append_left _ hd), Nat.le_refl _, Nat.le_refl _⟩
      · rcases List.mem_cons.mp hd with rfl | hd
        · exact ⟨c, hcfl, Nat.le_refl _, by simp only [Blk.lim, hadd, HDRSIZE]; omega⟩
        · exact ⟨d, hLH d (List.mem_append_right _ hd), Nat.le_refl _, Nat.le_refl _⟩
    · -- the tail touches the head, and lies inside `c`, apart from the rest
      rcases List.mem_append.mp hd with hd | hd
      · exact (hcap d (List.mem_append_left _ hd)).symm.mono hin.1 hin.2 |>.symm
      · rcases List.mem_cons.mp hd with rfl | hd
        · exact .inr (Nat.le_of_eq rfl)
        · exact (hcap d (List.mem_append_right _ hd)).symm.mono hin.1 hin.2 |>.symm
    · simp only [Blk.lim, hadd, HDRSIZE] at hcov ⊢
      omega
    · have hne : a.blk.addr ≠ c.addr := fun h => hnode a ha (h ▸ List.mem_cons_of_mem _ (List.mem_map_of_mem hcfl))
      have := hinv.live_pos ha
      have hap := hinv.free_apart a ha c hcfl
      refine hframe _ hne fun h => ?_
      simp only [Blk.Apart, Blk.lim, hadd, HDRSIZE] at hap htc
      omega

/-- The kernel's part of the state changes, the break staying. -/
theorem HeapInv.with_sys {sys : σ} (hinv : HeapInv base start brk u fl live) (h : brk sys = brk u.sys) :
    HeapInv base start brk { u with sys } fl live :=
  ⟨fun hne => ⟨(hinv.ring hne).1.frame fun _ _ => rfl, (hinv.ring hne).2⟩, hinv.empty, hinv.sorted, h ▸ hinv.start_le, h ▸ hinv.brk_lt, h ▸ hinv.inside, hinv.header,
    hinv.covers, hinv.free_apart, hinv.live_apart⟩

/-- **MORE CORE**: `morecore` keeps the invariant.  On `SBRK_ERROR` it
    returns `0`; otherwise the new block at the old break goes into the
    free list, which then has a block that fits and one block more at most. -/
theorem HeapInv.morecore (hinv : HeapInv base start brk u fl live) (hbase : 0 < base) (hbs : base < start)
    (hsbrk : SbrkGrows sbrk brk)
    (hne : u.freep ≠ 0) {nu q : Nat} (hnu : 0 < nu) (hnu₁ : nu * HDRSIZE < 2 ^ 31) (hfuel : fl.length < fuel)
    (h : (morecore sbrk fuel nu).run u = .ok (q, u')) :
    (q = 0 ∧ HeapInv base start brk u' fl live) ∨
      (q = u'.freep ∧ q ≠ 0 ∧ ∃ fl', HeapInv base start brk u' fl' live ∧ fl'.length ≤ fl.length + 1 ∧
        ∃ c ∈ fl', nu ≤ c.size) := by
  obtain ⟨hr, hfreep⟩ := hinv.ring hne
  obtain ⟨ap, sys, hs, hres⟩ := morecore_ok h
  obtain ⟨nu₁, hdef⟩ : ∃ nu₁, nu₁ = if nu < 4096 then 4096 else nu := ⟨_, rfl⟩
  rw [← hdef] at hs hres
  have hbig : 4096 ≤ nu₁ ∧ nu ≤ nu₁ ∧ nu₁ * HDRSIZE < 2 ^ 31 := by
    rw [hdef]
    simp only [HDRSIZE] at hnu₁ ⊢
    split <;> omega
  have hreq : (Int32.ofNat (nu₁ * HDRSIZE)).toInt = ((nu₁ * HDRSIZE : Nat) : Int) := toInt_ofNat_of_lt hbig.2.2
  have hgrow : (0 : Int) < (Int32.ofNat (nu₁ * HDRSIZE)).toInt := by
    rw [hreq]
    simp only [HDRSIZE]
    omega
  rcases hsbrk _ u.sys sys ap hgrow hs with ⟨herr, hbrk⟩ | ⟨rfl, hbrk, hlt⟩
  · -- `sbrk` failed: nothing changes but the kernel's state
    rcases hres with ⟨-, rfl, rfl⟩ | ⟨hap, -⟩
    · exact .inl ⟨rfl, hinv.with_sys hbrk⟩
    · exact absurd herr hap
  rcases hres with ⟨herr, -⟩ | ⟨-, rfl, hfree⟩
  · have := hinv.brk_lt
    exact absurd herr (by simp only [SBRK_ERROR]; omega)
  -- the new block starts at the old break and ends at the new one
  have hblim : (⟨brk u.sys, nu₁⟩ : Blk).lim = brk sys := by
    rw [hbrk, hreq, Int.toNat_natCast]
    simp only [Blk.lim, hadd, HDRSIZE]
    omega
  have hnode : ∀ x ∈ base :: fl.map Blk.addr, x < brk u.sys := by
    intro x hx
    rcases List.mem_cons.mp hx with rfl | hx
    · have := hinv.start_le
      omega
    · obtain ⟨c, hc, rfl⟩ := List.mem_map.mp hx
      have := hinv.inside c (List.mem_append_left _ hc)
      have := Blk.addr_lt_lim (hinv.sorted.pos c hc)
      omega
  have hlive : ∀ a ∈ live, a.blk.addr < brk u.sys := by
    intro a ha
    have := hinv.inside a.blk (List.mem_append_right _ (List.mem_map_of_mem ha))
    have := Blk.addr_lt_lim (hinv.live_pos ha)
    omega
  -- the state `free` starts from: the new block's header written
  obtain ⟨u₀, hu₀⟩ : ∃ u₀ : UState σ, u₀ =
      { u with sys, hdr := Function.update u.hdr (brk u.sys) { u.hdr (brk u.sys) with size := nu₁ % 2 ^ 32 } } :=
    ⟨_, rfl⟩
  rw [← hu₀] at hfree
  have hat : ∀ x, x < brk u.sys → u₀.hdr x = u.hdr x := fun x hx => by
    rw [hu₀]
    exact Function.update_of_ne (Nat.ne_of_lt hx) _ _
  have hsize : (u₀.hdr (brk u.sys)).size = nu₁ := by
    rw [hu₀]
    simp only [Function.update_self]
    exact Nat.mod_eq_of_lt (by simp only [HDRSIZE] at hbig; omega)
  obtain ⟨fl', u₂, hrun, hsys, hr', hfreep', hins, hframe⟩ := free_spec (b := ⟨brk u.sys, nu₁⟩)
    (u := u₀) (hr.frame fun x hx => hat x (hnode x hx)) hinv.sorted (by rw [hu₀]; exact hfreep) hfuel
    (by simp only; omega) (by have := hinv.start_le; simp only; omega) (by rw [hblim]; exact hlt)
    (fun c hc => .inr (hinv.inside c (List.mem_append_left _ hc)).2) hsize
  rw [hrun] at hfree
  obtain rfl : u₂ = u' := (Prod.mk.inj (Except.ok.inj hfree)).2
  have hbrk₂ : brk u₂.sys = brk sys := by rw [hsys, hu₀]
  have hpos : ∀ x ∈ base :: fl'.map Blk.addr, x ≠ 0 := by
    intro x hx
    rcases List.mem_cons.mp hx with rfl | hx
    · omega
    · obtain ⟨d, hd, rfl⟩ := List.mem_map.mp hx
      have := hins.sorted.above d hd
      omega
  refine .inr ⟨rfl, hpos _ hfreep', fl', ⟨fun _ => ⟨hr', hfreep'⟩, fun h => absurd h (hpos _ hfreep'), hins.sorted,
    ?_, ?_, fun d hd => ?_, fun a ha => ?_, hinv.covers, fun a ha c hc => ?_, hinv.live_apart⟩, hins.length, ?_⟩
  · have := hinv.start_le
    rw [hbrk₂, ← hblim]
    simp only [Blk.lim, hadd]
    omega
  · rw [hbrk₂]
    exact hlt
  · have hgrow' : brk u.sys ≤ brk u₂.sys := by
      rw [hbrk₂, ← hblim]
      simp only [Blk.lim, hadd]
      omega
    rcases List.mem_append.mp hd with hd | hd
    · -- a free block lies between blocks that did
      obtain ⟨c₀, hc₀, c₁, hc₁, h₀, h₁⟩ := hins.bounds d hd
      have hlo : start ≤ c₀.addr := by
        rcases List.mem_cons.mp hc₀ with rfl | hc₀
        · exact hinv.start_le
        · exact (hinv.inside c₀ (List.mem_append_left _ hc₀)).1
      have hhi : c₁.lim ≤ brk u₂.sys := by
        rcases List.mem_cons.mp hc₁ with rfl | hc₁
        · rw [hblim, hbrk₂]
        · exact Nat.le_trans (hinv.inside c₁ (List.mem_append_left _ hc₁)).2 hgrow'
      omega
    · have := hinv.inside d (List.mem_append_right _ hd)
      omega
  · -- a live header is off the ring and below the new block
    rw [hframe _ (hinv.live_not_node hbs ha) (Nat.ne_of_lt (hlive a ha)), hat _ (hlive a ha)]
    exact hinv.header a ha
  · refine hins.apart a.blk (hinv.live_pos ha) (fun c hc => ?_) c hc
    rcases List.mem_cons.mp hc with rfl | hc
    · exact .inl (hinv.inside a.blk (List.mem_append_right _ (List.mem_map_of_mem ha))).2
    · exact hinv.free_apart a ha c hc
  · -- the block that holds the new one fits
    obtain ⟨c, hc, h₀, h₁⟩ := hins.holds
    refine ⟨c, hc, ?_⟩
    simp only [Blk.lim, hadd, HDRSIZE] at h₀ h₁
    omega

/-- **MALLOC LOOP**: from `freep`, on more rounds than twice the blocks
    of the list and more rounds of `free`'s scan than it has blocks, a
    returning run of the loop keeps the invariant: a block that fits is
    handed out, and with none `morecore` adds one or returns `0`. -/
theorem HeapInv.mallocLoop (hinv : HeapInv base start brk u fl live) (hbase : 0 < base) (hbs : base < start)
    (hsbrk : SbrkGrows sbrk brk) (hne : u.freep ≠ 0) (hn : nbytes ≤ 2 ^ 31 - 32) (hloop : 2 * fl.length + 2 < n)
    (hfuel : fl.length < fuel)
    (hrun : (mallocLoop sbrk fuel (nunits nbytes) n u.freep (u.hdr u.freep).ptr).run u = .ok (p, u')) :
    ∃ fl', HeapInv base start brk u' fl' (record u' p nbytes live) := by
  by_cases hfit : ∃ c ∈ fl, nunits nbytes ≤ c.size
  · exact hinv.alloc hbase hbs hne hn hfit (by omega) hrun
  have hno : ∀ c ∈ fl, c.size < nunits nbytes := fun c hc => Nat.lt_of_not_le fun h => hfit ⟨c, hc, h⟩
  obtain ⟨hr, hfreep⟩ := hinv.ring hne
  obtain ⟨hpos, -, hnu⟩ := nunits_bounds hn
  -- once round the ring, and back at `freep`
  obtain ⟨k, rfl⟩ : ∃ k, n = k + 1 + fl.length := ⟨n - fl.length - 1, by omega⟩
  obtain ⟨w, hw⟩ := mallocLoop_nofit sbrk fuel hr hinv.sorted hfreep hpos hno (k + 1)
  rw [hw] at hrun
  have hsmall : (u.hdr u.freep).size < nunits nbytes := by
    rcases List.mem_cons.mp hfreep with h | h
    · rw [h, hr.base_size]
      exact hpos
    · obtain ⟨c, hc, hca⟩ := List.mem_map.mp h
      rw [← hca, hr.sizes c hc]
      exact hno c hc
  obtain ⟨q, u₁, hm, hres⟩ := mallocLoop_more_ok hsmall rfl hrun
  rcases hinv.morecore hbase hbs hsbrk hne hpos hnu hfuel hm with ⟨rfl, hinv₁⟩ | ⟨hq, hq0, fl', hinv₁, hlen, hfit'⟩
  · -- `sbrk` failed and `malloc` returns `0`
    rcases hres with ⟨-, rfl, rfl⟩ | ⟨hq, -⟩
    · refine ⟨fl, ?_⟩
      rw [record, if_pos rfl]
      exact hinv₁
    · exact absurd rfl hq
  · rcases hres with ⟨hq', -⟩ | ⟨-, hrun'⟩
    · exact absurd hq' hq0
    · rw [hq] at hrun' hq0
      exact hinv₁.alloc hbase hbs hq0 hn hfit' (by omega) hrun'

/-- **MALLOC**: a returning run of `malloc(nbytes)` for `nbytes` the claim
    allows, on more rounds than twice the blocks of the free list, keeps
    the invariant; the first call sets up `base` as the ring of itself. -/
theorem HeapInv.malloc (hinv : HeapInv base start brk u fl live) (hbase : 0 < base) (hbs : base < start)
    (hsbrk : SbrkGrows sbrk brk) (hn : nbytes ≤ 2 ^ 31 - 32) (hfuel : 2 * fl.length + 2 < fuel)
    (hrun : (malloc sbrk base fuel nbytes).run u = .ok (p, u')) :
    ∃ fl', HeapInv base start brk u' fl' (record u' p nbytes live) := by
  by_cases hne : u.freep = 0
  · obtain ⟨rfl, rfl⟩ := hinv.empty hne
    rw [malloc_run_of_first hne allPerm_rw] at hrun
    -- `base` alone, of size `0`, pointing at itself
    have hinv₀ : HeapInv base start brk { u with hdr := Function.update u.hdr base ⟨base, 0⟩, freep := base } [] [] :=
      ⟨fun _ => ⟨⟨by simp [Linked], by simp, by simp⟩, List.mem_cons_self⟩, fun h => absurd h (Nat.ne_of_gt hbase),
        ⟨.nil, by simp, by simp, by simp⟩, hinv.start_le, hinv.brk_lt, by simp, by simp, by simp, by simp, .nil⟩
    exact hinv₀.mallocLoop hbase hbs hsbrk (Nat.ne_of_gt hbase) hn hfuel
      (by simp only [List.length_nil] at hfuel ⊢; omega : ([] : List Blk).length < fuel)
      (by dsimp only; rw [Function.update_self]; exact hrun)
  · rw [malloc_run_of_ne hne] at hrun
    exact hinv.mallocLoop hbase hbs hsbrk hne hn hfuel (by omega) hrun

/-- **FREE**: `free` of a live block, on more rounds than the free list
    has blocks, returns, puts the block back and keeps the invariant with
    the block no longer live. -/
theorem HeapInv.free (hinv : HeapInv base start brk u fl live) (hbase : 0 < base) (hbs : base < start) {a : Alloc}
    (ha : a ∈ live) (hfuel : fl.length < fuel) :
    ∃ fl' u', (User.free fuel (hadd a.blk.addr 1)).run u = .ok ((), u') ∧
      HeapInv base start brk u' fl' (live.erase a) := by
  have hne : u.freep ≠ 0 := fun h => by
    rw [(hinv.empty h).2] at ha
    exact absurd ha List.not_mem_nil
  obtain ⟨hr, hfreep⟩ := hinv.ring hne
  have hin := hinv.inside a.blk (List.mem_append_right _ (List.mem_map_of_mem ha))
  have hpos := hinv.live_pos ha
  obtain ⟨fl', u', hrun, hsys, hr', hfreep', hins, hframe⟩ := free_spec hr hinv.sorted hfreep hfuel
    hpos (by omega) (Nat.lt_of_le_of_lt hin.2 hinv.brk_lt) (hinv.free_apart a ha) (hinv.header a ha)
  -- the other live blocks are apart from `a`: none is `a` again
  have hnd : live.Nodup := hinv.live_apart.imp_of_mem fun {x y} hx _ hxy hne => by
    subst hne
    have := hinv.live_pos hx
    simp only [Blk.Apart, Blk.lim, hadd, HDRSIZE] at hxy
    omega
  have hother : ∀ b ∈ live.erase a, b ∈ live ∧ b.blk.Apart a.blk := by
    intro b hb
    obtain ⟨hba, hb'⟩ := (hnd.mem_erase_iff).mp hb
    have : Std.Symm fun x y : Alloc => x.blk.Apart y.blk := ⟨fun _ _ h => h.symm⟩
    exact ⟨hb', hinv.live_apart.forall hb' ha hba⟩
  have hpos' : ∀ x ∈ base :: fl'.map Blk.addr, x ≠ 0 := by
    intro x hx
    rcases List.mem_cons.mp hx with rfl | hx
    · omega
    · obtain ⟨d, hd, rfl⟩ := List.mem_map.mp hx
      have := hins.sorted.above d hd
      omega
  refine ⟨fl', u', hrun, fun _ => ⟨hr', hfreep'⟩, fun h => absurd h (hpos' _ hfreep'), hins.sorted,
    hsys ▸ hinv.start_le, hsys ▸ hinv.brk_lt, fun d hd => ?_, fun b hb => ?_, fun b hb => hinv.covers b (hother b hb).1,
    fun b hb c hc => ?_, hinv.live_apart.sublist (List.erase_sublist)⟩
  · rw [hsys]
    rcases List.mem_append.mp hd with hd | hd
    · -- a free block lies between blocks that did
      obtain ⟨c₀, hc₀, c₁, hc₁, h₀, h₁⟩ := hins.bounds d hd
      have hlo : start ≤ c₀.addr := by
        rcases List.mem_cons.mp hc₀ with rfl | hc₀
        · exact hin.1
        · exact (hinv.inside c₀ (List.mem_append_left _ hc₀)).1
      have hhi : c₁.lim ≤ brk u.sys := by
        rcases List.mem_cons.mp hc₁ with rfl | hc₁
        · exact hin.2
        · exact (hinv.inside c₁ (List.mem_append_left _ hc₁)).2
      omega
    · obtain ⟨b, hb, rfl⟩ := List.mem_map.mp hd
      exact hinv.inside b.blk (List.mem_append_right _ (List.mem_map_of_mem (hother b hb).1))
  · -- another live header is off the ring and off `a`
    obtain ⟨hb', hap⟩ := hother b hb
    have := hinv.live_pos hb'
    rw [hframe _ (hinv.live_not_node hbs hb') fun h => by
      simp only [Blk.Apart, Blk.lim, hadd, HDRSIZE] at hap
      omega]
    exact hinv.header b hb'
  · obtain ⟨hb', hap⟩ := hother b hb
    refine hins.apart b.blk (hinv.live_pos hb') (fun c hc => ?_) c hc
    rcases List.mem_cons.mp hc with rfl | hc
    · exact hap
    · exact hinv.free_apart b hb' c hc

end Malloc

/-! ## Any sequence of calls -/

/-- The allocator's memory, and the blocks its caller holds. -/
structure Heap (σ : Type) where
  u : UState σ
  live : List Alloc

/-- A call the caller makes, on `fuel` rounds: `malloc(nbytes)`, or
    `free` of the pointer `malloc` returned for a block it holds. -/
inductive Call where
  | malloc (nbytes fuel : Nat)
  | free (a : Alloc) (fuel : Nat)
deriving DecidableEq, Repr

section Calls

variable {σ : Type}

/-- One call: `malloc(n)` for `n ≤ 2^31 - 32`, and `free` only of a block
    held and not yet freed; a call that does not return fails. -/
def heapStep (sbrk : Int32 → StateT σ (Except String) Nat) (base : Nat) (h : Heap σ) :
    Call → Machine.Outcome (Heap σ)
  | .malloc nbytes fuel =>
      if nbytes ≤ 2 ^ 31 - 32 then
        match (malloc sbrk base fuel nbytes).run h.u with
        | .ok (p, u') => .next ⟨u', record u' p nbytes h.live⟩
        | .error msg => .panic msg
      else .blocked
  | .free a fuel =>
      if a ∈ h.live then
        match (free fuel (hadd a.blk.addr 1)).run h.u with
        | .ok (_, u') => .next ⟨u', h.live.erase a⟩
        | .error msg => .panic msg
      else .blocked

variable {sbrk : Int32 → StateT σ (Except String) Nat} {base start : Nat} {brk : σ → Nat}

/-- Every call that returns keeps the invariant: by fuel monotonicity its
    run is the one on enough fuel, which `HeapInv.malloc` and
    `HeapInv.free` cover. -/
theorem heapStep_inv (hbase : 0 < base) (hbs : base < start) (hsbrk : SbrkGrows sbrk brk) {h h' : Heap σ}
    {c : Call} (hinv : ∃ fl, HeapInv base start brk h.u fl h.live) (hs : heapStep sbrk base h c = .next h') :
    ∃ fl, HeapInv base start brk h'.u fl h'.live := by
  obtain ⟨fl, hinv⟩ := hinv
  cases c with
  | malloc nbytes fuel =>
    simp only [heapStep] at hs
    split at hs
    next hn =>
      split at hs
      next p u' hrun =>
        cases hs
        have hrun' := malloc_mono (Nat.le_max_left fuel (2 * fl.length + 3)) h.u p u' hrun
        exact hinv.malloc hbase hbs hsbrk hn (by omega) hrun'
      next => cases hs
    next => cases hs
  | free a fuel =>
    simp only [heapStep] at hs
    split at hs
    next ha =>
      split at hs
      next r u' hrun =>
        cases hs
        obtain ⟨fl', u'', hrun'', hinv'⟩ := hinv.free hbase hbs ha
          (Nat.lt_of_lt_of_le (Nat.lt_succ_self fl.length) (Nat.le_max_right fuel (fl.length + 1)))
        have hrun' := free_mono (Nat.le_max_left fuel (fl.length + 1)) h.u r u' hrun
        rw [hrun''] at hrun'
        obtain ⟨-, rfl⟩ := Prod.mk.inj (Except.ok.inj hrun')
        exact ⟨fl', hinv'⟩
      next => cases hs
    next => cases hs

/-- **FREE-LIST INVARIANT**: for an `sbrk` that moves the break up on
    request, from a first state with no free list yet, `base` above `0` and
    below the break, after any sequence of `malloc(n)` with `n ≤ 2^31 - 32`
    and `free` of blocks held and not yet freed, the free list from `base`
    is a ring in address order through `freep`, its blocks ordered with
    gaps between them (disjoint and coalesced) and inside the memory
    `sbrk` gave; and every block `malloc` handed out and not freed has a
    header that gives its size, holds the bytes asked for past the header,
    and shares no byte with another such block or a free one. -/
theorem umalloc_free_list_invariant (hsbrk : SbrkGrows sbrk brk) {u₀ : UState σ} (hfreep : u₀.freep = 0)
    (hbase : 0 < base) (hbs : base < brk u₀.sys) (hlt : brk u₀.sys < 2 ^ 31) {h : Heap σ}
    (hreach : Machine.Reachable ⟨u₀, []⟩ (heapStep sbrk base) h) :
    ∃ fl, HeapInv base (brk u₀.sys) brk h.u fl h.live := by
  refine Machine.Reachable.inv (I := fun h => ∃ fl, HeapInv base (brk u₀.sys) brk h.u fl h.live) ?_
    (fun _ _ _ hI hs => heapStep_inv hbase hbs hsbrk hI hs) hreach
  exact ⟨[], fun h => absurd hfreep h, fun _ => ⟨rfl, rfl⟩, ⟨.nil, by simp, by simp, by simp⟩, Nat.le_refl _, hlt,
    by simp, by simp, by simp, by simp, .nil⟩

end Calls

/-- A break that grows on request while it stays below `2^31`. -/
def bumpSbrk (n : Int32) : StateT Nat (Except String) Nat := fun s =>
  if 0 < n.toInt ∧ s + n.toInt.toNat < 2 ^ 31 then .ok (s, s + n.toInt.toNat) else .ok (SBRK_ERROR, s)

theorem bumpSbrk_grows : SbrkGrows bumpSbrk id := by
  intro n s s' a _ h
  simp only [StateT.run, bumpSbrk] at h
  split at h
  · next hlt =>
    obtain ⟨rfl, rfl⟩ := Prod.mk.inj (Except.ok.inj h)
    exact .inr ⟨rfl, rfl, hlt.2⟩
  · obtain ⟨rfl, rfl⟩ := Prod.mk.inj (Except.ok.inj h)
    exact .inl ⟨rfl, rfl⟩

/-- A process whose break is at 4096, with `base` at 16, calls
    `malloc(100)`, frees the block at 69504 it got, and calls
    `malloc(5000)`. -/
theorem umalloc_free_list_invariant_after_calls :
    ∃ h, Machine.replay (heapStep bumpSbrk 16) ⟨⟨4096, fun _ => ⟨0, 0⟩, 0⟩, []⟩
        [.malloc 100 10, .free ⟨⟨69504, 8⟩, 100⟩ 10, .malloc 5000 10] = some h ∧
      ∃ fl, HeapInv 16 4096 id h.u fl h.live := by
  have hsome : (Machine.replay (heapStep bumpSbrk 16) ⟨⟨4096, fun _ => ⟨0, 0⟩, 0⟩, []⟩
      [.malloc 100 10, .free ⟨⟨69504, 8⟩, 100⟩ 10, .malloc 5000 10]).isSome = true := by
    decide +kernel
  obtain ⟨h, hh⟩ := Option.isSome_iff_exists.mp hsome
  exact ⟨h, hh, umalloc_free_list_invariant bumpSbrk_grows
    (show (⟨4096, fun _ => ⟨0, 0⟩, 0⟩ : UState Nat).freep = 0 from rfl) (by decide) (by decide) (by decide)
    (Machine.replay_reachable .init hh)⟩

end Xv6.User
