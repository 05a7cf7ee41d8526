import Xv6.Mem.Sbrk

/-! # The user allocator (`umalloc.c`)

    Kernighan and Ritchie's allocator: a circular free list of blocks,
    each headed by a `Header` that gives the next free block and the
    block's size in headers, through the static `base`; `malloc` takes
    the first block that fits, from its tail, and `morecore` asks `sbrk`
    for at least 4096 headers more and hands them to `free`, which puts a
    block back in address order and joins it with its neighbours.

    A process's memory is read as headers (`UState.hdr`, by address).  The
    allocator reaches the kernel only through `sbrk`, which is a parameter
    here: the state of what lies behind it is `sys`, and `ulib.c`'s wrapper
    over the kernel's `sys_sbrk` (`Mem/Sbrk`) is one instance.  Each load
    and store of a header goes through the MMU: `m` gives the permissions
    of the page of each address, and an access the page does not allow is
    a page fault, after which the process never returns (`userAccess`).
    `allPerm`, where no access faults, is the default; `userPerm` reads the
    process's page table.  The scans of `free` and `malloc` run on `fuel`
    rounds; the C loops end only on a well-formed list.

    * `free_run_apart`, `mallocLoop_exact`, `mallocLoop_more`,
      `morecore_run`: one round of each loop, as the rules the runs below
      are put together from;
    * `malloc_past_break`: `morecore(nu)` passes `nu * sizeof(Header)` to
      `sbrk(int)`, which keeps its low 32 bits.  A first `malloc(n)` with
      `n` from about `2^31` to `2^32 - 16` sends `sbrk` a request of `0`,
      or a negative one that `growproc` takes as a no-op.  When the page of
      the old break is mapped (a break that is not page-aligned), `malloc`
      still records a block of `nunits` headers at the old break and
      returns it: the header and all `n` bytes lie at or above `p->sz`. -/

namespace Xv6.User

open Xv6.Mem StateExcept

/-- `sizeof(Header)`: the `union` of a pointer and a `uint` with a `long`. -/
def HDRSIZE : Nat := 16

/-- `union header` as the allocator reads it: `s.ptr`, the next free
    block, and `s.size`, the block's size in headers (a `uint`). -/
structure Header where
  ptr : Nat
  size : Nat
deriving DecidableEq, Repr

/-- A process running the allocator: the state behind `sbrk`, the
    process's memory read as headers, and `freep` (`0` for NULL). -/
structure UState (σ : Type) where
  sys : σ
  hdr : Nat → Header
  freep : Nat

/-- User code that may call into the kernel; an error is a kernel
    `panic`, or a scan that runs out of `fuel`. -/
abbrev UM (σ : Type) := StateT (UState σ) (Except String)

/-- `hp + k` for a `Header *hp`. -/
def hadd (hp k : Nat) : Nat := hp + HDRSIZE * k

/-- `nunits` of `malloc(nbytes)`, computed in 64 bits and kept in a
    `uint`. -/
def nunits (nbytes : Nat) : Nat := ((nbytes + HDRSIZE - 1) / HDRSIZE + 1) % 2 ^ 32

/-- Every page open to user loads and stores: memory where no access
    faults. -/
def allPerm {σ : Type} (_ : σ) (_ : Nat) : Perm := ⟨true, true, true, true⟩

/-- The permissions of the page of user address `a` in the page table of
    process `p`, as the MMU finds them; none where no leaf is reached. -/
def userPerm (p : Fin NPROC) (s : MemSys) (a : Nat) : Perm :=
  if a < MAXVA then
    match (s.table p).lookup a with
    | some pte => pte.perm
    | none => ⟨false, false, false, false⟩
  else ⟨false, false, false, false⟩

/-- The page of `a` is the user's, for loads and stores. -/
def UserRW {σ : Type} (m : σ → Nat → Perm) (s : σ) (a : Nat) : Prop :=
  (m s a).u = true ∧ (m s a).r = true ∧ (m s a).w = true

instance {σ : Type} (m : σ → Nat → Perm) (s : σ) (a : Nat) : Decidable (UserRW m s a) :=
  inferInstanceAs (Decidable (_ ∧ _))

theorem allPerm_rw {σ : Type} {s : σ} {a : Nat} : UserRW allPerm s a := ⟨rfl, rfl, rfl⟩

section Code

-- the system call `sbrk(int)`, the address of `base`, and the rounds each
-- scan may take
variable {σ : Type} (sbrk : Int32 → StateT σ (Except String) Nat) (base : Nat) (fuel : Nat)

/-- A load (`write = false`) or a store by user code at address `a`: the
    MMU raises a page fault unless the page of `a` is the user's and allows
    the access.  `usertrap` takes the fault as handled, since `vmfault`
    returns `0` past `p->sz` and on a page already mapped, and the access
    runs again, forever: the call never returns. -/
def userAccess (m : σ → Nat → Perm) (write : Bool) (a : Nat) : UM σ Unit := do
  let pm := m (← get).sys a
  unless pm.u && (if write then pm.w else pm.r) do throw "page fault"

/-- `*a`, a load of a header. -/
def getHdr (a : Nat) (m : σ → Nat → Perm := allPerm) : UM σ Header := do
  userAccess m false a
  return (← get).hdr a

/-- `a->s.ptr = q`. -/
def setPtr (a q : Nat) (m : σ → Nat → Perm := allPerm) : UM σ Unit := do
  userAccess m true a
  modify fun s => { s with hdr := Function.update s.hdr a { s.hdr a with ptr := q } }

/-- `a->s.size = n` for a `uint` field. -/
def setSize (a n : Nat) (m : σ → Nat → Perm := allPerm) : UM σ Unit := do
  userAccess m true a
  modify fun s => { s with hdr := Function.update s.hdr a { s.hdr a with size := n % 2 ^ 32 } }

def setFreep (a : Nat) : UM σ Unit := modify fun s => { s with freep := a }

/-- A system call on the state behind it. -/
def liftSys {α : Type} (m : StateT σ (Except String) α) : UM σ α := do
  let s ← get
  match m.run s.sys with
  | .ok (a, sys) =>
      set { s with sys }
      pure a
  | .error msg => throw msg

/-- The loop of `free` from `p`: the free block after which `bp` goes,
    the one below it or the wrap-around point of the list. -/
def freeScan (bp n p : Nat) (m : σ → Nat → Perm := allPerm) : UM σ Nat :=
  match n with
  | 0 => throw "free: no end"
  | n + 1 => do
      let h ← getHdr p m
      if bp > p ∧ bp < h.ptr then return p
      if p ≥ h.ptr ∧ (bp > p ∨ bp < h.ptr) then return p
      freeScan bp n h.ptr m

/-- `free(ap)`. -/
def free (ap : Nat) (m : σ → Nat → Perm := allPerm) : UM σ Unit := do
  let bp := ap - HDRSIZE
  let p ← freeScan bp fuel (← get).freep m
  -- join the upper neighbour
  if hadd bp (← getHdr bp m).size = (← getHdr p m).ptr then
    setSize bp ((← getHdr bp m).size + (← getHdr (← getHdr p m).ptr m).size) m
    setPtr bp (← getHdr (← getHdr p m).ptr m).ptr m
  else setPtr bp (← getHdr p m).ptr m
  -- join the lower neighbour
  if hadd p (← getHdr p m).size = bp then
    setSize p ((← getHdr p m).size + (← getHdr bp m).size) m
    setPtr p (← getHdr bp m).ptr m
  else setPtr p bp m
  setFreep p

/-- `morecore(nu)`: `nu * sizeof(Header)` becomes the `int` of `sbrk`. -/
def morecore (nu : Nat) (m : σ → Nat → Perm := allPerm) : UM σ Nat := do
  let nu := if nu < 4096 then 4096 else nu
  let ap ← liftSys (sbrk (Int32.ofNat (nu * HDRSIZE)))
  if ap = SBRK_ERROR then return 0
  let hp := ap
  setSize hp nu m
  free fuel (hadd hp 1) m
  return (← get).freep

/-- The loop of `malloc` from `p`, with `prevp` before it. -/
def mallocLoop (nunits n prevp p : Nat) (m : σ → Nat → Perm := allPerm) : UM σ Nat :=
  match n with
  | 0 => throw "malloc: no end"
  | n + 1 => do
      if (← getHdr p m).size ≥ nunits then
        let p ← if (← getHdr p m).size = nunits then do
            setPtr prevp (← getHdr p m).ptr m
            pure p
          else do
            -- the tail of the block
            setSize p ((← getHdr p m).size - nunits) m
            let p := hadd p (← getHdr p m).size
            setSize p nunits m
            pure p
        setFreep prevp
        return hadd p 1
      if p = (← get).freep then
        let q ← morecore sbrk fuel nunits m
        if q = 0 then return 0
        mallocLoop nunits n q (← getHdr q m).ptr m
      else mallocLoop nunits n p (← getHdr p m).ptr m

/-- `malloc(nbytes)` for a `uint nbytes`. -/
def malloc (nbytes : Nat) (m : σ → Nat → Perm := allPerm) : UM σ Nat := do
  if (← get).freep = 0 then
    setPtr base base m
    setFreep base
    setSize base 0 m
  let prevp := (← get).freep
  mallocLoop sbrk fuel (nunits nbytes) fuel prevp (← getHdr prevp m).ptr m

end Code

/-! ## Runs of the primitives -/

section Runs

variable {σ : Type} {sbrk : Int32 → StateT σ (Except String) Nat} {base fuel : Nat} {m : σ → Nat → Perm}

/-- An access that its page allows passes the MMU. -/
theorem userAccess_run {write : Bool} {a : Nat} {u : UState σ} (h : UserRW m u.sys a) :
    (userAccess m write a).run u = .ok ((), u) := by
  obtain ⟨hu, hr, hw⟩ := h
  cases write <;>
  · simp [userAccess, hu, hr, hw]
    rfl

theorem getHdr_run_of {a : Nat} {u : UState σ} (h : UserRW m u.sys a) :
    (getHdr a m).run u = .ok (u.hdr a, u) := by
  simp only [getHdr, StateT.run_bind, userAccess_run h, ok_bind]
  rfl

theorem setPtr_run_of {a q : Nat} {u : UState σ} (h : UserRW m u.sys a) :
    (setPtr a q m).run u = .ok ((), { u with hdr := Function.update u.hdr a { u.hdr a with ptr := q } }) := by
  simp only [setPtr, StateT.run_bind, userAccess_run h, ok_bind]
  rfl

theorem setSize_run_of {a n : Nat} {u : UState σ} (h : UserRW m u.sys a) :
    (setSize a n m).run u =
      .ok ((), { u with hdr := Function.update u.hdr a { u.hdr a with size := n % 2 ^ 32 } }) := by
  simp only [setSize, StateT.run_bind, userAccess_run h, ok_bind]
  rfl

@[simp] theorem getHdr_run (a : Nat) (u : UState σ) : (getHdr a).run u = .ok (u.hdr a, u) :=
  getHdr_run_of allPerm_rw

@[simp] theorem setPtr_run (a q : Nat) (u : UState σ) :
    (setPtr a q).run u = .ok ((), { u with hdr := Function.update u.hdr a { u.hdr a with ptr := q } }) :=
  setPtr_run_of allPerm_rw

@[simp] theorem setSize_run (a n : Nat) (u : UState σ) :
    (setSize a n).run u =
      .ok ((), { u with hdr := Function.update u.hdr a { u.hdr a with size := n % 2 ^ 32 } }) :=
  setSize_run_of allPerm_rw

@[simp] theorem setFreep_run (a : Nat) (u : UState σ) : (setFreep a).run u = .ok ((), { u with freep := a }) := rfl

/-- Kernel code that returns runs on the kernel's part of the state. -/
theorem liftSys_run {α : Type} {m : StateT σ (Except String) α} {u : UState σ} {a : α} {sys : σ}
    (h : m.run u.sys = .ok (a, sys)) : (liftSys m).run u = .ok (a, { u with sys }) := by
  simp only [liftSys, StateT.run_bind, StateT.run_get, pure_bind, h]
  rfl

/-! ## One round of each loop -/

/-- The test that ends the loop of `free` at `p`, whose next block is
    `q`: `bp` lies between them, or beyond the wrap-around point at `p`. -/
def FreeStop (bp p q : Nat) : Prop := (bp > p ∧ bp < q) ∨ (p ≥ q ∧ (bp > p ∨ bp < q))

theorem freeScan_stop {bp p n : Nat} {u : UState σ} (h : FreeStop bp p (u.hdr p).ptr) (hm : UserRW m u.sys p) :
    (freeScan bp (n + 1) p m).run u = .ok (p, u) := by
  rcases h with h | h
  · simp only [freeScan, StateT.run_bind, getHdr_run_of hm, ok_bind, if_pos h]
    rfl
  · by_cases h₁ : bp > p ∧ bp < (u.hdr p).ptr
    · simp only [freeScan, StateT.run_bind, getHdr_run_of hm, ok_bind, if_pos h₁]
      rfl
    · simp only [freeScan, StateT.run_bind, getHdr_run_of hm, ok_bind, if_neg h₁, if_pos h]
      rfl

theorem freeScan_pass {bp p n : Nat} {u : UState σ} (h : ¬ FreeStop bp p (u.hdr p).ptr) (hm : UserRW m u.sys p) :
    (freeScan bp (n + 1) p m).run u = (freeScan bp n (u.hdr p).ptr m).run u := by
  simp only [FreeStop, not_or] at h
  simp only [freeScan, StateT.run_bind, getHdr_run_of hm, ok_bind, if_neg h.1, if_neg h.2]

/-- `free` of a block that touches neither neighbour links it in after
    the block the scan found, and starts the next search there. -/
theorem free_run_apart {ap p : Nat} {u : UState σ}
    (hscan : (freeScan (ap - HDRSIZE) fuel u.freep m).run u = .ok (p, u))
    (hup : hadd (ap - HDRSIZE) (u.hdr (ap - HDRSIZE)).size ≠ (u.hdr p).ptr)
    (hlo : hadd p (u.hdr p).size ≠ ap - HDRSIZE) (hne : p ≠ ap - HDRSIZE)
    (hmb : UserRW m u.sys (ap - HDRSIZE)) (hmp : UserRW m u.sys p) :
    (free fuel ap m).run u = .ok ((), { u with
      hdr := Function.update (Function.update u.hdr (ap - HDRSIZE) { u.hdr (ap - HDRSIZE) with ptr := (u.hdr p).ptr })
        p { u.hdr p with ptr := ap - HDRSIZE }
      freep := p }) := by
  -- every load and store is at `bp` or `p`, whose pages the stores leave as they were
  simp only [free, StateT.run_bind, StateT.run_get, pure_bind, hscan, ok_bind, getHdr_run_of, setPtr_run_of,
    hmb, hmp, if_neg hup, Function.update_of_ne hne, if_neg hlo, setFreep_run]

/-- A block of exactly `nunits` headers is unlinked whole. -/
theorem mallocLoop_exact {nunits n prevp p : Nat} {u : UState σ} (h : (u.hdr p).size = nunits)
    (hmp : UserRW m u.sys p) (hmprev : UserRW m u.sys prevp) :
    (mallocLoop sbrk fuel nunits (n + 1) prevp p m).run u =
      .ok (hadd p 1, { u with
        hdr := Function.update u.hdr prevp { u.hdr prevp with ptr := (u.hdr p).ptr }, freep := prevp }) := by
  simp only [mallocLoop, StateT.run_bind, getHdr_run_of hmp, ok_bind, h, ge_iff_le, Nat.le_refl, if_true,
    setPtr_run_of hmprev, setFreep_run]
  rfl

/-- Back at `freep` with no fit, the loop calls `morecore` and goes on
    from the block it returns. -/
theorem mallocLoop_more {nunits n prevp p q : Nat} {u u' : UState σ} (hlt : (u.hdr p).size < nunits)
    (hp : p = u.freep) (hm : (morecore sbrk fuel nunits m).run u = .ok (q, u')) (hq : q ≠ 0)
    (hmp : UserRW m u.sys p) (hmq : UserRW m u'.sys q) :
    (mallocLoop sbrk fuel nunits (n + 1) prevp p m).run u =
      (mallocLoop sbrk fuel nunits n q (u'.hdr q).ptr m).run u' := by
  simp only [mallocLoop, StateT.run_bind, getHdr_run_of hmp, ok_bind, ge_iff_le, if_neg (Nat.not_le.mpr hlt),
    StateT.run_get, pure_bind, if_pos hp, hm, if_neg hq, getHdr_run_of hmq]

/-- `morecore(nu)` for `nu` of at least 4096 headers, when `sbrk` answers
    `ap`: the block at `ap` gets size `nu` and is freed. -/
theorem morecore_run {nu ap : Nat} {sys : σ} {u u' : UState σ} (hnu : 4096 ≤ nu)
    (hs : (sbrk (Int32.ofNat (nu * HDRSIZE))).run u.sys = .ok (ap, sys)) (hap : ap ≠ SBRK_ERROR)
    (hmap : UserRW m sys ap)
    (hf : (free fuel (hadd ap 1) m).run
      { u with sys, hdr := Function.update u.hdr ap { u.hdr ap with size := nu % 2 ^ 32 } } = .ok ((), u')) :
    (morecore sbrk fuel nu m).run u = .ok (u'.freep, u') := by
  have hmap' : UserRW m ({ u with sys } : UState σ).sys ap := hmap
  simp only [morecore, if_neg (Nat.not_lt.mpr hnu), StateT.run_bind, liftSys_run hs, ok_bind, if_neg hap,
    setSize_run_of hmap', hf, StateT.run_get, pure_bind]
  rfl

/-! ## The first call -/

/-- The first call: `base` becomes a ring of itself, of size `0`. -/
theorem malloc_run_of_first {nbytes : Nat} {u : UState σ} (h : u.freep = 0) (hmb : UserRW m u.sys base) :
    (malloc sbrk base fuel nbytes m).run u =
      (mallocLoop sbrk fuel (nunits nbytes) fuel base base m).run
        { u with hdr := Function.update u.hdr base ⟨base, 0⟩, freep := base } := by
  simp only [malloc, StateT.run_bind, StateT.run_get, pure_bind, h, if_true, ok_bind, setFreep_run,
    setPtr_run_of, setSize_run_of, getHdr_run_of, hmb]
  simp

/-- `morecore` on the ring of `base` alone, when `sbrk` answers `ap`
    above `base`: the new block goes after `base`, unjoined. -/
theorem morecore_run_of_base {nu ap : Nat} {sys : σ} {u : UState σ} (hnu : 4096 ≤ nu) (hnu' : nu < 2 ^ 32)
    (hfreep : u.freep = base) (hb : u.hdr base = ⟨base, 0⟩) (hap : base < ap) (hap' : ap ≠ SBRK_ERROR)
    (hs : (sbrk (Int32.ofNat (nu * HDRSIZE))).run u.sys = .ok (ap, sys)) (hfuel : 0 < fuel)
    (hmap : UserRW m sys ap) (hmb : UserRW m sys base) :
    (morecore sbrk fuel nu m).run u =
      .ok (base, { u with sys, hdr := Function.update (Function.update u.hdr ap ⟨base, nu⟩) base ⟨ap, 0⟩ }) := by
  obtain ⟨n, rfl⟩ : ∃ n, fuel = n + 1 := ⟨fuel - 1, by omega⟩
  have hbp : hadd ap 1 - HDRSIZE = ap := by simp [hadd]
  have hne : base ≠ ap := Nat.ne_of_lt hap
  -- the state `free` starts from: the new block's size written
  set u₂ : UState σ := { u with sys, hdr := Function.update u.hdr ap { u.hdr ap with size := nu % 2 ^ 32 } }
    with hu₂
  have hb₂ : u₂.hdr base = ⟨base, 0⟩ := by simp [hu₂, Function.update_of_ne hne, hb]
  have hap₂ : u₂.hdr ap = ⟨(u.hdr ap).ptr, nu⟩ := by
    rw [hu₂]
    dsimp only
    rw [Function.update_self, Nat.mod_eq_of_lt hnu']
  have hscan : (freeScan (hadd ap 1 - HDRSIZE) (n + 1) u₂.freep m).run u₂ = .ok (base, u₂) := by
    rw [hbp, show u₂.freep = base from hfreep]
    refine freeScan_stop (.inr ?_) hmb
    simp [hb₂, hap]
  have hfree := free_run_apart hscan (by simp [hadd, hb₂, hap₂]; omega)
    (by simp [hadd, hb₂]; omega) (by rw [hbp]; exact hne) (by rw [hbp]; exact hmap) hmb
  rw [morecore_run hnu hs hap' hmap hfree]
  simp only [hbp, hb₂, hap₂, Except.ok.injEq, Prod.mk.injEq, UState.mk.injEq]
  exact ⟨trivial, rfl, by simp [hu₂], hfreep.symm⟩

end Runs

/-! ## A request that `sbrk(int)` cuts short -/

section Kernel

variable {kend : Nat} {proc : Fin NPROC} {base fuel : Nat}

/-- A request of `2^31` to `2^32` bytes reaches `sbrk` as `nu * 16 - 2^32`:
    negative, or `0`. -/
theorem sbrk_request_of_big {nu : Nat} (hbig : 2 ^ 31 ≤ nu * HDRSIZE) (hle : nu * HDRSIZE ≤ 2 ^ 32) :
    (Int32.ofNat (nu * HDRSIZE)).toInt = (nu * HDRSIZE : Nat) - 2 ^ 32 := by
  rw [Int32.toInt_ofNat', Int.bmod_def]
  simp only [Int32.size]
  split <;> omega

/-- **PAST THE BREAK**: for every allocator state before the first
    `malloc`, with `base` inside the process below its break, and the
    pages of `base` and of the break open to the process's loads and
    stores (a break inside its last page), a request whose
    `nunits * sizeof(Header)` is between `2^31` and `2^32` reaches `sbrk`
    as `0` or as a negative `int` larger than the process, and the kernel
    adds nothing.  No load or store faults, and `malloc` returns the old
    break plus one header, with a block of `nunits` headers recorded at the
    break itself.  So neither the header at `p - 1` nor any of the `n`
    bytes from `p` is below `p->sz`. -/
theorem malloc_past_break (u : UState MemSys) (nbytes : Nat) (hfreep : u.freep = 0)
    (hbase : 0 < base) (hbelow : base < (u.sys.procs proc).sz) (hsz : (u.sys.procs proc).sz < 2 ^ 31)
    (hmb : UserRW (userPerm proc) u.sys base) (hmsz : UserRW (userPerm proc) u.sys (u.sys.procs proc).sz)
    (hbig : 2 ^ 31 ≤ nunits nbytes * HDRSIZE)
    (hwrap : nunits nbytes * HDRSIZE = 2 ^ 32 ∨ (u.sys.procs proc).sz + nunits nbytes * HDRSIZE < 2 ^ 32)
    (hfuel : 2 ≤ fuel) :
    ∃ u', (malloc (sbrk kend proc) base fuel nbytes (userPerm proc)).run u =
        .ok (hadd (u.sys.procs proc).sz 1, u') ∧
      u'.sys = u.sys ∧ u'.hdr (u.sys.procs proc).sz = ⟨base, nunits nbytes⟩ := by
  obtain ⟨n, rfl⟩ : ∃ n, fuel = n + 2 := ⟨fuel - 2, by omega⟩
  have h16 : HDRSIZE = 16 := rfl
  have hle : nunits nbytes * HDRSIZE ≤ 2 ^ 32 := by omega
  have hnu : 4096 ≤ nunits nbytes := by rw [h16] at hbig; omega
  have hnu' : nunits nbytes < 2 ^ 32 := by rw [h16] at hle; omega
  -- `sbrk` is asked for nothing, or for more than the process has back
  have hs : (sbrk kend proc (Int32.ofNat (nunits nbytes * HDRSIZE))).run u.sys = .ok ((u.sys.procs proc).sz, u.sys) := by
    refine sbrk_run_of_wrap ?_ hsz
    rw [sbrk_request_of_big hbig hle]
    omega
  set u₁ : UState MemSys := { u with hdr := Function.update u.hdr base ⟨base, 0⟩, freep := base } with hu₁
  have hmore := morecore_run_of_base (u := u₁) hnu hnu' (show u₁.freep = base from rfl)
    (by simp [hu₁]) hbelow (by unfold SBRK_ERROR; omega) hs (show 0 < n + 2 by omega) hmsz hmb
  rw [malloc_run_of_first hfreep hmb, mallocLoop_more (by simp [hu₁]; omega) rfl hmore (by omega) hmb hmb]
  have hne : (u.sys.procs proc).sz ≠ base := Nat.ne_of_gt hbelow
  -- the ring is `base`, then the new block at the old break
  simp only [Function.update_self]
  refine ⟨_, mallocLoop_exact ?_ hmsz hmb, rfl, ?_⟩
  · simp [Function.update_of_ne hne]
  · simp [Function.update_of_ne hne]

end Kernel

/-- A kernel image that leaves eight free pages: `userinit` takes four, and
    the first two pages of the program four more. -/
def umallocEnd : Nat := PHYSTOP - 8 * PGSIZE

/-- The first process, once `sbrk(4112)` gave it its program and 16 bytes
    of a second page, with `base` at address 16: `malloc(2^31)` returns
    `4128`, the break stays at `4112`, and the block recorded at `4112`
    has `nunits(2^31) = 2^27 + 1` headers. -/
theorem malloc_past_break_after_sbrk :
    ∃ s s₁ u', (userinit umallocEnd KERNBASE).run (MemSys.boot ⟨bootFree umallocEnd⟩) = .ok ((), s) ∧
      (sbrk umallocEnd proc0 4112).run s = .ok (0, s₁) ∧ (s₁.procs proc0).sz = 4112 ∧
      (malloc (sbrk umallocEnd proc0) 16 2 (2 ^ 31) (userPerm proc0)).run ⟨s₁, fun _ => ⟨0, 0⟩, 0⟩ =
        .ok (4128, u') ∧
      u'.sys = s₁ ∧ u'.hdr 4112 = ⟨16, nunits (2 ^ 31)⟩ := by
  obtain ⟨⟨_, s⟩, hrun, hchk⟩ := exists_of_checkOk
    (P := fun r : Unit × MemSys => checkOk (fun r : Nat × MemSys => r.1 = 0 ∧ (r.2.procs proc0).sz = 4112 ∧
        UserRW (userPerm proc0) r.2 16 ∧ UserRW (userPerm proc0) r.2 4112)
      ((sbrk umallocEnd proc0 4112).run r.2) = some true)
    (e := (userinit umallocEnd KERNBASE).run (MemSys.boot ⟨bootFree umallocEnd⟩)) (by decide +kernel)
  obtain ⟨⟨a, s₁⟩, hrun₁, ha, hsz, hmb, hmsz⟩ := exists_of_checkOk hchk
  simp only at ha hsz hmb hmsz
  subst ha
  rw [← hsz] at hmsz
  obtain ⟨u', hm, hsys, hhdr⟩ := @malloc_past_break umallocEnd proc0 16 2 ⟨s₁, fun _ => ⟨0, 0⟩, 0⟩ (2 ^ 31)
    rfl (by decide) (by simp only [hsz]; decide) (by simp only [hsz]; decide) hmb hmsz (by decide)
    (.inr (by simp only [hsz]; decide)) (by decide)
  simp only [hsz] at hm hhdr
  exact ⟨s, s₁, u', hrun, hrun₁, hsz, hm, hsys, hhdr⟩

end Xv6.User
