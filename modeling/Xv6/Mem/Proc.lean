import Xv6.Mem.Uvm

/-! # Processes and their memory

    The memory side of `proc.c` and of the fault path of `vm.c`.  The
    system holds each process slot's `sz`, `pagetable` and `trapframe`, the
    page tables by their root page (a `pagetable_t` is the address of its
    root page, so two names of one table are one root), and physical
    memory.  `onTable` runs code of `vm.c` on the table at a root.

    What a process holds besides memory (files, name, registers, its
    scheduling state beyond `UNUSED`) is left out, and so are the bytes of
    every page: `memmove` and `memset` change no state here. -/

namespace Xv6.Mem

/-- `NPROC`: the size of the process table. -/
def NPROC : Nat := 64

instance : NeZero NPROC := ⟨by decide⟩

/-- The memory of a `struct proc`: whether the slot is taken (`state !=
    UNUSED`), `sz`, `pagetable` (a root, `0` for none) and `trapframe` (a
    page, `0` for none). -/
structure ProcMem where
  used : Bool
  sz : Nat
  pagetable : Nat
  trapframe : Nat
deriving DecidableEq, Repr

/-- A slot as `freeproc` leaves it. -/
def ProcMem.unused : ProcMem := ⟨false, 0, 0, 0⟩

/-- The process table, the page tables by root, and physical memory. -/
structure MemSys where
  procs : Fin NPROC → ProcMem
  tables : Nat → PageTable
  pm : PhysMem

/-- The system once `kinit` has built the free list `kmem`: every slot is
    unused and no page is held. -/
def MemSys.boot (kmem : Kmem) : MemSys := ⟨fun _ => ProcMem.unused, PageTable.empty, ⟨kmem, []⟩⟩

/-- The table of process `p`. -/
def MemSys.table (s : MemSys) (p : Fin NPROC) : PageTable := s.tables (s.procs p).pagetable

/-- Kernel code over the whole system; an error is a `panic`. -/
abbrev SysM := StateT MemSys (Except String)

section Code

variable (kend trampoline : Nat)

/-- Run `m` on the page table at root `pagetable`. -/
def onTable {α : Type} (pagetable : Nat) (m : VmM α) : SysM α := do
  let s ← get
  match m.run ⟨s.tables pagetable, s.pm⟩ with
  | .ok (a, v) =>
      set { s with tables := Function.update s.tables pagetable v.pt, pm := v.pm }
      pure a
  | .error msg => throw msg

/-- `kalloc()` for the holder `h`. -/
def kallocSys (h : Nat → Holder) : SysM Nat :=
  modifyGet fun s => ((allocFor h s.pm).1, { s with pm := (allocFor h s.pm).2 })

/-- `kfree(pa)`, taking the page from holder `h`. -/
def kfreeSys (h : Holder) (pa : Nat) : SysM Unit := do
  match freeFrom kend h pa (← get).pm with
  | .ok pm => modify fun s => { s with pm }
  | .error msg => throw msg

/-- Change the slot of process `p`. -/
def setProc (p : Fin NPROC) (f : ProcMem → ProcMem) : SysM Unit :=
  modify fun s => { s with procs := Function.update s.procs p (f (s.procs p)) }

/-- `proc_pagetable` once `uvmcreate` has made the table of the state: map
    the trampoline and the trapframe page `tf`; on a failure free the table
    and answer `false`. -/
def mapTrampolineTrapframe (tf : Nat) : VmM Bool := do
  if (← mappages TRAMPOLINE PGSIZE trampoline (PTE_R ||| PTE_X)) < 0 then
    uvmfree kend 0
    pure false
  else if (← mappages TRAPFRAME PGSIZE tf (PTE_R ||| PTE_W)) < 0 then
    uvmunmap kend TRAMPOLINE 1 false
    uvmfree kend 0
    pure false
  else pure true

/-- `proc_pagetable(p)`: the root of a new table with the trampoline and
    `p`'s trapframe mapped, `0` when memory ran out. -/
def proc_pagetable (p : Fin NPROC) : SysM Nat := do
  let s ← get
  match uvmcreate s.pm with
  | (none, pm) =>
      set { s with pm }
      pure 0
  | (some pt, pm) =>
      let pagetable := pt.root
      set { s with tables := Function.update s.tables pagetable pt, pm }
      if ← onTable pagetable (mapTrampolineTrapframe kend trampoline (s.procs p).trapframe) then
        pure pagetable
      else pure 0

/-- `proc_freepagetable(pagetable, sz)`, on the table of the state. -/
def proc_freepagetable (sz : Nat) : VmM Unit := do
  uvmunmap kend TRAMPOLINE 1 false
  uvmunmap kend TRAPFRAME 1 false
  uvmfree kend sz

/-- `freeproc(p)`. -/
def freeproc (p : Fin NPROC) : SysM Unit := do
  let pr := (← get).procs p
  if pr.trapframe ≠ 0 then kfreeSys kend (.trapframe p) pr.trapframe
  if pr.pagetable ≠ 0 then onTable pr.pagetable (proc_freepagetable kend pr.sz)
  setProc p fun _ => ProcMem.unused

/-- `allocproc()`: the first unused slot, with a trapframe and a page
    table; `none` when there is no slot or memory ran out. -/
def allocproc : SysM (Option (Fin NPROC)) := do
  let s ← get
  match (List.finRange NPROC).find? (fun p => !(s.procs p).used) with
  | none => pure none
  | some p =>
      setProc p fun pr => { pr with used := true }
      let tf ← kallocSys fun _ => .trapframe p
      setProc p fun pr => { pr with trapframe := tf }
      if tf = 0 then
        freeproc kend p
        pure none
      else
        let pagetable ← proc_pagetable kend trampoline p
        setProc p fun pr => { pr with pagetable }
        if pagetable = 0 then
          freeproc kend p
          pure none
        else pure (some p)

/-- `userinit()`: the first process is a fresh slot. -/
def userinit : SysM Unit := do
  let _ ← allocproc kend trampoline

/-- `sz + n` for a `uint64` size and an `int`. -/
def addInt (sz : Nat) (n : Int) : Nat := ((sz + n) % 2 ^ 64).toNat

/-- `growproc(n)` for process `p`. -/
def growproc (p : Fin NPROC) (n : Int) : SysM Int := do
  let pr := (← get).procs p
  if n > 0 then
    if addInt pr.sz n > TRAPFRAME then pure (-1)
    else
      let sz ← onTable pr.pagetable (uvmalloc kend pr.sz (addInt pr.sz n) PTE_W)
      if sz = 0 then pure (-1)
      else
        setProc p fun pr => { pr with sz }
        pure 0
  else if n < 0 then
    let sz ← onTable pr.pagetable (uvmdealloc kend pr.sz (addInt pr.sz n))
    setProc p fun pr => { pr with sz }
    pure 0
  else pure 0

/-- `kfork()` by process `p`: the child's slot, `none` for `-1`. -/
def kfork (p : Fin NPROC) : SysM (Option (Fin NPROC)) := do
  match ← allocproc kend trampoline with
  | none => pure none
  | some np =>
      let s ← get
      if (← onTable (s.procs np).pagetable (uvmcopy kend (s.table p) (s.procs p).sz)) < 0 then
        freeproc kend np
        pure none
      else
        setProc np fun pr => { pr with sz := (s.procs p).sz }
        pure (some np)

/-- `ismapped(pagetable, va)`. -/
def ismapped (va : Nat) : VmM Bool := do
  match ← walk va false with
  | none => pure false
  | some k => pure ((← get).pt.leaf k).isSome

/-- `vmfault(pagetable, va, read)` in process `p`: a zeroed page for an
    address below `p->sz` that `pagetable` does not map; the page goes into
    `p->pagetable`.  `0` when there is nothing to do or no memory. -/
def vmfault (p : Fin NPROC) (pagetable va : Nat) : SysM Nat := do
  let pr := (← get).procs p
  if va ≥ pr.sz then pure 0
  else
    let va := PGROUNDDOWN va
    if ← onTable pagetable (ismapped va) then pure 0
    else
      let mem ← kallocSys fun _ => .user pr.pagetable va
      if mem = 0 then pure 0
      else if (← onTable pr.pagetable (mappages va PGSIZE mem (PTE_W ||| PTE_U ||| PTE_R))) ≠ 0 then
        kfreeSys kend (.user pr.pagetable va) mem
        pure 0
      else pure mem

/-- `walkaddr`, then `vmfault` where it finds nothing: the page of `va0`
    for a copy, `0` if there is none. -/
def copyPage (p : Fin NPROC) (pagetable va0 : Nat) : SysM Nat := do
  let pa0 := walkaddr ((← get).tables pagetable) va0
  if pa0 = 0 then vmfault kend p pagetable va0 else pure pa0

/-- The loop of `copyout` from `dstva`, with `len` bytes left. -/
def copyoutLoop (p : Fin NPROC) (pagetable : Nat) : Nat → Nat → Nat → SysM Int
  | 0, _, _ => pure 0
  | fuel + 1, dstva, len =>
      if len = 0 then pure 0
      else
        let va0 := PGROUNDDOWN dstva
        if va0 ≥ MAXVA then pure (-1)
        else do
          if (← copyPage kend p pagetable va0) = 0 then pure (-1)
          else
            match ← onTable pagetable (walk va0 false) with
            -- `*pte` through a null `pte` is a fault in the kernel
            | none => throw "kerneltrap"
            | some k =>
                if (((← get).tables pagetable).leaf k).any fun pte => pte.perm.w then
                  copyoutLoop p pagetable fuel (va0 + PGSIZE)
                    (len - min (PGSIZE - (dstva - va0)) len)
                else pure (-1)

/-- `copyout(pagetable, dstva, src, len)` in process `p`.  Each round
    copies at least one byte, and after the first a whole page. -/
def copyout (p : Fin NPROC) (pagetable dstva len : Nat) : SysM Int :=
  copyoutLoop kend p pagetable (len / PGSIZE + 2) dstva len

/-- The loop of `copyin` from `srcva`, with `len` bytes left. -/
def copyinLoop (p : Fin NPROC) (pagetable : Nat) : Nat → Nat → Nat → SysM Int
  | 0, _, _ => pure 0
  | fuel + 1, srcva, len =>
      if len = 0 then pure 0
      else do
        let va0 := PGROUNDDOWN srcva
        if (← copyPage kend p pagetable va0) = 0 then pure (-1)
        else copyinLoop p pagetable fuel (va0 + PGSIZE) (len - min (PGSIZE - (srcva - va0)) len)

/-- `copyin(pagetable, dst, srcva, len)` in process `p`. -/
def copyin (p : Fin NPROC) (pagetable srcva len : Nat) : SysM Int :=
  copyinLoop kend p pagetable (len / PGSIZE + 2) srcva len

end Code

end Xv6.Mem
