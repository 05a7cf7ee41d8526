import Xv6.Mem.Kalloc

/-! # User page tables

    `vm.c`'s user page tables.  Sv39 translates a virtual address below
    `MAXVA` through three levels of 512-entry tables, each a page from
    `kalloc`.  The model names each table by the bits of the address that
    select it: the level-1 table under root entry `key1 va = va >> 30`, the
    level-0 table of the 2 MiB region `key0 va = va >> 21`; an entry that
    points to a table holds the table's page, `0` where it is invalid.  A
    leaf PTE is kept under the page-aligned address it maps, `none` where it
    is invalid.  A table fresh from `kalloc` is zeroed, so installing it
    clears every entry below it.

    The functions run in `VmM`: on one page table and on the physical pages.
    Every `kalloc` names its holder and every `kfree` the holder it takes the
    page from (`Kalloc.lean`); a page table's pages are held under its root.

    Level-0 entries are leaves here.  `freewalk` would descend through a
    valid level-0 entry without `PTE_R|PTE_W|PTE_X`; the kernel installs
    none (every mapping it makes has `PTE_R`).

    The file holds the definitions and the lemmas that run them one step:
    the setters, `walk`, one page of `mappages`. -/

namespace Xv6.Mem

/-- `MAXVA`: one beyond the highest virtual address, `1 << (9 + 9 + 9 + 12 - 1)`. -/
def MAXVA : Nat := 2 ^ (9 + 9 + 9 + 12 - 1)

/-- `TRAMPOLINE`: the highest page of every address space. -/
def TRAMPOLINE : Nat := MAXVA - PGSIZE

/-- `TRAPFRAME`: the page below the trampoline. -/
def TRAPFRAME : Nat := TRAMPOLINE - PGSIZE

theorem MAXVA_eq : MAXVA = 274877906944 := rfl

theorem TRAMPOLINE_eq : TRAMPOLINE = 274877902848 := rfl

theorem TRAPFRAME_eq : TRAPFRAME = 274877898752 := rfl

/-- The permission bits of a PTE; `PTE_V` is the PTE being there. -/
structure Perm where
  r : Bool
  w : Bool
  x : Bool
  u : Bool
deriving DecidableEq, Repr

instance : OrOp Perm := ⟨fun p q => ⟨p.r || q.r, p.w || q.w, p.x || q.x, p.u || q.u⟩⟩

def PTE_R : Perm := ⟨true, false, false, false⟩

def PTE_W : Perm := ⟨false, true, false, false⟩

def PTE_X : Perm := ⟨false, false, true, false⟩

def PTE_U : Perm := ⟨false, false, false, true⟩

/-- A valid PTE: `PA2PTE(pa) | perm | PTE_V`. -/
structure Pte where
  pa : Nat
  perm : Perm
deriving DecidableEq, Repr

/-- `PX(2, va)`: the root entry of `va`, the key of its level-1 table. -/
def key1 (va : Nat) : Nat := va / 2 ^ 30

/-- `va >> 21`: the root and level-1 entries of `va`, the key of its
    level-0 table. -/
def key0 (va : Nat) : Nat := va / 2 ^ 21

/-- A user page table. -/
structure PageTable where
  root : Nat
  /-- the page of the level-1 table under each root entry, `0` if invalid -/
  l1 : Nat → Nat
  /-- the page of the level-0 table of each 2 MiB region, `0` if invalid -/
  l0 : Nat → Nat
  /-- the leaf PTE of each page-aligned address -/
  leaf : Nat → Option Pte

namespace PageTable

/-- A zeroed root: no entry is valid. -/
def empty (root : Nat) : PageTable := ⟨root, fun _ => 0, fun _ => 0, fun _ => none⟩

/-- Install the zeroed level-1 table `pa` under root entry `i`. -/
def setL1 (pt : PageTable) (i pa : Nat) : PageTable :=
  { pt with l1 := Function.update pt.l1 i pa, l0 := fun j => if j / 512 = i then 0 else pt.l0 j }

/-- Install the zeroed level-0 table `pa` for region `j`. -/
def setL0 (pt : PageTable) (j pa : Nat) : PageTable :=
  { pt with l0 := Function.update pt.l0 j pa,
            leaf := fun a => if key0 a = j then none else pt.leaf a }

def setLeaf (pt : PageTable) (a : Nat) (pte : Option Pte) : PageTable :=
  { pt with leaf := Function.update pt.leaf a pte }

/-- The PTE that `walk(pagetable, va, 0)` finds: the leaf of `va`'s page
    when both tables above it are valid. -/
def lookup (pt : PageTable) (va : Nat) : Option Pte :=
  if pt.l1 (key1 va) ≠ 0 ∧ pt.l0 (key0 va) ≠ 0 then pt.leaf (PGROUNDDOWN va) else none

@[simp] theorem setLeaf_root (pt : PageTable) (a : Nat) (pte : Option Pte) :
    (pt.setLeaf a pte).root = pt.root := rfl

@[simp] theorem setLeaf_l1 (pt : PageTable) (a : Nat) (pte : Option Pte) :
    (pt.setLeaf a pte).l1 = pt.l1 := rfl

@[simp] theorem setLeaf_l0 (pt : PageTable) (a : Nat) (pte : Option Pte) :
    (pt.setLeaf a pte).l0 = pt.l0 := rfl

@[simp] theorem setLeaf_leaf (pt : PageTable) (a : Nat) (pte : Option Pte) :
    (pt.setLeaf a pte).leaf = Function.update pt.leaf a pte := rfl

@[simp] theorem setL1_root (pt : PageTable) (i pa : Nat) : (pt.setL1 i pa).root = pt.root := rfl

@[simp] theorem setL1_leaf (pt : PageTable) (i pa : Nat) : (pt.setL1 i pa).leaf = pt.leaf := rfl

@[simp] theorem setL0_root (pt : PageTable) (j pa : Nat) : (pt.setL0 j pa).root = pt.root := rfl

@[simp] theorem setL0_l1 (pt : PageTable) (j pa : Nat) : (pt.setL0 j pa).l1 = pt.l1 := rfl

end PageTable

/-- A page table being worked on, and physical memory. -/
structure Vm where
  pt : PageTable
  pm : PhysMem

/-- Code of `vm.c`; an error is a `panic`. -/
abbrev VmM := StateT Vm (Except String)

section Code

variable (kend : Nat)

/-- `kalloc()` for the holder `h`. -/
def kallocFor (h : Nat → Holder) : VmM Nat :=
  modifyGet fun s => ((allocFor h s.pm).1, { s with pm := (allocFor h s.pm).2 })

/-- `kfree(pa)`, taking the page from holder `h`. -/
def kfreeFrom (h : Holder) (pa : Nat) : VmM Unit := do
  match freeFrom kend h pa (← get).pm with
  | .ok pm => modify fun s => { s with pm }
  | .error msg => throw msg

/-- The level-2 round of `walk`: the level-1 table of `va`, made when it is
    missing and `alloc`. -/
def walkL1 (va : Nat) (alloc : Bool) : VmM Bool := do
  let s ← get
  if s.pt.l1 (key1 va) ≠ 0 then pure true
  else if alloc then do
    let pa ← kallocFor fun _ => .table s.pt.root 1 (key1 va)
    if pa = 0 then pure false
    else do
      modify fun s => { s with pt := s.pt.setL1 (key1 va) pa }
      pure true
  else pure false

/-- The level-1 round of `walk`: the level-0 table of `va`. -/
def walkL0 (va : Nat) (alloc : Bool) : VmM Bool := do
  let s ← get
  if s.pt.l0 (key0 va) ≠ 0 then pure true
  else if alloc then do
    let pa ← kallocFor fun _ => .table s.pt.root 0 (key0 va)
    if pa = 0 then pure false
    else do
      modify fun s => { s with pt := s.pt.setL0 (key0 va) pa }
      pure true
  else pure false

/-- `walk(pagetable, va, alloc)`: the key of the leaf PTE of `va`, `none`
    (a null `pte_t *`) when a table above it is missing. -/
def walk (va : Nat) (alloc : Bool) : VmM (Option Nat) :=
  if va ≥ MAXVA then throw "walk"
  else do
    if ← walkL1 va alloc then
      if ← walkL0 va alloc then pure (some (PGROUNDDOWN va)) else pure none
    else pure none

/-- `walkaddr(pagetable, va)`: the page of a valid user PTE, else `0`. -/
def walkaddr (pt : PageTable) (va : Nat) : Nat :=
  if va ≥ MAXVA then 0
  else match pt.lookup va with
    | some pte => if pte.perm.u then pte.pa else 0
    | none => 0

/-- The loop of `mappages` from page `a`, mapping to `pa`, up to `last`. -/
def mappagesLoop (last : Nat) (perm : Perm) : Nat → Nat → Nat → VmM Int
  | 0, _, _ => pure 0
  | fuel + 1, a, pa => do
      match ← walk a true with
      | none => pure (-1)
      | some k =>
          if ((← get).pt.leaf k).isSome then throw "mappages: remap"
          else do
            modify fun s => { s with pt := s.pt.setLeaf k (some ⟨pa, perm⟩) }
            if a = last then pure 0 else mappagesLoop last perm fuel (a + PGSIZE) (pa + PGSIZE)

/-- `mappages(pagetable, va, size, pa, perm)`: `size / PGSIZE` pages. -/
def mappages (va size pa : Nat) (perm : Perm) : VmM Int :=
  if va % PGSIZE ≠ 0 then throw "mappages: va not aligned"
  else if size % PGSIZE ≠ 0 then throw "mappages: size not aligned"
  else if size = 0 then throw "mappages: size"
  else mappagesLoop (va + size - PGSIZE) perm (size / PGSIZE) va pa

/-- `uvmcreate()`: a zeroed root, `none` when memory is out. -/
def uvmcreate (pm : PhysMem) : Option PageTable × PhysMem :=
  let (pa, pm) := allocFor (fun pa => .table pa 2 0) pm
  (if pa = 0 then none else some (PageTable.empty pa), pm)

/-- One page of `uvmunmap`: clear the PTE of `a` if it is valid, and free
    its page when `doFree`. -/
def unmapPage (doFree : Bool) (a : Nat) : VmM Unit := do
  match ← walk a false with
  | none => pure ()
  | some k =>
      match (← get).pt.leaf k with
      | none => pure ()
      | some pte => do
          if doFree then kfreeFrom kend (.user (← get).pt.root k) pte.pa
          modify fun s => { s with pt := s.pt.setLeaf k none }

/-- The loop of `uvmunmap` from page `a`, for `n` pages. -/
def uvmunmapLoop (doFree : Bool) : Nat → Nat → VmM Unit
  | 0, _ => pure ()
  | n + 1, a => do
      unmapPage kend doFree a
      uvmunmapLoop doFree n (a + PGSIZE)

/-- `uvmunmap(pagetable, va, npages, do_free)`. -/
def uvmunmap (va npages : Nat) (doFree : Bool) : VmM Unit :=
  if va % PGSIZE ≠ 0 then throw "uvmunmap: not aligned"
  else uvmunmapLoop kend doFree npages va

/-- `uvmdealloc(pagetable, oldsz, newsz)`. -/
def uvmdealloc (oldsz newsz : Nat) : VmM Nat :=
  if newsz ≥ oldsz then pure oldsz
  else do
    if PGROUNDUP newsz < PGROUNDUP oldsz then
      uvmunmap kend (PGROUNDUP newsz) ((PGROUNDUP oldsz - PGROUNDUP newsz) / PGSIZE) true
    pure newsz

/-- The loop of `uvmalloc` from page `a`; `oldsz` is already rounded up.
    A failed `kalloc` or `mappages` gives back what the loop mapped. -/
def uvmallocLoop (oldsz newsz : Nat) (perm : Perm) : Nat → Nat → VmM Nat
  | 0, _ => pure newsz
  | fuel + 1, a =>
      if a < newsz then do
        let root := (← get).pt.root
        let mem ← kallocFor fun _ => .user root a
        if mem = 0 then do
          let _ ← uvmdealloc kend a oldsz
          pure 0
        else if (← mappages a PGSIZE mem perm) ≠ 0 then do
          kfreeFrom kend (.user root a) mem
          let _ ← uvmdealloc kend a oldsz
          pure 0
        else uvmallocLoop oldsz newsz perm fuel (a + PGSIZE)
      else pure newsz

/-- `uvmalloc(pagetable, oldsz, newsz, xperm)`.  The loop runs at most
    `newsz / PGSIZE + 1` rounds. -/
def uvmalloc (oldsz newsz : Nat) (xperm : Perm) : VmM Nat :=
  if newsz < oldsz then pure oldsz
  else uvmallocLoop kend (PGROUNDUP oldsz) newsz (PTE_R ||| PTE_U ||| xperm) (newsz / PGSIZE + 1)
    (PGROUNDUP oldsz)

/-- `freewalk` of the level-0 table of region `j`: a valid entry is a leaf. -/
def freewalk0 (j : Nat) : VmM Unit := do
  (List.range 512).forM fun k => do
    if ((← get).pt.leaf ((j * 512 + k) * PGSIZE)).isSome then throw "freewalk: leaf"
  let s ← get
  kfreeFrom kend (.table s.pt.root 0 j) (s.pt.l0 j)

/-- `freewalk` of the level-1 table under root entry `i`. -/
def freewalk1 (i : Nat) : VmM Unit := do
  (List.range 512).forM fun k => do
    if (← get).pt.l0 (i * 512 + k) ≠ 0 then
      freewalk0 kend (i * 512 + k)
      modify fun s => { s with pt := { s.pt with l0 := Function.update s.pt.l0 (i * 512 + k) 0 } }
  let s ← get
  kfreeFrom kend (.table s.pt.root 1 i) (s.pt.l1 i)

/-- `freewalk(pagetable)`: free the tables; a leaf left is a panic. -/
def freewalk : VmM Unit := do
  (List.range 512).forM fun i => do
    if (← get).pt.l1 i ≠ 0 then
      freewalk1 kend i
      modify fun s => { s with pt := { s.pt with l1 := Function.update s.pt.l1 i 0 } }
  let s ← get
  kfreeFrom kend (.table s.pt.root 2 0) s.pt.root

/-- `uvmfree(pagetable, sz)`. -/
def uvmfree (sz : Nat) : VmM Unit := do
  if sz > 0 then uvmunmap kend 0 (PGROUNDUP sz / PGSIZE) true
  freewalk kend

/-- The loop of `uvmcopy` from page `i`, copying `old` into the table of
    the state.  A failure unmaps and frees what the loop mapped. -/
def uvmcopyLoop (old : PageTable) (sz : Nat) : Nat → Nat → VmM Int
  | 0, _ => pure 0
  | fuel + 1, i =>
      if i < sz then
        if i ≥ MAXVA then throw "walk"
        else match old.lookup i with
          | none => uvmcopyLoop old sz fuel (i + PGSIZE)
          | some pte => do
              let root := (← get).pt.root
              let mem ← kallocFor fun _ => .user root i
              if mem = 0 then do
                uvmunmap kend 0 (i / PGSIZE) true
                pure (-1)
              else if (← mappages i PGSIZE mem pte.perm) ≠ 0 then do
                kfreeFrom kend (.user root i) mem
                uvmunmap kend 0 (i / PGSIZE) true
                pure (-1)
              else uvmcopyLoop old sz fuel (i + PGSIZE)
      else pure 0

/-- `uvmcopy(old, new, sz)`, with `new` the table of the state. -/
def uvmcopy (old : PageTable) (sz : Nat) : VmM Int :=
  uvmcopyLoop kend old sz (sz / PGSIZE + 1) 0

/-- `uvmclear(pagetable, va)`: clear `PTE_U`. -/
def uvmclear (va : Nat) : VmM Unit := do
  match ← walk va false with
  | none => throw "uvmclear"
  | some k =>
      modify fun s =>
        let cleared := (s.pt.leaf k).map fun pte => { pte with perm := { pte.perm with u := false } }
        { s with pt := s.pt.setLeaf k cleared }

end Code

end Xv6.Mem
