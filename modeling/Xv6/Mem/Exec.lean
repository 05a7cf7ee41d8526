import Xv6.Mem.Proc

/-! # `exec`

    `kexec` of `exec.c` on the memory of the calling process: build a new
    table from the program headers of an ELF file, add a stack with a guard
    page below it, push the arguments, then swap the new image in and free
    the old one.  A failure after the new table exists (`goto bad`) frees
    the new table with the size built so far.

    The file is given by what its reads return: whether `readi` of `n`
    bytes at offset `off` returns all `n`, and the ELF and program headers
    found where they are read.  The arguments are given by their lengths.
    Fields keep the widths of `elf.h`, so the overflow checks of `kexec` are
    checks on `UInt64`. -/

namespace Xv6.Mem

/-- `MAXARG`: the most arguments of `exec`. -/
def MAXARG : Nat := 32

/-- `USERSTACK`: the pages of the user stack. -/
def USERSTACK : Nat := 1

/-- `ELF_MAGIC`: `"\x7FELF"` in little endian. -/
def ELF_MAGIC : UInt32 := 0x464C457F

/-- `ELF_PROG_LOAD`. -/
def ELF_PROG_LOAD : UInt32 := 1

/-- The fields of `struct elfhdr` that `kexec` reads. -/
structure ElfHdr where
  magic : UInt32
  phoff : UInt64
  phnum : UInt16

/-- The fields of `struct proghdr` that `kexec` reads. -/
structure ProgHdr where
  type : UInt32
  flags : UInt32
  off : UInt64
  vaddr : UInt64
  filesz : UInt64
  memsz : UInt64

/-- An executable as `kexec` sees it. -/
structure ExecFile where
  /-- whether `readi(ip, 0, dst, off, n)` returns `n` -/
  readOk : Nat → Nat → Bool
  elf : ElfHdr
  /-- the program header read at an offset -/
  ph : Nat → ProgHdr

/-- `sizeof(struct elfhdr)`. -/
def ELFHDR_SIZE : Nat := 64

/-- `sizeof(struct proghdr)`. -/
def PROGHDR_SIZE : Nat := 56

/-- `flags2perm(flags)`. -/
def flags2perm (flags : UInt32) : Perm :=
  let perm : Perm := if flags &&& 0x1 ≠ 0 then PTE_X else ⟨false, false, false, false⟩
  if flags &&& 0x2 ≠ 0 then perm ||| PTE_W else perm

section Code

variable (kend trampoline : Nat)

/-- The loop of `loadseg` from offset `i` of the segment. -/
def loadsegLoop (va : Nat) (ip : ExecFile) (offset sz : Nat) : Nat → Nat → VmM Int
  | 0, _ => pure 0
  | fuel + 1, i =>
      if i < sz then do
        if walkaddr (← get).pt (va + i) = 0 then throw "loadseg: address should exist"
        else
          let n := if sz - i < PGSIZE then sz - i else PGSIZE
          if ip.readOk ((offset + i) % 2 ^ 32) n then loadsegLoop va ip offset sz fuel (i + PGSIZE)
          else pure (-1)
      else pure 0

/-- `loadseg(pagetable, va, ip, offset, sz)`, on the table of the state. -/
def loadseg (va : Nat) (ip : ExecFile) (offset sz : Nat) : VmM Int :=
  loadsegLoop va ip offset sz (sz / PGSIZE + 1) 0

/-- The loop of `kexec` over the program headers, from the header at `off`
    with the image `sz` bytes so far.  The answer is the size and whether
    no check failed (`false` is `goto bad`). -/
def loadSegments (ip : ExecFile) : Nat → Nat → Nat → VmM (Nat × Bool)
  | 0, _, sz => pure (sz, true)
  | n + 1, off, sz =>
      if !ip.readOk off PROGHDR_SIZE then pure (sz, false)
      else
        let ph := ip.ph off
        let next := (off + PROGHDR_SIZE) % 2 ^ 32
        if ph.type ≠ ELF_PROG_LOAD then loadSegments ip n next sz
        else if ph.memsz < ph.filesz then pure (sz, false)
        else if ph.vaddr + ph.memsz < ph.vaddr then pure (sz, false)
        else if ph.vaddr.toNat % PGSIZE ≠ 0 then pure (sz, false)
        else do
          let sz1 ← uvmalloc kend sz (ph.vaddr + ph.memsz).toNat (flags2perm ph.flags)
          if sz1 = 0 then pure (sz, false)
          else if (← loadseg ph.vaddr.toNat ip ph.off.toUInt32.toNat ph.filesz.toUInt32.toNat) < 0 then
            pure (sz1, false)
          else loadSegments ip n next sz1

/-- The loop of `kexec` over the argument strings, of lengths `argv`:
    push each with its `0` below `sp`, no lower than `stackbase`.  The
    answer is `argc` and `sp`, or `none` for `goto bad`. -/
def pushArgs (p : Fin NPROC) (pagetable : Nat) (stackbase : UInt64) :
    List Nat → Nat → UInt64 → SysM (Option (Nat × UInt64))
  | [], argc, sp => pure (some (argc, sp))
  | len :: argv, argc, sp =>
      if argc ≥ MAXARG then pure none
      else
        let sp := sp - UInt64.ofNat (len + 1)
        -- riscv sp must be 16-byte aligned
        let sp := sp - sp % 16
        if sp < stackbase then pure none
        else do
          if (← copyout kend p pagetable sp.toNat (len + 1)) < 0 then pure none
          else pushArgs p pagetable stackbase argv (argc + 1) sp

/-- `bad:` of `kexec` once the new table exists. -/
def execBad (pagetable sz : Nat) : SysM Int := do
  onTable pagetable (proc_freepagetable kend sz)
  pure (-1)

/-- `kexec` after the program is loaded into the table at `pagetable`,
    `sz` bytes: the stack, the arguments, the commit. -/
def execStack (p : Fin NPROC) (pagetable sz : Nat) (argv : List Nat) : SysM Int := do
  let oldsz := ((← get).procs p).sz
  let sz := PGROUNDUP sz
  let sz1 ← onTable pagetable (uvmalloc kend sz (sz + (USERSTACK + 1) * PGSIZE) PTE_W)
  if sz1 = 0 then execBad kend pagetable sz
  else
    let sz := sz1
    onTable pagetable (uvmclear (sz - (USERSTACK + 1) * PGSIZE))
    let sp : UInt64 := UInt64.ofNat sz
    let stackbase := sp - UInt64.ofNat (USERSTACK * PGSIZE)
    match ← pushArgs kend p pagetable stackbase argv 0 sp with
    | none => execBad kend pagetable sz
    | some (argc, sp) =>
        -- push a copy of `ustack[]`, the `argc + 1` argument pointers
        let sp := sp - UInt64.ofNat ((argc + 1) * 8)
        let sp := sp - sp % 16
        if sp < stackbase then execBad kend pagetable sz
        else if (← copyout kend p pagetable sp.toNat ((argc + 1) * 8)) < 0 then
          execBad kend pagetable sz
        else
          -- commit to the user image
          let oldpagetable := ((← get).procs p).pagetable
          setProc p fun pr => { pr with pagetable, sz }
          onTable oldpagetable (proc_freepagetable kend oldsz)
          pure argc

/-- `kexec(path, argv)` in process `p`; `ip` is what `namei(path)` found. -/
def kexec (p : Fin NPROC) (ip : Option ExecFile) (argv : List Nat) : SysM Int := do
  match ip with
  | none => pure (-1)
  | some ip =>
      if !ip.readOk 0 ELFHDR_SIZE || ip.elf.magic ≠ ELF_MAGIC then pure (-1)
      else
        let pagetable ← proc_pagetable kend trampoline p
        if pagetable = 0 then pure (-1)
        else
          let (sz, ok) ← onTable pagetable
            (loadSegments kend ip ip.elf.phnum.toNat (ip.elf.phoff.toNat % 2 ^ 32) 0)
          if !ok then execBad kend pagetable sz
          else execStack kend p pagetable sz argv

end Code

end Xv6.Mem
