import Xv6.Lib.Keeps
import Xv6.Lib.Scan
import Xv6.Fs.Layout

/-! # Blocks and inodes

    The allocator, the inode table and inode contents of `fs.c`, one
    definition per C function, in the order of the source.

    * `balloc`, `bfree`: the first free bit of the bitmap is taken; a free
      bit is never cleared twice ("freeing free block");
    * `ialloc`, `iget`, `idup`, `ilock`, `iunlock`, `iput`, `iupdate`: the
      inode table, with the panics "iget: no inodes", "ilock",
      "ilock: no type" and "iunlock";
    * `bmap`, `itrunc`: the block map of an inode; `bmap` allocates a block
      for an unmapped logical block, on the read path as on the write path;
    * `readi`, `writei`: the copy loops.  They run on `fuel`, one iteration
      per unit; each iteration copies at least one byte, so `n` units
      suffice for `n` bytes.

    Copies to and from user memory (`either_copyout`, `either_copyin`)
    succeed: the bytes read are returned, the bytes written are given. -/

namespace Xv6.Fs

/-! ## Blocks -/

/-- `bzero(dev, bno)`. -/
def bzero (bno : Nat) : FsM Unit := do
  setData bno fun _ => 0
  logWrite bno

/-- `balloc(dev)`: the scan visits blocks `0 .. sb.size - 1` in order, a
    bitmap block at a time; the bitmap block logged is `BBLOCK` of the
    block found.  `0` when the disk is full. -/
def balloc : FsM Nat := do
  let s ← get
  match Scan.firstFrom (fun b => !s.disk.used b) 0 s.disk.sb.size with
  | some b =>
      setUsed b true
      logWrite (BBLOCK b s.disk.sb)
      bzero b
      return b
  | none => return 0

/-- `bfree(dev, b)`. -/
def bfree (b : Nat) : FsM Unit := do
  let s ← get
  if s.disk.used b = false then panic "freeing free block"
  setUsed b false
  logWrite (BBLOCK b s.disk.sb)

/-! ## The inode table -/

/-- `iget(dev, inum)`: a slot that holds `inum` gains a reference;
    otherwise the first free slot is recycled, not yet `valid`. -/
def iget (inum : Nat) : FsM (Fin NINODE) := do
  let s ← get
  match (List.finRange NINODE).find? (fun i => 0 < (s.itable i).ref && (s.itable i).inum == inum) with
  | some i =>
      modifyInode i fun ip => { ip with ref := ip.ref + 1 }
      return i
  | none =>
      match (List.finRange NINODE).find? (fun i => (s.itable i).ref == 0) with
      | some i =>
          setInode i { s.itable i with inum := inum, ref := 1, valid := false }
          return i
      | none => panic "iget: no inodes"

/-- `ialloc(dev, type)`: the first i-number from `1` whose `dinode` is
    free; `none` when there is none. -/
def ialloc (type : Int16) : FsM (Option (Fin NINODE)) := do
  let s ← get
  match Scan.firstFrom (fun inum => (s.disk.dinode inum).type == 0) 1 (s.disk.sb.ninodes - 1) with
  | some inum =>
      setDinode inum { DInode.zero with type := type }
      logWrite (IBLOCK inum s.disk.sb)
      some <$> iget inum
  | none => return none

/-- `iupdate(ip)`. -/
def iupdate (i : Fin NINODE) : FsM Unit := do
  let ip ← getInode i
  setDinode ip.inum ip.toDinode
  logWrite (IBLOCK ip.inum (← get).disk.sb)

/-- `idup(ip)`. -/
def idup (i : Fin NINODE) : FsM (Fin NINODE) := do
  modifyInode i fun ip => { ip with ref := ip.ref + 1 }
  return i

/-- `ilock(ip)`: the `dinode` is read when the slot is not `valid`. -/
def ilock (i : Fin NINODE) : FsM Unit := do
  let ip ← getInode i
  if ip.ref < 1 then panic "ilock"
  if !ip.valid then
    let d := (← get).disk.dinode ip.inum
    setInode i { ip.load d with valid := true }
    if d.type = 0 then panic "ilock: no type"

/-- `iunlock(ip)`; the caller always holds the sleep-lock here. -/
def iunlock (i : Fin NINODE) : FsM Unit := do
  if (← getInode i).ref < 1 then panic "iunlock"

/-! ## Inode content -/

/-- The slot of `addrs` for direct block `bn`. -/
def direct (bn : Fin NDIRECT) : Fin (NDIRECT + 1) := bn.castSucc

/-- The slot of `addrs` for the indirect block. -/
def indirect : Fin (NDIRECT + 1) := Fin.last NDIRECT

/-- Entry `j` of an indirect block, `((uint*)bp->data)[j]`. -/
def indirectEntry (blk : Nat → UInt8) (j : Nat) : Nat := Bytes.getLE blk (4 * j) 4

/-- `bmap` once the indirect block `ind` exists: entry `bn` of it, or a
    fresh block written into it. -/
def bmapIndirect (ind bn : Nat) : FsM Nat := do
  let a := (← get).disk.data ind
  let addr := indirectEntry a bn
  if addr ≠ 0 then return addr
  let addr ← balloc
  if addr ≠ 0 then
    setData ind (Bytes.setLE a (4 * bn) addr 4)
    logWrite ind
  return addr

/-- `bmap(ip, bn)`: the disk block of logical block `bn`, allocated when
    there is none; `0` when the disk is full. -/
def bmap (i : Fin NINODE) (bn : Nat) : FsM Nat := do
  let ip ← getInode i
  if h : bn < NDIRECT then
    let k := direct ⟨bn, h⟩
    if ip.addrs k ≠ 0 then return ip.addrs k
    let addr ← balloc
    if addr = 0 then return 0
    modifyInode i fun ip => { ip with addrs := Function.update ip.addrs k addr }
    return addr
  else if bn - NDIRECT < NINDIRECT then
    if ip.addrs indirect ≠ 0 then bmapIndirect (ip.addrs indirect) (bn - NDIRECT)
    else
      let addr ← balloc
      if addr = 0 then return 0
      modifyInode i fun ip => { ip with addrs := Function.update ip.addrs indirect addr }
      bmapIndirect addr (bn - NDIRECT)
  else panic "bmap: out of range"

/-- `itrunc(ip)`: frees the direct blocks, the blocks of the indirect
    block and the indirect block itself. -/
def itrunc (i : Fin NINODE) : FsM Unit := do
  (List.finRange NDIRECT).forM fun k => do
    let ip ← getInode i
    if ip.addrs (direct k) ≠ 0 then
      bfree (ip.addrs (direct k))
      modifyInode i fun ip => { ip with addrs := Function.update ip.addrs (direct k) 0 }
  let ip ← getInode i
  if ip.addrs indirect ≠ 0 then
    let a := (← get).disk.data (ip.addrs indirect)
    (List.range NINDIRECT).forM fun j => do
      if indirectEntry a j ≠ 0 then bfree (indirectEntry a j)
    bfree (ip.addrs indirect)
    modifyInode i fun ip => { ip with addrs := Function.update ip.addrs indirect 0 }
  modifyInode i fun ip => { ip with size := 0 }
  iupdate i

/-- `iput(ip)`: the last reference to an inode with no links frees it. -/
def iput (i : Fin NINODE) : FsM Unit := do
  let ip ← getInode i
  if ip.ref = 1 ∧ ip.valid = true ∧ ip.nlink = 0 then
    itrunc i
    modifyInode i fun ip => { ip with type := 0 }
    iupdate i
    modifyInode i fun ip => { ip with valid := false }
  modifyInode i fun ip => { ip with ref := ip.ref - 1 }

/-- `iunlockput(ip)`. -/
def iunlockput (i : Fin NINODE) : FsM Unit := do
  iunlock i
  iput i

/-- The loop of `readi` from offset `off`, with `tot` bytes read into
    `dst`; it stops early where `bmap` finds no block. -/
def readiLoop (i : Fin NINODE) (n : Nat) : Nat → Nat → List UInt8 → Nat → FsM (Nat × List UInt8)
  | _, tot, dst, 0 => return (tot, dst)
  | off, tot, dst, fuel + 1 => do
      if tot < n then
        let addr ← bmap i (off / BSIZE)
        if addr = 0 then return (tot, dst)
        let m := min (n - tot) (BSIZE - off % BSIZE)
        let bytes := Bytes.readBytes ((← get).disk.data addr) (off % BSIZE) m
        readiLoop i n (off + m) (tot + m) (dst ++ bytes) fuel
      else return (tot, dst)

/-- `readi(ip, user_dst, dst, off, n)`: the count and the bytes read.
    `off` and `n` are `uint`s, below `2^32`. -/
def readi (i : Fin NINODE) (off n : Nat) : FsM (Nat × List UInt8) := do
  let ip ← getInode i
  if off > ip.size ∨ (off + n) % 2 ^ 32 < off then return (0, [])
  let n := if off + n > ip.size then ip.size - off else n
  readiLoop i n off 0 [] n

/-- The loop of `writei`: the offset reached and the count written. -/
def writeiLoop (i : Fin NINODE) (src : List UInt8) (n : Nat) :
    Nat → Nat → Nat → FsM (Nat × Nat)
  | off, tot, 0 => return (off, tot)
  | off, tot, fuel + 1 => do
      if tot < n then
        let addr ← bmap i (off / BSIZE)
        if addr = 0 then return (off, tot)
        let m := min (n - tot) (BSIZE - off % BSIZE)
        setData addr (Bytes.copyBytes ((← get).disk.data addr) (off % BSIZE) (Bytes.ofList src) tot m)
        logWrite addr
        writeiLoop i src n (off + m) (tot + m) fuel
      else return (off, tot)

/-- `writei(ip, user_src, src, off, n)` for the `n = src.length` bytes of
    `src`: the count written, or `-1`. -/
def writei (i : Fin NINODE) (src : List UInt8) (off : Nat) : FsM Int := do
  let n := src.length
  let ip ← getInode i
  if off > ip.size ∨ (off + n) % 2 ^ 32 < off then return -1
  if off + n > MAXFILE * BSIZE then return -1
  let (off, tot) ← writeiLoop i src n off 0 n
  if off > (← getInode i).size then modifyInode i fun ip => { ip with size := off }
  iupdate i
  return tot

/-- `ilock` of a slot already read from disk does nothing. -/
theorem ilock_run_valid {s : FsState} {i : Fin NINODE} (hvalid : (s.itable i).valid = true)
    (href : 1 ≤ (s.itable i).ref) : (ilock i).run s = pure ((), s) := by
  simp only [ilock, getInode, StateT.run_bind, StateT.run_get, StateT.run_pure, pure_bind,
    if_neg (Nat.not_lt.mpr href), hvalid]
  rfl

theorem iunlock_run {s : FsState} {i : Fin NINODE} (href : 1 ≤ (s.itable i).ref) : (iunlock i).run s = pure ((), s) := by
  simp only [iunlock, getInode, StateT.run_bind, StateT.run_get, StateT.run_pure, pure_bind,
    if_neg (Nat.not_lt.mpr href)]

theorem iput_run_linked {s : FsState} {i : Fin NINODE} (hlink : (s.itable i).nlink ≠ 0) :
    ∃ t, (iput i).run s = pure ((), { s with itable := t }) := by
  simp only [iput, getInode, StateT.run_bind, StateT.run_get, StateT.run_pure, pure_bind]
  rw [if_neg (fun h => hlink h.2.2)]
  exact ⟨_, rfl⟩

/-! ## The inode blocks on the read path

    `bmap` records a block it allocates in the in-memory inode only; the
    `dinode` on disk changes when the caller runs `iupdate`, which
    `writei` does and `readi` does not. -/

section Frame

open StateExcept

variable {D : Nat → DInode}

/-- The inode blocks hold `D`. -/
def DinodesAre (D : Nat → DInode) (s : FsState) : Prop := s.disk.dinode = D

theorem setUsed_keeps_dinodes (b : Nat) (v : Bool) : Keeps (DinodesAre D) (setUsed b v) :=
  Keeps.modify fun _ h => h

theorem setData_keeps_dinodes (b : Nat) (blk : Nat → UInt8) : Keeps (DinodesAre D) (setData b blk) :=
  Keeps.modify fun _ h => h

theorem modifyInode_keeps_dinodes (i : Fin NINODE) (f : Inode → Inode) :
    Keeps (DinodesAre D) (modifyInode i f) :=
  Keeps.modify fun _ h => h

theorem setInode_keeps_dinodes (i : Fin NINODE) (ip : Inode) : Keeps (DinodesAre D) (setInode i ip) :=
  Keeps.modify fun _ h => h

theorem getInode_keeps (P : FsState → Prop) (i : Fin NINODE) : Keeps P (getInode i) :=
  Keeps.get.bind fun _ => Keeps.pure _

theorem logWrite_keeps_dinodes (b : Nat) : Keeps (DinodesAre D) (logWrite b) := by
  unfold logWrite
  refine Keeps.get.bind fun s => ?_
  split
  · exact Keeps.modify fun _ h => h
  · exact Keeps.throw _

theorem bzero_keeps_dinodes (b : Nat) : Keeps (DinodesAre D) (bzero b) :=
  (setData_keeps_dinodes b _).bind fun _ => logWrite_keeps_dinodes b

theorem balloc_keeps_dinodes : Keeps (DinodesAre D) balloc := by
  unfold balloc
  refine Keeps.get.bind fun s => ?_
  split
  · exact (setUsed_keeps_dinodes _ _).bind fun _ => (logWrite_keeps_dinodes _).bind fun _ =>
      (bzero_keeps_dinodes _).bind fun _ => Keeps.pure _
  · exact Keeps.pure _

theorem bmapIndirect_keeps_dinodes (ind bn : Nat) : Keeps (DinodesAre D) (bmapIndirect ind bn) := by
  unfold bmapIndirect
  refine Keeps.get.bind fun s => Keeps.ite (Keeps.pure _) ?_
  refine balloc_keeps_dinodes.bind fun addr => ?_
  dsimp only
  refine Keeps.ite ?_ (Keeps.pure _)
  exact (setData_keeps_dinodes _ _).bind fun _ => (logWrite_keeps_dinodes _).bind fun _ => Keeps.pure _

theorem bmap_keeps_dinodes (i : Fin NINODE) (bn : Nat) : Keeps (DinodesAre D) (bmap i bn) := by
  unfold bmap
  refine (getInode_keeps _ i).bind fun ip => Keeps.dite (fun _ => ?_) (fun _ => ?_)
  · -- a direct block
    refine Keeps.ite (Keeps.pure _) (balloc_keeps_dinodes.bind fun addr => ?_)
    exact Keeps.ite (Keeps.pure _) ((modifyInode_keeps_dinodes _ _).bind fun _ => Keeps.pure _)
  · -- a block of the indirect block
    refine Keeps.ite (Keeps.ite (bmapIndirect_keeps_dinodes _ _) ?_) (Keeps.throw _)
    refine balloc_keeps_dinodes.bind fun addr => Keeps.ite (Keeps.pure _) ?_
    exact (modifyInode_keeps_dinodes _ _).bind fun _ => bmapIndirect_keeps_dinodes _ _

theorem readiLoop_keeps_dinodes (i : Fin NINODE) (n : Nat) :
    ∀ (off tot : Nat) (dst : List UInt8) (fuel : Nat),
      Keeps (DinodesAre D) (readiLoop i n off tot dst fuel)
  | _, _, _, 0 => Keeps.pure _
  | off, tot, dst, fuel + 1 => by
      unfold readiLoop
      refine Keeps.ite ?_ (Keeps.pure _)
      refine (bmap_keeps_dinodes i _).bind fun addr => Keeps.ite (Keeps.pure _) ?_
      exact Keeps.get.bind fun _ => readiLoop_keeps_dinodes i n _ _ _ fuel

/-- `readi` never writes an inode block, whatever it allocates. -/
theorem readi_keeps_dinodes (i : Fin NINODE) (off n : Nat) : Keeps (DinodesAre D) (readi i off n) := by
  unfold readi
  refine (getInode_keeps _ i).bind fun ip => Keeps.ite (Keeps.pure _) ?_
  exact readiLoop_keeps_dinodes i _ _ _ _ _

end Frame

end Xv6.Fs
