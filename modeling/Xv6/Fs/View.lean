import Xv6.Fs.System

/-! # What the disk holds

    The on-disk file system as its invariants speak of it, read from a
    `Disk` without running kernel code: the blocks each allocated inode
    references, the entries of each directory, the directories reachable
    from the root, and the logical blocks of a file that have no disk
    block (holes).

    * `BlockOwnership`: every referenced block is a used data block,
      referenced once, and every used data block is referenced;
    * `DirReachable`, `dirReachable_eq_root`: the directories reachable from
      `ROOTINO` through live entries other than `.` and `..`; a root with no
      such entry reaches only itself;
    Concrete runs are checked with `StateExcept.checkOk`. -/

namespace Xv6.Fs

/-- The first data block: the blocks below it are boot, superblock, log,
    inodes and bitmap. -/
def dataStart (d : Disk) : Nat := d.sb.size - d.sb.nblocks

/-- Allocated inodes: the i-numbers of `1 .. ninodes - 1` with a type. -/
def allocated (d : Disk) : List Nat :=
  (List.range d.sb.ninodes).filter fun inum => 1 ≤ inum ∧ (d.dinode inum).type ≠ 0

/-- The disk block of logical block `bn` of `din`, `0` where it has none. -/
def blockOf (d : Disk) (din : DInode) (bn : Nat) : Nat :=
  if h : bn < NDIRECT then din.addrs (direct ⟨bn, h⟩)
  else if bn - NDIRECT < NINDIRECT ∧ din.addrs indirect ≠ 0 then
    indirectEntry (d.data (din.addrs indirect)) (bn - NDIRECT)
  else 0

/-- The blocks `din` references: its direct blocks, its indirect block and
    the entries of the indirect block, each slot that is not `0`. -/
def blockRefs (d : Disk) (din : DInode) : List Nat :=
  ((List.finRange NDIRECT).map fun k => din.addrs (direct k)).filter (· ≠ 0) ++
    if din.addrs indirect = 0 then []
    else din.addrs indirect ::
      ((List.range NINDIRECT).map (indirectEntry (d.data (din.addrs indirect)))).filter (· ≠ 0)

/-- The block-ownership invariant. -/
structure BlockOwnership (d : Disk) : Prop where
  referenced_used : ∀ inum ∈ allocated d, ∀ b ∈ blockRefs d (d.dinode inum),
    d.used b = true ∧ dataStart d ≤ b ∧ b < d.sb.size
  referenced_once : ((allocated d).flatMap fun inum => blockRefs d (d.dinode inum)).Nodup
  used_referenced : ∀ b, dataStart d ≤ b → b < d.sb.size → d.used b = true →
    ∃ inum ∈ allocated d, b ∈ blockRefs d (d.dinode inum)

/-- A used data block that no allocated inode references. -/
def Leaked (d : Disk) (b : Nat) : Prop :=
  d.used b = true ∧ dataStart d ≤ b ∧ b < d.sb.size ∧
    ∀ inum ∈ allocated d, b ∉ blockRefs d (d.dinode inum)

instance (d : Disk) : Decidable (BlockOwnership d) :=
  decidable_of_iff ((∀ inum ∈ allocated d, ∀ b ∈ blockRefs d (d.dinode inum),
      d.used b = true ∧ dataStart d ≤ b ∧ b < d.sb.size) ∧
    ((allocated d).flatMap fun inum => blockRefs d (d.dinode inum)).Nodup ∧
    ∀ b < d.sb.size, dataStart d ≤ b → d.used b = true →
      ∃ inum ∈ allocated d, b ∈ blockRefs d (d.dinode inum))
    ⟨fun ⟨h₁, h₂, h₃⟩ => ⟨h₁, h₂, fun b hlo hhi hu => h₃ b hhi hlo hu⟩,
     fun ⟨h₁, h₂, h₃⟩ => ⟨h₁, h₂, fun b hhi hlo hu => h₃ b hlo hhi hu⟩⟩

instance (d : Disk) (b : Nat) : Decidable (Leaked d b) := by
  unfold Leaked
  infer_instance

theorem not_blockOwnership_of_leaked {d : Disk} {b : Nat} (h : Leaked d b) :
    ¬ BlockOwnership d := by
  intro hown
  obtain ⟨hused, hlo, hhi, hnone⟩ := h
  obtain ⟨inum, hmem, href⟩ := hown.used_referenced b hlo hhi hused
  exact hnone inum hmem href

/-- A logical block below the size of `din` with no disk block. -/
def Hole (d : Disk) (din : DInode) (bn : Nat) : Prop :=
  bn * BSIZE < din.size ∧ blockOf d din bn = 0

instance (d : Disk) (din : DInode) (bn : Nat) : Decidable (Hole d din bn) := by
  unfold Hole
  infer_instance

/-! ## Directories -/

/-- The bytes of a block, zeros where there is no block. -/
def blockData (d : Disk) (b : Nat) : Nat → UInt8 :=
  if b = 0 then fun _ => 0 else d.data b

/-- Entry `k` of directory `din`, as `sizeof(struct dirent)` bytes. -/
def direntAt (d : Disk) (din : DInode) (k : Nat) : List UInt8 :=
  let off := k * DIRENT_SIZE
  Bytes.readBytes (blockData d (blockOf d din (off / BSIZE))) (off % BSIZE) DIRENT_SIZE

/-- The entries of directory `inum`, in order: `(de.inum, de.name)`. -/
def entries (d : Disk) (inum : Nat) : List (Nat × List UInt8) :=
  (List.range ((d.dinode inum).size / DIRENT_SIZE)).map fun k =>
    let de := direntAt d (d.dinode inum) k
    (direntInum de, direntName de)

/-- A live entry that is not `.` or `..`. -/
def IsChild (e : Nat × List UInt8) : Prop :=
  e.1 ≠ 0 ∧ namecmp e.2 dot ≠ 0 ∧ namecmp e.2 dotdot ≠ 0

instance (e : Nat × List UInt8) : Decidable (IsChild e) := by
  unfold IsChild
  infer_instance

/-- Directories reachable from the root through child entries. -/
inductive DirReachable (d : Disk) : Nat → Prop where
  | root : DirReachable d ROOTINO
  | child {p : Nat} {e : Nat × List UInt8} : DirReachable d p → e ∈ entries d p → IsChild e →
      (d.dinode e.1).type = T_DIR → DirReachable d e.1

/-- A root directory whose only child entries name non-directories
    reaches only itself. -/
theorem dirReachable_eq_root {d : Disk}
    (hroot : ∀ e ∈ entries d ROOTINO, IsChild e → (d.dinode e.1).type ≠ T_DIR) {p : Nat}
    (h : DirReachable d p) : p = ROOTINO := by
  induction h with
  | root => rfl
  | child _ hmem hchild hdir ih =>
      subst ih
      exact absurd hdir (hroot _ hmem hchild)

/-- A live entry of directory `dir` whose name equals `name`. -/
def HasEntry (d : Disk) (dir : Nat) (name : List UInt8) : Prop :=
  ∃ e ∈ entries d dir, e.1 ≠ 0 ∧ namecmp name e.2 = 0

instance (d : Disk) (dir : Nat) (name : List UInt8) : Decidable (HasEntry d dir name) := by
  unfold HasEntry
  infer_instance

/-- No two live entries of directory `dir` have names equal under
    `namecmp`. -/
def DistinctNames (d : Disk) (dir : Nat) : Prop :=
  ((entries d dir).filter (·.1 ≠ 0)).Pairwise fun e e' => namecmp e.2 e'.2 ≠ 0

instance (d : Disk) (dir : Nat) : Decidable (DistinctNames d dir) := by
  unfold DistinctNames
  infer_instance

end Xv6.Fs
