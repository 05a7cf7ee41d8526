import Xv6.Fs.View
import Xv6.Mkfs

/-! # Holes in the root directory

    `mkfs` ends by rounding the root's size up to the next block boundary:
    `off = ((off/BSIZE) + 1) * BSIZE`.  When the root's entries end exactly
    on a block boundary (64 entries: `.`, `..` and 62 files) this adds a
    whole block to the size and none to `addrs`, a hole.  The kernel reads
    a directory through `readi`, and `readi` maps every block through
    `bmap`, which allocates a block where there is none:

    * outside a transaction the allocation's `log_write` panics
      (`readi_run_hole`, `fileread_run_hole`): `fileread` of the root
      reaches "log_write outside of trans";
    * inside a transaction the block is marked used and recorded in the
      in-memory inode only, since `readi` never writes an inode block
      (`readi_keeps_dinodes`): a failed lookup in the root leaves a used
      block that no inode on disk references. -/

namespace Xv6.Fs

open StateExcept (checkOk exists_of_checkOk panicMsg eq_error_of_panicMsg)

open Mkfs

/-! ## Reading a hole outside a transaction -/

section ReadPath

variable {s : FsState}

theorem logWrite_run_outside (b : Nat) (hroom : s.log.lh.length < LOGBLOCKS)
    (hout : s.log.outstanding = 0) : (logWrite b).run s = .error "log_write outside of trans" := by
  simp only [logWrite, StateT.run_bind, StateT.run_get, pure_bind,
    Log.logWrite_of_outside b hroom hout]
  rfl

/-- With a free block on disk and no transaction open, `balloc` panics in
    the `log_write` of the bitmap block. -/
theorem balloc_run_outside {b : Nat}
    (hfree : Scan.firstFrom (fun b => !s.disk.used b) 0 s.disk.sb.size = some b)
    (hroom : s.log.lh.length < LOGBLOCKS) (hout : s.log.outstanding = 0) :
    balloc.run s = .error "log_write outside of trans" := by
  simp only [balloc, StateT.run_bind, StateT.run_get, pure_bind, hfree]
  simp only [setUsed, StateT.run_modify, pure_bind]
  -- `setUsed` leaves the log as it was
  simp only [logWrite_run_outside, hroom, hout]
  rfl

theorem bmap_run_hole {i : Fin NINODE} {bn b : Nat} (hbn : bn < NDIRECT)
    (hhole : (s.itable i).addrs (direct ⟨bn, hbn⟩) = 0)
    (hfree : Scan.firstFrom (fun b => !s.disk.used b) 0 s.disk.sb.size = some b)
    (hroom : s.log.lh.length < LOGBLOCKS) (hout : s.log.outstanding = 0) :
    (bmap i bn).run s = .error "log_write outside of trans" := by
  simp only [bmap, getInode, StateT.run_bind, StateT.run_get, StateT.run_pure, pure_bind,
    dif_pos hbn]
  rw [if_neg (not_not.mpr hhole), StateT.run_bind, balloc_run_outside hfree hroom hout]
  rfl

/-- `readi` from an offset inside the file whose direct block is a hole
    panics when a block is free and no transaction is open. -/
theorem readi_run_hole {i : Fin NINODE} {off n b : Nat} (hoff : off < (s.itable i).size)
    (hn : 0 < n) (hwrap : off + n < 2 ^ 32) (hbn : off / BSIZE < NDIRECT)
    (hhole : (s.itable i).addrs (direct ⟨off / BSIZE, hbn⟩) = 0)
    (hfree : Scan.firstFrom (fun b => !s.disk.used b) 0 s.disk.sb.size = some b)
    (hroom : s.log.lh.length < LOGBLOCKS) (hout : s.log.outstanding = 0) :
    (readi i off n).run s = .error "log_write outside of trans" := by
  have hcheck : ¬ (off > (s.itable i).size ∨ (off + n) % 2 ^ 32 < off) := by
    rw [Nat.mod_eq_of_lt hwrap]
    omega
  -- the count read is not zero, so the loop runs its first iteration
  obtain ⟨k, hk⟩ : ∃ k,
      (if off + n > (s.itable i).size then (s.itable i).size - off else n) = k + 1 := by
    split <;> exact ⟨_, (Nat.succ_pred_eq_of_pos (by omega)).symm⟩
  simp only [readi, getInode, StateT.run_bind, StateT.run_get, StateT.run_pure, pure_bind,
    if_neg hcheck, hk]
  simp [readiLoop, bmap_run_hole hbn hhole hfree hroom hout]
  rfl

/-- `fileread` of an open inode whose offset is in a hole panics: it
    runs `readi` with no transaction open. -/
theorem fileread_run_hole (devsw : DevSw) {f : Fin NFILE} {n : Int} {b : Nat}
    (hread : (s.ftable f).readable = true) (htype : (s.ftable f).type = .inode)
    (hvalid : (s.itable (s.ftable f).ip).valid = true) (href : 1 ≤ (s.itable (s.ftable f).ip).ref)
    (hoff : (s.ftable f).off < (s.itable (s.ftable f).ip).size) (hn : 0 < toUint n)
    (hwrap : (s.ftable f).off + toUint n < 2 ^ 32) (hbn : (s.ftable f).off / BSIZE < NDIRECT)
    (hhole : (s.itable (s.ftable f).ip).addrs (direct ⟨(s.ftable f).off / BSIZE, hbn⟩) = 0)
    (hfree : Scan.firstFrom (fun b => !s.disk.used b) 0 s.disk.sb.size = some b)
    (hroom : s.log.lh.length < LOGBLOCKS) (hout : s.log.outstanding = 0) :
    (fileread devsw f n).run s = .error "log_write outside of trans" := by
  simp only [fileread, StateT.run_bind, StateT.run_get, pure_bind, hread, htype]
  simp only [Bool.true_eq_false, if_false, StateT.run_bind, ilock_run_valid hvalid href, pure_bind,
    readi_run_hole hoff hn hwrap hbn hhole hfree hroom hout]
  rfl

end ReadPath

/-! ## An image with a hole -/

/-- Sixty-two files named by one letter or digit, all empty: with `.` and
    `..`, the root's 64 entries fill its first block exactly. -/
def oneLetterFiles : List InputFile :=
  ((List.range 26).map (65 + ·) ++ (List.range 26).map (97 + ·) ++ (List.range 10).map (48 + ·)).map
    fun c => ⟨[UInt8.ofNat c], []⟩

/-- The two runs from the image of `oneLetterFiles`, checked by one
    evaluation of `mkfs`: reading the root panics, and a failed lookup
    leaks block 48 from an image that keeps block ownership. -/
theorem oneLetterFiles_checks :
    checkOk (fun d => (Hole d (d.dinode ROOTINO) 1 ∧
        panicMsg (bootRun noDevices d [.open (cstr "/") O_RDONLY, .read 0 2048]) =
          some "log_write outside of trans") ∧
      BlockOwnership d ∧
        checkOk (fun r : List Int × FsState => r.1 = [-1] ∧ Leaked r.2.disk 48)
          (bootRun noDevices d [.open (cstr "/nope") O_RDONLY]) = some true)
      (mkfs oneLetterFiles) = some true := by
  decide +kernel

/-- **HOLE**: the image of `oneLetterFiles` has a root of two blocks whose
    second block is not allocated, and reading the root through a file
    descriptor panics in `log_write`. -/
theorem root_hole_read_panics :
    ∃ d, mkfs oneLetterFiles = .ok d ∧ Hole d (d.dinode ROOTINO) 1 ∧
      bootRun noDevices d [.open (cstr "/") O_RDONLY, .read 0 2048] =
        .error "log_write outside of trans" := by
  obtain ⟨d, hd, ⟨hhole, hrun⟩, -⟩ := exists_of_checkOk oneLetterFiles_checks
  exact ⟨d, hd, hhole, eq_error_of_panicMsg hrun⟩

/-- **LEAK**: from the image of `oneLetterFiles`, which satisfies the
    block-ownership invariant, a failed `open` of a missing name in the
    root marks block 48 used while no inode on disk references it. -/
theorem failed_lookup_leaks_block :
    ∃ d s, mkfs oneLetterFiles = .ok d ∧ BlockOwnership d ∧
      bootRun noDevices d [.open (cstr "/nope") O_RDONLY] = .ok ([-1], s) ∧
      Leaked s.disk 48 ∧ ¬ BlockOwnership s.disk := by
  obtain ⟨d, hd, -, hown, hrun⟩ := exists_of_checkOk oneLetterFiles_checks
  obtain ⟨⟨rs, s⟩, hs, hrs, hleak⟩ := exists_of_checkOk hrun
  subst hrs
  exact ⟨d, s, hd, hown, hs, hleak, not_blockOwnership_of_leaked hleak⟩

end Xv6.Fs
