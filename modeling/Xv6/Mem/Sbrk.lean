import Xv6.Mem.Calls

/-! # The break

    `sys_sbrk` of `sysproc.c` and the wrappers `sbrk` and `sbrklazy` of
    `ulib.c`.  Both wrappers call the stub `sys_sbrk(n, mode)` with the
    modes of `user.h`; the kernel's `sys_sbrk` reads its first argument
    only, and grows the process through `growproc`, which maps every new
    page at once.

    * `sbrklazy_eq_sbrk`: the lazy wrapper is the eager one;
    * `uvmalloc_run_of_nil`, `growproc_run_of_nil`: with no free page, a
      growth that needs a page fails and changes nothing;
    * `sbrklazy_fails_without_free_page`: so `sbrklazy(n)` returns
      `SBRK_ERROR` whenever memory has run out, as the eager one does;
    * `sbrk_run_of_wrap`: a request of `0`, or one that takes back more
      than the process has, so that `growproc`'s `sz + n` wraps past zero,
      changes nothing and answers the old break. -/

namespace Xv6.Mem

open StateExcept (checkOk exists_of_checkOk ok_bind)

/-- `SBRK_EAGER` of `user.h`. -/
def SBRK_EAGER : Int32 := 0

/-- `SBRK_LAZY` of `user.h`. -/
def SBRK_LAZY : Int32 := 1

/-- `SBRK_ERROR`, `(char *)-1`: `-1` as a `uint64`. -/
def SBRK_ERROR : Nat := 2 ^ 64 - 1

/-- `argint(n)`: argument register `n` of the call, as an `int`. -/
def argint (args : List Int32) (n : Nat) : Int32 := args.getD n 0

section Code

variable (kend : Nat)

/-- `sys_sbrk()` in process `p` with argument registers `args`: the old
    size through `int addr`, or `-1`, as the `uint64` the call returns. -/
def sys_sbrk (p : Fin NPROC) (args : List Int32) : SysM Nat := do
  let n := argint args 0
  let addr : Int32 := Int32.ofNat ((← get).procs p).sz
  if (← growproc kend p n.toInt) < 0 then pure SBRK_ERROR
  else pure (addr.toInt % 2 ^ 64).toNat

/-- `sbrk(n)` of `ulib.c`: `sys_sbrk(n, SBRK_EAGER)`. -/
def sbrk (p : Fin NPROC) (n : Int32) : SysM Nat := sys_sbrk kend p [n, SBRK_EAGER]

/-- `sbrklazy(n)` of `ulib.c`: `sys_sbrk(n, SBRK_LAZY)`. -/
def sbrklazy (p : Fin NPROC) (n : Int32) : SysM Nat := sys_sbrk kend p [n, SBRK_LAZY]

end Code

variable {kend : Nat}

/-- **NO LAZY MODE**: the kernel reads only the size, so `sbrklazy(n)` is
    the same call as `sbrk(n)`. -/
theorem sbrklazy_eq_sbrk (p : Fin NPROC) (n : Int32) : sbrklazy kend p n = sbrk kend p n := rfl

/-- With no free page, a `uvmalloc` that needs a page returns `0` and
    changes nothing. -/
theorem uvmalloc_run_of_nil {v : Vm} (hfree : v.pm.kmem.freelist = []) {oldsz newsz : Nat}
    (xperm : Perm) (hpage : PGROUNDUP oldsz < newsz) :
    (uvmalloc kend oldsz newsz xperm).run v = .ok (0, v) := by
  have hle : ¬ newsz < oldsz := by
    have := le_PGROUNDUP oldsz
    omega
  have halloc := allocFor_nil (fun _ => Holder.user v.pt.root (PGROUNDUP oldsz)) hfree
  simp only [uvmalloc, if_neg hle, uvmallocLoop, if_pos hpage, kallocFor, StateT.run_bind,
    StateT.run_get, pure_bind, StateT.run_modifyGet, halloc, if_true]
  -- the rollback `uvmdealloc(a, oldsz)` has `a = oldsz`: nothing to give back
  simp [uvmdealloc]
  rfl

/-- With no free page, a `growproc(n)` that needs a page returns `-1` and
    changes nothing. -/
theorem growproc_run_of_nil {s : MemSys} {p : Fin NPROC} {n : Int} (hn : 0 < n)
    (hfree : s.pm.kmem.freelist = [])
    (hpage : PGROUNDUP (s.procs p).sz < addInt (s.procs p).sz n) :
    (growproc kend p n).run s = .ok (-1, s) := by
  by_cases hbig : addInt (s.procs p).sz n > TRAPFRAME
  · simp [growproc, hn, hbig]
    rfl
  · have halloc : (uvmalloc kend (s.procs p).sz (addInt (s.procs p).sz n) PTE_W).run
        ⟨s.tables (s.procs p).pagetable, s.pm⟩ = .ok (0, ⟨s.tables (s.procs p).pagetable, s.pm⟩) :=
      uvmalloc_run_of_nil hfree PTE_W hpage
    have hrun := onTable_run (r := (s.procs p).pagetable) (s := s) halloc
    have hsame : { s with
        tables := Function.update s.tables (s.procs p).pagetable (s.tables (s.procs p).pagetable)
        pm := s.pm } = s := by
      rw [Function.update_eq_self]
    rw [hsame] at hrun
    simp [growproc, hn, hbig, hrun]
    rfl

/-- **OUT OF MEMORY**: when no page is free, `sbrklazy(n)` for a growth
    below `TRAPFRAME` that needs a new page returns `SBRK_ERROR` and
    changes nothing; laziness would have returned the old break. -/
theorem sbrklazy_fails_without_free_page {s : MemSys} {p : Fin NPROC} {n : Int32}
    (hn : 0 < n.toInt) (hfit : (s.procs p).sz + n.toInt ≤ TRAPFRAME)
    (hpage : (PGROUNDUP (s.procs p).sz : Int) < (s.procs p).sz + n.toInt)
    (hfree : s.pm.kmem.freelist = []) :
    (sbrklazy kend p n).run s = .ok (SBRK_ERROR, s) := by
  have hadd : PGROUNDUP (s.procs p).sz < addInt (s.procs p).sz n.toInt := by
    have hlt : (s.procs p).sz + n.toInt < 2 ^ 64 := by
      have : TRAPFRAME < 2 ^ 64 := by decide
      omega
    unfold addInt
    rw [Int.emod_eq_of_lt (by omega) hlt]
    omega
  have hgrow : (growproc kend p n.toInt).run s = .ok (-1, s) := growproc_run_of_nil hn hfree hadd
  simp only [sbrklazy, sys_sbrk, argint, StateT.run_bind, StateT.run_get, pure_bind]
  simp [hgrow]
  rfl

/-- An `int` below `2^31` is its own value. -/
theorem toInt_ofNat_of_lt {n : Nat} (h : n < 2 ^ 31) : (Int32.ofNat n).toInt = n := by
  rw [Int32.toInt_ofNat', Int.bmod_def]
  simp only [Int32.size]
  split <;> omega

/-- A `growproc(n)` that adds nothing, or whose `sz + n` wraps past zero,
    changes nothing: `uvmdealloc` keeps a size that does not shrink. -/
theorem growproc_run_of_wrap {s : MemSys} {p : Fin NPROC} {n : Int}
    (hn : n = 0 ∨ ((s.procs p).sz + n < 0 ∧ -2 ^ 64 ≤ n)) :
    (growproc kend p n).run s = .ok (0, s) := by
  rcases hn with rfl | ⟨hneg, hlow⟩
  · simp [growproc]
    rfl
  · have hlt : n < 0 := by omega
    -- the wrapped new size is above the old one
    have hge : addInt (s.procs p).sz n ≥ (s.procs p).sz := by
      unfold addInt
      omega
    have hdealloc : (uvmdealloc kend (s.procs p).sz (addInt (s.procs p).sz n)).run
        ⟨s.tables (s.procs p).pagetable, s.pm⟩ =
          .ok ((s.procs p).sz, ⟨s.tables (s.procs p).pagetable, s.pm⟩) := by
      simp only [uvmdealloc, if_pos hge]
      rfl
    have hrun := onTable_run (r := (s.procs p).pagetable) (s := s) hdealloc
    have hsame : { s with
        tables := Function.update s.tables (s.procs p).pagetable (s.tables (s.procs p).pagetable)
        pm := s.pm } = s := by
      rw [Function.update_eq_self]
    rw [hsame] at hrun
    simp only [growproc, StateT.run_bind, StateT.run_get, pure_bind,
      if_neg (Int.not_lt.mpr (Int.le_of_lt hlt)), if_pos hlt, hrun, ok_bind, setProc_run]
    -- `setProc` writes back the size it read
    have hpr : ({ s.procs p with sz := (s.procs p).sz } : ProcMem) = s.procs p := rfl
    simp only [hpr, Function.update_eq_self]
    rfl

/-- **NO GROWTH**: `sbrk(n)` for an `n` of `0`, or for a negative `n` that
    takes back more than the process has, leaves the system as it is and
    answers the old break. -/
theorem sbrk_run_of_wrap {s : MemSys} {p : Fin NPROC} {n : Int32}
    (hn : n.toInt = 0 ∨ (s.procs p).sz + n.toInt < 0) (hsz : (s.procs p).sz < 2 ^ 31) :
    (sbrk kend p n).run s = .ok ((s.procs p).sz, s) := by
  have hlow : -2 ^ 31 ≤ n.toInt := Int32.le_toInt n
  have hgrow : (growproc kend p n.toInt).run s = .ok (0, s) :=
    growproc_run_of_wrap (hn.imp_right fun h => ⟨h, by omega⟩)
  simp only [sbrk, sys_sbrk, argint, StateT.run_bind, StateT.run_get, pure_bind]
  simp [hgrow, toInt_ofNat_of_lt hsz]
  rw [Int.emod_eq_of_lt (by omega) (by omega)]
  rfl

/-- A kernel image that ends four pages below `PHYSTOP`: `kinit` frees
    four pages. -/
def smallEnd : Nat := PHYSTOP - 4 * PGSIZE

/-- The first process slot. -/
def proc0 : Fin NPROC := ⟨0, by decide⟩

/-- On the machine of `smallEnd`, `userinit` takes all four free pages (the
    trapframe, the root, and the two tables under the trampoline), and the
    first process's `sbrklazy(4096)` fails. -/
theorem sbrklazy_fails_after_userinit :
    kinit smallEnd = .ok ⟨bootFree smallEnd⟩ ∧
      ∃ s, (userinit smallEnd KERNBASE).run (MemSys.boot ⟨bootFree smallEnd⟩) = .ok ((), s) ∧
        (s.procs proc0).used = true ∧ s.pm.kmem.freelist = [] ∧
        (sbrklazy smallEnd proc0 4096).run s = .ok (SBRK_ERROR, s) := by
  obtain ⟨⟨_, s⟩, hrun, hused, hfree, hsz⟩ := exists_of_checkOk (P := fun r : Unit × MemSys =>
      (r.2.procs proc0).used = true ∧ r.2.pm.kmem.freelist = [] ∧ (r.2.procs proc0).sz = 0)
    (e := (userinit smallEnd KERNBASE).run (MemSys.boot ⟨bootFree smallEnd⟩)) (by decide)
  refine ⟨kinit_eq, s, hrun, hused, hfree,
    sbrklazy_fails_without_free_page (by decide) ?_ ?_ hfree⟩
  · rw [hsz]
    decide
  · rw [hsz]
    decide

end Xv6.Mem
