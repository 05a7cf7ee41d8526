import Xv6.Mem.Exact
import Xv6.Mem.Runs

/-! # No page leaks out of the memory calls

    `SysInv` keeps every page of a live process held; `NoLeak` is the
    converse over the whole system: every held page is a page of a live
    process, its table's or its trapframe.  With the ownership invariant
    this accounts for every page of the range: it is on the free list, or
    exactly one live process uses it.

    Each call is run through the same specs as for `SysInv`, and the table
    it works on is followed with `Exact` (`Xv6.Mem.Exact`): a new table is
    exact from its root page on, a grown or copied one stays exact, and a
    freed one leaves nothing held.

    * `NoLeak.frame`, `NoLeak.setTable`: the one way the invariant is
      re-established after a call that changed one slot;
    * `allocproc_noLeak`, `freeproc_noLeak`, `growproc_noLeak`,
      `kfork_noLeak`, `kexec_noLeak`: every call that returns keeps it;
    * `noLeak_of_reachable`: every reachable state has it. -/

namespace Xv6.Mem

open Machine StateExcept

/-- **No leak**: every held page is one a live process uses, and every live
    table has its level-1 tables under the 512 entries of its root. -/
structure NoLeak (s : MemSys) : Prop where
  held : ∀ e ∈ s.pm.held, LiveOwns s e
  keys : ∀ q, (s.procs q).used → ∀ i, (s.table q).l1 i ≠ 0 → i < 512

section Frame

variable {kend trampoline : Nat} {s s' : MemSys}

/-- A page of a live process is another's, `p`'s trapframe, or a page
    `p`'s table uses. -/
theorem LiveOwns.cases {e : Nat × Holder} (he : LiveOwns s e) (p : Fin NPROC) :
    (Others s p e ∨ e = ((s.procs p).trapframe, .trapframe p)) ∨ UseOf (s.table p) e := by
  obtain ⟨q, hq, hu | rfl⟩ := he
  · by_cases hqp : q = p
    · subst hqp
      exact .inr hu
    · exact .inl (.inl ⟨q, hqp, hq, .inl hu⟩)
  · by_cases hqp : q = p
    · subst hqp
      exact .inl (.inr rfl)
    · exact .inl (.inl ⟨q, hqp, hq, .inr rfl⟩)

/-- A live process's table, beside the pages of the others and its
    trapframe, is exact. -/
theorem NoLeak.exact (hn : NoLeak s) {p : Fin NPROC} (hp : (s.procs p).used) :
    Exact (fun e => Others s p e ∨ e = ((s.procs p).trapframe, .trapframe p)) ⟨s.table p, s.pm⟩ :=
  ⟨fun e he => (hn.held e he).cases p, hn.keys p hp⟩

/-- **The frame rule**: after a call that changed only slot `p` (and tables
    no other live process has), no page leaks when every held page is one
    of the other processes' or one of `p`'s own. -/
theorem NoLeak.frame (hn : NoLeak s) (p : Fin NPROC)
    (hprocs : ∀ q, q ≠ p → s'.procs q = s.procs q)
    (htables : ∀ q, q ≠ p → (s.procs q).used → s'.table q = s.table q)
    (hheld : ∀ e ∈ s'.pm.held,
      Others s p e ∨ ((s'.procs p).used ∧ Owns p (s'.procs p) (s'.table p) e))
    (hkeys : (s'.procs p).used → ∀ i, (s'.table p).l1 i ≠ 0 → i < 512) : NoLeak s' where
  held e he := by
    rcases hheld e he with ⟨q, hqp, hq, hown⟩ | ⟨hp, hown⟩
    · refine ⟨q, by rw [hprocs q hqp]; exact hq, ?_⟩
      rw [hprocs q hqp, htables q hqp hq]
      exact hown
    · exact ⟨p, hp, hown⟩
  keys q hq := by
    by_cases hqp : q = p
    · subst hqp
      exact hkeys hq
    · rw [hprocs q hqp] at hq
      rw [htables q hqp hq]
      exact hn.keys q hq

/-- No page leaks after a change that keeps the slots and the live tables,
    when every held page was a live process's page before. -/
theorem NoLeak.of_tables (hn : NoLeak s) (hprocs : s'.procs = s.procs)
    (hheld : ∀ e ∈ s'.pm.held, LiveOwns s e)
    (htables : ∀ q, (s.procs q).used → s'.table q = s.table q) : NoLeak s' where
  held e he := by
    obtain ⟨q, hq, hown⟩ := hheld e he
    refine ⟨q, by rw [hprocs]; exact hq, ?_⟩
    rw [hprocs, htables q hq]
    exact hown
  keys q hq := by
    rw [hprocs] at hq
    rw [htables q hq]
    exact hn.keys q hq

/-- **The table rule**: after code of `vm.c` left `p`'s table exact, no
    page leaks with the new table and any size. -/
theorem NoLeak.setTable (hs : SysInv kend trampoline s) (hn : NoLeak s) {p : Fin NPROC}
    (hp : (s.procs p).used) {v : Vm}
    (hex : Exact (fun e => Others s p e ∨ e = ((s.procs p).trapframe, .trapframe p)) v) (sz : Nat) :
    NoLeak ⟨Function.update s.procs p { s.procs p with sz },
      Function.update s.tables (s.procs p).pagetable v.pt, v.pm⟩ := by
  have htable : MemSys.table ⟨Function.update s.procs p { s.procs p with sz },
      Function.update s.tables (s.procs p).pagetable v.pt, v.pm⟩ p = v.pt := by
    simp [MemSys.table]
  refine hn.frame p (fun q hq => Function.update_of_ne hq _ _)
    (fun q hq hqu => table_update_of_ne (by rw [Function.update_of_ne hq])
      fun heq => hq (hs.roots q p hqu hp heq)) (fun e he => ?_) (fun _ => ?_)
  · rw [htable]
    rcases hex.held e he with (he | rfl) | hu
    · exact .inl he
    · exact .inr ⟨by simp [hp], .inr (by simp)⟩
    · exact .inr ⟨by simp [hp], .inl hu⟩
  · rw [htable]
    exact hex.keys

theorem NoLeak.setTable_same (hs : SysInv kend trampoline s) (hn : NoLeak s) {p : Fin NPROC}
    (hp : (s.procs p).used) {v : Vm}
    (hex : Exact (fun e => Others s p e ∨ e = ((s.procs p).trapframe, .trapframe p)) v) :
    NoLeak ⟨s.procs, Function.update s.tables (s.procs p).pagetable v.pt, v.pm⟩ := by
  have h := hn.setTable hs hp hex (s.procs p).sz
  rwa [Function.update_eq_self] at h

end Frame

/-! ## Freeing a process -/

section Free

variable {kend trampoline : Nat} {s : MemSys}

/-- **FREEPROC leaks nothing**: the trapframe and every page of the table
    go back to the free list. -/
theorem freeproc_noLeak (hend : 0 < kend) (hs : SysInv kend trampoline s) (hn : NoLeak s)
    {p : Fin NPROC} (hp : (s.procs p).used) {s' : MemSys} (h : (freeproc kend p).run s = .ok ((), s')) :
    NoLeak s' := by
  have hok := hs.proc p hp
  have htf := hs.trapframe_ne_zero hend hp
  have hpt := hs.pagetable_ne_zero hend hp
  have hinv := hs.tableInv_freed hp
  obtain ⟨v, hrun, -, -⟩ := proc_freepagetable_spec hinv hok.shape.sz_le hok.shape.below
  have hrun' : (freeproc kend p).run s = .ok ((), ⟨Function.update s.procs p ProcMem.unused,
      Function.update s.tables (s.procs p).pagetable v.pt, v.pm⟩) := by
    simp only [freeproc, StateT.run_bind, StateT.run_get, pure_bind, ok_bind, ne_eq, htf, hpt,
      not_false_eq_true, if_true, kfreeSys_run hs.pageInv hok.trapframe]
    rw [onTable_run hrun]
    rfl
  cases h.symm.trans hrun'
  -- with the trapframe given back, the table is exact beside the others' pages
  have hex := (hn.exact hp).settle_free hs.pageInv hok.trapframe ⟨(s.procs p).trapframe :: s.pm.kmem.freelist⟩
  have hheld := proc_freepagetable_exact hinv hex hok.shape.sz_le hok.shape.below hrun
  refine hn.frame p (fun q hq => Function.update_of_ne hq _ _) (fun q hq hqu => ?_)
    (fun e he => .inl (hheld e he)) (fun h => by simp [ProcMem.unused] at h)
  exact table_update_of_ne (by rw [Function.update_of_ne hq])
    fun heq => hq (hs.roots q p hqu hp heq)

end Free

/-! ## A new table and a new process -/

section Alloc

variable {kend trampoline : Nat}

/-- **PROC_PAGETABLE takes no page it does not use**: a fresh table is
    exact beside the pages held before, and a failure gives back every
    page it took. -/
theorem proc_pagetable_exact (hend : 0 < kend) (trampoline : Nat) {s : MemSys}
    (hpage : PageInv kend s.pm) (p : Fin NPROC) {r : Nat} {s' : MemSys}
    (h : (proc_pagetable kend trampoline p).run s = .ok (r, s')) :
    (r = 0 → ∀ e ∈ s'.pm.held, e ∈ s.pm.held) ∧
      (r ≠ 0 → Exact (· ∈ s.pm.held) ⟨s'.tables r, s'.pm⟩) := by
  set pa := (allocFor (fun pa => .table pa 2 0) s.pm).1 with hpa_def
  set pm₁ := (allocFor (fun pa => .table pa 2 0) s.pm).2 with hpm₁
  have hcreate : uvmcreate s.pm = (if pa = 0 then none else some (PageTable.empty pa), pm₁) := rfl
  simp only [proc_pagetable, StateT.run_bind, StateT.run_get, pure_bind, hcreate] at h
  by_cases hpa : pa = 0
  · -- no page for the root: nothing was taken
    simp only [if_pos hpa] at h
    cases h
    exact ⟨fun _ e he => mem_allocFor_of_zero hpa he, fun h => absurd rfl h⟩
  simp only [if_neg hpa] at h
  obtain ⟨⟨⟩, s₀, hrun₀, h⟩ := run_bind_eq_ok h
  cases hrun₀
  obtain ⟨b, s₁, hrun₁, h⟩ := run_bind_eq_ok h
  obtain ⟨v, hv, rfl⟩ := onTable_run_eq_ok hrun₁
  simp only [Function.update_self] at hv
  -- the root alone is held under the new table, which uses it
  have hinv₀ : TableInv kend (fun _ => False) ⟨PageTable.empty pa, pm₁⟩ :=
    { pageInv := allocFor_pageInv hend (fun pa => .table pa 2 0) hpage
      wf := ⟨(fun _ _ h => by cases h), (fun _ _ h => by cases h), fun _ h => absurd rfl h⟩
      tracked := ⟨allocFor_held _ hpa, fun _ h => absurd rfl h, fun _ h => absurd rfl h,
        (fun _ _ h => by cases h)⟩
      others := fun _ h => h.elim
      apart := fun _ h => h.elim }
  have hex₀ : Exact (· ∈ s.pm.held) ⟨PageTable.empty pa, pm₁⟩ := by
    refine ⟨fun e he => ?_, fun _ h => absurd rfl h⟩
    dsimp only at he
    rw [hpm₁] at he
    rcases mem_allocFor_cases he with rfl | he
    · exact .inr .root
    · exact .inl he
  obtain ⟨htrue, hfalse⟩ := mapTrampolineTrapframe_exact hend trampoline hinv₀ (fun _ => rfl) hex₀ hv
  cases b
  · cases h
    exact ⟨fun _ e he => hfalse rfl e he, fun h => absurd rfl h⟩
  · cases h
    refine ⟨fun h => absurd h hpa, fun _ => ?_⟩
    simp only [Function.update_self]
    exact htrue rfl

/-- A page some live process has is another's than an unused slot's. -/
theorem LiveOwns.others_of_unused {s : MemSys} {p : Fin NPROC} (hp : (s.procs p).used = false)
    {e : Nat × Holder} (he : LiveOwns s e) : Others s p e := by
  obtain ⟨q, hq, hown⟩ := he
  refine ⟨q, fun hqp => ?_, hq, hown⟩
  subst hqp
  rw [hp] at hq
  exact Bool.false_ne_true hq

/-- **ALLOCPROC leaks nothing**: the slot it takes was unused, so every
    page held before is another process's; the new trapframe and table are
    the new process's, or given back when it is freed again. -/
theorem allocproc_noLeak (hend : 0 < kend) {s : MemSys} (hs : SysInv kend trampoline s) (hn : NoLeak s)
    {r : Option (Fin NPROC)} {s' : MemSys} (h : (allocproc kend trampoline).run s = .ok (r, s')) :
    NoLeak s' := by
  cases hfind : (List.finRange NPROC).find? (fun p => !(s.procs p).used) with
  | none =>
      simp only [allocproc, StateT.run_bind, StateT.run_get, pure_bind, hfind] at h
      cases h
      exact hn
  | some p =>
      have hp : (s.procs p).used = false := by simpa using List.find?_some hfind
      simp only [allocproc, StateT.run_bind, StateT.run_get, pure_bind, hfind, setProc_run,
        ok_bind, kallocSys_run, hs.unused p hp, ProcMem.unused, Function.update_self,
        Function.update_idem] at h
      set tf := (allocFor (fun _ => Holder.trapframe p) s.pm).1 with htf_def
      set pm₂ := (allocFor (fun _ => Holder.trapframe p) s.pm).2 with hpm₂
      have hpage₂ : PageInv kend pm₂ := allocFor_pageInv hend _ hs.pageInv
      have hkept₂ : ∀ e ∈ s.pm.held, e ∈ pm₂.held := fun e he =>
        mem_allocFor_held (fun _ => Holder.trapframe p) he
      -- the slot was unused, so every held page is another process's
      have hothers : ∀ e ∈ s.pm.held, Others s p e := fun e he =>
        (hn.held e he).others_of_unused hp
      by_cases htf : tf = 0
      · -- no page for the trapframe: nothing new is held
        rw [if_pos htf, run_bind_of_eq_ok (freeproc_run_empty (by simp [htf]) (by simp))] at h
        cases h
        exact hn.frame p (fun q hq => by simp [Function.update_of_ne hq])
          (fun q hq _ => by simp [MemSys.table, Function.update_of_ne hq])
          (fun e he => .inl (hothers e (mem_allocFor_of_zero htf he)))
          (fun h => by simp [ProcMem.unused] at h)
      rw [if_neg htf] at h
      have hO : ∀ e, (Others s p e ∨ e = (tf, .trapframe p)) → e ∈ pm₂.held := by
        rintro e (he | rfl)
        · exact hkept₂ e (hs.others_held he)
        · exact allocFor_held _ htf
      have hroots : ∀ e, (Others s p e ∨ e = (tf, .trapframe p)) → ∀ r, e.2.under r →
          (r, .table r 2 0) ∈ pm₂.held := by
        rintro e (he | rfl) r hr
        · exact hkept₂ _ (hs.others_root he hr)
        · exact absurd hr id
      obtain ⟨r, s₄, hrun₄, hprocs₄, hpage₄, hkept₄, htables₄, -⟩ :=
        proc_pagetable_spec (s := ⟨Function.update s.procs p ⟨true, 0, 0, tf⟩, s.tables, pm₂⟩)
          hend trampoline hpage₂ hO hroots p
      obtain ⟨hzero, hnew⟩ := proc_pagetable_exact hend trampoline hpage₂ p hrun₄
      rw [run_bind_of_eq_ok hrun₄, run_bind_of_eq_ok (setProc_run _ _ _)] at h
      simp only [hprocs₄, Function.update_self, Function.update_idem] at h
      have hslots : ∀ {pr : ProcMem} q, q ≠ p →
          Function.update s.procs p pr q = s.procs q := fun q hq => Function.update_of_ne hq _ _
      -- a live process's table sits at a held root, which the new table left alone
      have htab : ∀ q, q ≠ p → (s.procs q).used → s₄.tables (s.procs q).pagetable = s.table q :=
        fun q _ hq => htables₄ _ (hkept₂ _ (hs.root_held hq))
      -- a page of the old state held after the call is the new trapframe or another's
      have hold : ∀ e ∈ pm₂.held, e ≠ (tf, .trapframe p) → Others s p e := fun e he hne =>
        (mem_allocFor_cases he).elim (fun heq => absurd heq hne) (hothers e)
      by_cases hr : r = 0
      · -- no table: the trapframe and the slot go back
        subst hr
        have hheld : (tf, Holder.trapframe p) ∈ s₄.pm.held := hkept₄ _ (.inr rfl)
        rw [if_pos rfl, run_bind_of_eq_ok (@freeproc_run_trapframe kend
          ⟨Function.update s.procs p ⟨true, 0, 0, tf⟩, s₄.tables, s₄.pm⟩ p hpage₄
          (by simpa using htf) (by simpa using hheld) (by simp))] at h
        cases h
        refine hn.frame p (fun q hq => by simp [Function.update_of_ne hq])
          (fun q hq hqu => by simpa [MemSys.table, Function.update_of_ne hq] using htab q hq hqu)
          (fun e he => .inl ?_) (fun h => by simp [ProcMem.unused] at h)
        simp only [Function.update_self] at he
        have hne : e ≠ (tf, .trapframe p) := fun heq => by
          subst heq
          exact hpage₄.not_mem_erase hheld he
        exact hold e (hzero rfl e (List.mem_of_mem_erase he)) hne
      · rw [if_neg hr] at h
        cases h
        have hex := hnew hr
        refine hn.frame p (fun q hq => by simp [Function.update_of_ne hq])
          (fun q hq hqu => by simpa [MemSys.table, Function.update_of_ne hq] using htab q hq hqu)
          (fun e he => ?_) (fun _ => by simpa [MemSys.table] using hex.keys)
        simp only [MemSys.table, Function.update_self]
        rcases hex.held e he with he | hu
        · by_cases hne : e = (tf, .trapframe p)
          · exact .inr ⟨trivial, .inr hne⟩
          · exact .inl (hold e he hne)
        · exact .inr ⟨trivial, .inl hu⟩

end Alloc

/-! ## `sbrk` and `fork` -/

section Calls

variable {kend trampoline : Nat}

/-- **GROWPROC leaks nothing**: every page `uvmalloc` takes is mapped or
    given back, and every page `uvmdealloc` unmaps is freed. -/
theorem growproc_noLeak (hend : 0 < kend) {s : MemSys} (hs : SysInv kend trampoline s) (hn : NoLeak s)
    {p : Fin NPROC} (hp : (s.procs p).used) (n : Int) {r : Int} {s' : MemSys}
    (h : (growproc kend p n).run s = .ok (r, s')) : NoLeak s' := by
  have hok := hs.proc p hp
  have hex := hn.exact hp
  simp only [growproc, StateT.run_bind, StateT.run_get, pure_bind] at h
  by_cases hpos : n > 0
  · rw [if_pos hpos] at h
    by_cases hbig : addInt (s.procs p).sz n > TRAPFRAME
    · rw [if_pos hbig] at h
      cases h
      exact hn
    rw [if_neg hbig] at h
    obtain ⟨a, s₁, hrun₁, hrest⟩ := run_bind_eq_ok h
    obtain ⟨v, hv, rfl⟩ := onTable_run_eq_ok hrun₁
    have hex' := uvmalloc_exact hend (hs.tableInv hp) hex PTE_W hok.shape.below_trapframe
      (by rw [hok.shape.trapframe]; rfl) (fun x hx hlt => hok.shape.free_above hx hlt) hv
    split at hrest
    · cases hrest
      exact hn.setTable_same hs hp hex'
    · rw [run_bind_of_eq_ok (setProc_run _ _ _)] at hrest
      cases hrest
      exact hn.setTable hs hp hex' a
  rw [if_neg hpos] at h
  by_cases hneg : n < 0
  · rw [if_pos hneg] at h
    obtain ⟨a, s₁, hrun₁, hrest⟩ := run_bind_eq_ok h
    obtain ⟨v, hv, rfl⟩ := onTable_run_eq_ok hrun₁
    have hex' := uvmdealloc_exact (hs.tableInv hp) hex hok.shape.below_trapframe hv
    rw [run_bind_of_eq_ok (setProc_run _ _ _)] at hrest
    cases hrest
    exact hn.setTable hs hp hex' a
  rw [if_neg hneg] at h
  cases h
  exact hn

/-- **KFORK leaks nothing**: the child's pages are its own copies, or are
    all given back when the copy or the child fails. -/
theorem kfork_noLeak (hend : 0 < kend) {s : MemSys} (hs : SysInv kend trampoline s) (hn : NoLeak s)
    {p : Fin NPROC} (hp : (s.procs p).used) {r : Option (Fin NPROC)} {s' : MemSys}
    (h : (kfork kend trampoline p).run s = .ok (r, s')) : NoLeak s' := by
  obtain ⟨r₁, s₁, hrun₁, hs₁, hlive, hnew⟩ := allocproc_spec hend hs
  have hn₁ := allocproc_noLeak hend hs hn hrun₁
  simp only [kfork, StateT.run_bind, hrun₁, ok_bind] at h
  cases r₁ with
  | none =>
      cases h
      exact hn₁
  | some np =>
      obtain ⟨-, hused, hsz₀, hnone⟩ := hnew np rfl
      have hp₁ : (s₁.procs p).used := by rw [(hlive p hp).1]; exact hp
      rw [StateT.run_bind, StateT.run_get, pure_bind] at h
      obtain ⟨res, s₂, hrun₂, hrest⟩ := run_bind_eq_ok h
      obtain ⟨v, hv, rfl⟩ := onTable_run_eq_ok hrun₂
      -- every page the copy holds is mapped in the child's table
      have hex := uvmcopyLoop_exact hend (s₁.table p) (s₁.procs p).sz (hs₁.proc p hp₁).shape.sz_le _ 0
        (hs₁.tableInv hused) (hn₁.exact hused) (Nat.zero_mod PGSIZE) (fun x hx _ => hnone x hx) hv
      rcases uvmcopy_child_inv hend hs₁ hp₁ hused hsz₀ hnone hv with ⟨rfl, -⟩ | ⟨rfl, hs₂⟩
      · simp only [Int.reduceLT, if_false] at hrest
        rw [run_bind_of_eq_ok (setProc_run _ _ _)] at hrest
        cases hrest
        exact hn₁.setTable hs₁ hused hex _
      · -- the child is freed with every page it holds
        simp only [Int.reduceLT, if_true] at hrest
        obtain ⟨u, s₃, hrun₃, hrest'⟩ := run_bind_eq_ok hrest
        cases hrest'
        exact freeproc_noLeak hend hs₂ (hn₁.setTable_same hs₁ hused hex) hused hrun₃

end Calls

/-! ## `exec` -/

section Exec

variable {kend trampoline : Nat} {s s' : MemSys} {p : Fin NPROC} {r sz : Nat}

/-- `bad:` leaks nothing: the new table goes with every page it took. -/
theorem Image.bad_noLeak (hn : NoLeak s) (hi : Image kend trampoline s p r sz s')
    (hex : Exact (LiveOwns s) ⟨s'.tables r, s'.pm⟩) {x : Int} {s'' : MemSys}
    (h : (execBad kend r sz).run s' = .ok (x, s'')) : NoLeak s'' := by
  obtain ⟨v, hrun, -, -⟩ := proc_freepagetable_spec hi.inv hi.shape.sz_le hi.shape.below
  rw [execBad, StateT.run_bind, onTable_run hrun, ok_bind] at h
  cases h
  exact hn.of_tables hi.procs (proc_freepagetable_exact hi.inv hex hi.shape.sz_le hi.shape.below hrun)
    fun q hq => hi.table_update v.pt v.pm hq

/-- **The commit leaks nothing**: the old table is freed, while the new
    one, the trapframe and the others' pages stay. -/
theorem Image.commit_noLeak (hs : SysInv kend trampoline s) (hn : NoLeak s) (hp : (s.procs p).used)
    (hi : Image kend trampoline s p r sz s') (hex : Exact (LiveOwns s) ⟨s'.tables r, s'.pm⟩) {v : Vm}
    (hv : (proc_freepagetable kend (s.procs p).sz).run ⟨s'.tables (s.procs p).pagetable, s'.pm⟩ =
      .ok ((), v)) :
    NoLeak ⟨Function.update s'.procs p { s'.procs p with pagetable := r, sz },
      Function.update s'.tables (s.procs p).pagetable v.pt, v.pm⟩ := by
  have hok := hs.proc p hp
  have hold := hi.old_table hp
  -- beside the others' pages, the trapframe and the new table, the old table is exact
  have hexold : Exact (fun e => Others s p e ∨ e = ((s.procs p).trapframe, .trapframe p) ∨
      UseOf (s'.tables r) e) ⟨s'.tables (s.procs p).pagetable, s'.pm⟩ := by
    rw [hold]
    refine ⟨fun e he => ?_, hn.keys p hp⟩
    rcases hex.held e he with he | hu
    · rcases he.cases p with (he | he) | hu
      · exact .inl (.inl he)
      · exact .inl (.inr (.inl he))
      · exact .inr hu
    · exact .inl (.inr (.inr hu))
  have hheld := proc_freepagetable_exact (hi.old_inv hs hp) hexold hok.shape.sz_le
    (by rw [hold]; exact hok.shape.below) hv
  have htable : MemSys.table ⟨Function.update s'.procs p { s'.procs p with pagetable := r, sz },
      Function.update s'.tables (s.procs p).pagetable v.pt, v.pm⟩ p = s'.tables r := by
    simp only [MemSys.table, Function.update_self]
    exact Function.update_of_ne (hi.fresh p hp).symm _ _
  refine hn.frame p (fun q hq => (Function.update_of_ne hq _ _).trans (congrFun hi.procs q))
    (fun q hq hqu => ?_) (fun e he => ?_) (fun _ => by rw [htable]; exact hex.keys)
  · rw [table_update_of_ne (by rw [Function.update_of_ne hq])
      (by rw [hi.procs]; exact fun heq => hq (hs.roots q p hqu hp heq))]
    exact hi.tables q hqu
  · rw [htable]
    rcases hheld e he with he | rfl | hu
    · exact .inl he
    · exact .inr ⟨by simp [hi.procs, hp], .inr (by simp [hi.procs])⟩
    · exact .inr ⟨by simp [hi.procs, hp], .inl hu⟩

/-- **EXECSTACK leaks nothing**: the stack pages are the new image's, and
    every way out frees the new table or the old one. -/
theorem execStack_noLeak (hend : 0 < kend) (hs : SysInv kend trampoline s) (hn : NoLeak s)
    (hp : (s.procs p).used) (hi : Image kend trampoline s p r sz s')
    (hex : Exact (LiveOwns s) ⟨s'.tables r, s'.pm⟩) (huser : UserLeaves (s'.tables r))
    {argv : List Nat} (hargv : ∀ l ∈ argv, l < PGSIZE) {x : Int} {s'' : MemSys}
    (h : (execStack kend p r sz argv).run s' = .ok (x, s'')) : NoLeak s'' := by
  have hshape := hi.shape.roundup
  obtain ⟨sz₁, v₁, hv₁, hrest⟩ := execStack_cases hend hi huser hargv h
  have hex₁ := uvmalloc_exact hend hi.inv hex PTE_W hshape.below_trapframe
    (by rw [hshape.trapframe]; rfl) (fun x hx hlt => hshape.free_above hx hlt) hv₁
  rcases hrest with ⟨-, hi₁, hbad⟩ | ⟨v₂, hv₂, hi₂, hend₂⟩
  · exact hi₁.bad_noLeak hn (by simpa only [Function.update_self] using hex₁) hbad
  have hva : sz₁ - (USERSTACK + 1) * PGSIZE < MAXVA := by
    have hle := hi₂.shape.sz_le
    rw [TRAPFRAME_eq] at hle
    rw [MAXVA_eq]
    omega
  have hex₂ := uvmclear_exact hex₁ hva hv₂
  rcases hend₂ with hbad | ⟨v, hv, rfl⟩
  · exact hi₂.bad_noLeak hn (by simpa only [Function.update_self] using hex₂) hbad
  · exact hi₂.commit_noLeak hs hn hp (by simpa only [Function.update_self] using hex₂) hv

/-- **KEXEC leaks nothing**, whenever it returns: a failure frees every
    page of the new image, a success every page of the old one. -/
theorem kexec_noLeak (hend : 0 < kend) (hs : SysInv kend trampoline s) (hn : NoLeak s)
    (hp : (s.procs p).used) (ip : Option ExecFile) {argv : List Nat} (hargv : ∀ l ∈ argv, l < PGSIZE)
    {x : Int} {s' : MemSys} (h : (kexec kend trampoline p ip argv).run s = .ok (x, s')) :
    NoLeak s' := by
  rw [kexec.eq_def] at h
  rcases ip with _ | ip
  · cases h
    exact hn
  dsimp only at h
  split at h
  · cases h
    exact hn
  obtain ⟨r, s₁, hrun₁, hzero, hnew⟩ := Image.create hend hs p
  obtain ⟨hheld₀, hex₀⟩ := proc_pagetable_exact hend trampoline hs.pageInv p hrun₁
  rw [StateT.run_bind, hrun₁, ok_bind] at h
  by_cases hr : r = 0
  · rw [if_pos hr] at h
    cases h
    obtain ⟨-, hprocs, htables⟩ := hzero hr
    exact hn.of_tables hprocs (fun e he => hn.held e (hheld₀ hr e he)) htables
  rw [if_neg hr] at h
  obtain ⟨hi, huser⟩ := hnew hr
  -- the new table is exact beside the pages of the live processes
  have hex : Exact (LiveOwns s) ⟨s₁.tables r, s₁.pm⟩ := (hex₀ hr).mono fun e he => hn.held e he
  obtain ⟨⟨sz, ok⟩, s₂, hrun₂, h⟩ := run_bind_eq_ok h
  obtain ⟨v, hv, hs₂⟩ := onTable_run_eq_ok hrun₂
  obtain ⟨hinv, hroot, hshape, huser'⟩ := loadSegments_spec hend ip _ _ 0 hi.inv hi.shape huser hv
  have hi₂ : Image kend trampoline s p r sz s₂ := hs₂ ▸ hi.update hinv hroot hshape
  have hex₂ : Exact (LiveOwns s) ⟨s₂.tables r, s₂.pm⟩ := by
    rw [hs₂]
    simpa only [Function.update_self] using loadSegments_exact hend ip _ _ 0 hi.inv hi.shape hex hv
  dsimp only at h
  split at h
  · exact hi₂.bad_noLeak hn hex₂ h
  · have huser₂ : UserLeaves (s₂.tables r) := by
      rw [hs₂]
      simp only [Function.update_self]
      exact huser'
    exact execStack_noLeak hend hs hn hp hi₂ hex₂ huser₂ hargv h

end Exec

/-! ## Every run -/

section Runs

variable {kend trampoline : Nat}

theorem memInit_noLeak : NoLeak (memInit kend) where
  held _ he := by cases he
  keys _ h := by cases h

/-- **STEP**: every memory call that returns leaks nothing. -/
theorem memStep_noLeak (hend : 0 < kend) {s s' : MemSys} (hs : SysInv kend trampoline s)
    (hn : NoLeak s) (c : MemCall) (h : memStep kend trampoline s c = .next s') : NoLeak s' := by
  cases c with
  | userinit =>
      obtain ⟨_, hrun⟩ := sysStep_next h
      rw [userinit] at hrun
      obtain ⟨r, s₁, hrun₁, hrest⟩ := run_bind_eq_ok hrun
      cases hrest
      exact allocproc_noLeak hend hs hn hrun₁
  | fork p =>
      simp only [memStep] at h
      split at h
      · next hp =>
          obtain ⟨_, hrun⟩ := sysStep_next h
          exact kfork_noLeak hend hs hn hp hrun
      · cases h
  | grow p n =>
      simp only [memStep] at h
      split at h
      · next hp =>
          obtain ⟨_, hrun⟩ := sysStep_next h
          exact growproc_noLeak hend hs hn hp n hrun
      · cases h
  | exec p ip argv =>
      simp only [memStep] at h
      split at h
      · next hg =>
          obtain ⟨_, hrun⟩ := sysStep_next h
          exact kexec_noLeak hend hs hn hg.1 ip hg.2.2 hrun
      · cases h
  | free p =>
      simp only [memStep] at h
      split at h
      · next hp =>
          obtain ⟨_, hrun⟩ := sysStep_next h
          exact freeproc_noLeak hend hs hn hp hrun
      · cases h

/-- **RUN**: no reachable state has a leaked page. -/
theorem noLeak_of_reachable (hend : 0 < kend) {s : MemSys}
    (h : Reachable (memInit kend) (memStep kend trampoline) s) : NoLeak s :=
  (h.inv (I := fun s => SysInv kend trampoline s ∧ NoLeak s) ⟨memInit_inv, memInit_noLeak⟩
    fun _ c _ hs hstep => ⟨memStep_inv hend hs.1 c hstep, memStep_noLeak hend hs.1 hs.2 c hstep⟩).2

/-- One page is a page of at most one live process. -/
theorem SysInv.owns_unique {s : MemSys} (hs : SysInv kend trampoline s) {p q : Fin NPROC}
    (hp : (s.procs p).used) (hq : (s.procs q).used) {e : Nat × Holder}
    (he : Owns p (s.procs p) (s.table p) e) (he' : Owns q (s.procs q) (s.table q) e) : p = q := by
  rcases he with hu | rfl
  · rcases he' with hu' | rfl
    · -- the holder names one root, and live roots are apart
      have hroot := Holder.under_unique hu.under hu'.under
      rw [hs.table_root hp, hs.table_root hq] at hroot
      exact hs.roots p q hp hq hroot
    · exact absurd rfl (hu.ne_trapframe q)
  · rcases he' with hu' | heq
    · exact absurd rfl (hu'.ne_trapframe p)
    · exact Fin.ext (Holder.trapframe.inj (Prod.mk.inj heq).2)

/-- **EVERY PAGE IS FREE OR HAS ONE OWNER**: in every state that
    `userinit`, `kfork`, `growproc`, `kexec` and `freeproc` reach from boot,
    a page of the range is on the free list and no live process's, or off
    it and a page of exactly one live process: its table's or its
    trapframe. -/
theorem page_free_or_owned (hend : 0 < kend) {s : MemSys}
    (hreach : Reachable (memInit kend) (memStep kend trampoline) s) {pa : Nat} (hpa : IsPage kend pa) :
    (pa ∈ s.pm.kmem.freelist ∧ ∀ q h, (s.procs q).used → ¬ Owns q (s.procs q) (s.table q) (pa, h)) ∨
      (pa ∉ s.pm.kmem.freelist ∧
        ∃! q, (s.procs q).used ∧ ∃ h, Owns q (s.procs q) (s.table q) (pa, h)) := by
  have hs := sysInv_of_reachable hend hreach
  have hn := noLeak_of_reachable hend hreach
  have hone := hs.pageInv.one_place pa hpa
  simp only [PhysMem.places, PhysMem.heldCount] at hone
  by_cases hfree : pa ∈ s.pm.kmem.freelist
  · -- on the free list once, so with no holder
    refine .inl ⟨hfree, fun q h hq hown => ?_⟩
    have hheld := hs.liveOwns_held ⟨q, hq, hown⟩
    have hcount : 0 < s.pm.kmem.freelist.count pa := List.count_pos_iff.mpr hfree
    have hpos : 0 < s.pm.held.countP (·.1 == pa) := List.countP_pos_iff.mpr ⟨_, hheld, by simp⟩
    omega
  -- off the free list, so with one holder, which a live process owns
  have hcount : s.pm.kmem.freelist.count pa = 0 := List.count_eq_zero.mpr hfree
  obtain ⟨⟨a, h⟩, he, ha⟩ :=
    List.countP_pos_iff.mp (show 0 < s.pm.held.countP (·.1 == pa) by omega)
  obtain rfl : a = pa := by simpa using ha
  obtain ⟨q, hq, hown⟩ := hn.held _ he
  refine .inr ⟨hfree, q, ⟨hq, h, hown⟩, fun q' hq'' => ?_⟩
  obtain ⟨hq', h', hown'⟩ := hq''
  -- the page has one holder, and a holder one owner
  have heq := held_unique hs.pageInv (hs.liveOwns_held ⟨q', hq', hown'⟩) he rfl
  rw [heq] at hown'
  exact hs.owns_unique hq' hq hown' hown

end Runs

end Xv6.Mem
