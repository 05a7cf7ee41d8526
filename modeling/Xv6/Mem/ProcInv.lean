import Xv6.Mem.Exec

/-! # The memory invariant of the process table

    `SysInv` is what every reachable state of the process table keeps:
    the ownership invariant of physical memory, and for each live process
    a table that is well formed, holds its pages under its own root and has
    the shape of a user address space (`Shape`): the trampoline and the
    trapframe at the top without `PTE_U`, every other leaf below
    `PGROUNDUP(sz)`, at most one of those without `PTE_U`.  Live processes
    have distinct roots, so the pages one process holds are not another's.

    `SysInv.frame` is the one way the invariant is re-established after a
    call that changes one process slot: every other slot and its table stay,
    and the pages of the other processes stay held.  This file proves it and
    the specs of `onTable`, `proc_freepagetable` and `freeproc`; `freeproc`
    always returns, so freeing a process never reaches `freewalk: leaf`. -/

namespace Xv6.Mem

open StateExcept

/-! ## What a process holds -/

/-- The pages a table uses, each with the holder it is held under. -/
inductive UseOf (pt : PageTable) : Nat × Holder → Prop
  | root : UseOf pt (pt.root, .table pt.root 2 0)
  | l1 (i : Nat) : pt.l1 i ≠ 0 → UseOf pt (pt.l1 i, .table pt.root 1 i)
  | l0 (j : Nat) : pt.l0 j ≠ 0 → UseOf pt (pt.l0 j, .table pt.root 0 j)
  | leaf (a : Nat) (pte : Pte) : pt.leaf a = some pte → a < TRAPFRAME →
      UseOf pt (pte.pa, .user pt.root a)

theorem Tracked.use {pt : PageTable} {held : List (Nat × Holder)} (ht : Tracked pt held)
    {e : Nat × Holder} (hu : UseOf pt e) : e ∈ held := by
  cases hu with
  | root => exact ht.root
  | l1 i hi => exact ht.l1 i hi
  | l0 j hj => exact ht.l0 j hj
  | leaf a pte hl ha => exact ht.leaf a pte hl ha

theorem Tracked.of_use {pt : PageTable} {held : List (Nat × Holder)}
    (h : ∀ e, UseOf pt e → e ∈ held) : Tracked pt held :=
  ⟨h _ .root, fun i hi => h _ (.l1 i hi), fun j hj => h _ (.l0 j hj),
    fun a pte hl ha => h _ (.leaf a pte hl ha)⟩

theorem UseOf.under {pt : PageTable} {e : Nat × Holder} (hu : UseOf pt e) : e.2.under pt.root := by
  cases hu <;> rfl

theorem Holder.under_unique {h : Holder} {r r' : Nat} (h1 : h.under r) (h2 : h.under r') :
    r = r' := by
  cases h <;> simp only [Holder.under] at h1 h2 <;> omega

theorem UseOf.ne_trapframe {pt : PageTable} {e : Nat × Holder} (hu : UseOf pt e) (q : Nat) :
    e.2 ≠ .trapframe q := fun heq => by
  have := hu.under
  rw [heq] at this
  exact this

/-- The pages of process `p` with slot `pr` and table `pt`: the table's and
    the trapframe. -/
def Owns (p : Fin NPROC) (pr : ProcMem) (pt : PageTable) (e : Nat × Holder) : Prop :=
  UseOf pt e ∨ e = (pr.trapframe, .trapframe p)

/-- **The shape of a user address space** of size `sz` whose trapframe is
    `tf`. -/
structure Shape (trampoline sz tf : Nat) (pt : PageTable) : Prop where
  sz_le : sz ≤ TRAPFRAME
  trampoline : pt.leaf TRAMPOLINE = some ⟨trampoline, PTE_R ||| PTE_X⟩
  trapframe : pt.leaf TRAPFRAME = some ⟨tf, PTE_R ||| PTE_W⟩
  below : ∀ a pte, pt.leaf a = some pte → a ≠ TRAMPOLINE → a ≠ TRAPFRAME → a < PGROUNDUP sz
  guard : ∀ a b pte pte', pt.leaf a = some pte → pt.leaf b = some pte' → a < TRAPFRAME →
    b < TRAPFRAME → pte.perm.u = false → pte'.perm.u = false → a = b

/-- A live process `p` with slot `pr` and table `pt`, over the held pages. -/
structure ProcOk (trampoline : Nat) (held : List (Nat × Holder)) (p : Fin NPROC) (pr : ProcMem)
    (pt : PageTable) : Prop where
  root : pt.root = pr.pagetable
  wf : WF pt
  tracked : Tracked pt held
  trapframe : (pr.trapframe, .trapframe p) ∈ held
  shape : Shape trampoline pr.sz pr.trapframe pt

/-- **The invariant of the process table.** -/
structure SysInv (kend trampoline : Nat) (s : MemSys) : Prop where
  pageInv : PageInv kend s.pm
  unused : ∀ p, (s.procs p).used = false → s.procs p = ProcMem.unused
  proc : ∀ p, (s.procs p).used → ProcOk trampoline s.pm.held p (s.procs p) (s.table p)
  roots : ∀ p q, (s.procs p).used → (s.procs q).used →
    (s.procs p).pagetable = (s.procs q).pagetable → p = q

/-- The pages of the live processes other than `p`. -/
def Others (s : MemSys) (p : Fin NPROC) (e : Nat × Holder) : Prop :=
  ∃ q, q ≠ p ∧ (s.procs q).used ∧ Owns q (s.procs q) (s.table q) e

theorem Others.ne_trapframe {s : MemSys} {p : Fin NPROC} {e : Nat × Holder} (he : Others s p e) :
    e.2 ≠ .trapframe p := by
  obtain ⟨q, hqp, -, hu | rfl⟩ := he
  · exact hu.ne_trapframe p
  · exact fun heq => hqp (Fin.ext (Holder.trapframe.inj heq))

theorem ProcOk.owns {trampoline : Nat} {held : List (Nat × Holder)} {p : Fin NPROC} {pr : ProcMem}
    {pt : PageTable} (h : ProcOk trampoline held p pr pt) {e : Nat × Holder}
    (he : Owns p pr pt e) : e ∈ held := by
  rcases he with hu | rfl
  · exact h.tracked.use hu
  · exact h.trapframe

/-- A process keeps `ProcOk` while its pages stay held. -/
theorem ProcOk.mono {trampoline : Nat} {held held' : List (Nat × Holder)} {p : Fin NPROC}
    {pr : ProcMem} {pt : PageTable} (h : ProcOk trampoline held p pr pt)
    (hkeep : ∀ e, Owns p pr pt e → e ∈ held') : ProcOk trampoline held' p pr pt where
  root := h.root
  wf := h.wf
  tracked := Tracked.of_use fun e hu => hkeep e (.inl hu)
  trapframe := hkeep _ (.inr rfl)
  shape := h.shape

theorem Shape.below_trapframe {trampoline sz tf : Nat} {pt : PageTable}
    (h : Shape trampoline sz tf pt) : PGROUNDUP sz ≤ TRAPFRAME :=
  (PGROUNDUP_le_iff (by rw [TRAPFRAME_eq]; decide)).mpr h.sz_le

section Inv

variable {kend trampoline : Nat}

theorem SysInv.table_root {s : MemSys} (hs : SysInv kend trampoline s) {p : Fin NPROC}
    (hp : (s.procs p).used) : (s.table p).root = (s.procs p).pagetable :=
  (hs.proc p hp).root

/-- A held page is not `0`. -/
theorem ne_zero_of_held (hend : 0 < kend) {pm : PhysMem} (hinv : PageInv kend pm)
    {e : Nat × Holder} (he : e ∈ pm.held) : e.1 ≠ 0 := by
  have hpage := hinv.held_isPage e he
  have := le_PGROUNDUP kend
  have := hpage.2.1
  omega

theorem SysInv.pagetable_ne_zero (hend : 0 < kend) {s : MemSys} (hs : SysInv kend trampoline s)
    {p : Fin NPROC} (hp : (s.procs p).used) : (s.procs p).pagetable ≠ 0 := by
  have h := ne_zero_of_held hend hs.pageInv (hs.proc p hp).tracked.root
  rwa [hs.table_root hp] at h

theorem SysInv.root_held {s : MemSys} (hs : SysInv kend trampoline s) {p : Fin NPROC}
    (hp : (s.procs p).used) :
    ((s.procs p).pagetable, .table (s.procs p).pagetable 2 0) ∈ s.pm.held := by
  have h := (hs.proc p hp).tracked.root
  rwa [hs.table_root hp] at h

theorem SysInv.trapframe_ne_zero (hend : 0 < kend) {s : MemSys} (hs : SysInv kend trampoline s)
    {p : Fin NPROC} (hp : (s.procs p).used) : (s.procs p).trapframe ≠ 0 :=
  ne_zero_of_held hend hs.pageInv (hs.proc p hp).trapframe

/-- The pages of another live process are held and not under `p`'s root. -/
theorem SysInv.others_held {s : MemSys} (hs : SysInv kend trampoline s) {p : Fin NPROC}
    {e : Nat × Holder} (he : Others s p e) : e ∈ s.pm.held := by
  obtain ⟨q, -, hq, he⟩ := he
  exact (hs.proc q hq).owns he

theorem SysInv.others_apart {s : MemSys} (hs : SysInv kend trampoline s) {p : Fin NPROC}
    (hp : (s.procs p).used) {e : Nat × Holder} (he : Others s p e) :
    ¬ e.2.under (s.table p).root := by
  obtain ⟨q, hqp, hq, hu | rfl⟩ := he
  · intro hunder
    -- the holder names one root, so the two roots are one
    have hroot := Holder.under_unique hu.under hunder
    rw [hs.table_root hq, hs.table_root hp] at hroot
    exact hqp (hs.roots q p hq hp hroot)
  · exact id

/-- The root of every holder of another process is a held root page. -/
theorem SysInv.others_root {s : MemSys} (hs : SysInv kend trampoline s) {p : Fin NPROC}
    {e : Nat × Holder} (he : Others s p e) {r : Nat} (hr : e.2.under r) :
    (r, .table r 2 0) ∈ s.pm.held := by
  obtain ⟨q, -, hq, hu | rfl⟩ := he
  · rw [Holder.under_unique hr hu.under]
    exact (hs.proc q hq).tracked.root
  · exact absurd hr id

/-- The table invariant of `p`'s table inside the system: the pages of the
    other processes and `p`'s trapframe stay. -/
theorem SysInv.tableInv {s : MemSys} (hs : SysInv kend trampoline s) {p : Fin NPROC}
    (hp : (s.procs p).used) :
    TableInv kend (fun e => Others s p e ∨ e = ((s.procs p).trapframe, .trapframe p))
      ⟨s.table p, s.pm⟩ where
  pageInv := hs.pageInv
  wf := (hs.proc p hp).wf
  tracked := (hs.proc p hp).tracked
  others e he := by
    rcases he with he | rfl
    · exact hs.others_held he
    · exact (hs.proc p hp).trapframe
  apart e he := by
    rcases he with he | rfl
    · exact hs.others_apart hp he
    · exact id

/-- **The frame rule of the process table**: after a call that changed
    only slot `p` (and the tables at roots no other live process has), the
    invariant holds again when the pages of the other processes are still
    held and slot `p` is unused or a live process of its own. -/
theorem SysInv.frame {s s' : MemSys} (hs : SysInv kend trampoline s) (p : Fin NPROC)
    (hpage : PageInv kend s'.pm)
    (hprocs : ∀ q, q ≠ p → s'.procs q = s.procs q)
    (htables : ∀ q, q ≠ p → (s.procs q).used → s'.table q = s.table q)
    (hkept : ∀ e, Others s p e → e ∈ s'.pm.held)
    (hunused : (s'.procs p).used = false → s'.procs p = ProcMem.unused)
    (hok : (s'.procs p).used → ProcOk trampoline s'.pm.held p (s'.procs p) (s'.table p))
    (hroot : (s'.procs p).used → ∀ q, q ≠ p → (s.procs q).used →
      (s'.procs p).pagetable ≠ (s.procs q).pagetable) :
    SysInv kend trampoline s' where
  pageInv := hpage
  unused q hq := by
    by_cases hqp : q = p
    · subst hqp
      exact hunused hq
    · rw [hprocs q hqp] at hq ⊢
      exact hs.unused q hq
  proc q hq := by
    by_cases hqp : q = p
    · subst hqp
      exact hok hq
    · rw [hprocs q hqp] at hq ⊢
      rw [htables q hqp hq]
      exact (hs.proc q hq).mono fun e he => hkept e ⟨q, hqp, hq, he⟩
  roots q r hq hr hqr := by
    by_cases hqp : q = p
    · by_cases hrp : r = p
      · rw [hqp, hrp]
      · subst hqp
        rw [hprocs r hrp] at hr hqr
        exact absurd hqr (hroot hq r hrp hr)
    · by_cases hrp : r = p
      · subst hrp
        rw [hprocs q hqp] at hq hqr
        exact absurd hqr.symm (hroot hr q hqp hq)
      · rw [hprocs q hqp] at hq hqr
        rw [hprocs r hrp] at hr hqr
        exact hs.roots q r hq hr hqr

end Inv

/-! ## Running code of the system -/

theorem onTable_run {α : Type} {r : Nat} {m : VmM α} {s : MemSys} {a : α} {v : Vm}
    (h : m.run ⟨s.tables r, s.pm⟩ = .ok (a, v)) :
    (onTable r m).run s = .ok (a, { s with tables := Function.update s.tables r v.pt, pm := v.pm }) := by
  simp only [onTable, StateT.run_bind, StateT.run_get, pure_bind, h]
  rfl

theorem onTable_run_eq_ok {α : Type} {r : Nat} {m : VmM α} {s s' : MemSys} {a : α}
    (h : (onTable r m).run s = .ok (a, s')) :
    ∃ v, m.run ⟨s.tables r, s.pm⟩ = .ok (a, v) ∧
      s' = { s with tables := Function.update s.tables r v.pt, pm := v.pm } := by
  cases hm : m.run ⟨s.tables r, s.pm⟩ with
  | error msg =>
      simp only [onTable, StateT.run_bind, StateT.run_get, pure_bind, hm] at h
      exact nomatch h
  | ok res =>
      rw [onTable_run (v := res.2) (by rw [hm])] at h
      cases h
      exact ⟨res.2, rfl, rfl⟩

/-- A table at another root than `r` is not changed by writing the table at `r`. -/
theorem table_update_of_ne {s : MemSys} {r : Nat} {pt : PageTable} {procs : Fin NPROC → ProcMem}
    {pm : PhysMem} {q : Fin NPROC} (hq : (procs q).pagetable = (s.procs q).pagetable)
    (hne : (s.procs q).pagetable ≠ r) :
    MemSys.table ⟨procs, Function.update s.tables r pt, pm⟩ q = s.table q := by
  simp only [MemSys.table, hq]
  exact Function.update_of_ne hne _ _

theorem kfreeSys_run {kend : Nat} {s : MemSys} {h : Holder} {pa : Nat}
    (hinv : PageInv kend s.pm) (he : (pa, h) ∈ s.pm.held) :
    (kfreeSys kend h pa).run s =
      .ok ((), { s with pm := ⟨⟨pa :: s.pm.kmem.freelist⟩, s.pm.held.erase (pa, h)⟩ }) := by
  simp only [kfreeSys, StateT.run_bind, StateT.run_get, pure_bind, freeFrom_of_held hinv he]
  rfl

theorem kallocSys_run (h : Nat → Holder) (s : MemSys) :
    (kallocSys h).run s = .ok ((allocFor h s.pm).1, { s with pm := (allocFor h s.pm).2 }) := rfl

theorem setProc_run (p : Fin NPROC) (f : ProcMem → ProcMem) (s : MemSys) :
    (setProc p f).run s =
      .ok ((), { s with procs := Function.update s.procs p (f (s.procs p)) }) := rfl

/-! ## Freeing a table and a process -/

section Free

variable {kend : Nat} {O : Nat × Holder → Prop}

/-- Unmapping the page at the trampoline or the trapframe, without
    freeing it, clears that one leaf. -/
theorem unmapTop_spec {s : Vm} (hinv : TableInv kend O s) {va : Nat} (hva : va = TRAMPOLINE ∨ va = TRAPFRAME) :
    ∃ s', (uvmunmap kend va 1 false).run s = .ok ((), s') ∧ TableInv kend O s' ∧
      s'.pt.root = s.pt.root ∧ s'.pt.leaf = Function.update s.pt.leaf va none := by
  have hal : va % PGSIZE = 0 := by
    rcases hva with rfl | rfl <;> decide
  have hmax : va + 1 * PGSIZE ≤ MAXVA := by
    rcases hva with rfl | rfl <;> decide
  obtain ⟨s', hrun, hinv', hroot, hleaf⟩ := uvmunmap_spec hinv 1 false hal hmax (fun h => nomatch h)
  refine ⟨s', hrun, hinv', hroot, funext fun x => ?_⟩
  rw [hleaf]
  dsimp only
  by_cases hx : x = va
  · subst hx
    rw [Function.update_self, if_pos ⟨Nat.le_refl _, by unfold PGSIZE; omega⟩]
  · rw [Function.update_of_ne hx]
    split
    · -- inside the page but not its start: there is no leaf there
      next hin =>
        have hmod : x % PGSIZE ≠ 0 := by
          unfold PGSIZE at *
          omega
        exact (hinv.wf.leaf_of_mod hmod).symm
    · rfl

theorem TRAPFRAME_lt_TRAMPOLINE : TRAPFRAME < TRAMPOLINE := by
  rw [TRAPFRAME_eq, TRAMPOLINE_eq]
  decide

/-- **PROC_FREEPAGETABLE**: a table with every leaf but the trampoline and
    the trapframe below `PGROUNDUP(sz)` is freed without a panic, and the
    pages of `O` stay held. -/
theorem proc_freepagetable_spec {s : Vm} (hinv : TableInv kend O s) {sz : Nat}
    (hsz : sz ≤ TRAPFRAME)
    (hbelow : ∀ a pte, s.pt.leaf a = some pte → a ≠ TRAMPOLINE → a ≠ TRAPFRAME →
      a < PGROUNDUP sz) :
    ∃ s', (proc_freepagetable kend sz).run s = .ok ((), s') ∧ PageInv kend s'.pm ∧
      ∀ e, O e → e ∈ s'.pm.held := by
  obtain ⟨s₁, hrun₁, hinv₁, -, hleaf₁⟩ := unmapTop_spec hinv (.inl rfl)
  obtain ⟨s₂, hrun₂, hinv₂, -, hleaf₂⟩ := unmapTop_spec hinv₁ (.inr rfl)
  have hup : PGROUNDUP sz ≤ TRAPFRAME := (PGROUNDUP_le_iff (by rw [TRAPFRAME_eq]; decide)).mpr hsz
  -- with the two leaves on top gone, every leaf left is below `PGROUNDUP(sz)`
  have hbelow₂ : ∀ a pte, s₂.pt.leaf a = some pte → a < PGROUNDUP sz := by
    intro a pte hl
    have hTF : a ≠ TRAPFRAME := by
      rintro rfl
      rw [hleaf₂, Function.update_self] at hl
      exact nomatch hl
    have hTR : a ≠ TRAMPOLINE := by
      rintro rfl
      rw [hleaf₂, Function.update_of_ne (Nat.ne_of_lt TRAPFRAME_lt_TRAMPOLINE).symm, hleaf₁,
        Function.update_self] at hl
      exact nomatch hl
    rw [hleaf₂, Function.update_of_ne hTF, hleaf₁, Function.update_of_ne hTR] at hl
    exact hbelow a pte hl hTR hTF
  obtain ⟨s₃, hrun₃, hpage, hkept⟩ := uvmfree_spec hinv₂ hup hbelow₂
  refine ⟨s₃, ?_, hpage, hkept⟩
  rw [proc_freepagetable, run_bind_of_eq_ok hrun₁, run_bind_of_eq_ok hrun₂]
  exact hrun₃

end Free

section Freeproc

variable {kend trampoline : Nat}

/-- Without its trapframe, a process's table keeps the pages of the others. -/
theorem SysInv.tableInv_freed {s : MemSys} (hs : SysInv kend trampoline s) {p : Fin NPROC}
    (hp : (s.procs p).used) :
    TableInv kend (Others s p) ⟨s.table p,
      ⟨⟨(s.procs p).trapframe :: s.pm.kmem.freelist⟩,
        s.pm.held.erase ((s.procs p).trapframe, .trapframe p)⟩⟩ := by
  have hok := hs.proc p hp
  have hfree := freeFrom_of_held hs.pageInv hok.trapframe
  -- only the trapframe's entry goes, and no page of a table is held that way
  refine ⟨freeFrom_pageInv hs.pageInv hok.trapframe hfree, hok.wf,
    Tracked.of_use fun e hu => mem_erase_of_snd_ne (hok.tracked.use hu) (hu.ne_trapframe p),
    fun e he => mem_erase_of_snd_ne (hs.others_held he) he.ne_trapframe,
    fun e he => hs.others_apart hp he⟩

/-- **FREEPROC**: freeing a live process always returns; its slot is
    unused after, and the invariant holds. -/
theorem freeproc_spec (hend : 0 < kend) {s : MemSys} (hs : SysInv kend trampoline s)
    {p : Fin NPROC} (hp : (s.procs p).used) :
    ∃ s', (freeproc kend p).run s = .ok ((), s') ∧ SysInv kend trampoline s' ∧
      s'.procs p = ProcMem.unused := by
  have hok := hs.proc p hp
  have htf := hs.trapframe_ne_zero hend hp
  have hpt := hs.pagetable_ne_zero hend hp
  obtain ⟨v, hrun, hpage, hkept⟩ := proc_freepagetable_spec (hs.tableInv_freed hp)
    hok.shape.sz_le hok.shape.below
  refine ⟨⟨Function.update s.procs p ProcMem.unused,
    Function.update s.tables (s.procs p).pagetable v.pt, v.pm⟩, ?_, ?_, ?_⟩
  · simp only [freeproc, StateT.run_bind, StateT.run_get, pure_bind, ok_bind, ne_eq, htf, hpt,
      not_false_eq_true, if_true, kfreeSys_run hs.pageInv hok.trapframe]
    rw [onTable_run hrun]
    rfl
  · refine hs.frame p hpage (fun q hq => Function.update_of_ne hq _ _) (fun q hq hqu => ?_) hkept
      (fun _ => by simp) (fun h => by simp [ProcMem.unused] at h)
      (fun h => by simp [ProcMem.unused] at h)
    -- another live process has another root
    exact table_update_of_ne (by rw [Function.update_of_ne hq])
      fun heq => hq (hs.roots q p hqu hp heq)
  · simp

end Freeproc

/-! ## A new table -/

/-- The leaves of a table fresh from `proc_pagetable`. -/
def topLeaves (trampoline tf : Nat) : Nat → Option Pte :=
  Function.update (Function.update (fun _ => none) TRAMPOLINE (some ⟨trampoline, PTE_R ||| PTE_X⟩))
    TRAPFRAME (some ⟨tf, PTE_R ||| PTE_W⟩)

theorem topLeaves_eq_none {trampoline tf a : Nat} (h1 : a ≠ TRAMPOLINE) (h2 : a ≠ TRAPFRAME) :
    topLeaves trampoline tf a = none := by
  rw [topLeaves, Function.update_of_ne h2, Function.update_of_ne h1]

/-- A table with only the two leaves on top has the shape of every size. -/
theorem shape_topLeaves {trampoline sz tf : Nat} {pt : PageTable} (hsz : sz ≤ TRAPFRAME)
    (h : pt.leaf = topLeaves trampoline tf) : Shape trampoline sz tf pt where
  sz_le := hsz
  trampoline := by
    rw [h, topLeaves, Function.update_of_ne (Nat.ne_of_lt TRAPFRAME_lt_TRAMPOLINE).symm,
      Function.update_self]
  trapframe := by rw [h, topLeaves, Function.update_self]
  below a pte hl h1 h2 := by
    rw [h, topLeaves_eq_none h1 h2] at hl
    exact nomatch hl
  guard a _ pte _ hl _ ha _ _ _ := by
    rw [h, topLeaves_eq_none (by rw [TRAMPOLINE_eq]; rw [TRAPFRAME_eq] at ha; omega)
      (Nat.ne_of_lt ha)] at hl
    exact nomatch hl

section Create

variable {kend : Nat} {O : Nat × Holder → Prop}

/-- **PROC_PAGETABLE**, after `uvmcreate`: the trampoline and the trapframe
    are mapped, or a failure has freed the table again. -/
theorem mapTrampolineTrapframe_spec (hend : 0 < kend) (trampoline : Nat) {s : Vm}
    (hinv : TableInv kend O s) (hno : ∀ a, s.pt.leaf a = none) (tf : Nat) :
    ∃ b s', (mapTrampolineTrapframe kend trampoline tf).run s = .ok (b, s') ∧
      (b = true → TableInv kend O s' ∧ s'.pt.root = s.pt.root ∧
        s'.pt.leaf = topLeaves trampoline tf) ∧
      (b = false → PageInv kend s'.pm ∧ ∀ e, O e → e ∈ s'.pm.held) := by
  have hTR : TRAMPOLINE < MAXVA := by rw [TRAMPOLINE_eq, MAXVA_eq]; decide
  have hTF : TRAPFRAME < MAXVA := by rw [TRAPFRAME_eq, MAXVA_eq]; decide
  have hne := (Nat.ne_of_lt TRAPFRAME_lt_TRAMPOLINE).symm
  have hpg : PGROUNDUP 0 ≤ TRAPFRAME := by rw [TRAPFRAME_eq]; decide
  have hempty : s.pt.leaf = fun _ => none := funext hno
  -- neither page on top is a user page, so neither needs a holder
  obtain ⟨res₁, s₁, hrun₁, hinv₁, hroot₁, -, hres₁⟩ := @mappages_page_spec kend O hend s hinv
    TRAMPOLINE trampoline (PTE_R ||| PTE_X) hTR (by decide) (hno _)
    (fun h => absurd h (Nat.not_lt_of_gt TRAPFRAME_lt_TRAMPOLINE))
  rcases hres₁ with ⟨rfl, hleaf₁⟩ | ⟨rfl, hleaf₁⟩
  · have hnone₁ : s₁.pt.leaf TRAPFRAME = none := by
      rw [hleaf₁, Function.update_of_ne (Nat.ne_of_lt TRAPFRAME_lt_TRAMPOLINE), hno]
    obtain ⟨res₂, s₂, hrun₂, hinv₂, hroot₂, -, hres₂⟩ := @mappages_page_spec kend O hend s₁ hinv₁
      TRAPFRAME tf (PTE_R ||| PTE_W) hTF (by decide) hnone₁ (fun h => absurd h (Nat.lt_irrefl _))
    rcases hres₂ with ⟨rfl, hleaf₂⟩ | ⟨rfl, hleaf₂⟩
    · refine ⟨true, s₂, ?_, fun _ => ⟨hinv₂, hroot₂.trans hroot₁, ?_⟩, fun h => nomatch h⟩
      · rw [mapTrampolineTrapframe, run_bind_of_eq_ok hrun₁, if_neg (by decide),
          run_bind_of_eq_ok hrun₂, if_neg (by decide)]
        rfl
      · rw [hleaf₂, hleaf₁, hempty, topLeaves]
    · -- no memory for the trapframe's tables: unmap the trampoline, free the table
      obtain ⟨s₃, hrun₃, hinv₃, -, hleaf₃⟩ := unmapTop_spec hinv₂ (.inl rfl)
      have hno₃ : ∀ a pte, s₃.pt.leaf a = some pte → a < PGROUNDUP 0 := by
        intro a pte hl
        rw [hleaf₃, hleaf₂, hleaf₁, Function.update_idem, hempty] at hl
        simp [Function.update_apply] at hl
      obtain ⟨s₄, hrun₄, hpage, hkept⟩ := uvmfree_spec hinv₃ hpg hno₃
      refine ⟨false, s₄, ?_, fun h => Bool.noConfusion h, fun _ => ⟨hpage, hkept⟩⟩
      rw [mapTrampolineTrapframe, run_bind_of_eq_ok hrun₁, if_neg (by decide),
        run_bind_of_eq_ok hrun₂, if_pos (by decide), run_bind_of_eq_ok hrun₃,
        run_bind_of_eq_ok hrun₄]
      rfl
  · -- no memory for the trampoline's tables: free the table
    obtain ⟨s₄, hrun₄, hpage, hkept⟩ := uvmfree_spec hinv₁ hpg fun a pte hl => by
      rw [hleaf₁, hno] at hl
      exact nomatch hl
    refine ⟨false, s₄, ?_, fun h => Bool.noConfusion h, fun _ => ⟨hpage, hkept⟩⟩
    rw [mapTrampolineTrapframe, run_bind_of_eq_ok hrun₁, if_pos (by decide),
      run_bind_of_eq_ok hrun₄]
    rfl

/-- **PROC_PAGETABLE**: a fresh root with the two leaves on top, or `0`
    with the table given back.  The pages of `O` stay held, and no table
    at a page held before changes. -/
theorem proc_pagetable_spec (hend : 0 < kend) (trampoline : Nat) {s : MemSys}
    (hpage : PageInv kend s.pm) (hO : ∀ e, O e → e ∈ s.pm.held)
    (hroots : ∀ e, O e → ∀ r, e.2.under r → (r, .table r 2 0) ∈ s.pm.held) (p : Fin NPROC) :
    ∃ r s', (proc_pagetable kend trampoline p).run s = .ok (r, s') ∧ s'.procs = s.procs ∧
      PageInv kend s'.pm ∧ (∀ e, O e → e ∈ s'.pm.held) ∧
      (∀ e ∈ s.pm.held, s'.tables e.1 = s.tables e.1) ∧
      (r ≠ 0 → (∀ e ∈ s.pm.held, e.1 ≠ r) ∧ TableInv kend O ⟨s'.tables r, s'.pm⟩ ∧
        (s'.tables r).root = r ∧ (s'.tables r).leaf = topLeaves trampoline (s.procs p).trapframe) := by
  set pa := (allocFor (fun pa => .table pa 2 0) s.pm).1 with hpa_def
  set pm₁ := (allocFor (fun pa => .table pa 2 0) s.pm).2 with hpm₁
  have hcreate : uvmcreate s.pm = (if pa = 0 then none else some (PageTable.empty pa), pm₁) := rfl
  by_cases hpa : pa = 0
  · refine ⟨0, { s with pm := pm₁ }, ?_, rfl, allocFor_pageInv hend (fun pa => .table pa 2 0) hpage,
      fun e he => mem_allocFor_held (fun pa => .table pa 2 0) (hO e he), fun _ _ => rfl,
      fun h => absurd rfl h⟩
    simp only [proc_pagetable, StateT.run_bind, StateT.run_get, pure_bind, hcreate, if_pos hpa,
      StateT.run_set]
    rfl
  · -- the root is a page no one held, so nothing of `O` is under it
    have hfresh := allocFor_fresh hpage (fun pa => .table pa 2 0) hpa
    have hinv₀ : TableInv kend O ⟨PageTable.empty pa, pm₁⟩ :=
      { pageInv := allocFor_pageInv hend (fun pa => .table pa 2 0) hpage
        wf := ⟨(fun _ _ h => nomatch h), (fun _ _ h => nomatch h), fun _ h => absurd rfl h⟩
        tracked := ⟨allocFor_held _ hpa, fun _ h => absurd rfl h, fun _ h => absurd rfl h,
          fun _ _ h => nomatch h⟩
        others := fun e he => mem_allocFor_held (fun pa => .table pa 2 0) (hO e he)
        apart := fun e he hunder => hfresh _ (hroots e he pa hunder) rfl }
    obtain ⟨b, v, hrun, htrue, hfalse⟩ :=
      mapTrampolineTrapframe_spec hend trampoline hinv₀ (fun _ => rfl) (s.procs p).trapframe
    have hkeep : ∀ e ∈ s.pm.held,
        Function.update (Function.update s.tables pa (PageTable.empty pa)) pa v.pt e.1 =
          s.tables e.1 := fun e he => by
      rw [Function.update_of_ne (hfresh e he), Function.update_of_ne (hfresh e he)]
    have hrun' : (mapTrampolineTrapframe kend trampoline (s.procs p).trapframe).run
        ⟨Function.update s.tables pa (PageTable.empty pa) pa, pm₁⟩ = .ok (b, v) := by
      rw [Function.update_self]
      exact hrun
    refine ⟨if b then pa else 0, ⟨s.procs, Function.update (Function.update s.tables pa
      (PageTable.empty pa)) pa v.pt, v.pm⟩, ?_, rfl, ?_, ?_, hkeep, ?_⟩
    · simp only [proc_pagetable, StateT.run_bind, StateT.run_get, pure_bind, hcreate, if_neg hpa,
        StateT.run_set]
      rw [onTable_run hrun']
      cases b <;> rfl
    · cases b
      · exact (hfalse rfl).1
      · exact (htrue rfl).1.pageInv
    · cases b
      · exact (hfalse rfl).2
      · exact (htrue rfl).1.others
    · intro hr
      cases b
      · exact absurd rfl hr
      · obtain ⟨hinv, hroot, hleaf⟩ := htrue rfl
        simp only [if_true, Function.update_self]
        exact ⟨fun e he => hfresh e he, hinv, hroot, hleaf⟩

end Create

/-! ## A new process -/

section Alloc

variable {kend trampoline : Nat}

/-- `freeproc` of a slot with neither table nor trapframe only frees the slot. -/
theorem freeproc_run_empty {s : MemSys} {p : Fin NPROC} (htf : (s.procs p).trapframe = 0)
    (hpt : (s.procs p).pagetable = 0) :
    (freeproc kend p).run s =
      .ok ((), { s with procs := Function.update s.procs p ProcMem.unused }) := by
  simp only [freeproc, StateT.run_bind, StateT.run_get, pure_bind, htf, hpt, ne_eq,
    not_true_eq_false, if_false]
  rfl

/-- `freeproc` of a slot with a trapframe but no table gives the trapframe back. -/
theorem freeproc_run_trapframe {s : MemSys} {p : Fin NPROC} (hinv : PageInv kend s.pm)
    (htf : (s.procs p).trapframe ≠ 0) (hheld : ((s.procs p).trapframe, .trapframe p) ∈ s.pm.held)
    (hpt : (s.procs p).pagetable = 0) :
    (freeproc kend p).run s = .ok ((), ⟨Function.update s.procs p ProcMem.unused, s.tables,
      ⟨⟨(s.procs p).trapframe :: s.pm.kmem.freelist⟩,
        s.pm.held.erase ((s.procs p).trapframe, .trapframe p)⟩⟩) := by
  simp only [freeproc, StateT.run_bind, StateT.run_get, pure_bind, ok_bind, htf, hpt, ne_eq,
    not_true_eq_false, not_false_eq_true, if_true, if_false, kfreeSys_run hinv hheld]
  rfl

/-- **ALLOCPROC** always returns.  A slot it hands out was unused, and its
    table has the trampoline and the trapframe and no user page; the live
    processes keep their slots and tables. -/
theorem allocproc_spec (hend : 0 < kend) {s : MemSys} (hs : SysInv kend trampoline s) :
    ∃ r s', (allocproc kend trampoline).run s = .ok (r, s') ∧ SysInv kend trampoline s' ∧
      (∀ q, (s.procs q).used → s'.procs q = s.procs q ∧ s'.table q = s.table q) ∧
      ∀ np, r = some np → (s.procs np).used = false ∧ (s'.procs np).used ∧
        (s'.procs np).sz = 0 ∧ ∀ a, a < TRAPFRAME → (s'.table np).leaf a = none := by
  cases hfind : (List.finRange NPROC).find? (fun p => !(s.procs p).used) with
  | none =>
      refine ⟨none, s, ?_, hs, fun q _ => ⟨rfl, rfl⟩, fun np h => nomatch h⟩
      simp only [allocproc, StateT.run_bind, StateT.run_get, pure_bind, hfind]
      rfl
  | some p =>
      have hp : (s.procs p).used = false := by simpa using List.find?_some hfind
      have hlive : ∀ q, (s.procs q).used → q ≠ p := fun q hq hqp => by
        subst hqp
        rw [hp] at hq
        exact Bool.false_ne_true hq
      simp only [allocproc, StateT.run_bind, StateT.run_get, pure_bind, hfind, setProc_run,
        ok_bind, kallocSys_run, hs.unused p hp, ProcMem.unused, Function.update_self,
        Function.update_idem]
      set tf := (allocFor (fun _ => Holder.trapframe p) s.pm).1 with htf_def
      set pm₂ := (allocFor (fun _ => Holder.trapframe p) s.pm).2 with hpm₂
      have hpage₂ : PageInv kend pm₂ := allocFor_pageInv hend _ hs.pageInv
      have hkept₂ : ∀ e ∈ s.pm.held, e ∈ pm₂.held := fun e he =>
        mem_allocFor_held (fun _ => Holder.trapframe p) he
      by_cases htf : tf = 0
      · -- no page for the trapframe: the slot goes back
        rw [if_pos htf, run_bind_of_eq_ok (freeproc_run_empty (by simp [htf]) (by simp))]
        refine ⟨none, _, rfl, ?_, fun q hq => ⟨?_, ?_⟩, fun np h => nomatch h⟩
        · refine hs.frame p hpage₂ (fun q hq => by simp [Function.update_of_ne hq])
            (fun q hq _ => by simp [MemSys.table, Function.update_of_ne hq])
            (fun e he => hkept₂ e (hs.others_held he)) (fun _ => by simp)
            (fun h => by simp [ProcMem.unused] at h) (fun h => by simp [ProcMem.unused] at h)
        · simp [Function.update_of_ne (hlive q hq)]
        · simp [MemSys.table, Function.update_of_ne (hlive q hq)]
      · rw [if_neg htf]
        -- the new table must keep the pages of the others and the trapframe
        have hO : ∀ e, (Others s p e ∨ e = (tf, .trapframe p)) → e ∈ pm₂.held := by
          rintro e (he | rfl)
          · exact hkept₂ e (hs.others_held he)
          · exact allocFor_held _ htf
        have hroots : ∀ e, (Others s p e ∨ e = (tf, .trapframe p)) → ∀ r, e.2.under r →
            (r, .table r 2 0) ∈ pm₂.held := by
          rintro e (he | rfl) r hr
          · exact hkept₂ _ (hs.others_root he hr)
          · exact absurd hr id
        obtain ⟨r, s₄, hrun₄, hprocs₄, hpage₄, hkept₄, htables₄, hnew⟩ :=
          proc_pagetable_spec (s := ⟨Function.update s.procs p ⟨true, 0, 0, tf⟩, s.tables, pm₂⟩)
            hend trampoline hpage₂ hO hroots p
        rw [run_bind_of_eq_ok hrun₄, run_bind_of_eq_ok (setProc_run _ _ _)]
        -- a live process's table sits at a held root, which the new table left alone
        have htab : ∀ q, (s.procs q).used → s₄.tables (s.procs q).pagetable = s.table q :=
          fun q hq => htables₄ _ (hkept₂ _ (hs.root_held hq))
        simp only [hprocs₄, Function.update_self, Function.update_idem]
        by_cases hr : r = 0
        · -- no table: the trapframe and the slot go back
          subst hr
          have hheld : (tf, Holder.trapframe p) ∈ s₄.pm.held := hkept₄ _ (.inr rfl)
          rw [if_pos rfl, run_bind_of_eq_ok (@freeproc_run_trapframe kend
            ⟨Function.update s.procs p ⟨true, 0, 0, tf⟩, s₄.tables, s₄.pm⟩ p hpage₄
            (by simpa using htf) (by simpa using hheld) (by simp))]
          simp only [Function.update_self, Function.update_idem]
          refine ⟨none, _, rfl, ?_, fun q hq => ⟨?_, ?_⟩, fun np h => nomatch h⟩
          · refine hs.frame p (freeFrom_pageInv hpage₄ hheld (freeFrom_of_held hpage₄ hheld))
              (fun q hq => by simp [Function.update_of_ne hq])
              (fun q hq hqu => ?_)
              (fun e he => mem_erase_of_snd_ne (hkept₄ e (.inl he)) he.ne_trapframe)
              (fun _ => by simp) (fun h => by simp [ProcMem.unused] at h)
              (fun h => by simp [ProcMem.unused] at h)
            simp only [MemSys.table, Function.update_of_ne hq]
            exact htab q hqu
          · simp [Function.update_of_ne (hlive q hq)]
          · simp only [MemSys.table, Function.update_of_ne (hlive q hq)]
            exact htab q hq
        · obtain ⟨hfresh, hinv, hroot, hleaf⟩ := hnew hr
          rw [if_neg hr]
          refine ⟨some p, _, rfl, ?_, fun q hq => ⟨?_, ?_⟩, fun np h => ?_⟩
          · refine hs.frame p hpage₄ (fun q hq => by simp [Function.update_of_ne hq])
              (fun q hq hqu => ?_) (fun e he => hkept₄ e (.inl he)) (fun h => by simp at h)
              (fun _ => ?_) (fun _ q _ hqu => ?_)
            · simp only [MemSys.table, Function.update_of_ne hq]
              exact htab q hqu
            · -- the new process: its own root, the two leaves on top
              simp only [MemSys.table, Function.update_self]
              exact ⟨hroot, hinv.wf, hinv.tracked, hkept₄ _ (.inr rfl),
                shape_topLeaves (Nat.zero_le _) (by rw [hleaf]; simp)⟩
            · simp only [Function.update_self]
              exact fun heq => hfresh _ (hkept₂ _ (hs.root_held hqu)) heq.symm
          · simp [Function.update_of_ne (hlive q hq)]
          · simp only [MemSys.table, Function.update_of_ne (hlive q hq)]
            exact htab q hq
          · cases h
            refine ⟨hp, by simp, by simp, fun a ha => ?_⟩
            simp only [MemSys.table, Function.update_self]
            rw [hleaf]
            exact topLeaves_eq_none (Nat.ne_of_lt (Nat.lt_trans ha TRAPFRAME_lt_TRAMPOLINE))
              (Nat.ne_of_lt ha)

end Alloc

end Xv6.Mem
