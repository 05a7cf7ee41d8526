import Xv6.Mem.ProcInv

/-! # The calls that change a process's memory

    `growproc` (for every `int n`), `kfork` (with the failure of `uvmcopy`)
    and the fault path of `copyin` and `copyout` keep `SysInv`.  Each proof
    runs the call through the specs of `vm.c`, then rebuilds the invariant
    with `SysInv.setTable` and one lemma about how the call changed the
    leaves: `Shape.uvmalloc`, `Shape.uvmdealloc`, `Shape.copy`,
    `Shape.of_leaves`. -/

namespace Xv6.Mem

open StateExcept

/-! ## How the leaves may change -/

section ShapeRules

variable {trampoline sz tf : Nat}

theorem Shape.congr_leaf {pt pt' : PageTable} (h : Shape trampoline sz tf pt)
    (hl : pt'.leaf = pt.leaf) : Shape trampoline sz tf pt' where
  sz_le := h.sz_le
  trampoline := hl ▸ h.trampoline
  trapframe := hl ▸ h.trapframe
  below := hl ▸ h.below
  guard := hl ▸ h.guard

/-- **The rule of user leaves**: the shape of size `sz'` holds when the two
    leaves on top stay, and every user leaf is an old one or a user page,
    below `PGROUNDUP(sz')`. -/
theorem Shape.of_leaves {sz' : Nat} {pt pt' : PageTable} (h : Shape trampoline sz tf pt)
    (hsz : sz' ≤ TRAPFRAME) (htop : ∀ a, TRAPFRAME ≤ a → pt'.leaf a = pt.leaf a)
    (hleaf : ∀ a pte, pt'.leaf a = some pte → a < TRAPFRAME →
      (pt.leaf a = some pte ∨ pte.perm.u = true) ∧ a < PGROUNDUP sz') :
    Shape trampoline sz' tf pt' where
  sz_le := hsz
  trampoline := by
    rw [htop _ (Nat.le_of_lt TRAPFRAME_lt_TRAMPOLINE)]
    exact h.trampoline
  trapframe := by
    rw [htop _ (Nat.le_refl _)]
    exact h.trapframe
  below a pte hl h1 h2 := by
    by_cases ha : a < TRAPFRAME
    · exact (hleaf a pte hl ha).2
    · -- above the user range the leaves are the old ones, and those are on top
      rw [htop a (Nat.le_of_not_lt ha)] at hl
      have := h.below a pte hl h1 h2
      have := h.below_trapframe
      omega
  guard a b pte pte' ha hb ha' hb' hu hu' := by
    -- a leaf without `PTE_U` is an old one
    have hA := (hleaf a pte ha ha').1.resolve_right (by rw [hu]; exact Bool.false_ne_true)
    have hB := (hleaf b pte' hb hb').1.resolve_right (by rw [hu']; exact Bool.false_ne_true)
    exact h.guard a b pte pte' hA hB ha' hb' hu hu'

/-- Above the size nothing is mapped below the trapframe. -/
theorem Shape.free_above {pt : PageTable} (h : Shape trampoline sz tf pt) {x : Nat}
    (hx : PGROUNDUP sz ≤ x) (hlt : x < TRAPFRAME) : pt.leaf x = none := by
  cases hl : pt.leaf x with
  | none => rfl
  | some pte =>
      have := h.below x pte hl (Nat.ne_of_lt (Nat.lt_trans hlt TRAPFRAME_lt_TRAMPOLINE))
        (Nat.ne_of_lt hlt)
      omega

/-- **UVMALLOC** keeps the shape, of the old size when it returns `0` and
    of what it returns otherwise. -/
theorem Shape.uvmalloc {pt pt' : PageTable} (h : Shape trampoline sz tf pt) {newsz a : Nat}
    {perm : Perm} (hu : perm.u = true)
    (hres : (newsz < sz ∧ a = sz ∧ pt'.leaf = pt.leaf) ∨
      (a = newsz ∧ sz ≤ newsz ∧ newsz ≤ TRAPFRAME ∧
        Grown (PGROUNDUP sz) newsz perm pt.leaf pt'.leaf) ∨
      (a = 0 ∧ pt'.leaf = pt.leaf)) :
    Shape trampoline (if a = 0 then sz else a) tf pt' := by
  rcases hres with ⟨-, rfl, hl⟩ | ⟨rfl, hle, hnew, hgrow, hkeep⟩ | ⟨rfl, hl⟩
  · rw [ite_self]
    exact h.congr_leaf hl
  · by_cases h0 : a = 0
    · -- nothing to grow: the leaves are the old ones
      rw [if_pos h0]
      exact h.congr_leaf (funext fun x => hkeep x (by omega))
    · rw [if_neg h0]
      have hmono : PGROUNDUP sz ≤ PGROUNDUP a := by
        unfold PGROUNDUP
        exact Nat.mul_le_mul_right _ (Nat.div_le_div_right (by omega))
      refine h.of_leaves hnew (fun x hx => hkeep x (by omega)) fun x pte hl hx => ?_
      by_cases hin : PGROUNDUP sz ≤ x ∧ x < a ∧ x % PGSIZE = 0
      · obtain ⟨pa, hpa⟩ := hgrow x hin.1 hin.2.1 hin.2.2
        rw [hpa] at hl
        cases hl
        exact ⟨.inr hu, Nat.lt_of_lt_of_le hin.2.1 (le_PGROUNDUP a)⟩
      · rw [hkeep x hin] at hl
        have := h.below x pte hl (Nat.ne_of_lt (Nat.lt_trans hx TRAPFRAME_lt_TRAMPOLINE))
          (Nat.ne_of_lt hx)
        exact ⟨.inl hl, by omega⟩
  · rw [if_pos rfl]
    exact h.congr_leaf hl

/-- **UVMDEALLOC** keeps the shape, of the size it returns. -/
theorem Shape.uvmdealloc {pt pt' : PageTable} (h : Shape trampoline sz tf pt) {newsz r : Nat}
    (hres : (sz ≤ newsz → r = sz ∧ pt'.leaf = pt.leaf) ∧
      (newsz < sz → r = newsz ∧ pt'.leaf =
        fun x => if PGROUNDUP newsz ≤ x ∧ x < PGROUNDUP sz then none else pt.leaf x)) :
    Shape trampoline r tf pt' := by
  by_cases hle : sz ≤ newsz
  · obtain ⟨rfl, hl⟩ := hres.1 hle
    exact h.congr_leaf hl
  · obtain ⟨rfl, hl⟩ := hres.2 (Nat.lt_of_not_le hle)
    have hup := h.below_trapframe
    refine h.of_leaves (Nat.le_trans (Nat.le_of_not_le hle) h.sz_le) (fun x hx => ?_)
      fun x pte hx hlt => ?_
    · rw [hl]
      exact if_neg (by omega)
    · rw [hl] at hx
      dsimp only at hx
      split at hx
      · exact nomatch hx
      · next hout =>
          have := h.below x pte hx (Nat.ne_of_lt (Nat.lt_trans hlt TRAPFRAME_lt_TRAMPOLINE))
            (Nat.ne_of_lt hlt)
          exact ⟨.inl hx, by omega⟩

/-- A copied leaf has the permissions of a page the parent maps. -/
theorem Copied.of_some {old : PageTable} {x : Nat} {pte : Pte} (h : Copied old x (some pte)) :
    ∃ q, old.lookup x = some q ∧ q.perm = pte.perm := by
  unfold Copied at h
  split at h
  · exact nomatch h
  · next q hq =>
      obtain ⟨pa, hpa⟩ := h
      cases hpa
      exact ⟨q, hq, rfl⟩

/-- **UVMCOPY** gives the child the shape of the parent's size: its leaves
    below the trapframe copy the parent's below `sz`, so the one leaf
    without `PTE_U` is the parent's guard page, and the two on top are those
    of its fresh table. -/
theorem Shape.copy {sz' tf' : Nat} {old pt₀ pt' : PageTable} (hold : Shape trampoline sz' tf' old)
    (hwfold : WF old) (h₀ : Shape trampoline 0 tf pt₀) (hwf : WF pt')
    (htop : ∀ x, TRAPFRAME ≤ x → pt'.leaf x = pt₀.leaf x)
    (hcopy : ∀ x, x < TRAPFRAME → x % PGSIZE = 0 →
      (x < sz' → Copied old x (pt'.leaf x)) ∧ (sz' ≤ x → pt'.leaf x = none)) :
    Shape trampoline sz' tf pt' where
  sz_le := hold.sz_le
  trampoline := by
    rw [htop _ (Nat.le_of_lt TRAPFRAME_lt_TRAMPOLINE)]
    exact h₀.trampoline
  trapframe := by
    rw [htop _ (Nat.le_refl _)]
    exact h₀.trapframe
  below a pte hl h1 h2 := by
    by_cases ha : a < TRAPFRAME
    · by_cases hsz : a < sz'
      · exact Nat.lt_of_lt_of_le hsz (le_PGROUNDUP sz')
      · rw [(hcopy a ha (hwf.leaf_aligned a pte hl)).2 (Nat.le_of_not_lt hsz)] at hl
        exact nomatch hl
    · -- above the user range the fresh table has only the two pages on top
      rw [htop a (Nat.le_of_not_lt ha)] at hl
      have := h₀.below a pte hl h1 h2
      rw [PGROUNDUP_of_mod (Nat.zero_mod PGSIZE)] at this
      exact absurd this (Nat.not_lt_zero a)
  guard a b pte pte' ha hb ha' hb' hu hu' := by
    -- each leaf without `PTE_U` copies one of the parent's
    have hparent : ∀ x q, pt'.leaf x = some q → x < TRAPFRAME →
        ∃ q', old.leaf x = some q' ∧ q'.perm = q.perm := by
      intro x q hx hxt
      have hal := hwf.leaf_aligned x q hx
      by_cases hsz : x < sz'
      · have hc := (hcopy x hxt hal).1 hsz
        rw [hx] at hc
        obtain ⟨q', hq', hperm⟩ := hc.of_some
        exact ⟨q', (hwfold.lookup_eq hal).symm.trans hq', hperm⟩
      · rw [(hcopy x hxt hal).2 (Nat.le_of_not_lt hsz)] at hx
        exact nomatch hx
    obtain ⟨qa, hqa, hpa⟩ := hparent a pte ha ha'
    obtain ⟨qb, hqb, hpb⟩ := hparent b pte' hb hb'
    exact hold.guard a b qa qb hqa hqb ha' hb' (by rw [hpa, hu]) (by rw [hpb, hu'])

end ShapeRules

/-! ## A process's own table changes -/

section SetTable

variable {kend trampoline : Nat}

/-- **The table rule**: after code of `vm.c` ran on `p`'s table and kept
    the pages of the others and `p`'s trapframe, the invariant holds with
    the new table and a size it has the shape of. -/
theorem SysInv.setTable {s : MemSys} (hs : SysInv kend trampoline s) {p : Fin NPROC}
    (hp : (s.procs p).used) {v : Vm}
    (hinv : TableInv kend (fun e => Others s p e ∨ e = ((s.procs p).trapframe, .trapframe p)) v)
    (hroot : v.pt.root = (s.procs p).pagetable) {sz : Nat}
    (hshape : Shape trampoline sz (s.procs p).trapframe v.pt) :
    SysInv kend trampoline ⟨Function.update s.procs p { s.procs p with sz },
      Function.update s.tables (s.procs p).pagetable v.pt, v.pm⟩ :=
  hs.frame p hinv.pageInv (fun q hq => Function.update_of_ne hq _ _)
    (fun q hq hqu => table_update_of_ne (by rw [Function.update_of_ne hq])
      fun heq => hq (hs.roots q p hqu hp heq))
    (fun e he => hinv.others e (.inl he)) (fun h => by simp [hp] at h)
    (fun _ => by
      simp only [MemSys.table, Function.update_self]
      exact ⟨hroot, hinv.wf, hinv.tracked, hinv.others _ (.inr rfl), hshape⟩)
    (fun _ q hq hqu => by
      simp only [Function.update_self]
      exact fun heq => hq (hs.roots q p hqu hp heq.symm))

/-- The table rule when the size stays. -/
theorem SysInv.setTable_same {s : MemSys} (hs : SysInv kend trampoline s) {p : Fin NPROC}
    (hp : (s.procs p).used) {v : Vm}
    (hinv : TableInv kend (fun e => Others s p e ∨ e = ((s.procs p).trapframe, .trapframe p)) v)
    (hroot : v.pt.root = (s.procs p).pagetable)
    (hshape : Shape trampoline (s.procs p).sz (s.procs p).trapframe v.pt) :
    SysInv kend trampoline ⟨s.procs, Function.update s.tables (s.procs p).pagetable v.pt, v.pm⟩ := by
  have h := hs.setTable hp hinv hroot hshape
  rwa [Function.update_eq_self] at h

end SetTable

/-! ## `sbrk` -/

section Grow

variable {kend trampoline : Nat}

/-- **GROWPROC**, for every `int n`: growing maps user pages up to the new
    size or rolls back, shrinking unmaps whole pages down to it (a size
    that wraps below zero leaves the size as it was), and the invariant
    holds whenever the call returns. -/
theorem growproc_spec (hend : 0 < kend) {s : MemSys} (hs : SysInv kend trampoline s)
    {p : Fin NPROC} (hp : (s.procs p).used) (n : Int) {r : Int} {s' : MemSys}
    (h : (growproc kend p n).run s = .ok (r, s')) : SysInv kend trampoline s' := by
  have hok := hs.proc p hp
  have hroot := hs.table_root hp
  simp only [growproc, StateT.run_bind, StateT.run_get, pure_bind] at h
  by_cases hpos : n > 0
  · rw [if_pos hpos] at h
    by_cases hbig : addInt (s.procs p).sz n > TRAPFRAME
    · rw [if_pos hbig] at h
      cases h
      exact hs
    · rw [if_neg hbig] at h
      obtain ⟨a, s₁, hrun₁, hrest⟩ := run_bind_eq_ok h
      obtain ⟨v, hv, rfl⟩ := onTable_run_eq_ok hrun₁
      obtain ⟨hinv, hroot', hres⟩ := uvmalloc_spec hend (hs.tableInv hp) PTE_W
        hok.shape.below_trapframe (by rw [hok.shape.trapframe]; rfl)
        (fun x hx hlt => hok.shape.free_above hx hlt) hv
      have hshape := hok.shape.uvmalloc (by rfl) hres
      split at hrest
      · -- no memory: `sz` stays, and so do the leaves
        next ha =>
          cases hrest
          rw [if_pos ha] at hshape
          exact hs.setTable_same hp hinv (hroot'.trans hroot) hshape
      · next ha =>
          rw [run_bind_of_eq_ok (setProc_run _ _ _)] at hrest
          cases hrest
          rw [if_neg ha] at hshape
          exact hs.setTable hp hinv (hroot'.trans hroot) hshape
  · rw [if_neg hpos] at h
    by_cases hneg : n < 0
    · rw [if_pos hneg] at h
      obtain ⟨a, s₁, hrun₁, hrest⟩ := run_bind_eq_ok h
      obtain ⟨v, hv, rfl⟩ := onTable_run_eq_ok hrun₁
      obtain ⟨b, v', hv', hinv, hroot', hkeep, hshrink⟩ := uvmdealloc_spec (hs.tableInv hp)
        (s.procs p).sz (addInt (s.procs p).sz n) hok.shape.below_trapframe
      -- `uvmdealloc` always returns, so the run at hand is that one
      cases hv'.symm.trans hv
      rw [run_bind_of_eq_ok (setProc_run _ _ _)] at hrest
      cases hrest
      exact hs.setTable hp hinv (hroot'.trans hroot) (hok.shape.uvmdealloc ⟨hkeep, hshrink⟩)
    · rw [if_neg hneg] at h
      cases h
      exact hs

end Grow

/-! ## `fork` -/

section Fork

variable {kend trampoline : Nat}

/-- The copy of `kfork` on the child's fresh table keeps the invariant: the
    child takes the parent's size when it succeeds, and its table is as
    fresh as before when it fails. -/
theorem uvmcopy_child_inv (hend : 0 < kend) {s : MemSys} (hs : SysInv kend trampoline s)
    {p np : Fin NPROC} (hp : (s.procs p).used) (hnp : (s.procs np).used) (hsz₀ : (s.procs np).sz = 0)
    (hnone : ∀ a, a < TRAPFRAME → (s.table np).leaf a = none) {res : Int} {v : Vm}
    (hv : (uvmcopy kend (s.table p) (s.procs p).sz).run ⟨s.table np, s.pm⟩ = .ok (res, v)) :
    (res = 0 ∧ SysInv kend trampoline ⟨Function.update s.procs np { s.procs np with sz := (s.procs p).sz },
        Function.update s.tables (s.procs np).pagetable v.pt, v.pm⟩) ∨
      (res = -1 ∧ SysInv kend trampoline
        ⟨s.procs, Function.update s.tables (s.procs np).pagetable v.pt, v.pm⟩) := by
  have hok := hs.proc p hp
  have hok₁ := hs.proc np hnp
  -- the copy runs on the child's fresh table, with nothing mapped below the trapframe
  obtain ⟨hinv, hroot, htop, hres⟩ := uvmcopyLoop_spec hend (s.table p) (s.procs p).sz hok.shape.sz_le
    ((s.procs p).sz / PGSIZE + 1) 0 (hs.tableInv hnp) (Nat.zero_mod PGSIZE) (Nat.zero_le _)
    (by unfold PGSIZE; omega) (fun _ _ _ h => absurd h (Nat.not_lt_zero _))
    (fun x hx _ => hnone x hx) hv
  have hroot' : v.pt.root = (s.procs np).pagetable := hroot.trans (hs.table_root hnp)
  have hshape₀ : Shape trampoline 0 (s.procs np).trapframe (s.table np) := hsz₀ ▸ hok₁.shape
  rcases hres with ⟨rfl, hcopy⟩ | ⟨rfl, hclear⟩
  · -- the copy succeeded: the child takes the parent's size
    exact .inl ⟨rfl, hs.setTable hnp hinv hroot' (Shape.copy hok.shape hok.wf hshape₀ hinv.wf htop hcopy)⟩
  · -- the copy failed: the child's table is as fresh as before
    have hleaf : v.pt.leaf = (s.table np).leaf := funext fun x => by
      by_cases hx : x < TRAPFRAME
      · rw [hclear x hx, hnone x hx]
      · exact htop x (Nat.le_of_not_lt hx)
    exact .inr ⟨rfl, hs.setTable_same hnp hinv hroot' (hok₁.shape.congr_leaf hleaf)⟩

/-- **KFORK** keeps the invariant whenever it returns: the child gets a
    fresh slot whose table copies the parent's pages below `sz`, or, when
    `uvmcopy` fails, is freed again. -/
theorem kfork_spec (hend : 0 < kend) {s : MemSys} (hs : SysInv kend trampoline s)
    {p : Fin NPROC} (hp : (s.procs p).used) {r : Option (Fin NPROC)} {s' : MemSys}
    (h : (kfork kend trampoline p).run s = .ok (r, s')) : SysInv kend trampoline s' := by
  obtain ⟨r₁, s₁, hrun₁, hs₁, hlive, hnew⟩ := allocproc_spec hend hs
  simp only [kfork, StateT.run_bind, hrun₁, ok_bind] at h
  cases r₁ with
  | none =>
      cases h
      exact hs₁
  | some np =>
      obtain ⟨-, hused, hsz₀, hnone⟩ := hnew np rfl
      have hp₁ : (s₁.procs p).used := by rw [(hlive p hp).1]; exact hp
      rw [StateT.run_bind, StateT.run_get, pure_bind] at h
      obtain ⟨res, s₂, hrun₂, hrest⟩ := run_bind_eq_ok h
      obtain ⟨v, hv, rfl⟩ := onTable_run_eq_ok hrun₂
      rcases uvmcopy_child_inv hend hs₁ hp₁ hused hsz₀ hnone hv with ⟨rfl, hs₂⟩ | ⟨rfl, hs₂⟩
      · simp only [Int.reduceLT, if_false] at hrest
        rw [run_bind_of_eq_ok (setProc_run _ _ _)] at hrest
        cases hrest
        exact hs₂
      · -- the child is freed
        simp only [Int.reduceLT, if_true] at hrest
        obtain ⟨u, s₃, hrun₃, hrest'⟩ := run_bind_eq_ok hrest
        cases hrest'
        obtain ⟨s₄, hrun₄, hs₄, -⟩ := freeproc_spec hend hs₂ (p := np) hused
        rw [hrun₄] at hrun₃
        cases hrun₃
        exact hs₄

end Fork

end Xv6.Mem
