import Xv6.Mem.ExecRun

/-! # A table holds only the pages it uses

    `TableInv` says that the pages a table uses are held; `Exact` says the
    converse: every held page is one the table uses, or one of the pages
    `O` of other holders.  So code of `vm.c` that keeps `Exact` leaks no
    page: a page it takes from `kalloc` ends up in the table or back on the
    free list.  A page taken and not yet installed is carried in `O` (the
    pending page of `uvmalloc` and `uvmcopy`) and settled once it is a leaf.

    `Exact` also bounds the keys of the level-1 tables by the 512 entries of
    the root, which is what lets `freewalk`, looping over those entries,
    free every table page: after `uvmfree` only the pages `O` are held. -/

namespace Xv6.Mem

open StateExcept

/-- **Exactness** of the table being worked on: every held page is one of
    `O` or a page the table uses, and the level-1 tables sit under the 512
    entries of the root. -/
structure Exact (O : Nat × Holder → Prop) (v : Vm) : Prop where
  held : ∀ e ∈ v.pm.held, O e ∨ UseOf v.pt e
  keys : ∀ i, v.pt.l1 i ≠ 0 → i < 512

/-! ## Uses under one change of the table -/

section Uses

theorem UseOf.l1_of {pt : PageTable} {i pa : Nat} (h : pt.l1 i = pa) (hpa : pa ≠ 0) :
    UseOf pt (pa, .table pt.root 1 i) := by
  subst h
  exact .l1 i hpa

theorem UseOf.l0_of {pt : PageTable} {j pa : Nat} (h : pt.l0 j = pa) (hpa : pa ≠ 0) :
    UseOf pt (pa, .table pt.root 0 j) := by
  subst h
  exact .l0 j hpa

theorem UseOf.leaf_of {pt : PageTable} {a pa : Nat} {perm : Perm} (h : pt.leaf a = some ⟨pa, perm⟩)
    (ha : a < TRAPFRAME) : UseOf pt (pa, .user pt.root a) :=
  .leaf a ⟨pa, perm⟩ h ha

/-- Installing a level-1 table where there was none keeps every use: no
    level-0 table hung under the missing entry. -/
theorem UseOf.setL1 {pt : PageTable} (hwf : WF pt) {i pa : Nat} (hi : pt.l1 i = 0)
    {e : Nat × Holder} (hu : UseOf pt e) : UseOf (pt.setL1 i pa) e := by
  cases hu with
  | root => exact .root
  | l1 i' hi' =>
      have hne : i' ≠ i := fun h => hi' (h ▸ hi)
      exact .l1_of (Function.update_of_ne hne _ _) hi'
  | l0 j hj =>
      have hne : j / 512 ≠ i := fun h => hwf.l0_l1 j hj (h ▸ hi)
      exact .l0_of (if_neg hne) hj
  | leaf a pte hl ha => exact .leaf a pte hl ha

/-- Installing a level-0 table where there was none keeps every use: no
    leaf hung under it. -/
theorem UseOf.setL0 {pt : PageTable} (hwf : WF pt) {j pa : Nat} (hj : pt.l0 j = 0)
    {e : Nat × Holder} (hu : UseOf pt e) : UseOf (pt.setL0 j pa) e := by
  cases hu with
  | root => exact .root
  | l1 i hi => exact .l1 i hi
  | l0 j' hj' =>
      have hne : j' ≠ j := fun h => hj' (h ▸ hj)
      exact .l0_of (Function.update_of_ne hne _ _) hj'
  | leaf a pte hl ha =>
      have hne : key0 a ≠ j := fun h => hwf.leaf_l0 a pte hl (h ▸ hj)
      have hl' : (pt.setL0 j pa).leaf a = some pte := by
        simp only [PageTable.setL0, if_neg hne, hl]
      exact .leaf a pte hl' ha

/-- Mapping a page where there was none keeps every use. -/
theorem UseOf.setLeaf {pt : PageTable} {a : Nat} (ha : pt.leaf a = none) (pte : Option Pte)
    {e : Nat × Holder} (hu : UseOf pt e) : UseOf (pt.setLeaf a pte) e := by
  cases hu with
  | root => exact .root
  | l1 i hi => exact .l1 i hi
  | l0 j hj => exact .l0 j hj
  | leaf b q hl hb =>
      have hne : b ≠ a := fun h => by rw [h, ha] at hl; cases hl
      exact .leaf b q ((Function.update_of_ne hne _ _).trans hl) hb

/-- Changing a leaf keeps every use but that leaf's own. -/
theorem UseOf.update_leaf {pt : PageTable} {a : Nat} (l : Option Pte) {e : Nat × Holder}
    (hu : UseOf pt e) (hne : ∀ pte, pt.leaf a = some pte → a < TRAPFRAME →
      e ≠ (pte.pa, .user pt.root a)) : UseOf (pt.setLeaf a l) e := by
  cases hu with
  | root => exact .root
  | l1 i hi => exact .l1 i hi
  | l0 j hj => exact .l0 j hj
  | leaf b q hl hb =>
      have hba : b ≠ a := fun h => by
        subst h
        exact hne q hl hb rfl
      exact .leaf b q ((Function.update_of_ne hba _ _).trans hl) hb

end Uses

/-! ## Exactness under one change -/

section Steps

variable {kend : Nat} {O O' : Nat × Holder → Prop}

/-- A held page is held once, so dropping its entry drops it. -/
theorem PageInv.not_mem_erase {pm : PhysMem} (hinv : PageInv kend pm) {x : Nat × Holder}
    (hx : x ∈ pm.held) : x ∉ pm.held.erase x := by
  intro hmem
  have hone := hinv.one_place x.1 (hinv.held_isPage x hx)
  have herase := countP_fst_erase hx x.1
  have hpos : 0 < (pm.held.erase x).countP (·.1 == x.1) :=
    List.countP_pos_iff.mpr ⟨x, hmem, by simp⟩
  simp only [if_true, PhysMem.places, PhysMem.heldCount] at herase hone
  omega

/-- A `kalloc` adds at most its own page. -/
theorem mem_allocFor_cases {pm : PhysMem} {h : Nat → Holder} {e : Nat × Holder}
    (he : e ∈ (allocFor h pm).2.held) :
    e = ((allocFor h pm).1, h (allocFor h pm).1) ∨ e ∈ pm.held := by
  simp only [allocFor] at he ⊢
  split at he
  · exact .inr he
  · exact List.mem_cons.mp he

/-- A `kalloc` that found no page holds nothing new. -/
theorem mem_allocFor_of_zero {pm : PhysMem} {h : Nat → Holder} (h0 : (allocFor h pm).1 = 0)
    {e : Nat × Holder} (he : e ∈ (allocFor h pm).2.held) : e ∈ pm.held := by
  simp only [allocFor] at h0 he
  rwa [if_pos h0] at he

theorem Exact.mono {v : Vm} (hex : Exact O v) (hO : ∀ e, O e → O' e) : Exact O' v :=
  ⟨fun e he => (hex.held e he).imp_left (hO e), hex.keys⟩

/-- Fewer held pages, the same table. -/
theorem Exact.of_sub {v v' : Vm} (hex : Exact O v) (hpt : v'.pt = v.pt)
    (hsub : ∀ e ∈ v'.pm.held, e ∈ v.pm.held) : Exact O v' :=
  ⟨fun e he => hpt ▸ hex.held e (hsub e he), hpt ▸ hex.keys⟩

/-- A `kalloc` leaves its page pending. -/
theorem Exact.alloc {v : Vm} (hex : Exact O v) (h : Nat → Holder) :
    Exact (fun e => O e ∨ e = ((allocFor h v.pm).1, h (allocFor h v.pm).1))
      { v with pm := (allocFor h v.pm).2 } := by
  refine ⟨fun e he => ?_, hex.keys⟩
  rcases mem_allocFor_cases he with rfl | he
  · exact .inl (.inr rfl)
  · exact (hex.held e he).imp_left .inl

/-- A `kalloc` that found no page holds nothing new. -/
theorem Exact.alloc_zero {v : Vm} (hex : Exact O v) {h : Nat → Holder}
    (hpa : (allocFor h v.pm).1 = 0) : Exact O { v with pm := (allocFor h v.pm).2 } :=
  hex.of_sub rfl fun e he => by
    simp only [Mem.allocFor] at hpa he
    rwa [if_pos hpa] at he

/-- A table that only gained uses, with a pending page that is now one. -/
theorem Exact.install {v : Vm} {x : Nat × Holder} (hex : Exact (fun e => O e ∨ e = x) v)
    {pt' : PageTable} (huse : ∀ e, UseOf v.pt e → UseOf pt' e) (hx : UseOf pt' x)
    (hkeys : ∀ i, pt'.l1 i ≠ 0 → i < 512) : Exact O ⟨pt', v.pm⟩ := by
  refine ⟨fun e he => ?_, hkeys⟩
  rcases hex.held e he with (hO | rfl) | hu
  · exact .inl hO
  · exact .inr hx
  · exact .inr (huse e hu)

/-- A table that only gained uses. -/
theorem Exact.extend {v : Vm} (hex : Exact O v) {pt' : PageTable}
    (huse : ∀ e, UseOf v.pt e → UseOf pt' e) (hkeys : ∀ i, pt'.l1 i ≠ 0 → i < 512) :
    Exact O ⟨pt', v.pm⟩ :=
  ⟨fun e he => (hex.held e he).imp_right (huse e), hkeys⟩

/-- A table that lost the use `x`, whose page is no longer held. -/
theorem Exact.forget {v : Vm} (hex : Exact O v) {x : Nat × Holder} (hx : x ∉ v.pm.held)
    {pt' : PageTable} (huse : ∀ e, UseOf v.pt e → e ≠ x → UseOf pt' e)
    (hkeys : ∀ i, pt'.l1 i ≠ 0 → i < 512) : Exact O ⟨pt', v.pm⟩ := by
  refine ⟨fun e he => (hex.held e he).imp_right fun hu => huse e hu ?_, hkeys⟩
  rintro rfl
  exact hx he

/-- A use given back with `kfree`: its entry goes, and so may the use. -/
theorem Exact.free_use {v : Vm} (hex : Exact O v) (hpage : PageInv kend v.pm) {x : Nat × Holder}
    (hx : x ∈ v.pm.held) {pt' : PageTable} (huse : ∀ e, UseOf v.pt e → e ≠ x → UseOf pt' e)
    (hkeys : ∀ i, pt'.l1 i ≠ 0 → i < 512) (kmem : Kmem) :
    Exact O ⟨pt', ⟨kmem, v.pm.held.erase x⟩⟩ := by
  have hsub : Exact O ⟨v.pt, ⟨kmem, v.pm.held.erase x⟩⟩ :=
    hex.of_sub rfl fun _ he => List.mem_of_mem_erase he
  exact hsub.forget (hpage.not_mem_erase hx) huse hkeys

/-- The pending page given back with `kfree`. -/
theorem Exact.settle_free {v : Vm} {x : Nat × Holder} (hex : Exact (fun e => O e ∨ e = x) v)
    (hpage : PageInv kend v.pm) (hx : x ∈ v.pm.held) (kmem : Kmem) :
    Exact O ⟨v.pt, ⟨kmem, v.pm.held.erase x⟩⟩ := by
  refine ⟨fun e he => ?_, hex.keys⟩
  rcases hex.held e (List.mem_of_mem_erase he) with (hO | rfl) | hu
  · exact .inl hO
  · exact absurd he (hpage.not_mem_erase hx)
  · exact .inr hu

theorem key1_lt {va : Nat} (hva : va < MAXVA) : key1 va < 512 :=
  Nat.div_lt_of_lt_mul (by rw [MAXVA_eq] at hva; exact Nat.lt_of_lt_of_le hva (by decide))

end Steps

/-! ## `walk` and `mappages` only add what they use -/

section Walk

variable {kend : Nat} {O O' : Nat × Holder → Prop}

theorem walkL1_exact {s : Vm} (hinv : TableInv kend O' s) (hex : Exact O s) {va : Nat}
    (hva : va < MAXVA) {alloc b : Bool} {s' : Vm} (h : (walkL1 va alloc).run s = .ok (b, s')) :
    Exact O s' := by
  simp only [walkL1, StateT.run_bind, StateT.run_get, pure_bind] at h
  by_cases h1 : s.pt.l1 (key1 va) ≠ 0
  · rw [if_pos h1] at h
    cases h
    exact hex
  rw [if_neg h1] at h
  cases alloc with
  | false =>
      cases h
      exact hex
  | true =>
      simp only [if_true, StateT.run_bind, kallocFor_run, pure_bind] at h
      split at h
      · next hpa =>
          cases h
          exact hex.alloc_zero hpa
      · next hpa =>
          cases h
          -- the new level-1 table is a use, and the old uses stay
          refine (hex.alloc _).install (fun e hu => hu.setL1 hinv.wf (not_not.mp h1))
            (.l1_of (Function.update_self ..) hpa) fun i hi => ?_
          by_cases hik : i = key1 va
          · exact hik ▸ key1_lt hva
          · exact hex.keys i (by simpa [PageTable.setL1, Function.update_of_ne hik] using hi)

theorem walkL0_exact {s : Vm} (hinv : TableInv kend O' s) (hex : Exact O s) {va : Nat}
    {alloc b : Bool} {s' : Vm} (h : (walkL0 va alloc).run s = .ok (b, s')) : Exact O s' := by
  simp only [walkL0, StateT.run_bind, StateT.run_get, pure_bind] at h
  by_cases h0 : s.pt.l0 (key0 va) ≠ 0
  · rw [if_pos h0] at h
    cases h
    exact hex
  rw [if_neg h0] at h
  cases alloc with
  | false =>
      cases h
      exact hex
  | true =>
      simp only [if_true, StateT.run_bind, kallocFor_run, pure_bind] at h
      split at h
      · next hpa =>
          cases h
          exact hex.alloc_zero hpa
      · next hpa =>
          cases h
          exact (hex.alloc _).install (fun e hu => hu.setL0 hinv.wf (not_not.mp h0))
            (.l0_of (Function.update_self ..) hpa) hex.keys

/-- `walk` only installs tables it then uses. -/
theorem walk_exact (hend : 0 < kend) {s : Vm} (hinv : TableInv kend O' s) (hex : Exact O s)
    {va : Nat} {alloc : Bool} {res : Option Nat} {s' : Vm}
    (h : (walk va alloc).run s = .ok (res, s')) : Exact O s' := by
  rw [walk] at h
  split at h
  · cases h
  next hva =>
  have hva : va < MAXVA := Nat.lt_of_not_le hva
  obtain ⟨b₁, s₁, hrun₁, h⟩ := run_bind_eq_ok h
  have hex₁ := walkL1_exact hinv hex hva hrun₁
  obtain ⟨b₁', s₁', hrun₁', hinv₁, -⟩ := walkL1_spec hend hinv va alloc
  cases hrun₁.symm.trans hrun₁'
  cases b₁ with
  | false =>
      cases h
      exact hex₁
  | true =>
      obtain ⟨b₀, s₂, hrun₂, h⟩ := run_bind_eq_ok h
      have hex₂ := walkL0_exact hinv₁ hex₁ hrun₂
      cases b₀ <;> cases h <;> exact hex₂

/-- `mappages` of one page only installs what it uses.  The page it maps
    is a use afterwards, which settles a pending page. -/
theorem mappages_page_exact (hend : 0 < kend) {s : Vm} (hinv : TableInv kend O' s)
    (hex : Exact O s) {a pa : Nat} {perm : Perm} (hal : a % PGSIZE = 0) (hnone : s.pt.leaf a = none)
    {res : Int} {s' : Vm} (h : (mappages a PGSIZE pa perm).run s = .ok (res, s')) :
    Exact O s' := by
  rw [mappages_page_eq hal, mappagesLoop] at h
  obtain ⟨k, s₁, hrun₁, h⟩ := run_bind_eq_ok h
  have hex₁ := walk_exact hend hinv hex hrun₁
  rcases k with _ | k
  · cases h
    exact hex₁
  -- `walk` answers the page itself, whose leaf is still empty
  have hva : a < MAXVA := by
    rw [walk] at hrun₁
    split at hrun₁
    · cases hrun₁
    · omega
  obtain ⟨res₁, s₁', hrun₁', -, -, hleaf₁, -, hkey⟩ := walk_true_spec hend hinv hva
  cases hrun₁.symm.trans hrun₁'
  obtain ⟨rfl, -⟩ := hkey _ rfl
  rw [PGROUNDDOWN_of_mod hal] at h
  have hnone₁ : s₁.pt.leaf a = none := hleaf₁ ▸ hnone
  simp only [StateT.run_bind, StateT.run_get, pure_bind, hnone₁, Option.isSome_none,
    Bool.false_eq_true, if_false, StateT.run_modify] at h
  cases h
  exact hex₁.extend (fun e hu => hu.setLeaf hnone₁ _) hex₁.keys

end Walk

/-! ## Unmapping gives each page back -/

section Unmap

variable {kend : Nat} {O O' : Nat × Holder → Prop}

/-- One page of `uvmunmap` keeps exactness when it frees exactly the user
    pages: below the trapframe it must free, above it it must not. -/
theorem unmapPage_exact {s : Vm} (hinv : TableInv kend O' s) (hex : Exact O s) {a : Nat}
    (doFree : Bool) (ha : a < MAXVA) (hal : a % PGSIZE = 0)
    (hfree : doFree = true → a < TRAPFRAME) (hkeep : doFree = false → TRAPFRAME ≤ a) {s' : Vm}
    (h : (unmapPage kend doFree a).run s = .ok ((), s')) : Exact O s' := by
  rw [unmapPage, run_bind_of_eq_ok (walk_false_run ha s), PGROUNDDOWN_of_mod hal] at h
  by_cases hnodes : s.pt.l1 (key1 a) ≠ 0 ∧ s.pt.l0 (key0 a) ≠ 0
  · simp only [if_pos hnodes, StateT.run_bind, StateT.run_get, pure_bind] at h
    cases hl : s.pt.leaf a with
    | none =>
        simp only [hl] at h
        cases h
        exact hex
    | some pte =>
        simp only [hl] at h
        cases doFree with
        | false =>
            cases h
            -- above the trapframe a leaf is no use
            exact hex.extend (fun e hu => hu.update_leaf none fun _ _ hlt =>
              absurd (hkeep rfl) (Nat.not_le.mpr hlt)) hex.keys
        | true =>
            have hlt := hfree rfl
            have hheld := hinv.tracked.leaf a pte hl hlt
            simp only [if_true, StateT.run_bind, StateT.run_get, pure_bind,
              kfreeFrom_run hinv.pageInv hheld] at h
            cases h
            -- the page goes back with its entry, so its use may go
            refine hex.free_use hinv.pageInv hheld
              (fun e hu hne => hu.update_leaf none fun q hq _ => ?_) hex.keys _
            rw [hl] at hq
            cases hq
            exact hne
  · simp only [if_neg hnodes] at h
    cases h
    exact hex

theorem uvmunmapLoop_exact (doFree : Bool) :
    ∀ (n a : Nat) {s : Vm} {s' : Vm}, TableInv kend O' s → Exact O s → a % PGSIZE = 0 →
      a + n * PGSIZE ≤ MAXVA → (doFree = true → a + n * PGSIZE ≤ TRAPFRAME) →
      (doFree = false → TRAPFRAME ≤ a) →
      (uvmunmapLoop kend doFree n a).run s = .ok ((), s') → Exact O s'
  | 0, a, s, s', _, hex, _, _, _, _, h => by
      cases h
      exact hex
  | n + 1, a, s, s', hinv, hex, hal, hmax, hfree, hkeep, h => by
      have hpg : 0 < PGSIZE := by decide
      have hstep : a + PGSIZE + n * PGSIZE = a + (n + 1) * PGSIZE := by
        rw [Nat.succ_mul]
        omega
      rw [uvmunmapLoop] at h
      obtain ⟨⟨⟩, s₁, hrun₁, h⟩ := run_bind_eq_ok h
      obtain ⟨s₁', hrun₁', hinv₁, -⟩ :=
        unmapPage_spec hinv doFree (by omega) hal fun h => by have := hfree h; omega
      cases hrun₁.symm.trans hrun₁'
      have hex₁ := unmapPage_exact hinv hex doFree (by omega) hal
        (fun h => by have := hfree h; omega) hkeep hrun₁
      exact uvmunmapLoop_exact doFree n (a + PGSIZE) hinv₁ hex₁
        (by rw [Nat.add_mod_right]; exact hal) (by omega) (fun h => by have := hfree h; omega)
        (fun h => by have := hkeep h; omega) h

theorem uvmunmap_exact {s : Vm} (hinv : TableInv kend O' s) (hex : Exact O s) {va : Nat}
    (n : Nat) (doFree : Bool) (hmax : va + n * PGSIZE ≤ MAXVA)
    (hfree : doFree = true → va + n * PGSIZE ≤ TRAPFRAME) (hkeep : doFree = false → TRAPFRAME ≤ va)
    {s' : Vm} (h : (uvmunmap kend va n doFree).run s = .ok ((), s')) : Exact O s' := by
  rw [uvmunmap] at h
  split at h
  · cases h
  · next hal =>
      exact uvmunmapLoop_exact doFree n va hinv hex (not_not.mp hal) hmax hfree hkeep h

theorem uvmdealloc_exact {s : Vm} (hinv : TableInv kend O' s) (hex : Exact O s)
    {oldsz newsz : Nat} (hold : PGROUNDUP oldsz ≤ TRAPFRAME) {r : Nat} {s' : Vm}
    (h : (uvmdealloc kend oldsz newsz).run s = .ok (r, s')) : Exact O s' := by
  by_cases hge : newsz ≥ oldsz
  · simp only [uvmdealloc, if_pos hge] at h
    cases h
    exact hex
  by_cases hpages : PGROUNDUP newsz < PGROUNDUP oldsz
  · -- whole pages go: unmap and free them from `PGROUNDUP newsz`
    have hn : PGROUNDUP newsz + (PGROUNDUP oldsz - PGROUNDUP newsz) / PGSIZE * PGSIZE =
        PGROUNDUP oldsz := by
      have := PGROUNDUP_mod newsz
      have := PGROUNDUP_mod oldsz
      unfold PGSIZE at *
      omega
    have htf : TRAPFRAME + PGSIZE ≤ MAXVA := by decide
    simp only [uvmdealloc, if_neg hge, if_pos hpages] at h
    obtain ⟨⟨⟩, s₁, hrun₁, h⟩ := run_bind_eq_ok h
    cases h
    exact uvmunmap_exact hinv hex _ true (by omega) (fun _ => by omega) (fun h => by cases h) hrun₁
  · simp only [uvmdealloc, if_neg hge, if_neg hpages] at h
    cases h
    exact hex

end Unmap

/-! ## Growing and copying: each page taken is mapped or given back -/

section Loops

variable {kend : Nat} {O O' : Nat × Holder → Prop}

/-- A page pending under `x` that a successful `mappages` mapped is a use. -/
theorem Exact.settle_map {v : Vm} {x : Nat × Holder} (hex : Exact (fun e => O e ∨ e = x) v)
    (hx : UseOf v.pt x) : Exact O v :=
  hex.install (v := v) (fun _ hu => hu) hx hex.keys

/-- **UVMALLOC** takes no page it does not map: each round's page is
    mapped, or given back before the rollback. -/
theorem uvmallocLoop_exact (hend : 0 < kend) (oldsz newsz : Nat) (perm : Perm) :
    ∀ (fuel a : Nat) {s : Vm} {r : Nat} {s' : Vm}, TableInv kend O' s → Exact O s →
      a % PGSIZE = 0 → a ≤ TRAPFRAME → (s.pt.leaf TRAPFRAME).isSome →
      (∀ x, a ≤ x → x < newsz → x < TRAPFRAME → s.pt.leaf x = none) →
      (uvmallocLoop kend oldsz newsz perm fuel a).run s = .ok (r, s') → Exact O s'
  | 0, a, s, r, s', _, hex, _, _, _, _, h => by
      simp only [uvmallocLoop] at h
      cases h
      exact hex
  | fuel + 1, a, s, r, s', hinv, hex, hal, hatf, htf, hfree, h => by
      simp only [uvmallocLoop] at h
      split at h
      swap
      · cases h
        exact hex
      next han =>
      simp only [StateT.run_bind, StateT.run_get, pure_bind, kallocFor_run] at h
      have hinv₁ := hinv.allocFor hend fun _ => .user s.pt.root a
      have hhold : PGROUNDUP a ≤ TRAPFRAME := by rw [PGROUNDUP_of_mod hal]; exact hatf
      split at h
      · -- no memory: the rollback frees what the loop mapped
        next hmem =>
          obtain ⟨r₀, s₂, hrun₂, h⟩ := run_bind_eq_ok h
          cases h
          exact uvmdealloc_exact hinv₁ (hex.alloc_zero hmem) hhold hrun₂
      next hmem =>
      -- the trapframe is mapped, so reaching it is a remap panic
      have hlt : a < TRAPFRAME := by
        rcases Nat.lt_or_ge a TRAPFRAME with h' | h'
        · exact h'
        · exfalso
          obtain rfl : a = TRAPFRAME := by omega
          obtain ⟨pte, hpte⟩ := Option.isSome_iff_exists.mp htf
          rw [StateT.run_bind, mappages_page_remap hinv₁.wf perm (by decide) hal hpte] at h
          cases h
      have hmax : a < MAXVA := Nat.lt_of_lt_of_le hlt (by decide)
      have hnone : s.pt.leaf a = none := hfree a (Nat.le_refl a) han hlt
      obtain ⟨res, s₂, hrun₂, h⟩ := run_bind_eq_ok h
      have hex₂ := mappages_page_exact hend hinv₁ (hex.alloc _) hal hnone hrun₂
      obtain ⟨res', s₂', hrun₂', hinv₂, hroot₂, hheld₂, hres⟩ :=
        mappages_page_spec hend hinv₁ perm hmax hal hnone fun _ => allocFor_held _ hmem
      cases hrun₂.symm.trans hrun₂'
      dsimp only at hroot₂ hheld₂ hres hex₂
      rcases hres with ⟨rfl, hleaf₂⟩ | ⟨rfl, hleaf₂⟩
      · -- the page is mapped: it is a use, and the loop goes on one page up
        rw [if_neg (by decide)] at h
        have hne : ∀ x, x ≠ a → s₂.pt.leaf x = s.pt.leaf x := fun x hx => by
          rw [hleaf₂, Function.update_of_ne hx]
        have hl : s₂.pt.leaf a = some ⟨(allocFor (fun _ => .user s.pt.root a) s.pm).1, perm⟩ := by
          rw [hleaf₂, Function.update_self]
        have huse := UseOf.leaf_of hl hlt
        rw [hroot₂] at huse
        have hpg : 0 < PGSIZE := by decide
        exact uvmallocLoop_exact hend oldsz newsz perm fuel (a + PGSIZE) hinv₂ (hex₂.settle_map huse)
          (by rw [Nat.add_mod_right]; exact hal)
          (by have := TRAPFRAME_eq; unfold PGSIZE at *; omega)
          (by rw [hne _ (by omega)]; exact htf)
          (fun x h1 h2 h3 => by
            rw [hne x (by unfold PGSIZE at h1; omega)]
            exact hfree x (by omega) h2 h3) h
      · -- no memory for a table: the page goes back, then the rollback
        have hmemheld : ((allocFor (fun _ => .user s.pt.root a) s.pm).1, .user s.pt.root a) ∈
            s₂.pm.held := hheld₂ _ (allocFor_held _ hmem)
        rw [if_pos (by decide), StateT.run_bind,
          kfreeFrom_run hinv₂.pageInv hmemheld, pure_bind] at h
        have hnone₂ : s₂.pt.leaf a = none := by rw [hleaf₂]; exact hnone
        have hinv₃ := hinv₂.freeUnmapped (hroot₂ ▸ hmemheld) hnone₂
        rw [hroot₂] at hinv₃
        obtain ⟨r₀, s₄, hrun₄, h⟩ := run_bind_eq_ok h
        cases h
        exact uvmdealloc_exact hinv₃ (hex₂.settle_free hinv₂.pageInv hmemheld _) hhold hrun₄

theorem uvmalloc_exact (hend : 0 < kend) {s : Vm} (hinv : TableInv kend O' s) (hex : Exact O s)
    {oldsz newsz : Nat} (xperm : Perm) (hold : PGROUNDUP oldsz ≤ TRAPFRAME)
    (htf : (s.pt.leaf TRAPFRAME).isSome)
    (hfree : ∀ x, PGROUNDUP oldsz ≤ x → x < TRAPFRAME → s.pt.leaf x = none) {r : Nat} {s' : Vm}
    (h : (uvmalloc kend oldsz newsz xperm).run s = .ok (r, s')) : Exact O s' := by
  unfold uvmalloc at h
  split at h
  · cases h
    exact hex
  · exact uvmallocLoop_exact hend _ newsz _ _ _ hinv hex (PGROUNDUP_mod oldsz) hold htf
      (fun x h1 _ h3 => hfree x h1 h3) h

/-- **UVMCOPY** takes no page it does not map: each round's page is mapped,
    or given back before the child's pages are unmapped and freed. -/
theorem uvmcopyLoop_exact (hend : 0 < kend) (old : PageTable) (sz : Nat) (hsz : sz ≤ TRAPFRAME) :
    ∀ (fuel i : Nat) {s : Vm} {r : Int} {s' : Vm}, TableInv kend O' s → Exact O s →
      i % PGSIZE = 0 → (∀ x, x < TRAPFRAME → i ≤ x → s.pt.leaf x = none) →
      (uvmcopyLoop kend old sz fuel i).run s = .ok (r, s') → Exact O s'
  | 0, i, s, r, s', _, hex, _, _, h => by
      simp only [uvmcopyLoop] at h
      cases h
      exact hex
  | fuel + 1, i, s, r, s', hinv, hex, hal, hfree, h => by
      have hpg : 0 < PGSIZE := by decide
      simp only [uvmcopyLoop] at h
      split at h
      swap
      · cases h
        exact hex
      next hlt =>
      have hitf : i < TRAPFRAME := Nat.lt_of_lt_of_le hlt hsz
      have hmax : i < MAXVA := Nat.lt_of_lt_of_le hitf (by decide)
      have hal' : (i + PGSIZE) % PGSIZE = 0 := by rw [Nat.add_mod_right]; exact hal
      -- the child's pages below `i` are unmapped and freed
      have hunmap : i / PGSIZE * PGSIZE = i := Nat.div_mul_cancel (Nat.dvd_of_mod_eq_zero hal)
      rw [if_neg (Nat.not_le.mpr hmax)] at h
      split at h
      · exact uvmcopyLoop_exact hend old sz hsz fuel (i + PGSIZE) hinv hex hal'
          (fun x hx hxi => hfree x hx (by omega)) h
      next pte hpte =>
      simp only [StateT.run_bind, StateT.run_get, pure_bind, kallocFor_run] at h
      have hinv₁ := hinv.allocFor hend fun _ => .user s.pt.root i
      split at h
      · next hmem =>
          obtain ⟨⟨⟩, s₂, hrun₂, h⟩ := run_bind_eq_ok h
          cases h
          exact uvmunmap_exact hinv₁ (hex.alloc_zero hmem) (i / PGSIZE) true
            (by rw [Nat.zero_add, hunmap]; omega) (fun _ => by rw [Nat.zero_add, hunmap]; omega)
            (fun h => by cases h) hrun₂
      next hmem =>
      have hnone : s.pt.leaf i = none := hfree i hitf (Nat.le_refl i)
      obtain ⟨res, s₂, hrun₂, h⟩ := run_bind_eq_ok h
      have hex₂ := mappages_page_exact hend hinv₁ (hex.alloc _) hal hnone hrun₂
      obtain ⟨res', s₂', hrun₂', hinv₂, hroot₂, hheld₂, hres⟩ :=
        mappages_page_spec hend hinv₁ pte.perm hmax hal hnone fun _ => allocFor_held _ hmem
      cases hrun₂.symm.trans hrun₂'
      dsimp only at hroot₂ hheld₂ hres hex₂
      rcases hres with ⟨rfl, hleaf₂⟩ | ⟨rfl, hleaf₂⟩
      · -- copied: the page is a use, and the loop goes on
        rw [if_neg (by decide)] at h
        have hl : s₂.pt.leaf i = some ⟨(allocFor (fun _ => .user s.pt.root i) s.pm).1, pte.perm⟩ := by
          rw [hleaf₂, Function.update_self]
        have huse := UseOf.leaf_of hl hitf
        rw [hroot₂] at huse
        exact uvmcopyLoop_exact hend old sz hsz fuel (i + PGSIZE) hinv₂ (hex₂.settle_map huse) hal'
          (fun x hx hxi => by rw [hleaf₂, Function.update_of_ne (by omega)]; exact hfree x hx (by omega)) h
      · -- no memory for a table: the page goes back, then the unmapping
        have hmemheld : ((allocFor (fun _ => .user s.pt.root i) s.pm).1, .user s.pt.root i) ∈
            s₂.pm.held := hheld₂ _ (allocFor_held _ hmem)
        rw [if_pos (by decide), StateT.run_bind,
          kfreeFrom_run hinv₂.pageInv hmemheld, pure_bind] at h
        have hinv₃ := hinv₂.freeUnmapped (hroot₂ ▸ hmemheld) (by rw [hleaf₂]; exact hnone)
        rw [hroot₂] at hinv₃
        obtain ⟨⟨⟩, s₄, hrun₄, h⟩ := run_bind_eq_ok h
        cases h
        exact uvmunmap_exact hinv₃ (hex₂.settle_free hinv₂.pageInv hmemheld _) (i / PGSIZE) true
          (by rw [Nat.zero_add, hunmap]; omega) (fun _ => by rw [Nat.zero_add, hunmap]; omega)
          (fun h => by cases h) hrun₄

end Loops

/-! ## `freewalk` frees every page of the table -/

section Free

variable {kend : Nat} {O O' : Nat × Holder → Prop} {r : Nat}

/-- What the inner loop of `freewalk` keeps, taking apart the level-1 table
    under root entry `i`: the valid level-0 tables of that entry are among
    the rounds `ks` still to come, and the root entries stay. -/
structure FreeRest1 (kend : Nat) (O' O : Nat × Holder → Prop) (r i : Nat) (l1 : Nat → Nat)
    (ks : List Nat) (s : Vm) : Prop where
  inv : FreeInv kend O' r s
  exact : Exact O s
  l1 : s.pt.l1 = l1
  l0_l1 : ∀ j, s.pt.l0 j ≠ 0 → s.pt.l1 (j / 512) ≠ 0
  rest : ∀ j, s.pt.l0 j ≠ 0 → j / 512 = i → j % 512 ∈ ks

/-- What the outer loop of `freewalk` keeps: the valid root entries are
    among the rounds `l` still to come. -/
structure FreeRest (kend : Nat) (O' O : Nat × Holder → Prop) (r : Nat) (l : List Nat) (s : Vm) :
    Prop where
  inv : FreeInv kend O' r s
  exact : Exact O s
  l0_l1 : ∀ j, s.pt.l0 j ≠ 0 → s.pt.l1 (j / 512) ≠ 0
  rest : ∀ i, s.pt.l1 i ≠ 0 → i ∈ l

theorem freewalk1Round_exact {i : Nat} {l1 : Nat → Nat} (k : Nat) (ks : List Nat) {s : Vm}
    (hs : FreeRest1 kend O' O r i l1 (k :: ks) s) :
    ∃ s', (do
      if (← get).pt.l0 (i * 512 + k) ≠ 0 then
        freewalk0 kend (i * 512 + k)
        modify fun s => { s with pt := { s.pt with l0 := Function.update s.pt.l0 (i * 512 + k) 0 } } :
          VmM Unit).run s = .ok (⟨⟩, s') ∧ FreeRest1 kend O' O r i l1 ks s' := by
  have hinv := hs.inv
  -- a valid level-0 table under `i` other than this round's is a later round's
  have hlater : ∀ j, j ≠ i * 512 + k → j / 512 = i → j % 512 ∈ k :: ks → j % 512 ∈ ks := by
    intro j hne hji hk
    rcases List.mem_cons.mp hk with hk | hk
    · exact absurd (by rw [← hji, ← hk]; exact (Nat.div_add_mod' j 512).symm) hne
    · exact hk
  simp only [StateT.run_bind, StateT.run_get, pure_bind]
  split
  · next hj =>
      have hheld := hinv.tracked.l0 _ hj
      simp only [freewalk0, StateT.run_bind, run_bind_of_eq_ok (leafCheck_run _ hinv.noLeaf),
        StateT.run_get, pure_bind, kfreeFrom_run hinv.pageInv hheld]
      refine ⟨_, rfl, ⟨hinv.freeL0 hj, ?_, hs.l1, fun j hj' => ?_, fun j hj' hji => ?_⟩⟩
      · -- the level-0 table goes with its entry
        dsimp only
        refine hs.exact.free_use hinv.pageInv hheld (fun e hu hne => ?_) ?_ _
        swap
        · exact hs.exact.keys
        cases hu with
        | root => exact .root
        | l1 i' hi' => exact .l1 i' hi'
        | l0 j' hj'' =>
            have hne' : j' ≠ i * 512 + k := fun h => hne (by rw [h])
            exact .l0_of (Function.update_of_ne hne' _ _) hj''
        | leaf a pte hl ha => exact .leaf a pte hl ha
      · have hne : j ≠ i * 512 + k := fun h => by subst h; simp at hj'
        dsimp only at hj' ⊢
        rw [Function.update_of_ne hne] at hj'
        exact hs.l0_l1 j hj'
      · have hne : j ≠ i * 512 + k := fun h => by subst h; simp at hj'
        dsimp only at hj'
        rw [Function.update_of_ne hne] at hj'
        exact hlater j hne hji (hs.rest j hj' hji)
  · next hj =>
      refine ⟨s, rfl, ⟨hinv, hs.exact, hs.l1, hs.l0_l1, fun j hj' hji => ?_⟩⟩
      exact hlater j (fun h => hj (h ▸ hj')) hji (hs.rest j hj' hji)

theorem freewalkRound_exact (i : Nat) (l : List Nat) {s : Vm} (hs : FreeRest kend O' O r (i :: l) s) :
    ∃ s', (do
      if (← get).pt.l1 i ≠ 0 then
        freewalk1 kend i
        modify fun s => { s with pt := { s.pt with l1 := Function.update s.pt.l1 i 0 } } : VmM Unit).run s =
      .ok (⟨⟩, s') ∧ FreeRest kend O' O r l s' := by
  simp only [StateT.run_bind, StateT.run_get, pure_bind]
  split
  · next hi =>
      -- the level-0 tables go first, then the level-1 table
      obtain ⟨s₁, hloop, hs₁⟩ := forM_run_ok_rest (I := FreeRest1 kend O' O r i s.pt.l1)
        (fun k ks t ht => freewalk1Round_exact k ks ht) (List.range 512)
        ⟨hs.inv, hs.exact, rfl, hs.l0_l1, fun j _ _ => List.mem_range.mpr (Nat.mod_lt j (by decide))⟩
      have hi₁ : s₁.pt.l1 i ≠ 0 := hs₁.l1 ▸ hi
      have hheld := hs₁.inv.tracked.l1 i hi₁
      simp only [freewalk1, StateT.run_bind, run_bind_of_eq_ok hloop, StateT.run_get, pure_bind,
        kfreeFrom_run hs₁.inv.pageInv hheld]
      refine ⟨_, rfl, ⟨hs₁.inv.freeL1 hi₁, ?_, fun j hj => ?_, fun i' hi' => ?_⟩⟩
      · dsimp only
        refine hs₁.exact.free_use hs₁.inv.pageInv hheld (fun e hu hne => ?_) (fun i' hi' => ?_) _
        · cases hu with
          | root => exact .root
          | l1 i' hi' =>
              have hne' : i' ≠ i := fun h => hne (by rw [h])
              exact .l1_of (Function.update_of_ne hne' _ _) hi'
          | l0 j hj => exact .l0 j hj
          | leaf a pte hl ha => exact .leaf a pte hl ha
        · have hne : i' ≠ i := fun h => by subst h; simp at hi'
          dsimp only at hi'
          rw [Function.update_of_ne hne] at hi'
          exact hs₁.exact.keys i' hi'
      · -- no level-0 table is left under `i`
        have hji : j / 512 ≠ i := fun h => by simpa using hs₁.rest j hj h
        dsimp only
        rw [Function.update_of_ne hji]
        exact hs₁.l0_l1 j hj
      · have hne : i' ≠ i := fun h => by subst h; simp at hi'
        dsimp only at hi'
        rw [Function.update_of_ne hne, hs₁.l1] at hi'
        exact (List.mem_cons.mp (hs.rest i' hi')).resolve_left hne
  · next hi =>
      refine ⟨s, rfl, ⟨hs.inv, hs.exact, hs.l0_l1, fun i' hi' => ?_⟩⟩
      exact (List.mem_cons.mp (hs.rest i' hi')).resolve_left fun h => hi (h ▸ hi')

/-- **FREEWALK frees every page of the table**: afterwards only the pages
    `O` are held. -/
theorem freewalk_exact {s : Vm} (hinv : FreeInv kend O' r s) (hex : Exact O s)
    (hl0 : ∀ j, s.pt.l0 j ≠ 0 → s.pt.l1 (j / 512) ≠ 0) :
    ∃ s', (freewalk kend).run s = .ok ((), s') ∧ ∀ e ∈ s'.pm.held, O e := by
  obtain ⟨s₁, hloop, hs₁⟩ := forM_run_ok_rest (I := FreeRest kend O' O r)
    (fun i l t ht => freewalkRound_exact i l ht) (List.range 512)
    ⟨hinv, hex, hl0, fun i hi => List.mem_range.mpr (hex.keys i hi)⟩
  have hheld := hs₁.inv.tracked.root
  simp only [freewalk, StateT.run_bind, run_bind_of_eq_ok hloop, StateT.run_get, pure_bind,
    kfreeFrom_run hs₁.inv.pageInv hheld]
  refine ⟨_, rfl, fun e he => ?_⟩
  have hne : e ≠ (s₁.pt.root, .table s₁.pt.root 2 0) := fun h =>
    hs₁.inv.pageInv.not_mem_erase hheld (h ▸ he)
  -- with every entry of the root cleared, the root was the one use left
  rcases hs₁.exact.held e (List.mem_of_mem_erase he) with hO | hu
  · exact hO
  · exfalso
    cases hu with
    | root => exact hne rfl
    | l1 i hi => exact absurd (hs₁.rest i hi) List.not_mem_nil
    | l0 j hj => exact absurd (hs₁.rest _ (hs₁.l0_l1 j hj)) List.not_mem_nil
    | leaf a pte hl _ => simp [hs₁.inv.noLeaf a] at hl

end Free

/-! ## Freeing and making whole tables -/

section Tables

variable {kend : Nat} {O O' : Nat × Holder → Prop}

/-- **UVMFREE frees every page of the table**: afterwards only the pages
    `O` are held. -/
theorem uvmfree_exact {s : Vm} (hinv : TableInv kend O' s) (hex : Exact O s) {sz : Nat}
    (hsz : PGROUNDUP sz ≤ TRAPFRAME) (hbelow : ∀ a pte, s.pt.leaf a = some pte → a < PGROUNDUP sz)
    {s' : Vm} (h : (uvmfree kend sz).run s = .ok ((), s')) : ∀ e ∈ s'.pm.held, O e := by
  have hn : 0 + PGROUNDUP sz / PGSIZE * PGSIZE = PGROUNDUP sz := by
    have := PGROUNDUP_mod sz
    unfold PGSIZE at *
    omega
  have hmax : 0 + PGROUNDUP sz / PGSIZE * PGSIZE ≤ MAXVA := by
    rw [hn, MAXVA_eq]
    rw [TRAPFRAME_eq] at hsz
    omega
  -- the tables go once no leaf is left
  have hfinish : ∀ s₁, TableInv kend O' s₁ → Exact O s₁ → (∀ a, s₁.pt.leaf a = none) →
      (freewalk kend).run s₁ = .ok ((), s') → ∀ e ∈ s'.pm.held, O e := by
    intro s₁ hinv₁ hex₁ hno₁ hrun
    obtain ⟨s₂, hrun₂, hheld₂⟩ := freewalk_exact (hinv₁.freeInv hno₁) hex₁ hinv₁.wf.l0_l1
    cases hrun.symm.trans hrun₂
    exact hheld₂
  by_cases hpos : sz > 0
  · -- the user pages go first
    obtain ⟨s₁, hrun₁, hinv₁, -, hleaf₁⟩ := uvmunmap_spec hinv (PGROUNDUP sz / PGSIZE) true
      (Nat.zero_mod PGSIZE) hmax (fun _ => by rw [hn]; exact hsz)
    rw [uvmfree, if_pos hpos, run_bind_of_eq_ok hrun₁] at h
    refine hfinish s₁ hinv₁
      (uvmunmap_exact hinv hex _ true hmax (fun _ => by rw [hn]; exact hsz) (fun h => by cases h) hrun₁)
      (fun a => ?_) h
    rw [hleaf₁, hn]
    dsimp only
    split
    · rfl
    · next hout =>
        cases hl : s.pt.leaf a with
        | none => rfl
        | some pte => exact absurd ⟨Nat.zero_le a, hbelow a pte hl⟩ hout
  · -- a size of `0` leaves no leaf to take
    rw [uvmfree, if_neg hpos] at h
    refine hfinish s hinv hex (fun a => ?_) h
    cases hl : s.pt.leaf a with
    | none => rfl
    | some pte =>
        have := hbelow a pte hl
        simp [show sz = 0 by omega, PGROUNDUP, PGSIZE] at this

/-- **PROC_FREEPAGETABLE frees every page of the table**: afterwards only
    the pages `O` are held. -/
theorem proc_freepagetable_exact {s : Vm} (hinv : TableInv kend O' s) (hex : Exact O s) {sz : Nat}
    (hsz : sz ≤ TRAPFRAME)
    (hbelow : ∀ a pte, s.pt.leaf a = some pte → a ≠ TRAMPOLINE → a ≠ TRAPFRAME → a < PGROUNDUP sz)
    {s' : Vm} (h : (proc_freepagetable kend sz).run s = .ok ((), s')) : ∀ e ∈ s'.pm.held, O e := by
  have hmax : ∀ va, va = TRAMPOLINE ∨ va = TRAPFRAME → va + 1 * PGSIZE ≤ MAXVA := by
    rintro va (rfl | rfl) <;> decide
  have hTR : TRAPFRAME ≤ TRAMPOLINE := Nat.le_of_lt TRAPFRAME_lt_TRAMPOLINE
  -- the two pages on top are unmapped without being freed: they are no uses
  obtain ⟨s₁, hrun₁, hinv₁, -, hleaf₁⟩ := unmapTop_spec hinv (.inl rfl)
  obtain ⟨s₂, hrun₂, hinv₂, -, hleaf₂⟩ := unmapTop_spec hinv₁ (.inr rfl)
  have hex₁ := uvmunmap_exact hinv hex 1 false (hmax _ (.inl rfl)) (fun h => by cases h) (fun _ => hTR) hrun₁
  have hex₂ := uvmunmap_exact hinv₁ hex₁ 1 false (hmax _ (.inr rfl)) (fun h => by cases h)
    (fun _ => Nat.le_refl _) hrun₂
  have hbelow₂ : ∀ a pte, s₂.pt.leaf a = some pte → a < PGROUNDUP sz := by
    intro a pte hl
    rw [hleaf₂, hleaf₁] at hl
    by_cases h2 : a = TRAPFRAME
    · subst h2
      simp at hl
    by_cases h1 : a = TRAMPOLINE
    · subst h1
      simp [Function.update_of_ne (Nat.ne_of_lt TRAPFRAME_lt_TRAMPOLINE).symm] at hl
    rw [Function.update_of_ne h2, Function.update_of_ne h1] at hl
    exact hbelow a pte hl h1 h2
  rw [proc_freepagetable, run_bind_of_eq_ok hrun₁, run_bind_of_eq_ok hrun₂] at h
  exact uvmfree_exact hinv₂ hex₂ ((PGROUNDUP_le_iff (by rw [TRAPFRAME_eq]; decide)).mpr hsz)
    hbelow₂ h

/-- **PROC_PAGETABLE**, after `uvmcreate`: the trampoline and the trapframe
    are no uses, so mapping them keeps exactness; a failure frees every page
    of the table. -/
theorem mapTrampolineTrapframe_exact (hend : 0 < kend) (trampoline : Nat) {s : Vm}
    (hinv : TableInv kend O' s) (hno : ∀ a, s.pt.leaf a = none) (hex : Exact O s) {tf : Nat}
    {b : Bool} {s' : Vm} (h : (mapTrampolineTrapframe kend trampoline tf).run s = .ok (b, s')) :
    (b = true → Exact O s') ∧ (b = false → ∀ e ∈ s'.pm.held, O e) := by
  have hTR : TRAMPOLINE < MAXVA := by rw [TRAMPOLINE_eq, MAXVA_eq]; decide
  have hTF : TRAPFRAME < MAXVA := by rw [TRAPFRAME_eq, MAXVA_eq]; decide
  have hpg : PGROUNDUP 0 ≤ TRAPFRAME := by rw [TRAPFRAME_eq]; decide
  obtain ⟨res₁, s₁, hrun₁, hinv₁, -, -, hres₁⟩ := @mappages_page_spec kend O' hend s hinv
    TRAMPOLINE trampoline (PTE_R ||| PTE_X) hTR (by decide) (hno _)
    (fun h => absurd h (Nat.not_lt_of_gt TRAPFRAME_lt_TRAMPOLINE))
  have hex₁ := mappages_page_exact hend hinv hex (by decide) (hno _) hrun₁
  rw [mapTrampolineTrapframe, run_bind_of_eq_ok hrun₁] at h
  rcases hres₁ with ⟨rfl, hleaf₁⟩ | ⟨rfl, hleaf₁⟩
  · rw [if_neg (by decide)] at h
    have hnone₁ : s₁.pt.leaf TRAPFRAME = none := by
      rw [hleaf₁, Function.update_of_ne (Nat.ne_of_lt TRAPFRAME_lt_TRAMPOLINE), hno]
    obtain ⟨res₂, s₂, hrun₂, hinv₂, -, -, hres₂⟩ := @mappages_page_spec kend O' hend s₁ hinv₁
      TRAPFRAME tf (PTE_R ||| PTE_W) hTF (by decide) hnone₁ (fun h => absurd h (Nat.lt_irrefl _))
    have hex₂ := mappages_page_exact hend hinv₁ hex₁ (by decide) hnone₁ hrun₂
    rw [run_bind_of_eq_ok hrun₂] at h
    rcases hres₂ with ⟨rfl, -⟩ | ⟨rfl, hleaf₂⟩
    · rw [if_neg (by decide)] at h
      cases h
      exact ⟨fun _ => hex₂, (fun h => by cases h)⟩
    · -- no memory for the trapframe's tables: unmap the trampoline, free the table
      rw [if_pos (by decide)] at h
      obtain ⟨s₃, hrun₃, hinv₃, -, hleaf₃⟩ := unmapTop_spec hinv₂ (.inl rfl)
      have hex₃ := uvmunmap_exact hinv₂ hex₂ 1 false (by decide) (fun h => by cases h)
        (fun _ => Nat.le_of_lt TRAPFRAME_lt_TRAMPOLINE) hrun₃
      have hno₃ : ∀ a pte, s₃.pt.leaf a = some pte → a < PGROUNDUP 0 := by
        intro a pte hl
        rw [hleaf₃, hleaf₂, hleaf₁, Function.update_idem, funext hno] at hl
        simp [Function.update_apply] at hl
      rw [run_bind_of_eq_ok hrun₃] at h
      obtain ⟨⟨⟩, s₄, hrun₄, h⟩ := run_bind_eq_ok h
      cases h
      exact ⟨(fun h => by cases h), fun _ => uvmfree_exact hinv₃ hex₃ hpg hno₃ hrun₄⟩
  · -- no memory for the trampoline's tables: free the table
    rw [if_pos (by decide)] at h
    obtain ⟨⟨⟩, s₄, hrun₄, h⟩ := run_bind_eq_ok h
    cases h
    refine ⟨(fun h => by cases h), fun _ => uvmfree_exact hinv₁ hex₁ hpg (fun a pte hl => ?_) hrun₄⟩
    rw [hleaf₁, hno] at hl
    cases hl

end Tables

/-! ## Loading a program and its stack guard -/

section Image

variable {kend : Nat} {O O' : Nat × Holder → Prop}

/-- **UVMCLEAR** changes a leaf's permissions, not its page: every use stays. -/
theorem uvmclear_exact {s : Vm} (hex : Exact O s) {va : Nat} (hva : va < MAXVA) {s' : Vm}
    (h : (uvmclear va).run s = .ok ((), s')) : Exact O s' := by
  rw [uvmclear, StateT.run_bind, walk_false_run hva, ok_bind] at h
  by_cases hc : s.pt.l1 (key1 va) ≠ 0 ∧ s.pt.l0 (key0 va) ≠ 0
  · rw [if_pos hc] at h
    cases h
    refine hex.extend (fun e hu => ?_) hex.keys
    cases hu with
    | root => exact .root
    | l1 i hi => exact .l1 i hi
    | l0 j hj => exact .l0 j hj
    | leaf b q hl hb =>
        by_cases hbk : b = PGROUNDDOWN va
        · subst hbk
          have hl' : (s.pt.setLeaf (PGROUNDDOWN va) ((s.pt.leaf (PGROUNDDOWN va)).map fun pte =>
              { pte with perm := { pte.perm with u := false } })).leaf (PGROUNDDOWN va) =
              some ⟨q.pa, { q.perm with u := false }⟩ := by
            simp [hl]
          exact .leaf_of hl' hb
        · exact .leaf b q ((Function.update_of_ne hbk _ _).trans hl) hb
  · rw [if_neg hc] at h
    cases h

/-- **Loading a program** takes no page it does not map: each segment is
    `uvmalloc`, and `loadseg` only reads the table. -/
theorem loadSegments_exact (hend : 0 < kend) {trampoline tf : Nat} (ip : ExecFile) :
    ∀ (n off sz : Nat) {v : Vm} {res : Nat × Bool} {v' : Vm}, TableInv kend O' v →
      Shape trampoline sz tf v.pt → Exact O v →
      (loadSegments kend ip n off sz).run v = .ok (res, v') → Exact O v'
  | 0, _, sz, v, res, v', _, _, hex, h => by
      simp only [loadSegments] at h
      cases h
      exact hex
  | n + 1, off, sz, v, res, v', hinv, hshape, hex, h => by
      simp only [loadSegments] at h
      split at h
      · cases h
        exact hex
      split at h
      · exact loadSegments_exact hend ip n _ sz hinv hshape hex h
      split at h
      · cases h
        exact hex
      split at h
      · cases h
        exact hex
      split at h
      · cases h
        exact hex
      -- a loadable segment: the image grows up to its end
      obtain ⟨sz₁, v₁, hrun₁, hrest⟩ := run_bind_eq_ok h
      have hold := hshape.below_trapframe
      have htf : (v.pt.leaf TRAPFRAME).isSome := by rw [hshape.trapframe]; rfl
      have hfree := fun x hx hlt => hshape.free_above (x := x) hx hlt
      have hex₁ := uvmalloc_exact hend hinv hex _ hold htf hfree hrun₁
      obtain ⟨hinv₁, -, hres₁⟩ := uvmalloc_spec hend hinv _ hold htf hfree hrun₁
      have hshape₁ := hshape.uvmalloc (by rfl) hres₁
      split at hrest
      · cases hrest
        exact hex₁
      · next h0 =>
          rw [if_neg h0] at hshape₁
          obtain ⟨r, v₂, hrun₂, hrest'⟩ := run_bind_eq_ok hrest
          cases loadseg_state hrun₂
          split at hrest'
          · cases hrest'
            exact hex₁
          · exact loadSegments_exact hend ip n _ sz₁ hinv₁ hshape₁ hex₁ hrest'

end Image

end Xv6.Mem
