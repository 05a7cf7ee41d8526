import Xv6.User.FreeRing

/-! # The loop of `malloc` on the free ring

    `mallocLoop` from `freep` walks the ring of `FreeRing` until a block
    fits, and hands out that block whole or its tail; back at `freep` with
    none, it calls `morecore`.

    * `mallocLoop_walk`: past blocks too small, one round a block;
    * `mallocLoop_fit`: with a block that fits, the loop reaches one on
      fewer rounds than the ring has nodes, the ring node before it as
      `prevp` (`Ring.pred_eq`: the ring has one node before each block);
    * `mallocLoop_nofit`: with none, once round and back at `freep`;
    * `take_exact`, `take_split`: what handing out the block leaves, a
      ring of the other blocks or of the block cut down;
    * `morecore_ok`, `mallocLoop_more_ok`: what a returning run of
      `morecore` did, and the loop after it;
    * `mallocLoop_mono`, `malloc_mono`: on more fuel a run returns the
      same, by `OkLe`. -/

namespace Xv6.User

open Xv6.Mem StateExcept

section Loop

variable {σ : Type} {sbrk : Int32 → StateT σ (Except String) Nat} {fuel nu : Nat} {u : UState σ}

/-- A block too small, away from `freep`: the loop goes on to the next. -/
theorem mallocLoop_pass {n prevp p : Nat} (hlt : (u.hdr p).size < nu) (hp : p ≠ u.freep) :
    (mallocLoop sbrk fuel nu (n + 1) prevp p).run u = (mallocLoop sbrk fuel nu n p (u.hdr p).ptr).run u := by
  simp only [mallocLoop, StateT.run_bind, getHdr_run, ok_bind, ge_iff_le, if_neg (Nat.not_le.mpr hlt),
    StateT.run_get, pure_bind, if_neg hp]

/-- A block larger than `nunits`: its tail of `nunits` headers is handed
    out, and the rest stays free. -/
theorem mallocLoop_split {n prevp p : Nat} (h : nu < (u.hdr p).size) (hs : (u.hdr p).size < 2 ^ 32) :
    (mallocLoop sbrk fuel nu (n + 1) prevp p).run u =
      .ok (hadd (hadd p ((u.hdr p).size - nu)) 1, { u with
        hdr := Function.update (Function.update u.hdr p { u.hdr p with size := (u.hdr p).size - nu })
          (hadd p ((u.hdr p).size - nu)) { u.hdr (hadd p ((u.hdr p).size - nu)) with size := nu },
        freep := prevp }) := by
  have hne : hadd p ((u.hdr p).size - nu) ≠ p := by
    simp only [hadd, HDRSIZE]
    omega
  have hr : ((u.hdr p).size - nu) % 2 ^ 32 = (u.hdr p).size - nu := Nat.mod_eq_of_lt (by omega)
  have hn : nu % 2 ^ 32 = nu := Nat.mod_eq_of_lt (by omega)
  simp only [mallocLoop, StateT.run_bind, getHdr_run, ok_bind, ge_iff_le, if_pos (Nat.le_of_lt h),
    if_neg (Nat.ne_of_gt h), setSize_run, Function.update_self, hr, Function.update_of_ne hne, hn,
    pure_bind, setFreep_run]
  rfl

/-- **WALK**: past blocks too small and away from `freep`, the loop goes
    along the links, one round a block. -/
theorem mallocLoop_walk (n : Nat) :
    ∀ (xs : List Nat) (prevp z : Nat), Linked u (prevp :: xs ++ [z]) →
      (∀ x ∈ xs, (u.hdr x).size < nu ∧ x ≠ u.freep) →
      (mallocLoop sbrk fuel nu (n + xs.length) prevp (xs.headD z)).run u =
        (mallocLoop sbrk fuel nu n (xs.getLastD prevp) z).run u
  | [], _, _, _, _ => rfl
  | x :: xs, prevp, z, h, hsmall => by
      have hx : Linked u (x :: xs ++ [z]) := (List.isChain_cons.mp h).2
      have hlink : (u.hdr x).ptr = xs.headD z := by
        rw [← Chain.head_append_singleton]
        exact (List.isChain_cons.mp hx).1 _ (by cases xs <;> simp)
      have hx' := hsmall x List.mem_cons_self
      rw [List.length_cons, ← Nat.add_assoc, List.headD_cons, mallocLoop_pass hx'.1 hx'.2, hlink,
        mallocLoop_walk n xs x z hx fun y hy => hsmall y (List.mem_cons_of_mem _ hy), List.getLastD_cons]

/-- A run of kernel code that returns, seen from the allocator. -/
theorem liftSys_ok {α : Type} {m : StateT σ (Except String) α} {u u₀ : UState σ} {a : α}
    (h : (liftSys m).run u = .ok (a, u₀)) : ∃ sys, m.run u.sys = .ok (a, sys) ∧ u₀ = { u with sys } := by
  rcases hm : m.run u.sys with msg | ⟨a', sys⟩
  · simp only [liftSys, StateT.run_bind, StateT.run_get, pure_bind, hm] at h
    cases h
  · rw [liftSys_run hm] at h
    obtain ⟨rfl, rfl⟩ := Prod.mk.inj (Except.ok.inj h)
    exact ⟨sys, rfl, rfl⟩

/-- **MORECORE**: a run of `morecore` that returns asked `sbrk` for
    `nu * sizeof(Header)` bytes, `nu` at least 4096; on `SBRK_ERROR` it
    returns `0`, and otherwise it freed the new block and returns `freep`. -/
theorem morecore_ok {q : Nat} {u u₁ : UState σ} (h : (morecore sbrk fuel nu).run u = .ok (q, u₁)) :
    ∃ ap sys, (sbrk (Int32.ofNat ((if nu < 4096 then 4096 else nu) * HDRSIZE))).run u.sys = .ok (ap, sys) ∧
      ((ap = SBRK_ERROR ∧ q = 0 ∧ u₁ = { u with sys }) ∨
        (ap ≠ SBRK_ERROR ∧ q = u₁.freep ∧ (free fuel (hadd ap 1)).run
          { u with sys, hdr := Function.update u.hdr ap { u.hdr ap with size := (if nu < 4096 then 4096 else nu) % 2 ^ 32 } }
            = .ok ((), u₁))) := by
  obtain ⟨ap, u₀, hl, h⟩ := run_bind_eq_ok h
  obtain ⟨sys, hs, rfl⟩ := liftSys_ok hl
  refine ⟨ap, sys, hs, ?_⟩
  by_cases hap : ap = SBRK_ERROR
  · rw [if_pos hap] at h
    obtain ⟨rfl, rfl⟩ := Prod.mk.inj (Except.ok.inj h)
    exact .inl ⟨hap, rfl, rfl⟩
  · rw [if_neg hap] at h
    obtain ⟨_, u₂, hset, h⟩ := run_bind_eq_ok h
    rw [setSize_run] at hset
    obtain ⟨-, rfl⟩ := Prod.mk.inj (Except.ok.inj hset)
    obtain ⟨_, u₃, hfree, h⟩ := run_bind_eq_ok h
    obtain ⟨_, u₄, hget, h⟩ := run_bind_eq_ok h
    rw [StateT.run_get] at hget
    obtain ⟨rfl, rfl⟩ := Prod.mk.inj (Except.ok.inj hget)
    obtain ⟨rfl, rfl⟩ := Prod.mk.inj (Except.ok.inj h)
    exact .inr ⟨hap, rfl, hfree⟩

/-- **BACK AT FREEP**: a returning run of the loop at `freep` with no fit
    ran `morecore`; on `0` it returned `0`, and otherwise it went on from
    the block `morecore` returned. -/
theorem mallocLoop_more_ok {n prevp p r : Nat} {u' : UState σ} (hlt : (u.hdr p).size < nu) (hp : p = u.freep)
    (h : (mallocLoop sbrk fuel nu (n + 1) prevp p).run u = .ok (r, u')) :
    ∃ q u₁, (morecore sbrk fuel nu).run u = .ok (q, u₁) ∧
      ((q = 0 ∧ r = 0 ∧ u' = u₁) ∨ (q ≠ 0 ∧ (mallocLoop sbrk fuel nu n q (u₁.hdr q).ptr).run u₁ = .ok (r, u'))) := by
  simp only [mallocLoop, StateT.run_bind, getHdr_run, ok_bind, ge_iff_le, if_neg (Nat.not_le.mpr hlt),
    StateT.run_get, pure_bind, if_pos hp] at h
  rcases hm : (morecore sbrk fuel nu).run u with msg | ⟨q, u₁⟩
  · rw [hm] at h
    cases h
  · rw [hm] at h
    refine ⟨q, u₁, rfl, ?_⟩
    by_cases hq : q = 0
    · simp only [ok_bind, if_pos hq] at h
      obtain ⟨rfl, rfl⟩ := Prod.mk.inj (Except.ok.inj h)
      exact .inl ⟨hq, rfl, rfl⟩
    · simp only [ok_bind, if_neg hq, StateT.run_bind, getHdr_run] at h
      exact .inr ⟨hq, h⟩

/-- Once `base` is set up, `malloc` goes straight to the loop from
    `freep`. -/
theorem malloc_run_of_ne {base nbytes : Nat} (h : u.freep ≠ 0) :
    (malloc sbrk base fuel nbytes).run u =
      (mallocLoop sbrk fuel (nunits nbytes) fuel u.freep (u.hdr u.freep).ptr).run u := by
  simp only [malloc, StateT.run_bind, StateT.run_get, pure_bind, if_neg h, ok_bind, getHdr_run]

end Loop

/-! ## Fuel

    The loops of `free` and `malloc` run on fuel where the C loops run
    until they stop; more fuel only lets a run go further, so every run
    that returns returns the same on more. -/

section Fuel

variable {σ : Type} {sbrk : Int32 → StateT σ (Except String) Nat}

theorem freeScan_mono {bp : Nat} :
    ∀ {n n' : Nat} (p : Nat), n ≤ n' → OkLe (freeScan (σ := σ) bp n p) (freeScan bp n' p)
  | 0, _, _, _ => OkLe.throw _
  | n + 1, n' + 1, p, h => by
      rw [freeScan, freeScan]
      exact OkLe.bind (OkLe.refl _) fun _ =>
        OkLe.ite (OkLe.refl _) (OkLe.ite (OkLe.refl _) (freeScan_mono _ (by omega)))

theorem free_mono {fuel fuel' ap : Nat} (h : fuel ≤ fuel') : OkLe (free (σ := σ) fuel ap) (free fuel' ap) := by
  unfold free
  exact OkLe.bind (OkLe.refl _) fun _ => OkLe.bind (freeScan_mono _ h) fun _ => OkLe.refl _

theorem morecore_mono {fuel fuel' nu : Nat} (h : fuel ≤ fuel') :
    OkLe (morecore sbrk fuel nu) (morecore sbrk fuel' nu) := by
  unfold morecore
  exact OkLe.bind (OkLe.refl _) fun _ => OkLe.ite (OkLe.refl _)
    (OkLe.bind (OkLe.refl _) fun _ => OkLe.bind (free_mono h) fun _ => OkLe.refl _)

/-- The loop of `malloc` on more rounds, and on more rounds for the scans
    of `free` in `morecore`; by induction on the rounds, one per block. -/
theorem mallocLoop_mono {fuel fuel' nu : Nat} (h : fuel ≤ fuel') :
    ∀ {n n' : Nat} (prevp p : Nat), n ≤ n' →
      OkLe (mallocLoop sbrk fuel nu n prevp p) (mallocLoop sbrk fuel' nu n' prevp p)
  | 0, _, _, _, _ => OkLe.throw _
  | n + 1, n' + 1, prevp, p, hn => by
      rw [mallocLoop, mallocLoop]
      refine OkLe.bind (OkLe.refl _) fun _ => OkLe.ite (OkLe.refl _) ?_
      refine OkLe.bind (OkLe.refl _) fun _ => OkLe.ite ?_ ?_
      · -- back at `freep`: `morecore`, then on from what it returns
        exact OkLe.bind (morecore_mono h) fun _ => OkLe.ite (OkLe.refl _)
          (OkLe.bind (OkLe.refl _) fun _ => mallocLoop_mono h _ _ (by omega))
      · exact OkLe.bind (OkLe.refl _) fun _ => mallocLoop_mono h _ _ (by omega)

theorem malloc_mono {base fuel fuel' nbytes : Nat} (h : fuel ≤ fuel') :
    OkLe (malloc sbrk base fuel nbytes) (malloc sbrk base fuel' nbytes) := by
  -- the rest of `malloc` after setting up `base`, the same on both
  have hrest : ∀ r : PUnit, OkLe
      (do let prevp := (← get).freep; mallocLoop sbrk fuel (nunits nbytes) fuel prevp (← getHdr prevp).ptr)
      (do let prevp := (← get).freep; mallocLoop sbrk fuel' (nunits nbytes) fuel' prevp (← getHdr prevp).ptr) :=
    fun _ => OkLe.bind (OkLe.refl _) fun _ => OkLe.bind (OkLe.refl _) fun _ => mallocLoop_mono h _ _ h
  unfold malloc
  dsimp only
  exact OkLe.bind (OkLe.refl _) fun _ => OkLe.ite
    (OkLe.bind (OkLe.refl _) fun _ => OkLe.bind (OkLe.refl _) fun _ => OkLe.bind (OkLe.refl _) hrest) (hrest ())

end Fuel

/-! ## The walk of `malloc` around the ring -/

section Walk

variable {σ : Type} (sbrk : Int32 → StateT σ (Except String) Nat) (fuel : Nat) {nu base : Nat} {u : UState σ}
  {fl : List Blk}

/-- The nodes of a sorted ring after `base` are distinct, and none is `base`. -/
theorem Sorted.nodup (hs : Sorted base fl) : (fl.map Blk.addr ++ [base]).Nodup :=
  (List.perm_append_singleton _ _).nodup_iff.mpr
    ((List.isChain_iff_pairwise.mp hs.ascending).imp Nat.ne_of_lt)

/-- **ONE PREDECESSOR**: the only node of the ring that points at the
    block `c` is the node before it. -/
theorem Ring.pred_eq {L H : List Blk} {c : Blk} {w : Nat} (hr : Ring u base fl) (hs : Sorted base fl)
    (hsplit : fl = L ++ c :: H) (hw : w ∈ base :: fl.map Blk.addr) (hwc : (u.hdr w).ptr = c.addr) :
    w = (L.map Blk.addr).getLastD base := by
  have hlast := hr.link_last hsplit
  have hmem : (L.map Blk.addr).getLastD base ∈ base :: fl.map Blk.addr := by
    rw [hsplit, List.map_append]
    exact List.cons_subset_cons base (List.subset_append_left _ _) List.getLastD_mem_cons
  refine Chain.eq_of_next_eq hr.links hs.nodup w (by rwa [List.dropLast_concat]) _
    (by rwa [List.dropLast_concat]) ?_
  rw [hwc, hlast]
  rfl

/-- The ring read from `freep`: the nodes after it, then `freep`. -/
theorem Ring.cycle (hr : Ring u base fl) (hfreep : u.freep ∈ base :: fl.map Blk.addr) :
    ∃ C, Linked u (u.freep :: C ++ [u.freep]) ∧ (C ++ [u.freep]).Perm (base :: fl.map Blk.addr) :=
  Chain.exists_cycle hr.links hfreep

/-- **FIRST FIT**: when a free block fits, the loop of `malloc` from
    `freep` reaches one on fewer rounds than the ring has nodes, with the
    node before it as `prevp`. -/
theorem mallocLoop_fit (hr : Ring u base fl) (hs : Sorted base fl) (hfreep : u.freep ∈ base :: fl.map Blk.addr)
    (hnu : 0 < nu) (hfit : ∃ c ∈ fl, nu ≤ c.size) {n : Nat} (hn : fl.length < n) :
    ∃ L c H m, fl = L ++ c :: H ∧ nu ≤ c.size ∧
      (mallocLoop sbrk fuel nu n u.freep (u.hdr u.freep).ptr).run u =
        (mallocLoop sbrk fuel nu (m + 1) ((L.map Blk.addr).getLastD base) c.addr).run u := by
  obtain ⟨C, hcyc, hperm⟩ := hr.cycle hfreep
  have hnd : (C ++ [u.freep]).Nodup := hperm.nodup_iff.mpr ((List.perm_append_singleton _ _).nodup_iff.mp hs.nodup)
  -- the first node on the way round that fits
  obtain ⟨z, xs, ys, hD, hz, hxs⟩ : ∃ z xs ys, C ++ [u.freep] = xs ++ z :: ys ∧ nu ≤ (u.hdr z).size ∧
      ∀ x ∈ xs, (u.hdr x).size < nu := by
    obtain ⟨c, hc, hcs⟩ := hfit
    have hcD : c.addr ∈ C ++ [u.freep] := hperm.mem_iff.mpr (List.mem_cons_of_mem _ (List.mem_map_of_mem hc))
    obtain ⟨z, hfind⟩ := Option.isSome_iff_exists.mp (List.find?_isSome (p := fun x => decide (nu ≤ (u.hdr x).size)).mpr
      ⟨c.addr, hcD, by simpa [hr.sizes c hc] using hcs⟩)
    obtain ⟨hz, xs, ys, hD, hxs⟩ := List.find?_eq_some_iff_append.mp hfind
    exact ⟨z, xs, ys, hD, by simpa using hz, fun x hx => by simpa using hxs x hx⟩
  -- `freep` ends the cycle, so it is not passed on the way
  have hxsf : ∀ x ∈ xs, x ≠ u.freep := by
    rintro x hx rfl
    have hlast : u.freep ∈ z :: ys := by
      have h := congrArg List.getLast? hD
      rw [List.getLast?_concat, List.getLast?_append_cons] at h
      exact List.mem_of_getLast? h.symm
    exact List.disjoint_of_nodup_append (hD ▸ hnd) hx hlast
  have hwalk : Linked u (u.freep :: xs ++ [z]) := by
    rw [List.cons_append, hD] at hcyc
    have : Linked u ((u.freep :: xs ++ [z]) ++ ys) := by simpa using hcyc
    exact this.left_of_append
  have hhead : (u.hdr u.freep).ptr = xs.headD z := by
    rw [← Chain.head_append_singleton]
    exact (List.isChain_cons.mp hwalk).1 _ (by cases xs <;> simp)
  -- the fitting node is a block, and the node before it its predecessor
  have hzb : z ∈ base :: fl.map Blk.addr := hperm.mem_iff.mp (hD ▸ by simp)
  obtain ⟨c, hc, rfl⟩ : ∃ c ∈ fl, c.addr = z := by
    rcases List.mem_cons.mp hzb with rfl | hz'
    · rw [hr.base_size] at hz
      omega
    · simpa using hz'
  obtain ⟨L, H, hsplit⟩ := List.append_of_mem hc
  have hw : (u.hdr (xs.getLastD u.freep)).ptr = c.addr := by
    rw [← List.getLast_eq_getLastD (by simp)]
    simpa using hwalk.rel_getLast_head_of_append (by simp) (by simp)
  have hwmem : xs.getLastD u.freep ∈ base :: fl.map Blk.addr := by
    rcases List.mem_cons.mp (List.getLastD_mem_cons (l := xs) (a := u.freep)) with h | hx
    · rw [h]
      exact hfreep
    · exact hperm.mem_iff.mp (hD ▸ List.mem_append_left _ hx)
  have hlen : xs.length < n := by
    have := congrArg List.length hD
    have := hperm.length_eq
    simp only [List.length_append, List.length_cons, List.length_map, List.length_nil] at *
    omega
  obtain ⟨m, hm⟩ : ∃ m, n - xs.length = m + 1 := ⟨n - xs.length - 1, by omega⟩
  refine ⟨L, c, H, m, hsplit, by rw [← hr.sizes c hc]; exact hz, ?_⟩
  have hwalk' : (mallocLoop sbrk fuel nu (n - xs.length + xs.length) u.freep (xs.headD c.addr)).run u = _ :=
    mallocLoop_walk (n - xs.length) xs u.freep c.addr hwalk fun x hx => ⟨hxs x hx, hxsf x hx⟩
  rw [Nat.sub_add_cancel (Nat.le_of_lt hlen), ← hhead, hm] at hwalk'
  rw [hwalk', Ring.pred_eq hr hs hsplit hwmem hw]

/-- **NO FIT**: when no free block fits, the loop goes once round the
    ring and comes back to `freep`. -/
theorem mallocLoop_nofit (hr : Ring u base fl) (hs : Sorted base fl) (hfreep : u.freep ∈ base :: fl.map Blk.addr)
    (hnu : 0 < nu) (hno : ∀ c ∈ fl, c.size < nu) (n : Nat) :
    ∃ w, (mallocLoop sbrk fuel nu (n + fl.length) u.freep (u.hdr u.freep).ptr).run u =
      (mallocLoop sbrk fuel nu n w u.freep).run u := by
  obtain ⟨C, hcyc, hperm⟩ := hr.cycle hfreep
  have hnd : (C ++ [u.freep]).Nodup := hperm.nodup_iff.mpr ((List.perm_append_singleton _ _).nodup_iff.mp hs.nodup)
  have hsmall : ∀ x ∈ C, (u.hdr x).size < nu ∧ x ≠ u.freep := by
    intro x hx
    refine ⟨?_, fun h => List.disjoint_of_nodup_append hnd hx (by simp [h])⟩
    rcases List.mem_cons.mp (hperm.mem_iff.mp (List.mem_append_left _ hx)) with rfl | hx'
    · rw [hr.base_size]
      exact hnu
    · obtain ⟨c, hc, rfl⟩ := List.mem_map.mp hx'
      rw [hr.sizes c hc]
      exact hno c hc
  have hhead : (u.hdr u.freep).ptr = C.headD u.freep := by
    rw [← Chain.head_append_singleton]
    exact (List.isChain_cons.mp hcyc).1 _ (by cases C <;> simp)
  have hlen : C.length = fl.length := by
    have := hperm.length_eq
    simp only [List.length_append, List.length_cons, List.length_map, List.length_nil] at this
    omega
  refine ⟨C.getLastD u.freep, ?_⟩
  rw [hhead, ← hlen]
  exact mallocLoop_walk n C u.freep u.freep hcyc hsmall

end Walk

/-! ## Blocks taken out of the list -/

/-- A block apart from `c` is apart from every block inside `c`. -/
theorem Blk.Apart.mono {d c c₀ : Blk} (h : d.Apart c) (hlo : c.addr ≤ c₀.addr) (hhi : c₀.lim ≤ c.lim) :
    d.Apart c₀ := by
  simp only [Blk.Apart] at *
  omega

/-- Two blocks of a gap chain, the first before the second, are apart. -/
theorem Blk.Gap.apart {b c : Blk} (h : b.Gap c) : b.Apart c := .inl (Nat.le_of_lt h)

section Take

variable {σ : Type} {base : Nat} {u : UState σ} {fl L H : List Blk} {c : Blk}

/-- The blocks before `c` end below it, and those after it start above it. -/
theorem Sorted.gap_of_split (hs : Sorted base fl) (hsplit : fl = L ++ c :: H) :
    (∀ d ∈ L, d.Gap c) ∧ ∀ d ∈ H, c.Gap d := by
  have hp := List.isChain_iff_pairwise.mp hs.gap
  rw [hsplit, List.pairwise_append, List.pairwise_cons] at hp
  exact ⟨fun d hd => hp.2.2 d hd c List.mem_cons_self, hp.2.1.1⟩

/-- A list with blocks left out is sorted. -/
theorem Sorted.sublist {fl' : List Blk} (hs : Sorted base fl) (h : fl'.Sublist fl) : Sorted base fl' :=
  ⟨hs.gap.sublist h, fun b hb => hs.pos b (h.subset hb), fun b hb => hs.above b (h.subset hb),
    fun b hb => hs.below b (h.subset hb)⟩

/-- A list with one block cut down from its top is sorted. -/
theorem Sorted.shrink {c' : Blk} (hs : Sorted base fl) (hsplit : fl = L ++ c :: H) (haddr : c'.addr = c.addr)
    (hpos : 0 < c'.size) (hlim : c'.lim ≤ c.lim) : Sorted base (L ++ c' :: H) := by
  have hg := hs.gap
  rw [hsplit, List.isChain_append, List.isChain_cons] at hg
  have hmem : ∀ d ∈ L ++ c' :: H, d ∈ fl ∨ d = c' := by
    intro d hd
    rcases List.mem_append.mp hd with hd | hd
    · exact .inl (by rw [hsplit]; exact List.mem_append_left _ hd)
    · rcases List.mem_cons.mp hd with rfl | hd
      · exact .inr rfl
      · exact .inl (by rw [hsplit]; simp [hd])
  have hcfl : c ∈ fl := by rw [hsplit]; simp
  refine ⟨?_, fun d hd => ?_, fun d hd => ?_, fun d hd => ?_⟩
  · rw [List.isChain_append, List.isChain_cons]
    refine ⟨hg.1, ⟨fun y hy => ?_, hg.2.1.2⟩, fun x hx y hy => ?_⟩
    · have := hg.2.1.1 y hy
      simp only [Blk.Gap] at this ⊢
      omega
    · obtain rfl : c' = y := by simpa using hy
      have := hg.2.2 x hx c (by simp)
      simp only [Blk.Gap] at this ⊢
      omega
  · rcases hmem d hd with hd | rfl
    · exact hs.pos d hd
    · exact hpos
  · rcases hmem d hd with hd | rfl
    · exact hs.above d hd
    · rw [haddr]
      exact hs.above c hcfl
  · rcases hmem d hd with hd | rfl
    · exact hs.below d hd
    · exact Nat.lt_of_le_of_lt hlim (hs.below c hcfl)

/-- **FRAME**: the ring stands while the headers of its nodes do. -/
theorem Ring.frame {u' : UState σ} (hr : Ring u base fl) (h : ∀ x ∈ base :: fl.map Blk.addr, u'.hdr x = u.hdr x) :
    Ring u' base fl := by
  refine ⟨linked_frame hr.links fun x hx => ?_, ?_, fun b hb => ?_⟩
  · rw [List.dropLast_concat] at hx
    rw [h x hx]
  · rw [h base List.mem_cons_self]
    exact hr.base_size
  · rw [h b.addr (List.mem_cons_of_mem _ (List.mem_map_of_mem hb))]
    exact hr.sizes b hb

end Take

/-! ## Taking a block -/

section TakeBlock

variable {σ : Type} (sbrk : Int32 → StateT σ (Except String) Nat) (fuel : Nat) {nu base m : Nat} {u : UState σ}
  {fl L H : List Blk} {c : Blk} (hr : Ring u base fl) (hs : Sorted base fl) (hsplit : fl = L ++ c :: H)
include hr hs hsplit

omit hr in
/-- The nodes up to the one before `c` lie below `c`. -/
theorem below_of_split : ∀ x ∈ base :: L.map Blk.addr, base ≤ x ∧ x < c.addr :=
  lt_of_mem_below hs hsplit (fun d hd => Nat.le_of_lt ((hs.gap_of_split hsplit).1 d hd))
    (hs.above c (by rw [hsplit]; simp))

omit hr in
/-- The blocks after `c` start above its end. -/
theorem above_of_split : ∀ d ∈ H, c.lim < d.addr := (hs.gap_of_split hsplit).2

/-- The nodes after `c` keep their links under headers changed below `c`. -/
theorem linked_after {hdr' : Nat → Header} (hat : ∀ x, c.addr < x → hdr' x = u.hdr x) :
    Linked { u with hdr := hdr' } (H.map Blk.addr ++ [base]) := by
  have hl := hr.links_split (L := L ++ [c]) (H := H) (by rw [hsplit]; simp)
  refine linked_frame hl.right_of_append fun x hx => ?_
  rw [List.dropLast_concat] at hx
  obtain ⟨d, hd, rfl⟩ := List.mem_map.mp hx
  have := above_of_split hs hsplit d hd
  have := Blk.addr_lt_lim (hs.pos c (by rw [hsplit]; simp))
  dsimp only
  rw [hat d.addr (by omega)]

/-- **EXACT FIT**: a block of `nunits` headers leaves the ring, the node
    before it pointing past it, and `freep` moves to that node. -/
theorem take_exact (hc : c.size = nu) :
    ∃ u', (mallocLoop sbrk fuel nu (m + 1) ((L.map Blk.addr).getLastD base) c.addr).run u =
        .ok (hadd c.addr 1, u') ∧ u'.sys = u.sys ∧ Ring u' base (L ++ H) ∧
      u'.freep ∈ base :: (L ++ H).map Blk.addr ∧ ∀ x, x ≠ (L.map Blk.addr).getLastD base → u'.hdr x = u.hdr x := by
  set w := (L.map Blk.addr).getLastD base with hw
  have hcfl : c ∈ fl := by rw [hsplit]; simp
  have hwc := below_of_split hs hsplit w List.getLastD_mem_cons
  -- `c` points at the node after it
  have hnext : (u.hdr c.addr).ptr = (H.map Blk.addr).headD base := by
    have := hr.link_last (L := L ++ [c]) (H := H) (by rw [hsplit]; simp)
    simpa using this
  set hdr' := Function.update u.hdr w { u.hdr w with ptr := (u.hdr c.addr).ptr } with hhdr'
  have hat : ∀ x, x ≠ w → hdr' x = u.hdr x := fun x hx => Function.update_of_ne hx _ _
  have hsz : ∀ x, (hdr' x).size = (u.hdr x).size := by
    intro x
    by_cases hx : x = w
    · rw [hx, hhdr', Function.update_self]
    · rw [hat x hx]
  refine ⟨{ u with hdr := hdr', freep := w }, mallocLoop_exact (by rw [hr.sizes c hcfl, hc]) allPerm_rw allPerm_rw, rfl,
    ⟨?_, ?_, fun d hd => ?_⟩, ?_, hat⟩
  · -- links: `base .. w`, then the nodes after `c`
    have hlist : base :: (L ++ H).map Blk.addr ++ [base] =
        (base :: L.map Blk.addr) ++ (H.map Blk.addr ++ [base]) := by simp
    rw [hlist]
    refine List.IsChain.append
      (linked_below_frame hr hs hsplit (fun d hd => Nat.le_of_lt ((hs.gap_of_split hsplit).1 d hd))
        (hs.above c hcfl) hw fun x hx _ => hat x hx)
      (linked_after hr hs hsplit fun x hx => hat x (by omega)) fun x hx y hy => ?_
    rw [Option.mem_def, List.getLast?_cons, Option.some.injEq, ← List.getLastD_eq_getLast?, ← hw] at hx
    subst hx
    have hy' : (H.map Blk.addr).headD base = y := by cases H <;> simp_all
    dsimp only
    rw [hhdr', Function.update_self, hnext, hy']
  · dsimp only
    rw [hsz]
    exact hr.base_size
  · dsimp only
    rw [hsz]
    exact hr.sizes d (by rw [hsplit]; rcases List.mem_append.mp hd with hd | hd <;> simp [hd])
  · dsimp only
    rw [List.map_append, ← List.cons_append]
    exact List.mem_append_left _ List.getLastD_mem_cons

/-- **SPLIT**: a larger block stays in the ring, cut down by `nunits`
    headers from its top; the tail of `nunits` headers is handed out, and
    `freep` moves to the node before the block. -/
theorem take_split (hnu : 0 < nu) (hc : nu < c.size) :
    ∃ u', (mallocLoop sbrk fuel nu (m + 1) ((L.map Blk.addr).getLastD base) c.addr).run u =
        .ok (hadd (hadd c.addr (c.size - nu)) 1, u') ∧ u'.sys = u.sys ∧
      Ring u' base (L ++ ⟨c.addr, c.size - nu⟩ :: H) ∧
      u'.freep ∈ base :: (L ++ ⟨c.addr, c.size - nu⟩ :: H).map Blk.addr ∧
      (u'.hdr (hadd c.addr (c.size - nu))).size = nu ∧
      ∀ x, x ≠ c.addr → x ≠ hadd c.addr (c.size - nu) → u'.hdr x = u.hdr x := by
  set w := (L.map Blk.addr).getLastD base with hw
  have hcfl : c ∈ fl := by rw [hsplit]; simp
  have hcs := hr.sizes c hcfl
  have hlim := hs.below c hcfl
  have htc : c.addr < hadd c.addr (c.size - nu) ∧ hadd c.addr (c.size - nu) < c.lim := by
    simp only [Blk.lim, hadd, HDRSIZE] at hlim ⊢
    omega
  set t := hadd c.addr (c.size - nu) with ht
  have hrun : (mallocLoop sbrk fuel nu (m + 1) w c.addr).run u = _ :=
    mallocLoop_split (by rw [hcs]; exact hc) (by rw [hcs]; simp only [Blk.lim, hadd, HDRSIZE] at hlim; omega)
  rw [hcs] at hrun
  set hdr' := Function.update (Function.update u.hdr c.addr { u.hdr c.addr with size := c.size - nu }) t
    { u.hdr t with size := nu } with hhdr'
  have hat : ∀ x, x ≠ c.addr → x ≠ t → hdr' x = u.hdr x := fun x h₁ h₂ => by
    rw [hhdr', Function.update_of_ne h₂, Function.update_of_ne h₁]
  -- both writes are to sizes: every link stands
  have hptr : ∀ x, (hdr' x).ptr = (u.hdr x).ptr := by
    intro x
    by_cases h₂ : x = t
    · rw [h₂, hhdr', Function.update_self]
    · by_cases h₁ : x = c.addr
      · rw [h₁, hhdr', Function.update_of_ne (h₁ ▸ h₂), Function.update_self]
      · rw [hat x h₁ h₂]
  have hnodes : (L ++ ⟨c.addr, c.size - nu⟩ :: H).map Blk.addr = fl.map Blk.addr := by
    rw [hsplit]
    simp
  have hoff : ∀ d ∈ L ++ H, d.addr ≠ c.addr ∧ d.addr ≠ t := by
    intro d hd
    rcases List.mem_append.mp hd with hd | hd
    · have := below_of_split hs hsplit d.addr (List.mem_cons_of_mem _ (List.mem_map_of_mem hd))
      omega
    · have := above_of_split hs hsplit d hd
      omega
  refine ⟨{ u with hdr := hdr', freep := w }, hrun, rfl, ⟨?_, ?_, fun d hd => ?_⟩, ?_, ?_, hat⟩
  · rw [hnodes]
    exact linked_frame hr.links fun x _ => hptr x
  · have := below_of_split hs hsplit base List.mem_cons_self
    dsimp only
    rw [hat base (by omega) (by omega)]
    exact hr.base_size
  · dsimp only
    rcases List.mem_append.mp hd with hd | hd
    · have := hoff d (List.mem_append_left _ hd)
      rw [hat d.addr this.1 this.2]
      exact hr.sizes d (by rw [hsplit]; simp [hd])
    · rcases List.mem_cons.mp hd with rfl | hd
      · rw [hhdr', Function.update_of_ne (Nat.ne_of_lt htc.1), Function.update_self]
      · have := hoff d (List.mem_append_right _ hd)
        rw [hat d.addr this.1 this.2]
        exact hr.sizes d (by rw [hsplit]; simp [hd])
  · dsimp only
    rw [hnodes, hsplit, List.map_append, ← List.cons_append]
    exact List.mem_append_left _ List.getLastD_mem_cons
  · dsimp only
    rw [hhdr', Function.update_self]

end TakeBlock

end Xv6.User
