import Xv6.Lib.Chain
import Xv6.User.Umalloc

/-! # The free ring of the user allocator

    What `free` keeps.  The free list is a ring of headers through
    `base`: from `base`, whose size is `0`, through the free blocks in
    ascending order, and back to `base` (`Ring`).  Abstractly it is a list
    of blocks, each an address and a size in headers, ascending with a gap
    between neighbours, none empty, all above `base` and below `2^31`
    (`Sorted`).

    * `freeScan_ring`: from any node of the ring, the scan of `free` stops
      at the last node below the block, one round a node;
    * `joinUp_ring`, `insert_apart`, `insert_join`: the two joins of
      `free`, and what each leaves;
    * `free_spec`: `free` of a block apart from every free block puts it
      into the ring in order, joined with the blocks it touches, with no
      byte gained or lost (`Inserted`), and changes no header off the ring
      and off the block. -/

namespace Xv6.User

open StateExcept

/-- A block of the heap: the address of its header and its size in headers. -/
structure Blk where
  addr : Nat
  size : Nat
deriving DecidableEq, Repr

namespace Blk

/-- One past the block's last byte. -/
def lim (b : Blk) : Nat := hadd b.addr b.size

/-- `b` ends strictly below `c`: the order of the free list, where no two
    neighbours touch. -/
def Gap (b c : Blk) : Prop := b.lim < c.addr

/-- `b` and `c` share no byte. -/
def Apart (b c : Blk) : Prop := b.lim ≤ c.addr ∨ c.lim ≤ b.addr

/-- `b` and the block `c` right after it, as one block. -/
def join (b c : Blk) : Blk := ⟨b.addr, b.size + c.size⟩

theorem Apart.symm {b c : Blk} (h : b.Apart c) : c.Apart b := Or.symm h

@[simp] theorem join_addr (b c : Blk) : (b.join c).addr = b.addr := rfl

theorem join_lim {b c : Blk} (h : b.lim = c.addr) : (b.join c).lim = c.lim := by
  simp only [lim, join, hadd, HDRSIZE] at *
  omega

theorem addr_lt_lim {b : Blk} (h : 0 < b.size) : b.addr < b.lim := by
  simp only [lim, hadd, HDRSIZE]
  omega

theorem Gap.trans {b c d : Blk} (h₁ : b.Gap c) (h₂ : c.Gap d) : b.Gap d := by
  simp only [Gap, lim, hadd] at *
  omega

/-- A block apart from two touching blocks is apart from their join. -/
theorem Apart.join {b c d : Blk} (hd : 0 < d.size) (h₁ : d.Apart b) (h₂ : d.Apart c)
    (h : b.lim = c.addr) : d.Apart (b.join c) := by
  simp only [Apart, Blk.join, lim, hadd, HDRSIZE] at *
  omega

end Blk

instance : IsTrans Blk Blk.Gap := ⟨fun _ _ _ => Blk.Gap.trans⟩

section Ring

variable {σ : Type}

/-- The free list as `free` and `malloc` keep it: ascending, no two
    blocks touching, none empty, all above `base` and below `2^31`. -/
structure Sorted (base : Nat) (fl : List Blk) : Prop where
  gap : List.IsChain Blk.Gap fl
  pos : ∀ b ∈ fl, 0 < b.size
  above : ∀ b ∈ fl, base < b.addr
  below : ∀ b ∈ fl, b.lim < 2 ^ 31

/-- `x->s.ptr == y` for every `x` of the list and the `y` after it. -/
abbrev Linked (u : UState σ) : List Nat → Prop := List.IsChain fun x y => (u.hdr x).ptr = y

/-- The ring from `base` through the blocks of `fl`, in order, and back;
    `base` has size `0` and every block its own size. -/
structure Ring (u : UState σ) (base : Nat) (fl : List Blk) : Prop where
  links : Linked u (base :: fl.map Blk.addr ++ [base])
  base_size : (u.hdr base).size = 0
  sizes : ∀ b ∈ fl, (u.hdr b.addr).size = b.size

variable {base : Nat}

/-- The addresses of the ring ascend from `base`. -/
theorem Sorted.ascending {fl : List Blk} (h : Sorted base fl) :
    List.IsChain (· < ·) (base :: fl.map Blk.addr) := by
  have hfl : List.IsChain (· < ·) (fl.map Blk.addr) :=
    List.isChain_map_of_isChain (R := Blk.Gap) _ (fun b c hg => by
      simp only [Blk.Gap, Blk.lim, hadd] at hg
      omega) h.gap
  refine hfl.cons fun y hy => ?_
  obtain ⟨c, hc, rfl⟩ : ∃ c ∈ fl, c.addr = y := by
    simpa using List.mem_of_mem_head? hy
  exact h.above c hc

/-- The ring cut after the nodes of `L`. -/
theorem Ring.links_split {u : UState σ} {fl L H : List Blk} (hr : Ring u base fl) (hsplit : fl = L ++ H) :
    Linked u ((base :: L.map Blk.addr) ++ (H.map Blk.addr ++ [base])) := by
  have := hr.links
  rw [hsplit] at this
  simpa using this

/-- The last node of `base :: L` points at the first of `H`, or at `base`. -/
theorem Ring.link_last {u : UState σ} {fl L H : List Blk} (hr : Ring u base fl) (hsplit : fl = L ++ H) :
    (u.hdr ((L.map Blk.addr).getLastD base)).ptr = (H.map Blk.addr).headD base := by
  rw [← List.getLast_eq_getLastD (by simp), ← Chain.head_append_singleton]
  exact (hr.links_split hsplit).rel_getLast_head_of_append (by simp) (by simp)

/-- **FRAME**: links survive a change of headers away from the nodes
    they leave from. -/
theorem linked_frame {u u' : UState σ} {l : List Nat} (h : Linked u l)
    (hf : ∀ x ∈ l.dropLast, (u'.hdr x).ptr = (u.hdr x).ptr) : Linked u' l :=
  Chain.isChain_eq_frame (f := fun x => (u.hdr x).ptr) h hf

/-- A block apart from every free block splits the list into the blocks
    below it and those above it. -/
theorem exists_split {b : Blk} (hb : 0 < b.size) :
    ∀ {fl : List Blk}, List.IsChain Blk.Gap fl → (∀ c ∈ fl, 0 < c.size) → (∀ c ∈ fl, b.Apart c) →
      ∃ L H, fl = L ++ H ∧ (∀ c ∈ L, c.lim ≤ b.addr) ∧ (∀ c ∈ H, b.lim ≤ c.addr)
  | [], _, _, _ => ⟨[], [], rfl, by simp, by simp⟩
  | c :: fl, hg, hpos, hap => by
      rcases hap c List.mem_cons_self with hbc | hcb
      · -- `b` is below `c`, so below everything after it
        refine ⟨[], c :: fl, rfl, by simp, fun d hd => ?_⟩
        rcases List.mem_cons.mp hd with rfl | hd
        · exact hbc
        · have hcd : c.Gap d := List.rel_of_pairwise_cons (List.isChain_iff_pairwise.mp hg) hd
          simp only [Blk.Gap, Blk.lim, hadd] at hcd
          omega
      · obtain ⟨L, H, rfl, hL, hH⟩ := exists_split hb hg.tail (fun d hd => hpos d (List.mem_cons_of_mem _ hd))
          (fun d hd => hap d (List.mem_cons_of_mem _ hd))
        refine ⟨c :: L, H, rfl, fun d hd => ?_, hH⟩
        rcases List.mem_cons.mp hd with rfl | hd
        · exact hcb
        · exact hL d hd

/-! ## The scan of `free` -/

variable {u : UState σ} {bp : Nat}

/-- Along a path of links none of which passes the test, the scan of
    `free` goes from the first node to the last, one round a node. -/
theorem freeScan_walk (n : Nat) :
    ∀ (xs : List Nat) (x : Nat), List.IsChain (fun a b => (u.hdr a).ptr = b ∧ ¬ FreeStop bp a b) (x :: xs) →
      (freeScan bp (n + xs.length) x).run u = (freeScan bp n ((x :: xs).getLast (by simp))).run u
  | [], _, _ => rfl
  | y :: xs, x, h => by
      rw [List.isChain_cons_cons] at h
      obtain ⟨⟨hxy, hstop⟩, hrest⟩ := h
      have hrun : (freeScan bp (n + xs.length + 1) x).run u = (freeScan bp (n + xs.length) y).run u := by
        rw [freeScan_pass (by rw [hxy]; exact hstop) allPerm_rw, hxy]
      rw [List.length_cons, ← Nat.add_assoc, hrun, freeScan_walk n xs y hrest, List.getLast_cons_cons]

section Scan

variable {fl L H : List Blk} (hr : Ring u base fl) (hs : Sorted base fl) (hsplit : fl = L ++ H)
  (hL : ∀ c ∈ L, c.lim ≤ bp) (hH : ∀ c ∈ H, bp < c.addr) (hbase : base < bp)
include hr hs hsplit hL hH hbase

omit hr hH in
/-- The nodes of the ring up to the last node below `bp` are below it
    and not below `base`. -/
theorem lt_of_mem_below : ∀ x ∈ base :: L.map Blk.addr, base ≤ x ∧ x < bp := by
  intro x hx
  rcases List.mem_cons.mp hx with rfl | hx
  · exact ⟨Nat.le_refl _, hbase⟩
  · obtain ⟨c, hc, rfl⟩ := List.mem_map.mp hx
    have hcfl : c ∈ fl := by rw [hsplit]; exact List.mem_append_left _ hc
    have := Blk.addr_lt_lim (hs.pos c hcfl)
    have := hs.above c hcfl
    have := hL c hc
    omega

omit hH in
/-- The ring up to the last node below `bp` passes the test of `free`
    at every link. -/
theorem chain_below :
    List.IsChain (fun a b => (u.hdr a).ptr = b ∧ ¬ FreeStop bp a b) (base :: L.map Blk.addr) := by
  have hlinks := hr.links_split hsplit
  have hasc : List.IsChain (· < ·) (base :: L.map Blk.addr) := by
    have := hs.ascending
    rw [hsplit, List.map_append, ← List.cons_append] at this
    exact this.left_of_append
  refine Chain.isChain_and hlinks.left_of_append (hasc.imp_of_mem_imp fun a b _ hb hab => ?_)
  have := (lt_of_mem_below hs hsplit hL hbase b hb).2
  simp only [FreeStop]
  omega

omit hL in
/-- From the first node above `bp` to the end of the ring and back to
    `base`, no link passes the test of `free`. -/
theorem chain_above :
    List.IsChain (fun a b => (u.hdr a).ptr = b ∧ ¬ FreeStop bp a b) (H.map Blk.addr ++ [base]) := by
  have hlinks := hr.links_split hsplit
  have hasc : List.IsChain (· < ·) (H.map Blk.addr) := by
    have := hs.ascending
    rw [hsplit, List.map_append, ← List.cons_append] at this
    exact this.right_of_append
  have hgt : ∀ x ∈ H.map Blk.addr, bp < x := by
    intro x hx
    obtain ⟨c, hc, rfl⟩ := List.mem_map.mp hx
    exact hH c hc
  have hord : List.IsChain (fun a b => bp < a ∧ (a < b ∨ b < bp)) (H.map Blk.addr ++ [base]) := by
    refine List.IsChain.append (hasc.imp_of_mem_imp fun a b ha _ hab => ⟨hgt a ha, .inl hab⟩)
      (.singleton base) fun x hx y hy => ?_
    obtain rfl : base = y := by simpa using hy
    exact ⟨hgt x (List.mem_of_getLast? hx), .inr hbase⟩
  refine Chain.isChain_and hlinks.right_of_append (hord.imp fun a b hab => ?_)
  simp only [FreeStop]
  omega

/-- **SCAN**: from any node of the ring, on more rounds than the ring has
    blocks, the scan of `free` stops at the last node below `bp`. -/
theorem freeScan_ring {fuel : Nat} (hfreep : u.freep ∈ base :: fl.map Blk.addr) (hfuel : fl.length < fuel) :
    (freeScan bp fuel u.freep).run u = .ok ((L.map Blk.addr).getLastD base, u) := by
  rw [← List.getLast_eq_getLastD (by simp)]
  have hlinks := hr.links_split hsplit
  have hlow := chain_below hr hs hsplit hL hbase
  have hhigh := chain_above hr hs hsplit hH hbase
  have hlen : fl.length = L.length + H.length := by rw [hsplit, List.length_append]
  -- the test passes at the last node below `bp`: above it is a node above `bp`, or `base`
  have hstop : FreeStop bp ((base :: L.map Blk.addr).getLast (by simp))
      (u.hdr ((base :: L.map Blk.addr).getLast (by simp))).ptr := by
    rw [hlinks.rel_getLast_head_of_append (by simp) (by simp)]
    have hp := lt_of_mem_below hs hsplit hL hbase _ (List.getLast_mem (by simp))
    cases H with
    | nil => exact .inr ⟨hp.1, .inl hp.2⟩
    | cons c H => exact .inl ⟨hp.2, hH c List.mem_cons_self⟩
  rw [hsplit, List.map_append, ← List.cons_append, List.mem_append] at hfreep
  rcases hfreep with hmem | hmem
  · -- `freep` is below `bp`: the scan goes up to the last node below it
    obtain ⟨P, Q, hPQ⟩ := List.append_of_mem hmem
    have hchain := hlow.infix ⟨P, [], by rw [hPQ, List.append_nil]⟩
    have hQ : Q.length + P.length = L.length := by
      have := congrArg List.length hPQ
      simp only [List.length_cons, List.length_map, List.length_append] at this
      omega
    obtain ⟨n, rfl⟩ : ∃ n, fuel = n + 1 + Q.length := ⟨fuel - 1 - Q.length, by omega⟩
    have hlast : (u.freep :: Q).getLast (by simp) = (base :: L.map Blk.addr).getLast (by simp) := by
      simp only [hPQ]
      exact (List.getLast_append_of_ne_nil _ (by simp)).symm
    rw [freeScan_walk (n + 1) Q u.freep hchain, hlast]
    exact freeScan_stop hstop allPerm_rw
  · -- `freep` is above `bp`: the scan goes round through `base`
    obtain ⟨P, Q, hPQ⟩ := List.append_of_mem hmem
    have hchain₁ := hhigh.infix ⟨P, [], by rw [hPQ, List.append_nil, List.append_assoc, List.cons_append]⟩
    have hchain : List.IsChain (fun a b => (u.hdr a).ptr = b ∧ ¬ FreeStop bp a b)
        (u.freep :: (Q ++ base :: L.map Blk.addr)) := by
      have h₁ : List.IsChain (fun a b => (u.hdr a).ptr = b ∧ ¬ FreeStop bp a b) ((u.freep :: Q) ++ [base]) :=
        hchain₁
      rw [← List.cons_append]
      refine List.IsChain.append h₁.left_of_append hlow fun x hx y hy => ?_
      obtain rfl : base = y := by simpa using hy
      exact (List.isChain_append.mp h₁).2.2 x hx base rfl
    have hQ : Q.length + P.length + 1 = H.length := by
      have := congrArg List.length hPQ
      simp only [List.length_cons, List.length_map, List.length_append] at this
      omega
    obtain ⟨n, rfl⟩ : ∃ n, fuel = n + 1 + (Q ++ base :: L.map Blk.addr).length :=
      ⟨fuel - 1 - (Q ++ base :: L.map Blk.addr).length, by simp; omega⟩
    have hlast : (u.freep :: (Q ++ base :: L.map Blk.addr)).getLast (by simp) =
        (base :: L.map Blk.addr).getLast (by simp) := by
      exact List.getLast_append_of_ne_nil (l := u.freep :: Q) (by simp) (by simp)
    rw [freeScan_walk (n + 1) _ u.freep hchain, hlast]
    exact freeScan_stop hstop allPerm_rw

end Scan

end Ring

/-! ## What `free` writes -/

/-- What `free` writes at `bp`, whose ring successor is `q`: `bp` joined
    with `q` where it touches it, else pointing at it. -/
def joinUp (hdr : Nat → Header) (bp q : Nat) : Nat → Header :=
  Function.update hdr bp
    (if hadd bp (hdr bp).size = q then ⟨(hdr q).ptr, ((hdr bp).size + (hdr q).size) % 2 ^ 32⟩
      else { hdr bp with ptr := q })

/-- What `free` writes at `p`: `bp` joined into `p` where `p` touches
    it, else `p` pointing at `bp`. -/
def joinDown (hdr : Nat → Header) (bp p : Nat) : Nat → Header :=
  Function.update hdr p
    (if hadd p (hdr p).size = bp then ⟨(hdr bp).ptr, ((hdr p).size + (hdr bp).size) % 2 ^ 32⟩
      else { hdr p with ptr := bp })

/-- The headers after `free` has put `bp` in after `p`. -/
def freeHdr (hdr : Nat → Header) (bp p : Nat) : Nat → Header :=
  joinDown (joinUp hdr bp (hdr p).ptr) bp p

section Free

variable {σ : Type} {fuel : Nat}

theorem free_run {ap p : Nat} {u : UState σ}
    (hscan : (freeScan (ap - HDRSIZE) fuel u.freep).run u = .ok (p, u)) (hne : p ≠ ap - HDRSIZE)
    (hq : (u.hdr p).ptr ≠ ap - HDRSIZE) :
    (free fuel ap).run u = .ok ((), { u with hdr := freeHdr u.hdr (ap - HDRSIZE) p, freep := p }) := by
  have hne' : ap - HDRSIZE ≠ p := Ne.symm hne
  simp only [free, StateT.run_bind, StateT.run_get, pure_bind, hscan, ok_bind, getHdr_run]
  by_cases h₁ : hadd (ap - HDRSIZE) (u.hdr (ap - HDRSIZE)).size = (u.hdr p).ptr <;>
    by_cases h₂ : hadd p (u.hdr p).size = ap - HDRSIZE <;>
    simp [h₁, h₂, freeHdr, joinUp, joinDown, Function.update_of_ne hq, Function.update_of_ne hne,
      Function.update_of_ne hne']

/-- What the upper join of `free` leaves: `b'`, the block that now
    starts at `b`, and `H₂`, the blocks still above it. -/
structure UpJoined (base : Nat) (b : Blk) (H : List Blk) (hdr : Nat → Header) (b' : Blk) (H₂ : List Blk) :
    Prop where
  addr : b'.addr = b.addr
  suffix : H₂ <:+ H
  gap : List.IsChain Blk.Gap (b' :: H₂)
  pos : 0 < b'.size
  below : b'.lim < 2 ^ 31
  covers : b.lim ≤ b'.lim
  top : ∃ c ∈ b :: H, b'.lim = c.lim
  apart : ∀ d : Blk, 0 < d.size → (∀ c ∈ b :: H, d.Apart c) → d.Apart b'
  hdr : hdr b.addr = ⟨(H₂.map Blk.addr).headD base, b'.size⟩

variable {base : Nat} {u : UState σ} {fl L H : List Blk} {b : Blk}

/-- A size below `2^27` headers is kept whole in the `uint` field. -/
theorem size_mod_of_lim {c : Blk} (h : c.lim < 2 ^ 31) : c.size % 2 ^ 32 = c.size := by
  simp only [Blk.lim, hadd, HDRSIZE] at h
  exact Nat.mod_eq_of_lt (by omega)

/-- **UPPER JOIN**: `b` is joined with the first block above it where
    they touch; either way the header at `b` points past what it holds. -/
theorem joinUp_ring (hr : Ring u base fl) (hs : Sorted base fl) (hsplit : fl = L ++ H)
    (hH : ∀ c ∈ H, b.lim ≤ c.addr) (hbase : base < b.addr) (hb : 0 < b.size) (hlim : b.lim < 2 ^ 31)
    (hsize : (u.hdr b.addr).size = b.size) :
    ∃ b' H₂, UpJoined base b H (joinUp u.hdr b.addr ((H.map Blk.addr).headD base)) b' H₂ := by
  have hgapH : List.IsChain Blk.Gap H := by
    have := hs.gap
    rw [hsplit] at this
    exact this.right_of_append
  cases H with
  | nil =>
    -- nothing above: `b` points at `base`
    have hne : hadd b.addr b.size ≠ base := by
      have := Blk.addr_lt_lim hb
      simp only [Blk.lim] at this
      omega
    refine ⟨b, [], ⟨rfl, List.suffix_refl _, .singleton b, hb, hlim, Nat.le_refl _, ⟨b, List.mem_cons_self, rfl⟩,
      fun d _ hd => hd b List.mem_cons_self, ?_⟩⟩
    simp [joinUp, hne, hsize]
  | cons c H =>
    have hcfl : c ∈ fl := by rw [hsplit]; simp
    have hc := hr.sizes c hcfl
    by_cases hj : b.lim = c.addr
    · -- `b` touches `c`: the two become one block
      have hlink : (u.hdr c.addr).ptr = (H.map Blk.addr).headD base := by
        have := hr.link_last (L := L ++ [c]) (H := H) (by rw [hsplit]; simp)
        simpa using this
      have hjl : (b.join c).lim = c.lim := Blk.join_lim hj
      have hcb := hs.below c hcfl
      refine ⟨b.join c, H, ⟨rfl, List.suffix_cons c H, ?_, by simp [Blk.join]; omega, by omega, ?_,
        ⟨c, by simp, hjl⟩, fun d hd hap => Blk.Apart.join hd (hap b (by simp)) (hap c (by simp)) hj, ?_⟩⟩
      · have hcH := List.isChain_cons.mp hgapH
        refine hcH.2.cons fun y hy => ?_
        have : c.Gap y := hcH.1 y hy
        simp only [Blk.Gap] at this ⊢
        rw [hjl]
        exact this
      · rw [hjl]
        simp only [Blk.lim, hadd] at hj ⊢
        omega
      · have hjs : b.size + c.size < 2 ^ 32 := by
          simp only [Blk.lim, Blk.join, hadd, HDRSIZE] at hjl hcb
          omega
        simp only [Blk.lim] at hj
        rw [joinUp, Function.update_self, hsize, List.map_cons, List.headD_cons, if_pos hj, hlink, hc,
          Nat.mod_eq_of_lt hjs]
        rfl
    · -- `b` stops short of `c`: it points at `c`
      have hlt : b.lim < c.addr := Nat.lt_of_le_of_ne (hH c List.mem_cons_self) hj
      refine ⟨b, c :: H, ⟨rfl, List.suffix_refl _, hgapH.cons fun y hy => ?_, hb, hlim, Nat.le_refl _,
        ⟨b, List.mem_cons_self, rfl⟩, fun d _ hd => hd b List.mem_cons_self, ?_⟩⟩
      · obtain rfl : c = y := by simpa using hy
        exact hlt
      · simp only [Blk.lim] at hj
        simp [joinUp, hsize, hj]

/-- `fl'` is `fl` with `b` put in, joined with the blocks it touches. -/
structure Inserted (base : Nat) (fl : List Blk) (b : Blk) (fl' : List Blk) : Prop where
  sorted : Sorted base fl'
  apart : ∀ d : Blk, 0 < d.size → (∀ c ∈ b :: fl, d.Apart c) → ∀ c ∈ fl', d.Apart c
  bounds : ∀ c ∈ fl', ∃ c₀ ∈ b :: fl, ∃ c₁ ∈ b :: fl, c₀.addr ≤ c.addr ∧ c.lim ≤ c₁.lim
  holds : ∃ c ∈ fl', c.addr ≤ b.addr ∧ b.lim ≤ c.lim
  length : fl'.length ≤ fl.length + 1

section Lower

variable {b' : Blk} {H₂ : List Blk} {p : Nat} (hr : Ring u base fl) (hs : Sorted base fl) (hsplit : fl = L ++ H)
  (hL : ∀ c ∈ L, c.lim ≤ b.addr) (hH : ∀ c ∈ H, b.lim ≤ c.addr) (hbase : base < b.addr) (hb : 0 < b.size)
  (hup : UpJoined base b H (joinUp u.hdr b.addr ((H.map Blk.addr).headD base)) b' H₂)
  (hp : p = (L.map Blk.addr).getLastD base)
include hr hs hsplit hL hH hbase hb hup hp

omit hs hL hbase hb hp in
/-- The nodes above `b'` and the way back to `base` keep their links. -/
theorem linked_above : Linked u (H₂.map Blk.addr ++ [base]) := by
  obtain ⟨X, rfl⟩ := hup.suffix
  have := (hr.links_split hsplit).right_of_append
  rw [List.map_append, List.append_assoc] at this
  exact this.right_of_append

omit hH hb hup in
/-- Headers changed only at `p` and `b` keep the links of the ring up to
    `p`. -/
theorem linked_below_frame {hdr' : Nat → Header} (hat : ∀ x, x ≠ p → x ≠ b.addr → hdr' x = u.hdr x) :
    Linked { u with hdr := hdr' } (base :: L.map Blk.addr) := by
  have hlow : List.IsChain (· < ·) (base :: L.map Blk.addr) := by
    have := hs.ascending
    rw [hsplit, List.map_append, ← List.cons_append] at this
    exact this.left_of_append
  refine linked_frame (hr.links_split hsplit).left_of_append fun x hx => ?_
  have hxp := Chain.lt_getLast_of_mem_dropLast (by simp) hlow x hx
  rw [List.getLast_eq_getLastD, ← hp] at hxp
  have hpb := lt_of_mem_below hs hsplit hL hbase p (by rw [hp]; exact List.getLastD_mem_cons)
  dsimp only
  rw [hat x (Nat.ne_of_lt hxp) (by omega)]

omit hs hL hbase hp in
/-- Headers changed only at `p` and `b` keep the links above `b'`. -/
theorem linked_above_frame {hdr' : Nat → Header} (hpb : p < b.addr)
    (hat : ∀ x, x ≠ p → x ≠ b.addr → hdr' x = u.hdr x) :
    Linked { u with hdr := hdr' } (H₂.map Blk.addr ++ [base]) := by
  refine linked_frame (linked_above hr hsplit hH hup) fun x hx => ?_
  have hx' : x ∈ H₂.map Blk.addr := by rwa [List.dropLast_concat] at hx
  obtain ⟨c, hc, rfl⟩ := List.mem_map.mp hx'
  obtain ⟨X, rfl⟩ := hup.suffix
  have := hH c (by simp [hc])
  have := Blk.addr_lt_lim hb
  dsimp only
  rw [hat c.addr (by omega) (by omega)]

/-- **LOWER JOIN, APART**: where the node below `b` does not touch it,
    `b'` goes in after it. -/
theorem insert_apart (hnj : hadd p (u.hdr p).size ≠ b.addr) :
    Ring { u with hdr := freeHdr u.hdr b.addr p, freep := p } base (L ++ b' :: H₂) ∧
      Inserted base fl b (L ++ b' :: H₂) := by
  have hq : (u.hdr p).ptr = (H.map Blk.addr).headD base := by rw [hp]; exact hr.link_last hsplit
  have hpb := lt_of_mem_below hs hsplit hL hbase p (by rw [hp]; exact List.getLastD_mem_cons)
  have hpne : p ≠ b.addr := Nat.ne_of_lt hpb.2
  have hinL : ∀ c ∈ L, c ∈ fl := fun c hc => by rw [hsplit]; exact List.mem_append_left _ hc
  have hinH : ∀ c ∈ H₂, c ∈ fl := fun c hc => by
    obtain ⟨X, rfl⟩ := hup.suffix
    rw [hsplit]
    simp [hc]
  have hgtH : ∀ c ∈ H₂, b.addr < c.addr := fun c hc => by
    obtain ⟨X, rfl⟩ := hup.suffix
    have := hH c (by simp [hc])
    have := Blk.addr_lt_lim hb
    omega
  -- what `free` wrote: `b'` at `b`, and `p` pointing at it
  have hfree : freeHdr u.hdr b.addr p =
      Function.update (joinUp u.hdr b.addr ((H.map Blk.addr).headD base)) p { u.hdr p with ptr := b.addr } := by
    have h1p : joinUp u.hdr b.addr ((H.map Blk.addr).headD base) p = u.hdr p := Function.update_of_ne hpne _ _
    simp only [freeHdr, joinDown, hq, h1p, if_neg hnj]
  have hat_b : freeHdr u.hdr b.addr p b.addr = ⟨(H₂.map Blk.addr).headD base, b'.size⟩ := by
    rw [hfree, Function.update_of_ne hpne.symm]
    exact hup.hdr
  have hat : ∀ x, x ≠ p → x ≠ b.addr → freeHdr u.hdr b.addr p x = u.hdr x := by
    intro x h₁ h₂
    rw [hfree, Function.update_of_ne h₁, joinUp, Function.update_of_ne h₂]
  have hsz : ∀ x, x ≠ b.addr → (freeHdr u.hdr b.addr p x).size = (u.hdr x).size := by
    intro x hx
    by_cases hxp : x = p
    · subst hxp
      rw [hfree, Function.update_self]
    · rw [hat x hxp hx]
  have hcases : ∀ c ∈ L ++ b' :: H₂, c ∈ fl ∨ c = b' := by
    intro c hc
    rcases List.mem_append.mp hc with hc | hc
    · exact .inl (hinL c hc)
    · rcases List.mem_cons.mp hc with rfl | hc
      · exact .inr rfl
      · exact .inl (hinH c hc)
  refine ⟨⟨?_, ?_, ?_⟩, ⟨⟨?_, ?_, ?_, ?_⟩, ?_, ?_, ?_, ?_⟩⟩
  · -- links: `base .. p`, then `b'`, then what lies above it
    have hlist : base :: (L ++ b' :: H₂).map Blk.addr ++ [base] =
        (base :: L.map Blk.addr) ++ (b.addr :: (H₂.map Blk.addr ++ [base])) := by
      simp [hup.addr]
    rw [hlist]
    refine List.IsChain.append (linked_below_frame hr hs hsplit hL hbase hp hat)
      ((linked_above_frame hr hsplit hH hb hup hpb.2 hat).cons fun y hy => ?_) fun x hx y hy => ?_
    · simp only [hat_b]
      cases H₂ <;> simp_all
    · obtain rfl : b.addr = y := by simpa using hy
      rw [Option.mem_def, List.getLast?_cons, Option.some.injEq, ← List.getLastD_eq_getLast?, ← hp] at hx
      subst hx
      simp only [hfree, Function.update_self]
  · rw [hsz base (by omega)]
    exact hr.base_size
  · intro c hc
    rcases List.mem_append.mp hc with hc | hc
    · have := hL c hc
      have := Blk.addr_lt_lim (hs.pos c (hinL c hc))
      rw [hsz c.addr (by omega)]
      exact hr.sizes c (hinL c hc)
    · rcases List.mem_cons.mp hc with rfl | hc
      · rw [hup.addr]
        dsimp only
        rw [hat_b]
      · rw [hsz c.addr (Nat.ne_of_gt (hgtH c hc))]
        exact hr.sizes c (hinH c hc)
  · -- the node below `b'` ends short of it: they do not touch
    have hgL : List.IsChain Blk.Gap L := by
      have := hs.gap
      rw [hsplit] at this
      exact this.left_of_append
    refine hgL.append hup.gap fun x hx y hy => ?_
    obtain rfl : b' = y := by simpa using hy
    have hxL : x ∈ L := List.mem_of_getLast? hx
    have hxp : p = x.addr := by
      rw [hp, List.getLastD_eq_getLast?, List.getLast?_map, Option.mem_def.mp hx]
      rfl
    have hxs : (u.hdr p).size = x.size := by
      rw [hxp]
      exact hr.sizes x (hinL x hxL)
    have hne : x.lim ≠ b.addr := by
      rw [hxs, hxp] at hnj
      exact hnj
    have := hL x hxL
    simp only [Blk.Gap, hup.addr]
    omega
  · intro c hc
    rcases hcases c hc with hc | rfl
    · exact hs.pos c hc
    · exact hup.pos
  · intro c hc
    rcases hcases c hc with hc | rfl
    · exact hs.above c hc
    · rw [hup.addr]
      exact hbase
  · intro c hc
    rcases hcases c hc with hc | rfl
    · exact hs.below c hc
    · exact hup.below
  · intro d hd hda c hc
    rcases hcases c hc with hc | rfl
    · exact hda c (List.mem_cons_of_mem _ hc)
    · refine hup.apart d hd fun c hc => hda c ?_
      rcases List.mem_cons.mp hc with rfl | hc
      · exact List.mem_cons_self
      · exact List.mem_cons_of_mem _ (by rw [hsplit]; exact List.mem_append_right _ hc)
  · intro c hc
    rcases hcases c hc with hc | rfl
    · exact ⟨c, List.mem_cons_of_mem _ hc, c, List.mem_cons_of_mem _ hc, Nat.le_refl _, Nat.le_refl _⟩
    · obtain ⟨c₁, hc₁, hlim⟩ := hup.top
      refine ⟨b, List.mem_cons_self, c₁, ?_, by rw [hup.addr], by rw [hlim]⟩
      rcases List.mem_cons.mp hc₁ with rfl | hc₁
      · exact List.mem_cons_self
      · exact List.mem_cons_of_mem _ (by rw [hsplit]; exact List.mem_append_right _ hc₁)
  · exact ⟨b', by simp, by rw [hup.addr], hup.covers⟩
  · have := hup.suffix.length_le
    rw [hsplit]
    simp only [List.length_append, List.length_cons]
    omega

/-- **LOWER JOIN, TOUCHING**: where the last block `l` below `b` ends at
    `b`, `l` takes `b'` in. -/
theorem insert_join {L₀ : List Blk} {l : Blk} (hL₀ : L = L₀ ++ [l]) (hj : l.lim = b.addr) :
    Ring { u with hdr := freeHdr u.hdr b.addr p, freep := p } base (L₀ ++ l.join b' :: H₂) ∧
      Inserted base fl b (L₀ ++ l.join b' :: H₂) := by
  have hq : (u.hdr p).ptr = (H.map Blk.addr).headD base := by rw [hp]; exact hr.link_last hsplit
  have hpl : p = l.addr := by simp [hp, hL₀]
  have hlfl : l ∈ fl := by rw [hsplit, hL₀]; simp
  have hls : (u.hdr p).size = l.size := by rw [hpl]; exact hr.sizes l hlfl
  have hpb : p < b.addr := by
    have := Blk.addr_lt_lim (hs.pos l hlfl)
    omega
  have hpne : p ≠ b.addr := Nat.ne_of_lt hpb
  have hinH : ∀ c ∈ H₂, c ∈ fl := fun c hc => by
    obtain ⟨X, rfl⟩ := hup.suffix
    rw [hsplit]
    simp [hc]
  have hgtH : ∀ c ∈ H₂, b.addr < c.addr := fun c hc => by
    obtain ⟨X, rfl⟩ := hup.suffix
    have := hH c (by simp [hc])
    have := Blk.addr_lt_lim hb
    omega
  have hgL : List.IsChain Blk.Gap (L₀ ++ [l]) := by
    have := hs.gap
    rw [hsplit, hL₀] at this
    exact this.left_of_append
  have hltl : ∀ c ∈ L₀, c.Gap l := fun c hc =>
    (List.pairwise_append.mp (List.isChain_iff_pairwise.mp hgL)).2.2 c hc l (List.mem_singleton_self l)
  have hlj : l.lim = b'.addr := by rw [hup.addr, hj]
  have hl' : (l.join b').lim = b'.lim := Blk.join_lim hlj
  have hsum : (l.size + b'.size) % 2 ^ 32 = l.size + b'.size :=
    size_mod_of_lim (c := l.join b') (by rw [hl']; exact hup.below)
  -- what `free` wrote: `l` grown over `b'`, pointing past it
  have hfree : freeHdr u.hdr b.addr p = Function.update (joinUp u.hdr b.addr ((H.map Blk.addr).headD base)) p
      ⟨(H₂.map Blk.addr).headD base, l.size + b'.size⟩ := by
    have h1p : joinUp u.hdr b.addr ((H.map Blk.addr).headD base) p = u.hdr p := Function.update_of_ne hpne _ _
    have hjoin : hadd p l.size = b.addr := by
      rw [hpl]
      exact hj
    simp only [freeHdr, joinDown, hq, h1p, if_pos hjoin, hup.hdr, hls, hsum]
  have hat : ∀ x, x ≠ p → x ≠ b.addr → freeHdr u.hdr b.addr p x = u.hdr x := by
    intro x h₁ h₂
    rw [hfree, Function.update_of_ne h₁, joinUp, Function.update_of_ne h₂]
  have hcases : ∀ c ∈ L₀ ++ l.join b' :: H₂, (c ∈ fl ∧ c.addr ≠ p ∧ c.addr ≠ b.addr) ∨ c = l.join b' := by
    intro c hc
    rcases List.mem_append.mp hc with hc | hc
    · have hcl := hltl c hc
      have := Blk.addr_lt_lim (hs.pos c (by rw [hsplit, hL₀]; simp [hc]))
      simp only [Blk.Gap] at hcl
      exact .inl ⟨by rw [hsplit, hL₀]; simp [hc], by omega, by omega⟩
    · rcases List.mem_cons.mp hc with rfl | hc
      · exact .inr rfl
      · have := hgtH c hc
        exact .inl ⟨hinH c hc, by omega, by omega⟩
  refine ⟨⟨?_, ?_, ?_⟩, ⟨⟨?_, ?_, ?_, ?_⟩, ?_, ?_, ?_, ?_⟩⟩
  · -- links: `base .. l`, then what lies above `b'`
    have hlist : base :: (L₀ ++ l.join b' :: H₂).map Blk.addr ++ [base] =
        (base :: L.map Blk.addr) ++ (H₂.map Blk.addr ++ [base]) := by
      simp [hL₀]
    rw [hlist]
    refine List.IsChain.append (linked_below_frame hr hs hsplit hL hbase hp hat)
      (linked_above_frame hr hsplit hH hb hup hpb hat) fun x hx y hy => ?_
    rw [Option.mem_def, List.getLast?_cons, Option.some.injEq, ← List.getLastD_eq_getLast?, ← hp] at hx
    subst hx
    have hy' : (H₂.map Blk.addr).headD base = y := by cases H₂ <;> simp_all
    dsimp only
    rw [hfree, Function.update_self, hy']
  · have : base < p := by
      rw [hpl]
      exact hs.above l hlfl
    dsimp only
    rw [hat base (by omega) (by omega)]
    exact hr.base_size
  · intro c hc
    dsimp only
    rcases hcases c hc with ⟨hc, h₁, h₂⟩ | rfl
    · rw [hat c.addr h₁ h₂]
      exact hr.sizes c hc
    · rw [Blk.join_addr, ← hpl, hfree, Function.update_self]
      rfl
  · -- `l'` ends where `b'` ends: the order is kept
    have hgL₀ : List.IsChain Blk.Gap L₀ := hgL.left_of_append
    have hgb := List.isChain_cons.mp hup.gap
    refine hgL₀.append (hgb.2.cons fun y hy => ?_) fun x hx y hy => ?_
    · have := hgb.1 y hy
      simp only [Blk.Gap] at this ⊢
      rw [hl']
      exact this
    · obtain rfl : l.join b' = y := by simpa using hy
      exact hltl x (List.mem_of_getLast? hx)
  · intro c hc
    rcases hcases c hc with ⟨hc, -⟩ | rfl
    · exact hs.pos c hc
    · simp only [Blk.join]
      have := hs.pos l hlfl
      omega
  · intro c hc
    rcases hcases c hc with ⟨hc, -⟩ | rfl
    · exact hs.above c hc
    · exact hs.above l hlfl
  · intro c hc
    rcases hcases c hc with ⟨hc, -⟩ | rfl
    · exact hs.below c hc
    · rw [hl']
      exact hup.below
  · intro d hd hda c hc
    rcases hcases c hc with ⟨hc, -⟩ | rfl
    · exact hda c (List.mem_cons_of_mem _ hc)
    · refine Blk.Apart.join hd (hda l (List.mem_cons_of_mem _ hlfl)) (hup.apart d hd fun c hc => hda c ?_) hlj
      rcases List.mem_cons.mp hc with rfl | hc
      · exact List.mem_cons_self
      · exact List.mem_cons_of_mem _ (by rw [hsplit]; exact List.mem_append_right _ hc)
  · intro c hc
    rcases hcases c hc with ⟨hc, -⟩ | rfl
    · exact ⟨c, List.mem_cons_of_mem _ hc, c, List.mem_cons_of_mem _ hc, Nat.le_refl _, Nat.le_refl _⟩
    · obtain ⟨c₁, hc₁, hlim⟩ := hup.top
      refine ⟨l, List.mem_cons_of_mem _ hlfl, c₁, ?_, Nat.le_refl _, by rw [hl', hlim]⟩
      rcases List.mem_cons.mp hc₁ with rfl | hc₁
      · exact List.mem_cons_self
      · exact List.mem_cons_of_mem _ (by rw [hsplit]; exact List.mem_append_right _ hc₁)
  · refine ⟨l.join b', by simp, ?_, by rw [hl']; exact hup.covers⟩
    simp only [Blk.join_addr]
    have := Blk.addr_lt_lim (hs.pos l hlfl)
    omega
  · have := hup.suffix.length_le
    rw [hsplit, hL₀]
    simp only [List.length_append, List.length_cons, List.length_nil]
    omega

end Lower

/-- **FREE**: `free` of a block apart from every free block and above
    `base` puts it into the ring in order, joined with the blocks it
    touches, on one round of the scan a node; no header off the ring and
    off the block changes. -/
theorem free_spec (hr : Ring u base fl) (hs : Sorted base fl) (hfreep : u.freep ∈ base :: fl.map Blk.addr)
    (hfuel : fl.length < fuel) (hb : 0 < b.size) (hbase : base < b.addr) (hlim : b.lim < 2 ^ 31)
    (hap : ∀ c ∈ fl, b.Apart c) (hsize : (u.hdr b.addr).size = b.size) :
    ∃ fl' u', (free fuel (hadd b.addr 1)).run u = .ok ((), u') ∧ u'.sys = u.sys ∧ Ring u' base fl' ∧
      u'.freep ∈ base :: fl'.map Blk.addr ∧ Inserted base fl b fl' ∧
      ∀ x, x ∉ base :: fl.map Blk.addr → x ≠ b.addr → u'.hdr x = u.hdr x := by
  obtain ⟨L, H, hsplit, hL, hH⟩ := exists_split hb hs.gap hs.pos hap
  have hH' : ∀ c ∈ H, b.addr < c.addr := fun c hc => Nat.lt_of_lt_of_le (Blk.addr_lt_lim hb) (hH c hc)
  set p := (L.map Blk.addr).getLastD base with hp
  have hpb := lt_of_mem_below hs hsplit hL hbase p List.getLastD_mem_cons
  have hbp : hadd b.addr 1 - HDRSIZE = b.addr := by simp [hadd]
  -- the scan stops at `p`, which points above `b`
  have hqne : (u.hdr p).ptr ≠ b.addr := by
    rw [hr.link_last hsplit]
    cases H with
    | nil => simp; omega
    | cons c H => simpa using Nat.ne_of_gt (hH' c List.mem_cons_self)
  have hscan : (freeScan (hadd b.addr 1 - HDRSIZE) fuel u.freep).run u = .ok (p, u) := by
    rw [hbp]
    exact freeScan_ring hr hs hsplit hL hH' hbase hfreep hfuel
  have hrun := free_run hscan (by rw [hbp]; omega) (by rw [hbp]; exact hqne)
  rw [hbp] at hrun
  obtain ⟨b', H₂, hup⟩ := joinUp_ring hr hs hsplit hH hbase hb hlim hsize
  have hpmem : p ∈ base :: fl.map Blk.addr := by
    rcases List.mem_cons.mp (List.getLastD_mem_cons (l := L.map Blk.addr) (a := base)) with h | h
    · exact List.mem_cons.mpr (.inl h)
    · exact List.mem_cons_of_mem _ (by rw [hsplit, List.map_append]; exact List.mem_append_left _ h)
  -- only `p` and `b` are written
  have hframe : ∀ x, x ∉ base :: fl.map Blk.addr → x ≠ b.addr → freeHdr u.hdr b.addr p x = u.hdr x := by
    intro x hx h₂
    have h₁ : x ≠ p := fun h => hx (h ▸ hpmem)
    simp only [freeHdr, joinDown, Function.update_of_ne h₁, joinUp, Function.update_of_ne h₂]
  rcases List.eq_nil_or_concat' L with hL₀ | ⟨L₀, l, hL₀⟩
  · -- nothing below `b`: it goes in after `base`
    have hnj : hadd p (u.hdr p).size ≠ b.addr := by
      have hpbase : p = base := by simp [hp, hL₀]
      rw [hpbase, hr.base_size]
      simp only [hadd]
      omega
    obtain ⟨hring, hins⟩ := insert_apart hr hs hsplit hL hH hbase hb hup hp hnj
    refine ⟨_, _, hrun, rfl, hring, ?_, hins, hframe⟩
    simp [hp, hL₀]
  · by_cases hj : l.lim = b.addr
    · obtain ⟨hring, hins⟩ := insert_join hr hs hsplit hL hH hbase hb hup hp hL₀ hj
      refine ⟨_, _, hrun, rfl, hring, ?_, hins, hframe⟩
      simp [hp, hL₀]
    · have hnj : hadd p (u.hdr p).size ≠ b.addr := by
        have hpl : p = l.addr := by simp [hp, hL₀]
        rw [hpl, hr.sizes l (by rw [hsplit, hL₀]; simp)]
        exact hj
      obtain ⟨hring, hins⟩ := insert_apart hr hs hsplit hL hH hbase hb hup hp hnj
      refine ⟨_, _, hrun, rfl, hring, ?_, hins, hframe⟩
      simp [hp, hL₀]

end Free

end Xv6.User
