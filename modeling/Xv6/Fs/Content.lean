import Xv6.Fs.System

/-! # What a file holds: `bmap`, `readi` and `writei`

    The content of an inode is read off the disk without allocating:
    `blockAt` is the block `bmap` would return for a logical block that has
    one (`0` for a hole), and `fileByte` the byte there (`0` in a hole).
    `Mapped` is the shape of the file `balloc` relies on: its blocks are in
    use, distinct and not its indirect block.

    * `bmap_spec`: a lookup leaves the file `Extends`-ed (the same bytes,
      size and blocks, perhaps more holes filled) and returns its block;
      `bmap_run_mapped`: a block the file has is returned with nothing
      changed;
    * `writeiLoop_spec`, `writei_spec`: the loop of `writei` writes its
      chunks one after another, `WroteRange` composing them
      (`WroteRange.append`);
    * `readiLoop_spec`, `readi_spec`: `readi` returns the file's bytes,
      all of them unless a lookup returned `0`;
    * `inode_read_after_write`: read after write, and the count law of
      `readi` for a range whose end does not wrap a `uint`;
      `readi_wraps_to_nothing`: one that wraps reads nothing. -/

namespace Xv6.Fs

open StateExcept

/-! ## What a file holds -/

/-- The disk block of logical block `bn` of `ip`, looked up without
    allocating: `0` for a hole, and past `MAXFILE`. -/
def blockAt (d : Disk) (ip : Inode) (bn : Nat) : Nat :=
  if h : bn < NDIRECT then ip.addrs (direct ⟨bn, h⟩)
  else if bn - NDIRECT < NINDIRECT ∧ ip.addrs indirect ≠ 0 then
    indirectEntry (d.data (ip.addrs indirect)) (bn - NDIRECT)
  else 0

/-- Byte `k` of the file `ip`: what its block holds there, `0` in a hole. -/
def fileByte (d : Disk) (ip : Inode) (k : Nat) : UInt8 :=
  if blockAt d ip (k / BSIZE) = 0 then 0 else d.data (blockAt d ip (k / BSIZE)) (k % BSIZE)

/-- The blocks of `ip` as `balloc` must find them: every block of the file
    and its indirect block in use, no block twice and none the indirect
    block, and block numbers that fit a `uint`. -/
structure Mapped (d : Disk) (ip : Inode) : Prop where
  used : ∀ bn, blockAt d ip bn ≠ 0 → d.used (blockAt d ip bn) = true
  ind_used : ip.addrs indirect ≠ 0 → d.used (ip.addrs indirect) = true
  inj : ∀ bn bn', blockAt d ip bn ≠ 0 → blockAt d ip bn = blockAt d ip bn' → bn = bn'
  ne_ind : ∀ bn, blockAt d ip bn ≠ 0 → blockAt d ip bn ≠ ip.addrs indirect
  small : d.sb.size ≤ 2 ^ 32

/-- A file with no blocks. -/
theorem blockAt_of_empty {d : Disk} {ip : Inode} (h : ∀ k, ip.addrs k = 0) (bn : Nat) : blockAt d ip bn = 0 := by
  unfold blockAt
  split
  · exact h _
  · rw [if_neg fun hc => hc.2 (h indirect)]

theorem Mapped.of_empty {d : Disk} {ip : Inode} (h : ∀ k, ip.addrs k = 0) (hsmall : d.sb.size ≤ 2 ^ 32) :
    Mapped d ip where
  used bn hb := absurd (blockAt_of_empty h bn) hb
  ind_used hb := absurd (h indirect) hb
  inj bn _ hb := absurd (blockAt_of_empty h bn) hb
  ne_ind bn hb := absurd (blockAt_of_empty h bn) hb
  small := hsmall

/-! ## Entries of an indirect block -/

theorem indirectEntry_zero (j : Nat) : indirectEntry (fun _ => 0) j = 0 := by
  simp [indirectEntry, Bytes.getLE]

theorem indirectEntry_setLE_self {a : Nat → UInt8} {j v : Nat} (hv : v < 2 ^ 32) :
    indirectEntry (Bytes.setLE a (4 * j) v 4) j = v :=
  Bytes.getLE_setLE a 4 (4 * j) v (by simpa using hv)

theorem indirectEntry_setLE_of_ne {a : Nat → UInt8} {j j' v : Nat} (h : j' ≠ j) :
    indirectEntry (Bytes.setLE a (4 * j) v 4) j' = indirectEntry a j' := by
  refine Bytes.getLE_congr fun p h₁ h₂ => ?_
  rcases Nat.lt_or_ge j' j with hlt | hge
  · exact Bytes.setLE_of_lt (by omega) 4
  · exact Bytes.setLE_of_le (by omega)

/-! ## The steps of `bmap`, on the file they leave -/

/-- The disk after `balloc` takes block `b`: in use, and zeroed. -/
def Disk.take (d : Disk) (b : Nat) : Disk :=
  { d with used := Function.update d.used b true, data := Function.update d.data b fun _ => 0 }

section Steps

variable {d : Disk} {ip : Inode} {b : Nat}

/-- A block not in use is no block of the file. -/
theorem Mapped.ne_of_unused (hm : Mapped d ip) (hb : d.used b = false) {bn : Nat} (h : blockAt d ip bn ≠ 0) :
    blockAt d ip bn ≠ b := by
  intro heq
  have := hm.used bn h
  rw [heq, hb] at this
  exact Bool.false_ne_true this

/-- Nor is it the indirect block. -/
theorem Mapped.ind_ne_of_unused (hm : Mapped d ip) (hb : d.used b = false) (h : ip.addrs indirect ≠ 0) :
    ip.addrs indirect ≠ b := by
  intro heq
  have := hm.ind_used h
  rw [heq, hb] at this
  exact Bool.false_ne_true this

theorem blockAt_take (hm : Mapped d ip) (hb : d.used b = false) (bn : Nat) :
    blockAt (d.take b) ip bn = blockAt d ip bn := by
  unfold blockAt
  split
  · rfl
  · split
    · next h =>
      simp only [Disk.take]
      rw [Function.update_of_ne (hm.ind_ne_of_unused hb h.2)]
    · rfl

/-- **TAKE**: a block `balloc` takes leaves the file as it was. -/
theorem fileByte_take (hm : Mapped d ip) (hb : d.used b = false) (k : Nat) :
    fileByte (d.take b) ip k = fileByte d ip k := by
  unfold fileByte
  rw [blockAt_take hm hb]
  split
  · rfl
  · next h =>
    simp only [Disk.take]
    rw [Function.update_of_ne (hm.ne_of_unused hb h)]

theorem Mapped.take (hm : Mapped d ip) (hb : d.used b = false) : Mapped (d.take b) ip := by
  have hused : ∀ x, d.used x = true → (d.take b).used x = true := fun x hx => by
    simp only [Disk.take]
    by_cases hxb : x = b
    · rw [hxb, Function.update_self]
    · rw [Function.update_of_ne hxb, hx]
  refine ⟨fun bn h => ?_, fun h => hused _ (hm.ind_used h), fun bn bn' h₁ h₂ => ?_, fun bn h => ?_, hm.small⟩
  · rw [blockAt_take hm hb] at h ⊢
    exact hused _ (hm.used bn h)
  · rw [blockAt_take hm hb, blockAt_take hm hb] at h₂
    exact hm.inj bn bn' (by rwa [blockAt_take hm hb] at h₁) h₂
  · rw [blockAt_take hm hb] at h ⊢
    exact hm.ne_ind bn h

/-- A block `balloc` has just taken for the file: in use, zeroed, a
    `uint`, and no block of the file yet. -/
structure Fresh (d : Disk) (ip : Inode) (b : Nat) : Prop where
  ne_zero : b ≠ 0
  lt : b < 2 ^ 32
  used : d.used b = true
  zero : d.data b = fun _ => 0
  not_mem : ∀ bn, blockAt d ip bn ≠ b
  ne_ind : ip.addrs indirect ≠ b

theorem Mapped.fresh_take (hm : Mapped d ip) (hb : d.used b = false) (hb0 : b ≠ 0) (hlt : b < d.sb.size) :
    Fresh (d.take b) ip b := by
  refine ⟨hb0, Nat.lt_of_lt_of_le hlt hm.small, by simp [Disk.take], by simp [Disk.take], fun bn heq => ?_,
    fun heq => hm.ind_ne_of_unused hb (heq ▸ hb0) heq⟩
  rw [blockAt_take hm hb] at heq
  exact hm.ne_of_unused hb (heq ▸ hb0) heq

/-- `ip->addrs[k] = addr`. -/
def Inode.setAddr (ip : Inode) (k : Fin (NDIRECT + 1)) (b : Nat) : Inode :=
  { ip with addrs := Function.update ip.addrs k b }

theorem direct_ne_indirect (k : Fin NDIRECT) : direct k ≠ indirect := by
  simp only [direct, indirect, ne_eq, Fin.ext_iff, Fin.val_castSucc, Fin.val_last]
  exact Nat.ne_of_lt k.2

theorem blockAt_setDirect {bn : Nat} (h : bn < NDIRECT) (bn' : Nat) :
    blockAt d (ip.setAddr (direct ⟨bn, h⟩) b) bn' = if bn' = bn then b else blockAt d ip bn' := by
  unfold blockAt
  split
  · next h' =>
    have : direct ⟨bn', h'⟩ = direct ⟨bn, h⟩ ↔ bn' = bn := by simp [direct, Fin.ext_iff]
    by_cases hbn : bn' = bn
    · subst hbn
      simp [Inode.setAddr]
    · simp only [Inode.setAddr, if_neg hbn]
      rw [Function.update_of_ne (mt this.mp hbn)]
  · next h' =>
    have hne : bn' ≠ bn := by omega
    simp only [Inode.setAddr, if_neg hne, Function.update_of_ne (direct_ne_indirect ⟨bn, h⟩).symm]

/-- **DIRECT**: a fresh block put into a direct hole reads as the hole did. -/
theorem fileByte_setDirect {bn : Nat} (h : bn < NDIRECT) (hf : Fresh d ip b) (hhole : blockAt d ip bn = 0)
    (k : Nat) : fileByte d (ip.setAddr (direct ⟨bn, h⟩) b) k = fileByte d ip k := by
  unfold fileByte
  rw [blockAt_setDirect h]
  by_cases hk : k / BSIZE = bn
  · rw [if_pos hk, if_neg hf.ne_zero, hf.zero, hk, hhole, if_pos rfl]
  · rw [if_neg hk]

theorem Mapped.setDirect {bn : Nat} (h : bn < NDIRECT) (hm : Mapped d ip) (hf : Fresh d ip b) :
    Mapped d (ip.setAddr (direct ⟨bn, h⟩) b) := by
  have hind : (ip.setAddr (direct ⟨bn, h⟩) b).addrs indirect = ip.addrs indirect := by
    simp only [Inode.setAddr]
    exact Function.update_of_ne (direct_ne_indirect ⟨bn, h⟩).symm _ _
  refine ⟨fun bn' h' => ?_, fun h' => ?_, fun x y hx hxy => ?_, fun bn' h' => ?_, hm.small⟩
  · rw [blockAt_setDirect h] at h' ⊢
    split
    · exact hf.used
    · exact hm.used bn' (by rwa [if_neg (by assumption)] at h')
  · rw [hind] at h' ⊢
    exact hm.ind_used h'
  · rw [blockAt_setDirect h, blockAt_setDirect h] at hxy
    rw [blockAt_setDirect h] at hx
    by_cases hx' : x = bn <;> by_cases hy' : y = bn
    · rw [hx', hy']
    · rw [if_pos hx', if_neg hy'] at hxy
      exact absurd hxy.symm (hf.not_mem y)
    · rw [if_neg hx', if_pos hy'] at hxy
      exact absurd hxy (hf.not_mem x)
    · rw [if_neg hx', if_neg hy'] at hxy
      rw [if_neg hx'] at hx
      exact hm.inj x y hx hxy
  · rw [hind]
    rw [blockAt_setDirect h] at h' ⊢
    split
    · exact hf.ne_ind.symm
    · exact hm.ne_ind bn' (by rwa [if_neg (by assumption)] at h')

/-- An indirect block put in where there was none adds no block: its
    entries are all `0`. -/
theorem blockAt_setIndirect (hind : ip.addrs indirect = 0) (hz : d.data b = fun _ => 0) (bn : Nat) :
    blockAt d (ip.setAddr indirect b) bn = blockAt d ip bn := by
  unfold blockAt
  split
  · next h' =>
    simp only [Inode.setAddr]
    rw [Function.update_of_ne (direct_ne_indirect ⟨bn, h'⟩)]
  · simp only [Inode.setAddr, Function.update_self, hind, ne_eq, not_true_eq_false, and_false, if_false]
    split
    · rw [hz, indirectEntry_zero]
    · rfl

theorem Mapped.setIndirect (hm : Mapped d ip) (hf : Fresh d ip b) (hind : ip.addrs indirect = 0) :
    Mapped d (ip.setAddr indirect b) := by
  have hnew : (ip.setAddr indirect b).addrs indirect = b := by simp [Inode.setAddr]
  refine ⟨fun bn h' => ?_, fun _ => ?_, fun x y hx hxy => ?_, fun bn h' => ?_, hm.small⟩
  · rw [blockAt_setIndirect hind hf.zero] at h' ⊢
    exact hm.used bn h'
  · rw [hnew]
    exact hf.used
  · rw [blockAt_setIndirect hind hf.zero, blockAt_setIndirect hind hf.zero] at hxy
    rw [blockAt_setIndirect hind hf.zero] at hx
    exact hm.inj x y hx hxy
  · rw [blockAt_setIndirect hind hf.zero] at h' ⊢
    rw [hnew]
    exact hf.not_mem bn

/-- `a[j] = addr` in the indirect block `ind`. -/
def Disk.setEntry (d : Disk) (ind j b : Nat) : Disk :=
  { d with data := Function.update d.data ind (Bytes.setLE (d.data ind) (4 * j) b 4) }

variable {j : Nat}

theorem blockAt_setEntry (hind0 : ip.addrs indirect ≠ 0) (hj : j < NINDIRECT) (hb : b < 2 ^ 32) (bn : Nat) :
    blockAt (d.setEntry (ip.addrs indirect) j b) ip bn = if bn = NDIRECT + j then b else blockAt d ip bn := by
  unfold blockAt
  split
  · next h' =>
    rw [if_neg (by omega)]
  · next h' =>
    simp only [Disk.setEntry, Function.update_self]
    by_cases hbn : bn = NDIRECT + j
    · rw [if_pos hbn, if_pos ⟨by omega, hind0⟩, show bn - NDIRECT = j by omega, indirectEntry_setLE_self hb]
    · rw [if_neg hbn]
      split
      · rw [indirectEntry_setLE_of_ne (by omega)]
      · rfl

/-- **ENTRY**: a fresh block put into a hole of the indirect block reads as
    the hole did. -/
theorem fileByte_setEntry (hm : Mapped d ip) (hf : Fresh d ip b) (hind0 : ip.addrs indirect ≠ 0) (hj : j < NINDIRECT)
    (hhole : blockAt d ip (NDIRECT + j) = 0) (k : Nat) :
    fileByte (d.setEntry (ip.addrs indirect) j b) ip k = fileByte d ip k := by
  unfold fileByte
  rw [blockAt_setEntry hind0 hj hf.lt]
  by_cases hk : k / BSIZE = NDIRECT + j
  · rw [if_pos hk, if_neg hf.ne_zero, hk, hhole, if_pos rfl]
    simp only [Disk.setEntry]
    rw [Function.update_of_ne hf.ne_ind.symm, hf.zero]
  · rw [if_neg hk]
    split
    · rfl
    · next h0 =>
      simp only [Disk.setEntry]
      rw [Function.update_of_ne (hm.ne_ind _ h0)]

theorem Mapped.setEntry (hm : Mapped d ip) (hf : Fresh d ip b) (hind0 : ip.addrs indirect ≠ 0)
    (hj : j < NINDIRECT) : Mapped (d.setEntry (ip.addrs indirect) j b) ip := by
  have hb := blockAt_setEntry (d := d) hind0 hj hf.lt
  refine ⟨fun bn h' => ?_, fun h' => hm.ind_used h', fun x y hx hxy => ?_, fun bn h' => ?_, hm.small⟩
  · rw [hb] at h' ⊢
    split
    · exact hf.used
    · exact hm.used bn (by rwa [if_neg (by assumption)] at h')
  · rw [hb, hb] at hxy
    rw [hb] at hx
    by_cases hx' : x = NDIRECT + j <;> by_cases hy' : y = NDIRECT + j
    · rw [hx', hy']
    · rw [if_pos hx', if_neg hy'] at hxy
      exact absurd hxy.symm (hf.not_mem y)
    · rw [if_neg hx', if_pos hy'] at hxy
      exact absurd hxy (hf.not_mem x)
    · rw [if_neg hx', if_neg hy'] at hxy
      rw [if_neg hx'] at hx
      exact hm.inj x y hx hxy
  · rw [hb] at h' ⊢
    split
    · exact hf.ne_ind.symm
    · exact hm.ne_ind bn (by rwa [if_neg (by assumption)] at h')

/-- `d'`, `ip'` hold the file `d`, `ip` held, with perhaps more of its
    holes given blocks: still well formed, the same bytes and size, every
    block it had where it was, and the same superblock. -/
structure Extends (d : Disk) (ip : Inode) (d' : Disk) (ip' : Inode) : Prop where
  mapped : Mapped d' ip'
  bytes : ∀ k, fileByte d' ip' k = fileByte d ip k
  blocks : ∀ bn, blockAt d ip bn ≠ 0 → blockAt d' ip' bn = blockAt d ip bn
  size : ip'.size = ip.size
  sb : d'.sb = d.sb

theorem Extends.refl (hm : Mapped d ip) : Extends d ip d ip :=
  ⟨hm, fun _ => rfl, fun _ _ => rfl, rfl, rfl⟩

theorem Extends.trans {d₁ d₂ : Disk} {ip₁ ip₂ : Inode} (h₁ : Extends d ip d₁ ip₁) (h₂ : Extends d₁ ip₁ d₂ ip₂) :
    Extends d ip d₂ ip₂ where
  mapped := h₂.mapped
  bytes k := (h₂.bytes k).trans (h₁.bytes k)
  blocks bn h := by
    have h₁bn := h₁.blocks bn h
    rw [h₂.blocks bn (h₁bn ▸ h), h₁bn]
  size := h₂.size.trans h₁.size
  sb := h₂.sb.trans h₁.sb

theorem Mapped.extends_take (hm : Mapped d ip) (hb : d.used b = false) : Extends d ip (d.take b) ip :=
  ⟨hm.take hb, fileByte_take hm hb, fun bn _ => blockAt_take hm hb bn, rfl, rfl⟩

theorem Mapped.extends_setDirect {bn : Nat} (h : bn < NDIRECT) (hm : Mapped d ip) (hf : Fresh d ip b)
    (hhole : blockAt d ip bn = 0) : Extends d ip d (ip.setAddr (direct ⟨bn, h⟩) b) where
  mapped := hm.setDirect h hf
  bytes := fileByte_setDirect h hf hhole
  blocks bn' h' := by
    rw [blockAt_setDirect h, if_neg]
    rintro rfl
    exact h' hhole
  size := rfl
  sb := rfl

theorem Mapped.extends_setIndirect (hm : Mapped d ip) (hf : Fresh d ip b) (hind : ip.addrs indirect = 0) :
    Extends d ip d (ip.setAddr indirect b) where
  mapped := hm.setIndirect hf hind
  bytes k := by simp only [fileByte, blockAt_setIndirect hind hf.zero]
  blocks bn _ := blockAt_setIndirect hind hf.zero bn
  size := rfl
  sb := rfl

theorem Mapped.extends_setEntry (hm : Mapped d ip) (hf : Fresh d ip b) (hind0 : ip.addrs indirect ≠ 0)
    (hj : j < NINDIRECT) (hhole : blockAt d ip (NDIRECT + j) = 0) :
    Extends d ip (d.setEntry (ip.addrs indirect) j b) ip where
  mapped := hm.setEntry hf hind0 hj
  bytes := fileByte_setEntry hm hf hind0 hj hhole
  blocks bn h' := by
    rw [blockAt_setEntry hind0 hj hf.lt, if_neg]
    rintro rfl
    exact h' hhole
  size := rfl
  sb := rfl

end Steps

/-! ## Writes to a block of the file -/

section Write

variable {d d₁ d' : Disk} {ip ip₁ ip' : Inode} {x : Nat} {v : Nat → UInt8}

/-- The bytes of `ip` from `off`, `n` of them. -/
def fileBytes (d : Disk) (ip : Inode) (off n : Nat) : List UInt8 :=
  (List.range n).map fun t => fileByte d ip (off + t)

theorem fileBytes_add (off m n : Nat) :
    fileBytes d ip off (m + n) = fileBytes d ip off m ++ fileBytes d ip (off + m) n := by
  simp [fileBytes, List.range_add, Nat.add_assoc]

theorem fileBytes_length (off n : Nat) : (fileBytes d ip off n).length = n := by
  simp [fileBytes]

theorem blockAt_congr (hdata : d'.data = d.data) (haddrs : ip'.addrs = ip.addrs) (bn : Nat) :
    blockAt d' ip' bn = blockAt d ip bn := by
  simp only [blockAt, hdata, haddrs]

theorem fileByte_congr (hdata : d'.data = d.data) (haddrs : ip'.addrs = ip.addrs) (k : Nat) :
    fileByte d' ip' k = fileByte d ip k := by
  simp only [fileByte, blockAt_congr hdata haddrs, hdata]

/-- A file whose blocks, indirect block, bitmap and superblock are as
    they were is still well formed. -/
theorem Mapped.congr (hm : Mapped d ip) (hb : ∀ bn, blockAt d' ip' bn = blockAt d ip bn)
    (hind : ip'.addrs indirect = ip.addrs indirect) (hused : d'.used = d.used) (hsb : d'.sb = d.sb) :
    Mapped d' ip' := by
  refine ⟨fun bn h => ?_, fun h => ?_, fun x y hx hxy => ?_, fun bn h => ?_, hsb ▸ hm.small⟩
  · rw [hb] at h ⊢
    rw [hused]
    exact hm.used bn h
  · rw [hind] at h ⊢
    rw [hused]
    exact hm.ind_used h
  · rw [hb] at hx
    rw [hb, hb] at hxy
    exact hm.inj x y hx hxy
  · rw [hb] at h ⊢
    rw [hind]
    exact hm.ne_ind bn h

/-- Writing a block that is not the indirect block moves no block. -/
theorem blockAt_setData (hx : x ≠ ip.addrs indirect) (bn : Nat) :
    blockAt { d with data := Function.update d.data x v } ip bn = blockAt d ip bn := by
  unfold blockAt
  split
  · rfl
  · split
    · simp only
      rw [Function.update_of_ne hx.symm]
    · rfl

/-- The byte `k` after `m` bytes of `src` from `soff` are copied into the
    block of `off`, at `off % BSIZE`. -/
theorem fileByte_setData {off m a : Nat} (src : Nat → UInt8) (soff : Nat) (hm : Mapped d ip)
    (ha : blockAt d ip (off / BSIZE) = a) (ha0 : a ≠ 0) (hfit : off % BSIZE + m ≤ BSIZE) (k : Nat) :
    fileByte { d with data := Function.update d.data a (Bytes.copyBytes (d.data a) (off % BSIZE) src soff m) } ip k =
      if off ≤ k ∧ k < off + m then src (soff + (k - off)) else fileByte d ip k := by
  have hind : a ≠ ip.addrs indirect := ha ▸ hm.ne_ind _ (ha ▸ ha0)
  unfold fileByte
  rw [blockAt_setData hind]
  by_cases hin : off ≤ k ∧ k < off + m
  · -- the byte is in the chunk, so in the block of `off`
    have hk : k / BSIZE = off / BSIZE := by
      unfold BSIZE at *
      omega
    rw [if_pos hin, hk, ha, if_neg ha0]
    dsimp only
    rw [Function.update_self, Bytes.copyBytes, if_pos (by unfold BSIZE at *; omega)]
    congr 2
    unfold BSIZE at *
    omega
  · rw [if_neg hin]
    split
    · rfl
    · next h0 =>
      by_cases hka : blockAt d ip (k / BSIZE) = a
      · -- the same block, outside the chunk
        have hk : k / BSIZE = off / BSIZE := hm.inj _ _ h0 (hka.trans ha.symm)
        dsimp only
        rw [hka, Function.update_self]
        have hout : k % BSIZE < off % BSIZE ∨ off % BSIZE + m ≤ k % BSIZE := by
          unfold BSIZE at *
          omega
        rcases hout with hlt | hle
        · exact Bytes.copyBytes_of_lt hlt
        · exact Bytes.copyBytes_of_le hle
      · dsimp only
        rw [Function.update_of_ne hka]

/-- `d'`, `ip'` hold the file `d`, `ip` held with its `w` bytes from
    `off` set to `byte`: well formed, every block of the range given one and
    every block the file had still there, the same size and superblock. -/
structure WroteRange (d : Disk) (ip : Inode) (d' : Disk) (ip' : Inode) (off w : Nat) (byte : Nat → UInt8) :
    Prop where
  mapped : Mapped d' ip'
  inside : ∀ k, off ≤ k → k < off + w → fileByte d' ip' k = byte k
  outside : ∀ k, k < off ∨ off + w ≤ k → fileByte d' ip' k = fileByte d ip k
  blocks : ∀ k, off ≤ k → k < off + w → blockAt d' ip' (k / BSIZE) ≠ 0
  kept : ∀ bn, blockAt d ip bn ≠ 0 → blockAt d' ip' bn ≠ 0
  size : ip'.size = ip.size
  sb : d'.sb = d.sb

variable {off m w : Nat} {byte : Nat → UInt8}

/-- Nothing written. -/
theorem Extends.wroteRange (he : Extends d ip d' ip') (off : Nat) (byte : Nat → UInt8) :
    WroteRange d ip d' ip' off 0 byte where
  mapped := he.mapped
  inside _ h₁ h₂ := absurd h₂ (by omega)
  outside k _ := he.bytes k
  blocks _ h₁ h₂ := absurd h₂ (by omega)
  kept bn h := by rwa [he.blocks bn h]
  size := he.size
  sb := he.sb

/-- Two writes one after the other, the second from where the first
    stopped. -/
theorem WroteRange.append {d₂ : Disk} {ip₂ : Inode} (h₁ : WroteRange d ip d₁ ip₁ off m byte)
    (h₂ : WroteRange d₁ ip₁ d₂ ip₂ (off + m) w byte) : WroteRange d ip d₂ ip₂ off (m + w) byte where
  mapped := h₂.mapped
  inside k hlo hhi := by
    by_cases hk : k < off + m
    · rw [h₂.outside k (.inl hk)]
      exact h₁.inside k hlo hk
    · exact h₂.inside k (by omega) (by omega)
  outside k hk := by
    rw [h₂.outside k (by omega), h₁.outside k (by omega)]
  blocks k hlo hhi := by
    by_cases hk : k < off + m
    · exact h₂.kept _ (h₁.blocks k hlo hk)
    · exact h₂.blocks k (by omega) (by omega)
  kept bn h := h₂.kept bn (h₁.kept bn h)
  size := h₂.size.trans h₁.size
  sb := h₂.sb.trans h₁.sb

/-- **CHUNK**: after `bmap` found the block `a` of `off`, one chunk of
    `writei` copied into it writes the chunk's bytes of the file. -/
theorem Extends.wroteRange_setData {a : Nat} {src : Nat → UInt8} (soff : Nat) (he : Extends d ip d₁ ip₁)
    (ha : blockAt d₁ ip₁ (off / BSIZE) = a) (ha0 : a ≠ 0) (hfit : off % BSIZE + m ≤ BSIZE)
    (hbyte : ∀ k, off ≤ k → k < off + m → byte k = src (soff + (k - off))) :
    WroteRange d ip { d₁ with data := Function.update d₁.data a (Bytes.copyBytes (d₁.data a) (off % BSIZE) src soff m) }
      ip₁ off m byte := by
  have hm := he.mapped
  have hind : a ≠ ip₁.addrs indirect := ha ▸ hm.ne_ind _ (ha ▸ ha0)
  have hset := fileByte_setData src soff hm ha ha0 hfit
  refine ⟨hm.congr (blockAt_setData hind) rfl rfl rfl, fun k hlo hhi => ?_, fun k hk => ?_, fun k hlo hhi => ?_,
    fun bn h => ?_, he.size, he.sb⟩
  · rw [hset, if_pos ⟨hlo, hhi⟩, hbyte k hlo hhi]
  · rw [hset, if_neg (by omega), he.bytes]
  · have hk : k / BSIZE = off / BSIZE := by
      unfold BSIZE at *
      omega
    rw [blockAt_setData hind, hk, ha]
    exact ha0
  · rw [blockAt_setData hind, he.blocks bn h]
    exact h

end Write

/-! ## `balloc` and `bmap` on the file -/

section Run

variable {s s' : FsState} {i : Fin NINODE}

theorem logWrite_ok {b : Nat} {u : Unit} (h : (logWrite b).run s = .ok (u, s')) :
    s'.disk = s.disk ∧ s'.itable = s.itable := by
  simp only [logWrite, StateT.run_bind, StateT.run_get, pure_bind] at h
  split at h
  · cases h
    exact ⟨rfl, rfl⟩
  · cases h

theorem balloc_ok {b : Nat} (h : balloc.run s = .ok (b, s')) :
    s'.itable = s.itable ∧
      (s.disk.used b = false ∧ b < s.disk.sb.size ∧ s'.disk = s.disk.take b ∨ b = 0 ∧ s'.disk = s.disk) := by
  simp only [balloc, StateT.run_bind, StateT.run_get, pure_bind] at h
  split at h
  · next b₀ hb₀ =>
    obtain ⟨-, hlt, hfree, -⟩ := Scan.firstFrom_some hb₀
    obtain ⟨_, s₁, h₁, h⟩ := run_bind_eq_ok h
    obtain ⟨_, s₂, h₂, h⟩ := run_bind_eq_ok h
    obtain ⟨_, s₃, h₃, h⟩ := run_bind_eq_ok h
    cases h
    obtain ⟨_, s₄, h₄, h₅⟩ := run_bind_eq_ok h₃
    cases h₁
    cases h₄
    obtain ⟨hd₂, hi₂⟩ := logWrite_ok h₂
    obtain ⟨hd₅, hi₅⟩ := logWrite_ok h₅
    refine ⟨by rw [hi₅, hi₂], .inl ⟨by simpa using hfree, by omega, ?_⟩⟩
    rw [hd₅]
    dsimp only
    rw [hd₂]
    rfl
  · cases h
    exact ⟨rfl, .inr ⟨rfl, rfl⟩⟩

theorem modifyInode_ok {f : Inode → Inode} {u : Unit} (h : (modifyInode i f).run s = .ok (u, s')) :
    s'.disk = s.disk ∧ s'.itable i = f (s.itable i) := by
  cases h
  exact ⟨rfl, Function.update_self _ _ _⟩

theorem balloc_ne_zero {b : Nat} (h : balloc.run s = .ok (b, s')) (hb : b ≠ 0) :
    s'.itable = s.itable ∧ s.disk.used b = false ∧ b < s.disk.sb.size ∧ s'.disk = s.disk.take b := by
  obtain ⟨hi, ⟨hu, hlt, hd⟩ | ⟨h0, -⟩⟩ := balloc_ok h
  · exact ⟨hi, hu, hlt, hd⟩
  · exact absurd h0 hb

theorem balloc_extends {ip : Inode} {b : Nat} (hm : Mapped s.disk ip) (h : balloc.run s = .ok (b, s')) :
    s'.itable = s.itable ∧ Extends s.disk ip s'.disk ip := by
  obtain ⟨hi, ⟨hu, -, hd⟩ | ⟨-, hd⟩⟩ := balloc_ok h
  · rw [hd]
    exact ⟨hi, hm.extends_take hu⟩
  · rw [hd]
    exact ⟨hi, .refl hm⟩

variable {a ind j : Nat}

/-- `bmapIndirect` on the indirect block of `i`: the entry, or a fresh
    block put into the hole. -/
theorem bmapIndirect_spec (hm : Mapped s.disk (s.itable i)) (hind : (s.itable i).addrs indirect = ind)
    (hind0 : ind ≠ 0) (hj : j < NINDIRECT) (h : (bmapIndirect ind j).run s = .ok (a, s')) :
    Extends s.disk (s.itable i) s'.disk (s'.itable i) ∧ (a ≠ 0 → blockAt s'.disk (s'.itable i) (NDIRECT + j) = a) := by
  have hentry : blockAt s.disk (s.itable i) (NDIRECT + j) = indirectEntry (s.disk.data ind) j := by
    simp [blockAt, hind, hind0, hj]
  simp only [bmapIndirect, StateT.run_bind, StateT.run_get, pure_bind] at h
  split at h
  · -- the entry holds a block
    cases h
    exact ⟨.refl hm, fun _ => hentry⟩
  · next hz =>
    obtain ⟨b, s₁, h₁, h⟩ := run_bind_eq_ok h
    split at h
    · next hb =>
      obtain ⟨hi₁, hu, hlt, hd₁⟩ := balloc_ne_zero h₁ hb
      obtain ⟨_, s₂, h₂, h⟩ := run_bind_eq_ok h
      obtain ⟨_, s₃, h₃, h⟩ := run_bind_eq_ok h
      obtain ⟨hab, hs⟩ := Prod.mk.inj (Except.ok.inj h)
      rw [← hs, ← hab]
      cases h₂
      obtain ⟨hd₃, hi₃⟩ := logWrite_ok h₃
      have hf := hm.fresh_take hu hb hlt
      -- the indirect block is not the one taken, so `a` still holds it
      have hdata : (s.disk.take b).data ind = s.disk.data ind :=
        Function.update_of_ne (hind ▸ hf.ne_ind) _ _
      have hhole : blockAt (s.disk.take b) (s.itable i) (NDIRECT + j) = 0 := by
        rw [blockAt_take hm hu, hentry]
        simpa using hz
      have hd₃' : s₃.disk = (s.disk.take b).setEntry ind j b := by
        rw [hd₃]
        dsimp only
        rw [hd₁, Disk.setEntry, hdata]
      rw [hd₃', hi₃, hi₁]
      subst hind
      refine ⟨(hm.extends_take hu).trans ((hm.take hu).extends_setEntry hf hind0 hj hhole), fun _ => ?_⟩
      rw [blockAt_setEntry hind0 hj hf.lt, if_pos rfl]
    · next hb =>
      cases h
      obtain ⟨hi₁, hext⟩ := balloc_extends hm h₁
      exact ⟨hi₁ ▸ hext, fun h0 => absurd (not_not.mp hb) h0⟩

variable {bn : Nat}

/-- **BMAP**: a lookup that returns leaves the file extended, and the
    block it returns, when not `0`, is the file's block `bn`. -/
theorem bmap_spec (hm : Mapped s.disk (s.itable i)) (h : (bmap i bn).run s = .ok (a, s')) :
    Extends s.disk (s.itable i) s'.disk (s'.itable i) ∧ (a ≠ 0 → blockAt s'.disk (s'.itable i) bn = a) := by
  simp only [bmap, getInode, StateT.run_bind, StateT.run_get, StateT.run_pure, pure_bind] at h
  split at h
  · next hbn =>
    have hblk : blockAt s.disk (s.itable i) bn = (s.itable i).addrs (direct ⟨bn, hbn⟩) := by
      simp [blockAt, hbn]
    split at h
    · cases h
      exact ⟨.refl hm, fun _ => hblk⟩
    · next hz =>
      obtain ⟨b, s₁, h₁, h⟩ := run_bind_eq_ok h
      split at h
      · next hb =>
        cases h
        obtain ⟨hi₁, hext⟩ := balloc_extends hm h₁
        exact ⟨hi₁ ▸ hext, fun h0 => absurd rfl h0⟩
      · next hb =>
        obtain ⟨hi₁, hu, hlt, hd₁⟩ := balloc_ne_zero h₁ hb
        obtain ⟨_, s₂, h₂, h⟩ := run_bind_eq_ok h
        obtain ⟨hab, hs⟩ := Prod.mk.inj (Except.ok.inj h)
        obtain ⟨hd₂, hi₂⟩ := modifyInode_ok h₂
        rw [← hs, ← hab, hd₂, hi₂, hd₁, hi₁]
        have hf := hm.fresh_take hu hb hlt
        have hhole : blockAt (s.disk.take b) (s.itable i) bn = 0 := by
          rw [blockAt_take hm hu, hblk]
          simpa using hz
        refine ⟨(hm.extends_take hu).trans ((hm.take hu).extends_setDirect hbn hf hhole), fun _ => ?_⟩
        exact (blockAt_setDirect hbn bn).trans (if_pos rfl)
  · next hbn =>
    split at h
    · next hj =>
      have hbn' : NDIRECT + (bn - NDIRECT) = bn := by omega
      split at h
      · next hind =>
        rw [← hbn']
        exact bmapIndirect_spec hm rfl hind hj h
      · next hind =>
        obtain ⟨b, s₁, h₁, h⟩ := run_bind_eq_ok h
        split at h
        · next hb =>
          cases h
          obtain ⟨hi₁, hext⟩ := balloc_extends hm h₁
          exact ⟨hi₁ ▸ hext, fun h0 => absurd rfl h0⟩
        · next hb =>
          obtain ⟨hi₁, hu, hlt, hd₁⟩ := balloc_ne_zero h₁ hb
          obtain ⟨_, s₂, h₂, h⟩ := run_bind_eq_ok h
          obtain ⟨hd₂, hi₂⟩ := modifyInode_ok h₂
          have hf := hm.fresh_take hu hb hlt
          -- the fresh block becomes the indirect block, still empty
          have hext₂ : Extends s.disk (s.itable i) s₂.disk (s₂.itable i) := by
            rw [hd₂, hi₂, hd₁, hi₁]
            exact (hm.extends_take hu).trans ((hm.take hu).extends_setIndirect hf (not_not.mp hind))
          have hind₂ : (s₂.itable i).addrs indirect = b := by
            simp only [hi₂, Function.update_self]
          obtain ⟨hext, hres⟩ := bmapIndirect_spec hext₂.mapped hind₂ hb hj h
          rw [← hbn']
          exact ⟨hext₂.trans hext, hres⟩
    · cases h

end Run

/-! ## The loop of `writei` -/

section WriteLoop

variable {i : Fin NINODE} {src : List UInt8} {n base : Nat}

/-- **WRITE LOOP**: a run of the loop of `writei` from `off = base + tot`
    writes `w` more bytes of `src`, each at its offset from `base`. -/
theorem writeiLoop_spec :
    ∀ {fuel off tot off' tot' : Nat} {s s' : FsState}, Mapped s.disk (s.itable i) → off = base + tot → tot ≤ n →
      (writeiLoop i src n off tot fuel).run s = .ok ((off', tot'), s') →
      ∃ w, off' = off + w ∧ tot' = tot + w ∧ tot' ≤ n ∧
        WroteRange s.disk (s.itable i) s'.disk (s'.itable i) off w fun k => Bytes.ofList src (k - base)
  | 0, off, tot, _, _, s, _, hm, _, htot, h => by
    cases h
    exact ⟨0, rfl, rfl, htot, (Extends.refl hm).wroteRange _ _⟩
  | fuel + 1, off, tot, off', tot', s, s', hm, hbase, htot, h => by
    simp only [writeiLoop] at h
    split at h
    · next hlt =>
      obtain ⟨a, s₁, h₁, h⟩ := run_bind_eq_ok h
      obtain ⟨he, ha⟩ := bmap_spec hm h₁
      split at h
      · cases h
        exact ⟨0, rfl, rfl, htot, he.wroteRange _ _⟩
      · next ha0 =>
        obtain ⟨_, s₂, h₂, h⟩ := run_bind_eq_ok h
        cases h₂
        obtain ⟨_, s₃, h₃, h⟩ := run_bind_eq_ok h
        obtain ⟨_, s₄, h₄, hloop⟩ := run_bind_eq_ok h
        cases h₃
        obtain ⟨hd₄, hi₄⟩ := logWrite_ok h₄
        -- the chunk stays in the block of `off`
        have hfit : off % BSIZE + min (n - tot) (BSIZE - off % BSIZE) ≤ BSIZE := by
          have : off % BSIZE < BSIZE := Nat.mod_lt _ (by unfold BSIZE; omega)
          omega
        have hchunk : WroteRange s.disk (s.itable i) s₄.disk (s₄.itable i) off (min (n - tot) (BSIZE - off % BSIZE))
            fun k => Bytes.ofList src (k - base) := by
          rw [hd₄, hi₄]
          refine Extends.wroteRange_setData tot he (ha ha0) ha0 hfit fun k hlo _ => ?_
          rw [hbase]
          congr 1
          omega
        obtain ⟨w, hoff, htot', hle, hrest⟩ := writeiLoop_spec hchunk.mapped (by omega) (by omega) hloop
        exact ⟨_ + w, by omega, by omega, hle, hchunk.append hrest⟩
    · cases h
      exact ⟨0, rfl, rfl, htot, (Extends.refl hm).wroteRange _ _⟩

end WriteLoop

/-! ## The loop of `readi` -/

section ReadLoop

variable {s s' : FsState} {i : Fin NINODE} {n : Nat}

theorem Extends.fileBytes_eq {d d' : Disk} {ip ip' : Inode} (he : Extends d ip d' ip') (off n : Nat) :
    fileBytes d' ip' off n = fileBytes d ip off n := by
  simp only [fileBytes, he.bytes]

/-- A lookup of a block the file has changes nothing. -/
theorem bmap_run_mapped {bn : Nat} (h : blockAt s.disk (s.itable i) bn ≠ 0) :
    (bmap i bn).run s = .ok (blockAt s.disk (s.itable i) bn, s) := by
  by_cases hbn : bn < NDIRECT
  · have hb : blockAt s.disk (s.itable i) bn = (s.itable i).addrs (direct ⟨bn, hbn⟩) := by
      simp [blockAt, hbn]
    rw [hb] at h ⊢
    simp only [bmap, getInode, StateT.run_bind, StateT.run_get, StateT.run_pure, pure_bind, dif_pos hbn, if_pos h]
    rfl
  · have hj : bn - NDIRECT < NINDIRECT ∧ (s.itable i).addrs indirect ≠ 0 := by
      by_contra hc
      simp [blockAt, hbn, hc] at h
    have hb : blockAt s.disk (s.itable i) bn =
        indirectEntry (s.disk.data ((s.itable i).addrs indirect)) (bn - NDIRECT) := by
      simp [blockAt, hbn, hj]
    rw [hb] at h ⊢
    simp only [bmap, getInode, StateT.run_bind, StateT.run_get, StateT.run_pure, pure_bind, dif_neg hbn,
      if_pos hj.1, if_pos hj.2, bmapIndirect, if_pos h]
    rfl

/-- The bytes one chunk of `readi` copies out of the block of `off` are
    the file's. -/
theorem readBytes_eq_fileBytes {d : Disk} {ip : Inode} {off m : Nat} (ha : blockAt d ip (off / BSIZE) ≠ 0)
    (hfit : off % BSIZE + m ≤ BSIZE) :
    Bytes.readBytes (d.data (blockAt d ip (off / BSIZE))) (off % BSIZE) m = fileBytes d ip off m := by
  refine List.map_congr_left fun t ht => ?_
  have ht : t < m := List.mem_range.mp ht
  have hq : (off + t) / BSIZE = off / BSIZE := by
    unfold BSIZE at *
    omega
  have hr : (off + t) % BSIZE = off % BSIZE + t := by
    unfold BSIZE at *
    omega
  simp only [fileByte, hq, hr, if_neg ha]

/-- The chunk of `readi` and `writei` at `off` fits in the block of `off`. -/
theorem chunk_fit (off r : Nat) : off % BSIZE + min r (BSIZE - off % BSIZE) ≤ BSIZE := by
  have : off % BSIZE < BSIZE := Nat.mod_lt _ (by unfold BSIZE; omega)
  omega

/-- **READ LOOP, MAPPED**: on enough fuel, the loop of `readi` over blocks
    the file has reads all `n - tot` bytes and changes nothing. -/
theorem readiLoop_run_mapped :
    ∀ {fuel off tot : Nat} {dst : List UInt8}, tot ≤ n → n - tot ≤ fuel →
      (∀ k, off ≤ k → k < off + (n - tot) → blockAt s.disk (s.itable i) (k / BSIZE) ≠ 0) →
      (readiLoop i n off tot dst fuel).run s = .ok ((n, dst ++ fileBytes s.disk (s.itable i) off (n - tot)), s)
  | 0, off, tot, dst, htot, hfuel, _ => by
    have : tot = n := by omega
    subst this
    simp [readiLoop, fileBytes]
    rfl
  | fuel + 1, off, tot, dst, htot, hfuel, hmapped => by
    by_cases hlt : tot < n
    · have ha := hmapped off (Nat.le_refl _) (by omega)
      obtain ⟨m, hm⟩ : ∃ m, m = min (n - tot) (BSIZE - off % BSIZE) := ⟨_, rfl⟩
      have hm0 : 0 < m := by
        have : off % BSIZE < BSIZE := Nat.mod_lt _ (by unfold BSIZE; omega)
        omega
      have hrest : (readiLoop i n (off + m) (tot + m) (dst ++ fileBytes s.disk (s.itable i) off m) fuel).run s =
          .ok ((n, dst ++ fileBytes s.disk (s.itable i) off m ++ fileBytes s.disk (s.itable i) (off + m) (n - (tot + m))), s) :=
        readiLoop_run_mapped (by omega) (by omega) fun k hlo hhi => hmapped k (by omega) (by omega)
      have hsplit : n - tot = m + (n - (tot + m)) := by omega
      simp only [readiLoop, if_pos hlt, StateT.run_bind, bmap_run_mapped ha, StateExcept.ok_bind, if_neg ha,
        StateT.run_get, pure_bind, ← hm, readBytes_eq_fileBytes ha (hm ▸ chunk_fit off (n - tot)), hrest]
      rw [hsplit, fileBytes_add, List.append_assoc]
    · have : tot = n := by omega
      subst this
      simp [readiLoop, fileBytes]
      rfl

/-- **READ LOOP**: on enough fuel, a run of the loop of `readi` reads
    `t - tot` bytes, all of them unless the lookup of the block where it
    stopped returned `0`; on a well-formed file they are the file's bytes
    and the file is only extended. -/
theorem readiLoop_spec :
    ∀ {fuel off tot t : Nat} {dst dst' : List UInt8} {s s' : FsState}, tot ≤ n → n - tot ≤ fuel →
      (readiLoop i n off tot dst fuel).run s = .ok ((t, dst'), s') →
      tot ≤ t ∧ t ≤ n ∧ (t < n → ∃ s₁, (bmap i ((off + (t - tot)) / BSIZE)).run s₁ = .ok (0, s')) ∧
        (Mapped s.disk (s.itable i) →
          Extends s.disk (s.itable i) s'.disk (s'.itable i) ∧ dst' = dst ++ fileBytes s.disk (s.itable i) off (t - tot))
  | 0, off, tot, t, dst, dst', s, s', htot, hfuel, h => by
    cases h
    refine ⟨le_rfl, htot, fun hlt => absurd hlt (by omega), fun hm => ⟨.refl hm, ?_⟩⟩
    simp [fileBytes]
  | fuel + 1, off, tot, t, dst, dst', s, s', htot, hfuel, h => by
    simp only [readiLoop] at h
    split at h
    · next hlt =>
      obtain ⟨a, s₁, h₁, h⟩ := run_bind_eq_ok h
      split at h
      · -- the lookup failed: the loop stops here
        next ha0 =>
        cases h
        refine ⟨le_rfl, htot, fun _ => ⟨s, by rw [Nat.sub_self, Nat.add_zero, ← ha0]; exact h₁⟩, fun hm => ?_⟩
        exact ⟨(bmap_spec hm h₁).1, by simp [fileBytes]⟩
      · next ha0 =>
        obtain ⟨_, s₂, h₂, h⟩ := run_bind_eq_ok h
        cases h₂
        obtain ⟨m, hm⟩ : ∃ m, m = min (n - tot) (BSIZE - off % BSIZE) := ⟨_, rfl⟩
        have hm0 : 0 < m := by
          have : off % BSIZE < BSIZE := Nat.mod_lt _ (by unfold BSIZE; omega)
          omega
        rw [← hm] at h
        obtain ⟨hlo, hhi, hfail, hbytes⟩ := readiLoop_spec (by omega) (by omega) h
        have hoff : off + m + (t - (tot + m)) = off + (t - tot) := by omega
        refine ⟨by omega, hhi, fun hlt' => by rw [← hoff]; exact hfail hlt', fun hmap => ?_⟩
        -- the chunk read is the file's, and the rest is read from the file `bmap` left
        obtain ⟨he, ha⟩ := bmap_spec hmap h₁
        obtain ⟨he', hdst⟩ := hbytes he.mapped
        have hchunk := readBytes_eq_fileBytes (ha ha0 ▸ ha0) (hm ▸ chunk_fit off (n - tot))
        rw [ha ha0] at hchunk
        have hsplit : t - tot = m + (t - (tot + m)) := by omega
        refine ⟨he.trans he', ?_⟩
        rw [hdst, hchunk, he.fileBytes_eq, he.fileBytes_eq, hsplit, fileBytes_add, List.append_assoc]
    · cases h
      refine ⟨le_rfl, htot, fun hlt => absurd hlt (by omega), fun hm => ⟨.refl hm, ?_⟩⟩
      simp [fileBytes]

end ReadLoop

/-! ## `readi` and `writei` -/

section Calls

variable {s s' : FsState} {i : Fin NINODE} {off n : Nat}

/-- The count `readi` asks its loop for, once `off` is in the file. -/
theorem readi_count_eq (hoff : off ≤ (s.itable i).size) :
    (if off + n > (s.itable i).size then (s.itable i).size - off else n) = min n ((s.itable i).size - off) := by
  split <;> omega

theorem readi_checks_pass (hoff : off ≤ (s.itable i).size) (hwrap : off + n < 2 ^ 32) :
    ¬ (off > (s.itable i).size ∨ (off + n) % 2 ^ 32 < off) := by
  rw [Nat.mod_eq_of_lt hwrap]
  omega

/-- **READI, MAPPED**: a read of blocks the file has returns all the
    bytes asked for that the file holds, and changes nothing. -/
theorem readi_run_mapped (hoff : off ≤ (s.itable i).size) (hwrap : off + n < 2 ^ 32)
    (hmapped : ∀ k, off ≤ k → k < off + min n ((s.itable i).size - off) → blockAt s.disk (s.itable i) (k / BSIZE) ≠ 0) :
    (readi i off n).run s =
      .ok ((min n ((s.itable i).size - off), fileBytes s.disk (s.itable i) off (min n ((s.itable i).size - off))), s) := by
  simp only [readi, getInode, StateT.run_bind, StateT.run_get, StateT.run_pure, pure_bind,
    if_neg (readi_checks_pass hoff hwrap), readi_count_eq hoff]
  rw [readiLoop_run_mapped (Nat.zero_le _) (by omega) (by simpa using hmapped)]
  simp

/-- **READI**: a read inside the file returns the `min n (size - off)`
    bytes asked for, unless the lookup of the block where it stopped
    returned `0`; on a well-formed file they are the file's bytes. -/
theorem readi_spec {t : Nat} {dst : List UInt8} (hoff : off ≤ (s.itable i).size) (hwrap : off + n < 2 ^ 32)
    (h : (readi i off n).run s = .ok ((t, dst), s')) :
    t ≤ min n ((s.itable i).size - off) ∧
      (t < min n ((s.itable i).size - off) → ∃ s₁, (bmap i ((off + t) / BSIZE)).run s₁ = .ok (0, s')) ∧
      (Mapped s.disk (s.itable i) → Extends s.disk (s.itable i) s'.disk (s'.itable i) ∧
        dst = fileBytes s.disk (s.itable i) off t) := by
  simp only [readi, getInode, StateT.run_bind, StateT.run_get, StateT.run_pure, pure_bind,
    if_neg (readi_checks_pass hoff hwrap), readi_count_eq hoff] at h
  obtain ⟨-, hle, hfail, hbytes⟩ := readiLoop_spec (Nat.zero_le _) (by omega) h
  refine ⟨hle, fun hlt => by simpa using hfail hlt, fun hm => ?_⟩
  obtain ⟨he, hdst⟩ := hbytes hm
  exact ⟨he, by simpa using hdst⟩

/-- `readi` of a range whose end wraps a `uint` reads nothing. -/
theorem readi_of_wrap (hwrap : (off + n) % 2 ^ 32 < off) :
    (readi i off n).run s = .ok ((0, []), s) := by
  simp only [readi, getInode, StateT.run_bind, StateT.run_get, StateT.run_pure, pure_bind, if_pos (Or.inr hwrap)]
  rfl

/-- **WRAP**: `read(fd, buf, -1)` reaches `readi` with `n = 2^32 - 1`; at
    offset 1 of a file of two bytes, `off + n` wraps to 0 and the read
    returns no byte where one is left. -/
theorem readi_wraps_to_nothing :
    let s : FsState := { FsState.init ⟨⟨FSMAGIC, 64, 0, 0, 0, 0, 0, 0⟩, fun _ => false, fun _ => DInode.zero,
      fun _ _ => 0⟩ with itable := fun _ => { Inode.empty with size := 2 } }
    (readi ⟨0, by decide⟩ 1 (2 ^ 32 - 1)).run s = .ok ((0, []), s) ∧
      min (2 ^ 32 - 1) ((s.itable ⟨0, by decide⟩).size - 1) = 1 :=
  ⟨readi_of_wrap (by decide), by show min (2 ^ 32 - 1) (2 - 1) = 1; decide⟩

theorem iupdate_ok {u : Unit} (h : (iupdate i).run s = .ok (u, s')) :
    s'.itable = s.itable ∧ s'.disk.data = s.disk.data ∧ s'.disk.used = s.disk.used ∧ s'.disk.sb = s.disk.sb := by
  obtain ⟨ip, s₁, h₁, h⟩ := run_bind_eq_ok h
  cases h₁
  obtain ⟨_, s₂, h₂, h⟩ := run_bind_eq_ok h
  cases h₂
  obtain ⟨_, s₃, h₃, h⟩ := run_bind_eq_ok h
  cases h₃
  obtain ⟨hd, hi⟩ := logWrite_ok h
  rw [hd, hi]
  exact ⟨rfl, rfl, rfl, rfl⟩

/-- The end of `writei`: the inode written back and the count returned. -/
theorem iupdate_then_ok {tot : Nat} {v : Int} (h : (do iupdate i; pure (tot : Int) : FsM Int).run s = .ok (v, s')) :
    v = tot ∧ s'.itable = s.itable ∧ s'.disk.data = s.disk.data ∧ s'.disk.used = s.disk.used ∧
      s'.disk.sb = s.disk.sb := by
  obtain ⟨_, s₁, h₁, h⟩ := run_bind_eq_ok h
  obtain ⟨hv, rfl⟩ := Prod.mk.inj (Except.ok.inj h)
  exact ⟨hv.symm, iupdate_ok h₁⟩

/-- **WRITEI**: a call of `writei` on a well-formed file that returns the
    full count was inside the file and below `MAXFILE` blocks, wrote the
    bytes of `src` from `off` on, each in a block the file now has, left
    every other byte as it was, and grew the file to `off + n` if it was
    shorter. -/
theorem writei_spec {src : List UInt8} (hm : Mapped s.disk (s.itable i))
    (h : (writei i src off).run s = .ok (src.length, s')) :
    off ≤ (s.itable i).size ∧ off + src.length ≤ MAXFILE * BSIZE ∧
      (s'.itable i).size = max (s.itable i).size (off + src.length) ∧
      WroteRange s.disk (s.itable i) s'.disk { s'.itable i with size := (s.itable i).size } off src.length
        fun k => Bytes.ofList src (k - off) := by
  simp only [writei, getInode, StateT.run_bind, StateT.run_get, StateT.run_pure, pure_bind] at h
  split at h
  · cases h
  · next hcheck =>
    split at h
    · cases h
    · next hmax =>
      obtain ⟨⟨off', tot⟩, s₁, h₁, h⟩ := run_bind_eq_ok h
      obtain ⟨w, hoff', htot, -, hw⟩ := writeiLoop_spec hm (Nat.add_zero off).symm (Nat.zero_le _) h₁
      obtain ⟨ip, s₂, h₂, h⟩ := run_bind_eq_ok h
      cases h₂
      -- the size is raised to the end of the loop, then the inode written back
      have hend : ∃ s₃, s₃.disk = s₁.disk ∧ (s₃.itable i).addrs = (s₁.itable i).addrs ∧
          (s₃.itable i).size = max (s₁.itable i).size off' ∧
          (do iupdate i; pure (tot : Int) : FsM Int).run s₃ = .ok (src.length, s') := by
        split at h
        · next hgt =>
          obtain ⟨_, s₃, h₃, h⟩ := run_bind_eq_ok h
          obtain ⟨hd, hi⟩ := modifyInode_ok h₃
          refine ⟨s₃, hd, by rw [hi], by rw [hi]; dsimp only; omega, h⟩
        · next hle =>
          exact ⟨s₁, rfl, rfl, by omega, h⟩
      obtain ⟨s₃, hd₃, ha₃, hsize, htail⟩ := hend
      obtain ⟨htot', hi₄, hdata, hused, hsb⟩ := iupdate_then_ok htail
      have hw' : w = src.length := by omega
      subst hw'
      have hdata' : s'.disk.data = s₁.disk.data := by rw [hdata, hd₃]
      have ha' : { s'.itable i with size := (s.itable i).size }.addrs = (s₁.itable i).addrs := by
        rw [hi₄]
        exact ha₃
      have hb := blockAt_congr hdata' ha'
      have hf := fileByte_congr hdata' ha'
      refine ⟨by omega, by omega, by rw [hi₄, hsize, hw.size, hoff'], ?_⟩
      refine ⟨hw.mapped.congr hb (congrFun ha' _) (by rw [hused, hd₃]) (by rw [hsb, hd₃]),
        fun k h₁ h₂ => ?_, fun k hk => ?_, fun k h₁ h₂ => ?_, fun bn h => ?_, rfl, by rw [hsb, hd₃, hw.sb]⟩
      · rw [hf]
        exact hw.inside k h₁ h₂
      · rw [hf]
        exact hw.outside k hk
      · rw [hb]
        exact hw.blocks k h₁ h₂
      · rw [hb]
        exact hw.kept bn h

/-- The bytes a read of a written range returns are those of `src`. -/
theorem fileBytes_of_inside {d : Disk} {ip : Inode} {src : List UInt8} {off' n' : Nat}
    (hin : ∀ k, off ≤ k → k < off + src.length → fileByte d ip k = Bytes.ofList src (k - off))
    (h₁ : off ≤ off') (h₂ : off' + n' ≤ off + src.length) :
    fileBytes d ip off' n' = (src.drop (off' - off)).take n' := by
  refine List.ext_getElem (by simp [fileBytes_length]; omega) fun t ht _ => ?_
  have ht' : t < n' := by simpa [fileBytes_length] using ht
  simp only [fileBytes, List.getElem_map, List.getElem_range, List.getElem_take, List.getElem_drop]
  rw [hin _ (by omega) (by omega), Bytes.ofList, show off' + t - off = off' - off + t by omega,
    List.getD_eq_getElem?_getD, List.getElem?_eq_getElem (by omega), Option.getD_some]

end Calls

/-! ## Read after write -/

/-- **READ AFTER WRITE**: for every well-formed file, a `writei` of `n`
    bytes at `off` that returns `n` was inside the file and below
    `MAXFILE` blocks; it leaves the size `max size (off + n)`, every byte
    outside `[off, off + n)` as it was, and every read of a sub-range of
    `[off, off + n)` returns exactly the bytes of `src` written there.  A
    read at `off` inside the file whose end does not wrap a `uint` returns
    `min n (size - off)` bytes unless the lookup of the block where it
    stopped returned `0`, and on a well-formed file they are the file's
    bytes. -/
theorem inode_read_after_write :
    (∀ (s s' : FsState) (i : Fin NINODE) (src : List UInt8) (off : Nat), Mapped s.disk (s.itable i) →
      (writei i src off).run s = .ok (src.length, s') →
      off ≤ (s.itable i).size ∧ off + src.length ≤ MAXFILE * BSIZE ∧
      (s'.itable i).size = max (s.itable i).size (off + src.length) ∧
      (∀ k, k < off ∨ off + src.length ≤ k → fileByte s'.disk (s'.itable i) k = fileByte s.disk (s.itable i) k) ∧
      ∀ off' n', off ≤ off' → off' + n' ≤ off + src.length →
        (readi i off' n').run s' = .ok ((n', (src.drop (off' - off)).take n'), s')) ∧
    (∀ (s s' : FsState) (i : Fin NINODE) (off n t : Nat) (dst : List UInt8), off ≤ (s.itable i).size →
      off + n < 2 ^ 32 → (readi i off n).run s = .ok ((t, dst), s') →
      (t = min n ((s.itable i).size - off) ∨ ∃ s₁, (bmap i ((off + t) / BSIZE)).run s₁ = .ok (0, s')) ∧
      (Mapped s.disk (s.itable i) → dst = fileBytes s.disk (s.itable i) off t)) := by
  refine ⟨fun s s' i src off hm h => ?_, fun s s' i off n t dst hoff hwrap h => ?_⟩
  · obtain ⟨hoff, hmax, hsize, hw⟩ := writei_spec hm h
    refine ⟨hoff, hmax, hsize, fun k hk => hw.outside k hk, fun off' n' h₁ h₂ => ?_⟩
    -- the range read lies in the blocks the write mapped
    have hlen : off' + n' ≤ (s'.itable i).size := by omega
    have hmin : min n' ((s'.itable i).size - off') = n' := by omega
    have hwrap : off' + n' < 2 ^ 32 := by
      have hcap : MAXFILE * BSIZE < 2 ^ 32 := by decide
      omega
    have hin : ∀ k, off ≤ k → k < off + src.length →
        fileByte s'.disk (s'.itable i) k = Bytes.ofList src (k - off) := hw.inside
    rw [readi_run_mapped (by omega) hwrap (fun k hlo hhi => hw.blocks k (by omega) (by omega)), hmin,
      fileBytes_of_inside hin h₁ h₂]
  · obtain ⟨hle, hfail, hbytes⟩ := readi_spec hoff hwrap h
    refine ⟨?_, fun hm => (hbytes hm).2⟩
    by_cases hlt : t < min n ((s.itable i).size - off)
    · exact .inr (hfail hlt)
    · exact .inl (by omega)

/-- Three bytes written to an empty file, in an open transaction, read
    back from offset 1. -/
theorem inode_read_after_write_three_bytes :
    ∃ s', (writei ⟨0, by decide⟩ [1, 2, 3] 0).run
        { FsState.init ⟨⟨FSMAGIC, 64, 0, 0, 0, 0, 0, 0⟩, fun b => decide (b < 8), fun _ => DInode.zero, fun _ _ => 0⟩ with
          log := ⟨1, false, []⟩ } = .ok (3, s') ∧
      (readi ⟨0, by decide⟩ 1 2).run s' = .ok ((2, [2, 3]), s') := by
  have hcheck : checkOk (fun r : Int × FsState => r.1 = 3) ((writei ⟨0, by decide⟩ [1, 2, 3] 0).run
      { FsState.init ⟨⟨FSMAGIC, 64, 0, 0, 0, 0, 0, 0⟩, fun b => decide (b < 8), fun _ => DInode.zero, fun _ _ => 0⟩ with
        log := ⟨1, false, []⟩ }) = some true := by
    decide
  obtain ⟨⟨v, s'⟩, hrun, hv⟩ := exists_of_checkOk hcheck
  dsimp only at hv
  subst hv
  refine ⟨s', hrun, (inode_read_after_write.1 _ s' ⟨0, by decide⟩ [1, 2, 3] 0 ?_ hrun).2.2.2.2 1 2
    (by decide) (by decide)⟩
  exact Mapped.of_empty (fun _ => rfl) (by decide)

end Xv6.Fs
