import Mathlib

/-! # Byte buffers

    A buffer is a map from byte offsets to bytes.  Multi-byte integers are
    stored little-endian, the order of the RISC-V machine and of the
    `xshort`/`xint` conversions of a disk image.

    * `getLE`, `setLE`, `getLE_setLE`: a number stored is read back;
    * `setLE_of_lt`, `setLE_of_le`: a store leaves the other bytes alone;
    * `copyBytes`, `readBytes`: `memmove` into a buffer, and the bytes of a
      range as a list;
    * `copyUp_eq`, `copyDown_eq`: the loops of `memmove` copy a range inside
      one buffer unless their stores overrun the bytes still to be read;
    * `storeAll`: a log of stores applied in order to a memory, which keeps
      every cell the log does not name;
    * `ListAt`, `storeList`: a list found in a memory from an index on, and
      a list stored there. -/

namespace Bytes

/-- The `k`-byte little-endian number at `off`. -/
def getLE (buf : Nat → UInt8) (off : Nat) : Nat → Nat
  | 0 => 0
  | k + 1 => (buf off).toNat + 256 * getLE buf (off + 1) k

/-- Store the low `k` bytes of `v` little-endian at `off`. -/
def setLE (buf : Nat → UInt8) (off v : Nat) : Nat → Nat → UInt8
  | 0 => buf
  | k + 1 => Function.update (setLE buf (off + 1) (v / 256) k) off (UInt8.ofNat (v % 256))

/-- `memmove(dst + doff, src + soff, n)` between two buffers. -/
def copyBytes (dst : Nat → UInt8) (doff : Nat) (src : Nat → UInt8) (soff n : Nat) :
    Nat → UInt8 :=
  fun j => if doff ≤ j ∧ j < doff + n then src (soff + (j - doff)) else dst j

/-- The `n` bytes at `off`, in order. -/
def readBytes (buf : Nat → UInt8) (off n : Nat) : List UInt8 :=
  (List.range n).map fun i => buf (off + i)

/-- A list of bytes as a buffer, zero past its end. -/
def ofList (l : List UInt8) : Nat → UInt8 :=
  fun i => l.getD i 0

theorem setLE_of_lt {buf : Nat → UInt8} {off v j : Nat} (h : j < off) :
    ∀ k, setLE buf off v k j = buf j
  | 0 => rfl
  | k + 1 => by
      rw [setLE, Function.update_of_ne (by omega)]
      exact setLE_of_lt (by omega) k

theorem setLE_of_le {buf : Nat → UInt8} {off v j : Nat} :
    ∀ {k}, off + k ≤ j → setLE buf off v k j = buf j
  | 0, _ => rfl
  | k + 1, h => by
      rw [setLE, Function.update_of_ne (by omega)]
      exact setLE_of_le (by omega)

theorem getLE_congr {a b : Nat → UInt8} {off : Nat} :
    ∀ {k}, (∀ i, off ≤ i → i < off + k → a i = b i) → getLE a off k = getLE b off k
  | 0, _ => rfl
  | k + 1, h => by
      rw [getLE, getLE, h off (Nat.le_refl _) (by omega),
        getLE_congr fun i h₁ h₂ => h i (by omega) (by omega)]

/-- **ROUND TRIP**: a number that fits in `k` bytes is read back. -/
theorem getLE_setLE (buf : Nat → UInt8) :
    ∀ (k off v : Nat), v < 256 ^ k → getLE (setLE buf off v k) off k = v
  | 0, _, v, h => by
      rw [Nat.pow_zero] at h
      show 0 = v
      omega
  | k + 1, off, v, h => by
      have hv : v / 256 < 256 ^ k := by
        rw [Nat.pow_succ] at h
        omega
      have hrest : getLE (setLE buf off v (k + 1)) (off + 1) k
          = getLE (setLE buf (off + 1) (v / 256) k) (off + 1) k := by
        apply getLE_congr
        intro i h₁ _
        rw [setLE, Function.update_of_ne (by omega)]
      rw [getLE, hrest, getLE_setLE buf k (off + 1) (v / 256) hv, setLE, Function.update_self]
      have hmod : (UInt8.ofNat (v % 256)).toNat = v % 256 := by
        rw [UInt8.toNat_ofNat']
        omega
      rw [hmod]
      omega

theorem getLE_lt (buf : Nat → UInt8) (off : Nat) : ∀ k, getLE buf off k < 256 ^ k
  | 0 => Nat.one_pos
  | k + 1 => by
      have h₁ := (buf off).toNat_lt
      have h₂ := getLE_lt buf (off + 1) k
      rw [getLE, Nat.pow_succ]
      omega

@[simp]
theorem readBytes_length (buf : Nat → UInt8) (off n : Nat) : (readBytes buf off n).length = n := by
  simp [readBytes]

theorem copyBytes_of_lt {dst src : Nat → UInt8} {doff soff n j : Nat} (h : j < doff) :
    copyBytes dst doff src soff n j = dst j := by
  simp only [copyBytes]
  rw [if_neg (by omega)]

theorem copyBytes_of_le {dst src : Nat → UInt8} {doff soff n j : Nat} (h : doff + n ≤ j) :
    copyBytes dst doff src soff n j = dst j := by
  simp only [copyBytes]
  rw [if_neg (by omega)]

theorem copyBytes_of_mem {dst src : Nat → UInt8} {doff soff n j : Nat}
    (h₁ : doff ≤ j) (h₂ : j < doff + n) :
    copyBytes dst doff src soff n j = src (soff + (j - doff)) := by
  simp only [copyBytes]
  rw [if_pos ⟨h₁, h₂⟩]

@[simp]
theorem copyBytes_zero (dst src : Nat → UInt8) (doff soff : Nat) :
    copyBytes dst doff src soff 0 = dst := by
  funext j
  simp only [copyBytes, Nat.add_zero]
  rw [if_neg (by omega)]

/-! ## Copying inside one buffer

    The two loops of an overlap-safe `memmove`: `copyUp` stores from the low
    ends up, `copyDown` from the high ends down.  Each is the copy
    `copyBytes mem d mem s n` as long as it reads every byte before one of
    its own stores reaches it: for `copyUp` unless the destination starts
    inside the source past its start, for `copyDown` unless the source starts
    inside the destination past its start. -/

/-- `while(n-- > 0) *d++ = *s++;` -/
def copyUp : (Nat → UInt8) → Nat → Nat → Nat → Nat → UInt8
  | mem, _, _, 0 => mem
  | mem, d, s, n + 1 => copyUp (Function.update mem d (mem s)) (d + 1) (s + 1) n

/-- `while(n-- > 0) *--d = *--s;`, from the ends `d` and `s` down. -/
def copyDown : (Nat → UInt8) → Nat → Nat → Nat → Nat → UInt8
  | mem, _, _, 0 => mem
  | mem, d, s, n + 1 => copyDown (Function.update mem (d - 1) (mem (s - 1))) (d - 1) (s - 1) n

theorem copyUp_eq (mem : Nat → UInt8) (d s n : Nat) (h : ¬(s < d ∧ d < s + n)) :
    copyUp mem d s n = copyBytes mem d mem s n := by
  induction n generalizing mem d s with
  | zero => simp [copyUp]
  | succ n ih =>
    rw [copyUp, ih _ _ _ (by omega)]
    funext j
    rcases Nat.lt_or_ge j d with hlt | hge
    · rw [copyBytes_of_lt (by omega), copyBytes_of_lt hlt, Function.update_of_ne (by omega)]
    rcases Nat.lt_or_ge (d + (n + 1)) (j + 1) with hout | hin
    · rw [copyBytes_of_le (by omega), copyBytes_of_le (by omega), Function.update_of_ne (by omega)]
    rw [copyBytes_of_mem hge (by omega)]
    rcases Nat.eq_or_lt_of_le hge with rfl | hgt
    -- the first store: its byte was read before anything was written
    · rw [copyBytes_of_lt (by omega), Function.update_self, Nat.sub_self, Nat.add_zero]
    -- a later one reads `s + (j - d)`, which the first store did not touch
    · rw [copyBytes_of_mem (by omega) (by omega), Function.update_of_ne (by omega)]
      congr 1
      omega

theorem copyDown_eq (mem : Nat → UInt8) (d s n : Nat) (h : ¬(d < s ∧ s < d + n)) :
    copyDown mem (d + n) (s + n) n = copyBytes mem d mem s n := by
  induction n generalizing mem with
  | zero => simp [copyDown]
  | succ n ih =>
    have hd : d + (n + 1) - 1 = d + n := by omega
    have hs : s + (n + 1) - 1 = s + n := by omega
    rw [copyDown, hd, hs, ih _ (by omega)]
    funext j
    rcases Nat.lt_or_ge j d with hlt | hge
    · rw [copyBytes_of_lt hlt, copyBytes_of_lt hlt, Function.update_of_ne (by omega)]
    rcases Nat.lt_or_ge (d + (n + 1)) (j + 1) with hout | hin
    · rw [copyBytes_of_le (by omega), copyBytes_of_le (by omega), Function.update_of_ne (by omega)]
    rw [copyBytes_of_mem (n := n + 1) hge (by omega)]
    obtain hlow | rfl : j < d + n ∨ j = d + n := by omega
    -- below the first store, which did not touch `s + (j - d)`
    · rw [copyBytes_of_mem hge hlow, Function.update_of_ne (by omega)]
    -- the first store, at the top
    · rw [copyBytes_of_le (by omega), Function.update_self]
      congr 1
      omega

section Log

variable {ι β : Type} [DecidableEq ι]

/-- Apply a log of stores, in order, to a memory. -/
def storeAll (mem : ι → β) : List (ι × β) → ι → β
  | [] => mem
  | (a, b) :: st => storeAll (Function.update mem a b) st

theorem storeAll_append (mem : ι → β) (st st' : List (ι × β)) :
    storeAll mem (st ++ st') = storeAll (storeAll mem st) st' := by
  induction st generalizing mem with
  | nil => rfl
  | cons s st ih => exact ih _

/-- A cell that no store of the log names keeps its contents. -/
theorem storeAll_of_not_mem {st : List (ι × β)} {a : ι} (h : ∀ s ∈ st, s.1 ≠ a) :
    ∀ mem : ι → β, storeAll mem st a = mem a := by
  induction st with
  | nil => intro mem; rfl
  | cons s st ih =>
      intro mem
      have hs : s.1 ≠ a := h s List.mem_cons_self
      rw [storeAll, ih fun t ht => h t (List.mem_cons_of_mem _ ht)]
      exact Function.update_of_ne hs.symm _ _

end Log

section Lists

variable {β : Type} {mem : Nat → β} {a : Nat}

/-- `mem` holds the list `l` from `a` on. -/
def ListAt (mem : Nat → β) (a : Nat) (l : List β) : Prop :=
  ∀ i (h : i < l.length), mem (a + i) = l[i]

theorem listAt_cons {b : β} {l : List β} : ListAt mem a (b :: l) ↔ mem a = b ∧ ListAt mem (a + 1) l := by
  constructor
  · intro h
    refine ⟨h 0 (Nat.succ_pos _), fun i hi => ?_⟩
    rw [Nat.add_assoc, Nat.add_comm 1 i]
    exact h (i + 1) (Nat.succ_lt_succ hi)
  · rintro ⟨h₀, h⟩ i hi
    cases i with
    | zero => exact h₀
    | succ i =>
      rw [List.getElem_cons_succ, show a + (i + 1) = a + 1 + i by omega]
      exact h i (Nat.lt_of_succ_lt_succ hi)

theorem listAt_append {l l' : List β} :
    ListAt mem a (l ++ l') ↔ ListAt mem a l ∧ ListAt mem (a + l.length) l' := by
  induction l generalizing a with
  | nil =>
    rw [List.nil_append, List.length_nil, Nat.add_zero]
    exact ⟨fun h => ⟨fun _ hi => absurd hi (Nat.not_lt_zero _), h⟩, fun h => h.2⟩
  | cons b l ih =>
    rw [List.cons_append, listAt_cons, listAt_cons, ih, List.length_cons, Nat.add_assoc,
      Nat.add_comm 1, and_assoc]

/-- A list laid out from `a` on, with `d` elsewhere. -/
theorem listAt_getD (l : List β) (d : β) (a : Nat) : ListAt (fun i => l.getD (i - a) d) a l := by
  intro i hi
  dsimp only
  rw [Nat.add_sub_cancel_left, List.getD_eq_getElem?_getD, List.getElem?_eq_getElem hi, Option.getD_some]

/-- `mem` with the list `l` stored from `a` on. -/
def storeList (mem : Nat → β) (a : Nat) (l : List β) : Nat → β :=
  fun k => if a ≤ k then l[k - a]?.getD (mem k) else mem k

theorem storeList_nil (mem : Nat → β) (a : Nat) : storeList mem a [] = mem := by
  funext k
  simp [storeList]

theorem storeList_of_lt {l : List β} {k : Nat} (hk : k < a) : storeList mem a l k = mem k := by
  rw [storeList, if_neg (by omega)]

theorem storeList_of_le {l : List β} {k : Nat} (hk : a + l.length ≤ k) : storeList mem a l k = mem k := by
  rw [storeList, if_pos (by omega), List.getElem?_eq_none (by omega), Option.getD_none]

theorem storeList_cons (b : β) (l : List β) :
    storeList mem a (b :: l) = storeList (Function.update mem a b) (a + 1) l := by
  funext k
  unfold storeList
  by_cases hk : k = a
  · subst hk
    rw [if_pos (Nat.le_refl _), if_neg (by omega), Nat.sub_self, Function.update_self]
    rfl
  · rw [Function.update_of_ne hk]
    by_cases hk' : a + 1 ≤ k
    · rw [if_pos (by omega), if_pos hk', show k - a = (k - (a + 1)) + 1 by omega, List.getElem?_cons_succ]
    · rw [if_neg (by omega), if_neg hk']

theorem storeList_append (l l' : List β) :
    storeList mem a (l ++ l') = storeList (storeList mem a l) (a + l.length) l' := by
  funext k
  by_cases hk : k < a + l.length
  · rw [storeList_of_lt hk]
    unfold storeList
    split
    · rw [List.getElem?_append_left (by omega)]
    · rfl
  · have hin : storeList mem a l k = mem k := storeList_of_le (by omega)
    unfold storeList at hin ⊢
    rw [if_pos (show a ≤ k by omega), if_pos (show a + l.length ≤ k by omega), hin,
      List.getElem?_append_right (by omega)]
    congr 2
    omega

end Lists

end Bytes
