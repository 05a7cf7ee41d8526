import Xv6.Lib.Int32
import Xv6.Dev.Fb

/-! # Decoding run-length sprites (`fb_rle_decompress`)

    A sprite is a stream of packets ended by the byte `0xFF`.  A header with
    bit 7 set is followed by one 4-byte pixel that stands `(h & 0x7F) + 1`
    times; any other header by `(h & 0x7F) + 1` literal 4-byte pixels.
    `0xFF` itself is the terminator, so a run holds at most 127 pixels.
    `Packet` builds exactly the packets of this format, `rleBytes` lays a
    stream out and `rleExpand` gives the pixels it stands for.

    Source bytes are a memory from address `src` on, the destination a
    memory of `uint32`s from `dst` on: `dst[i]` is the word at `dst + i`.

    * `rleRun_spec`, `rleLit_spec`: each inner loop stores its packet's
      pixels from `dst[count]` on while `count < max_pixels`;
    * `rleLoop_spec`: the packet loop, one packet per round;
    * `fb_rle_decompress_spec`: the decoder returns
      `min(max(max_pixels, 0), L)`, stores exactly that prefix of the
      expansion, nothing at or past `dst[max_pixels]`, and reads nothing
      outside the stream. -/

namespace Xv6.Dev

open Bytes

/-- A pixel of a packet as its four little-endian bytes. -/
abbrev PixelBytes := UInt8 × UInt8 × UInt8 × UInt8

/-- The bytes of a pixel, in memory order. -/
def PixelBytes.bytes (b : PixelBytes) : List UInt8 := [b.1, b.2.1, b.2.2.1, b.2.2.2]

/-- The `uint32` the bytes of a pixel make. -/
def PixelBytes.word (b : PixelBytes) : UInt32 := leWord b.1 b.2.1 b.2.2.1 b.2.2.2

/-- A packet of the format.  A run of `n + 1` copies of one pixel has the
    header `0x80 + n`, which leaves `0xFF` to the terminator; `k` literal
    pixels, `1 ≤ k ≤ 128`, have the header `k - 1`. -/
inductive Packet
  | run (n : Nat) (hn : n < 127) (pixel : PixelBytes)
  | lit (pixels : List PixelBytes) (hpos : 0 < pixels.length) (hle : pixels.length ≤ 128)

namespace Packet

def header : Packet → UInt8
  | run n _ _ => UInt8.ofNat (0x80 + n)
  | lit pixels _ _ => UInt8.ofNat (pixels.length - 1)

/-- The pixels that follow the header. -/
def payload : Packet → List PixelBytes
  | run _ _ pixel => [pixel]
  | lit pixels _ _ => pixels

def bytes (k : Packet) : List UInt8 := k.header :: k.payload.flatMap PixelBytes.bytes

/-- The pixels a packet stands for. -/
def expand : Packet → List UInt32
  | run n _ pixel => List.replicate (n + 1) pixel.word
  | lit pixels _ _ => pixels.map PixelBytes.word

theorem bytes_length (k : Packet) : k.bytes.length = 1 + 4 * k.payload.length := by
  unfold bytes
  rw [List.length_cons, List.length_flatMap, Nat.add_comm]
  congr 1
  induction k.payload with
  | nil => rfl
  | cons b l ih =>
    rw [List.map_cons, List.sum_cons, ih, List.length_cons]
    simp only [PixelBytes.bytes, List.length_cons, List.length_nil]
    omega

/-- A run header has bit 7 set, carries its count and is not the
    terminator. -/
theorem header_run {n : Nat} (hn : n < 127) :
    UInt8.ofNat (0x80 + n) &&& 0x80 ≠ 0 ∧ (UInt8.ofNat (0x80 + n) &&& 0x7F).toNat = n ∧
      UInt8.ofNat (0x80 + n) ≠ 0xFF := by
  revert n
  decide

/-- A literal header has bit 7 clear, carries its count less one and is
    not the terminator. -/
theorem header_lit {m : Nat} (hm : m < 128) :
    UInt8.ofNat m &&& 0x80 = 0 ∧ (UInt8.ofNat m &&& 0x7F).toNat = m ∧ UInt8.ofNat m ≠ 0xFF := by
  revert m
  decide

end Packet

/-- A stream of packets, laid out and terminated. -/
def rleBytes (ps : List Packet) : List UInt8 := ps.flatMap Packet.bytes ++ [0xFF]

/-- The pixels a stream of packets stands for. -/
def rleExpand (ps : List Packet) : List UInt32 := ps.flatMap Packet.expand

theorem rleBytes_cons (k : Packet) (ps : List Packet) : rleBytes (k :: ps) = k.bytes ++ rleBytes ps := by
  rw [rleBytes, rleBytes, List.flatMap_cons, List.append_assoc]

theorem rleExpand_cons (k : Packet) (ps : List Packet) : rleExpand (k :: ps) = k.expand ++ rleExpand ps :=
  List.flatMap_cons

/-! ## The decoder -/

/-- The word `*(uint32*)src` reads at `a`, little-endian. -/
def wordAt (mem : Nat → UInt8) (a : Nat) : UInt32 :=
  leWord (mem a) (mem (a + 1)) (mem (a + 2)) (mem (a + 3))

/-- The run loop `for(i = 0; i < run && count < max_pixels; i++)
    dst[count++] = color`, with `i` rounds left. -/
def rleRun (dst : Nat) (max_pixels : Int32) (color : UInt32) :
    Nat → Int32 → (Nat → UInt32) → Int32 × (Nat → UInt32)
  | 0, count, dmem => (count, dmem)
  | i + 1, count, dmem =>
      if count < max_pixels then
        rleRun dst max_pixels color i (count + 1) (Function.update dmem (dst + count.toInt.toNat) color)
      else (count, dmem)

/-- The literal loop `for(i = 0; i < count_lit && count < max_pixels; i++)
    { dst[count++] = *(uint32*)src; src += 4; }`, with `i` rounds left. -/
def rleLit (mem : Nat → UInt8) (dst : Nat) (max_pixels : Int32) :
    Nat → Nat → Int32 → (Nat → UInt32) → Nat × Int32 × (Nat → UInt32)
  | 0, s, count, dmem => (s, count, dmem)
  | i + 1, s, count, dmem =>
      if count < max_pixels then
        rleLit mem dst max_pixels i (s + 4) (count + 1) (Function.update dmem (dst + count.toInt.toNat) (wordAt mem s))
      else (s, count, dmem)

/-- The packet loop `while(count < max_pixels && *src != 0xFF)` from `s`:
    a run reads its colour and moves `src` past it before its loop, a
    literal packet moves `src` pixel by pixel. -/
def rleLoop (mem : Nat → UInt8) (dst : Nat) (max_pixels : Int32) :
    Nat → Nat → Int32 → (Nat → UInt32) → Int32 × (Nat → UInt32)
  | 0, _, count, dmem => (count, dmem)
  | fuel + 1, s, count, dmem =>
      if count < max_pixels ∧ mem s ≠ 0xFF then
        let byte := mem s
        if byte &&& 0x80 ≠ 0 then
          let r := rleRun dst max_pixels (wordAt mem (s + 1)) ((byte &&& 0x7F).toNat + 1) count dmem
          rleLoop mem dst max_pixels fuel (s + 5) r.1 r.2
        else
          let r := rleLit mem dst max_pixels ((byte &&& 0x7F).toNat + 1) (s + 1) count dmem
          rleLoop mem dst max_pixels fuel r.1 r.2.1 r.2.2
      else (count, dmem)

/-- `fb_rle_decompress(src, dst, max_pixels)`, `src` and `dst` addresses
    with `0` for `NULL`.  Every round of the packet loop stores a pixel, so
    `2^31` rounds are enough. -/
def fb_rle_decompress (mem : Nat → UInt8) (src : Nat) (dmem : Nat → UInt32) (dst : Nat) (max_pixels : Int32) :
    Int32 × (Nat → UInt32) :=
  if src = 0 ∨ dst = 0 then (0, dmem)
  else rleLoop mem dst max_pixels (2 ^ 31) src 0 dmem

/-! ## The loops -/

theorem wordAt_of_listAt {mem : Nat → UInt8} {a : Nat} {b : PixelBytes} (h : ListAt mem a b.bytes) :
    wordAt mem a = b.word := by
  have h₀ := h 0 (show 0 < 4 by decide)
  have h₁ := h 1 (show 1 < 4 by decide)
  have h₂ := h 2 (show 2 < 4 by decide)
  have h₃ := h 3 (show 3 < 4 by decide)
  rw [Nat.add_zero] at h₀
  unfold wordAt PixelBytes.word
  rw [h₀, h₁, h₂, h₃]
  rfl

/-- `count < max_pixels`, and `count + 1` does not wrap below it. -/
theorem count_succ {count max_pixels : Int32} (h : count.toInt < max_pixels.toInt) :
    (count + 1).toInt = count.toInt + 1 := by
  have := Int32.toInt_lt max_pixels
  have := Int32.le_toInt count
  exact Int32.toInt_add_of_range (by simp; omega) (by simp; omega)

section Loops

variable (mem : Nat → UInt8) (dst : Nat) (max_pixels : Int32)

/-- **RUN**: the run loop stores the colour at `dst[count]` on, as many
    times as the run and the budget allow. -/
theorem rleRun_spec (color : UInt32) :
    ∀ (i : Nat) (count : Int32) (dmem : Nat → UInt32), 0 ≤ count.toInt →
      (rleRun dst max_pixels color i count dmem).1.toInt =
          count.toInt + min i (max_pixels.toInt - count.toInt).toNat ∧
        (rleRun dst max_pixels color i count dmem).2 =
          storeList dmem (dst + count.toInt.toNat) (List.replicate (min i (max_pixels.toInt - count.toInt).toNat) color)
  | 0, count, dmem, _ => by
    simp [rleRun, storeList_nil]
  | i + 1, count, dmem, hc => by
    rw [rleRun]
    split
    · next hlt =>
      rw [Int32.lt_iff_toInt_lt] at hlt
      have hsucc := count_succ hlt
      obtain ⟨h₁, h₂⟩ := rleRun_spec color i (count + 1) (Function.update dmem (dst + count.toInt.toNat) color) (by omega)
      -- this round stores one copy, the rest of the run the others
      have hmin : min (i + 1) (max_pixels.toInt - count.toInt).toNat =
          min i (max_pixels.toInt - (count + 1).toInt).toNat + 1 := by
        rw [hsucc]
        omega
      refine ⟨by rw [h₁, hmin, hsucc]; push_cast; omega, ?_⟩
      rw [h₂, hmin, List.replicate_succ, storeList_cons, hsucc]
      congr 1
      omega
    · next hge =>
      rw [Int32.lt_iff_toInt_lt] at hge
      have hzero : min (i + 1) (max_pixels.toInt - count.toInt).toNat = 0 := by omega
      rw [hzero, List.replicate_zero, storeList_nil]
      exact ⟨by dsimp only; omega, rfl⟩

/-- **LITERALS**: the literal loop stores the packet's pixels at
    `dst[count]` on, as many as the budget allows, and moves `src` past
    those it read. -/
theorem rleLit_spec :
    ∀ (pixels : List PixelBytes) (s : Nat) (count : Int32) (dmem : Nat → UInt32),
      ListAt mem s (pixels.flatMap PixelBytes.bytes) → 0 ≤ count.toInt →
      (rleLit mem dst max_pixels pixels.length s count dmem).1 =
          s + 4 * min pixels.length (max_pixels.toInt - count.toInt).toNat ∧
        (rleLit mem dst max_pixels pixels.length s count dmem).2.1.toInt =
          count.toInt + min pixels.length (max_pixels.toInt - count.toInt).toNat ∧
        (rleLit mem dst max_pixels pixels.length s count dmem).2.2 =
          storeList dmem (dst + count.toInt.toNat)
            ((pixels.take (min pixels.length (max_pixels.toInt - count.toInt).toNat)).map PixelBytes.word)
  | [], s, count, dmem, _, _ => by
    simp [rleLit, storeList_nil]
  | b :: pixels, s, count, dmem, hat, hc => by
    rw [List.flatMap_cons, listAt_append] at hat
    rw [List.length_cons, rleLit]
    split
    · next hlt =>
      rw [Int32.lt_iff_toInt_lt] at hlt
      have hsucc := count_succ hlt
      have hword := wordAt_of_listAt hat.1
      obtain ⟨h₁, h₂, h₃⟩ := rleLit_spec pixels (s + 4) (count + 1)
        (Function.update dmem (dst + count.toInt.toNat) (wordAt mem s)) hat.2 (by omega)
      have hmin : min (pixels.length + 1) (max_pixels.toInt - count.toInt).toNat =
          min pixels.length (max_pixels.toInt - (count + 1).toInt).toNat + 1 := by
        rw [hsucc]
        omega
      refine ⟨by rw [h₁, hmin]; omega, by rw [h₂, hmin, hsucc]; push_cast; omega, ?_⟩
      rw [h₃, hmin, List.take_succ_cons, List.map_cons, storeList_cons, hword, hsucc]
      congr 1
      omega
    · next hge =>
      rw [Int32.lt_iff_toInt_lt] at hge
      have hzero : min (pixels.length + 1) (max_pixels.toInt - count.toInt).toNat = 0 := by omega
      rw [hzero, List.take_zero, List.map_nil, storeList_nil]
      exact ⟨by dsimp only; omega, by dsimp only; omega, rfl⟩

/-- Once the budget is spent the packet loop stops, whatever fuel is
    left. -/
theorem rleLoop_of_ge {count : Int32} (hge : max_pixels.toInt ≤ count.toInt) :
    ∀ (fuel s : Nat) (dmem : Nat → UInt32), rleLoop mem dst max_pixels fuel s count dmem = (count, dmem)
  | 0, _, _ => rfl
  | _ + 1, s, dmem => by
    rw [rleLoop, if_neg]
    rw [Int32.lt_iff_toInt_lt]
    omega

end Loops

/-- The prefix of a packet's pixels and then of the rest: the rest starts
    only once the packet is whole. -/
theorem take_append_take {α : Type} {A B : List α} {m n : Nat} (hm : m ≤ A.length)
    (h : m < A.length → n = 0) : A.take m ++ B.take n = (A ++ B).take (m + n) := by
  rw [List.take_append]
  by_cases hfull : m = A.length
  · subst hfull
    rw [List.take_of_length_le (Nat.le_refl _), List.take_of_length_le (Nat.le_add_right _ _),
      Nat.add_sub_cancel_left]
  · rw [h (by omega), Nat.add_zero, Nat.sub_eq_zero_of_le hm]

/-- A packet's stores and then the rest's make one prefix of the whole
    expansion. -/
theorem storeList_take_take {f : Nat → UInt32} {a : Nat} {A E : List UInt32} {m x y : Nat}
    (hm : m ≤ A.length) (h : m < A.length → x = 0) (hy : y = m + x) :
    storeList (storeList f a (A.take m)) (a + m) (E.take x) = storeList f a ((A ++ E).take y) := by
  rw [hy, ← take_append_take hm h, storeList_append, List.length_take, Nat.min_eq_left hm]

section Packets

variable (mem : Nat → UInt8) (dst : Nat) (max_pixels : Int32)

/-- With the budget spent the packet loop stores nothing more. -/
theorem rleLoop_spent {count : Int32} (hge : max_pixels.toInt ≤ count.toInt) (E : List UInt32)
    (fuel s : Nat) (dmem : Nat → UInt32) :
    (rleLoop mem dst max_pixels fuel s count dmem).1.toInt =
        count.toInt + min E.length (max_pixels.toInt - count.toInt).toNat ∧
      (rleLoop mem dst max_pixels fuel s count dmem).2 =
        storeList dmem (dst + count.toInt.toNat) (E.take (max_pixels.toInt - count.toInt).toNat) := by
  rw [rleLoop_of_ge mem dst max_pixels hge, show (max_pixels.toInt - count.toInt).toNat = 0 by omega,
    List.take_zero, storeList_nil]
  exact ⟨by dsimp only; omega, rfl⟩

/-- **PACKETS**: from a packet boundary, with `count` pixels stored, the
    packet loop stores the rest of the expansion from `dst[count]` on, as
    much of it as the budget allows.  The induction is on the packets left;
    each round takes one. -/
theorem rleLoop_spec :
    ∀ (ps : List Packet) (fuel s : Nat) (count : Int32) (dmem : Nat → UInt32),
      ListAt mem s (rleBytes ps) → 0 ≤ count.toInt → (max_pixels.toInt - count.toInt).toNat ≤ fuel →
      (rleLoop mem dst max_pixels fuel s count dmem).1.toInt =
          count.toInt + min (rleExpand ps).length (max_pixels.toInt - count.toInt).toNat ∧
        (rleLoop mem dst max_pixels fuel s count dmem).2 =
          storeList dmem (dst + count.toInt.toNat) ((rleExpand ps).take (max_pixels.toInt - count.toInt).toNat)
  | [], fuel, s, count, dmem, hat, hc, hfuel => by
    by_cases hge : max_pixels.toInt ≤ count.toInt
    · exact rleLoop_spent mem dst max_pixels hge _ fuel s dmem
    -- the terminator ends the loop
    obtain ⟨f, rfl⟩ : ∃ f, fuel = f + 1 := ⟨fuel - 1, by omega⟩
    have hend : mem s = 0xFF := by
      have := hat 0 (by simp [rleBytes])
      rwa [Nat.add_zero] at this
    rw [rleLoop, if_neg fun h => h.2 hend]
    simp [rleExpand, storeList_nil]
  | k :: ps, fuel, s, count, dmem, hat, hc, hfuel => by
    by_cases hge : max_pixels.toInt ≤ count.toInt
    · exact rleLoop_spent mem dst max_pixels hge _ fuel s dmem
    obtain ⟨f, rfl⟩ : ∃ f, fuel = f + 1 := ⟨fuel - 1, by omega⟩
    have hlt : count < max_pixels := by
      rw [Int32.lt_iff_toInt_lt]
      omega
    rw [rleBytes_cons, listAt_append] at hat
    obtain ⟨hk, hrest⟩ := hat
    have hklen := Packet.bytes_length k
    rw [Packet.bytes, listAt_cons] at hk
    obtain ⟨hs, hpay⟩ := hk
    rw [rleExpand_cons]
    cases k with
    | run n hn pixel =>
      -- a run: its colour, then up to `n + 1` copies of it
      obtain ⟨hbit, hcnt, hne⟩ := Packet.header_run hn
      simp only [Packet.header] at hs
      simp only [Packet.payload, List.flatMap_cons, List.flatMap_nil, List.append_nil] at hpay hklen
      rw [rleLoop, if_pos ⟨hlt, by rw [hs]; exact hne⟩]
      dsimp only
      rw [hs, if_pos hbit, hcnt, wordAt_of_listAt hpay]
      obtain ⟨h₁, h₂⟩ := rleRun_spec dst max_pixels pixel.word (n + 1) count dmem hc
      obtain ⟨h₃, h₄⟩ := rleLoop_spec ps f (s + 5) _ _ (by rw [show s + 5 = s + (1 + 4 * 1) by omega]; exact hrest)
        (by rw [h₁]; omega) (by rw [h₁]; omega)
      have hm : min (n + 1) (max_pixels.toInt - count.toInt).toNat ≤ (List.replicate (n + 1) pixel.word).length := by
        rw [List.length_replicate]
        omega
      have hx : min (n + 1) (max_pixels.toInt - count.toInt).toNat < (List.replicate (n + 1) pixel.word).length →
          (max_pixels.toInt - (rleRun dst max_pixels pixel.word (n + 1) count dmem).1.toInt).toNat = 0 := by
        rw [h₁, List.length_replicate]
        omega
      have hrep : List.replicate (min (n + 1) (max_pixels.toInt - count.toInt).toNat) pixel.word =
          (List.replicate (n + 1) pixel.word).take (min (n + 1) (max_pixels.toInt - count.toInt).toNat) := by
        rw [List.take_replicate, Nat.min_eq_left (Nat.min_le_left _ _)]
      have hnext : dst + (rleRun dst max_pixels pixel.word (n + 1) count dmem).1.toInt.toNat =
          dst + count.toInt.toNat + min (n + 1) (max_pixels.toInt - count.toInt).toNat := by
        rw [h₁]
        omega
      refine ⟨by rw [h₃, h₁, Packet.expand, List.length_append, List.length_replicate]; omega, ?_⟩
      rw [h₄, h₂, hrep, hnext, Packet.expand]
      exact storeList_take_take hm hx (by rw [h₁]; omega)
    | lit pixels hpos hle =>
      -- literals: up to `pixels.length` words read one by one
      obtain ⟨hbit, hcnt, hne⟩ := Packet.header_lit (m := pixels.length - 1) (by omega)
      simp only [Packet.header] at hs
      simp only [Packet.payload] at hpay hklen
      rw [rleLoop, if_pos ⟨hlt, by rw [hs]; exact hne⟩]
      dsimp only
      rw [hs, if_neg (fun h => h hbit), hcnt, Nat.sub_add_cancel hpos]
      obtain ⟨h₁, h₂, h₃⟩ := rleLit_spec mem dst max_pixels pixels (s + 1) count dmem hpay hc
      have hA : ((pixels.map PixelBytes.word).take (min pixels.length (max_pixels.toInt - count.toInt).toNat)) =
          (pixels.take (min pixels.length (max_pixels.toInt - count.toInt).toNat)).map PixelBytes.word :=
        (List.map_take ..).symm
      by_cases hwhole : pixels.length ≤ (max_pixels.toInt - count.toInt).toNat
      · -- the whole packet fits: the loop goes on at the next packet
        obtain ⟨h₄, h₅⟩ := rleLoop_spec ps f (rleLit mem dst max_pixels pixels.length (s + 1) count dmem).1 _ _
          (by rw [h₁, Nat.min_eq_left hwhole, show s + 1 + 4 * pixels.length = s + (1 + 4 * pixels.length) by omega,
            ← hklen]; exact hrest)
          (by rw [h₂]; omega) (by rw [h₂]; omega)
        have hm : min pixels.length (max_pixels.toInt - count.toInt).toNat ≤ (pixels.map PixelBytes.word).length := by
          rw [List.length_map]
          omega
        have hx : min pixels.length (max_pixels.toInt - count.toInt).toNat < (pixels.map PixelBytes.word).length →
            (max_pixels.toInt - (rleLit mem dst max_pixels pixels.length (s + 1) count dmem).2.1.toInt).toNat = 0 := by
          rw [h₂, List.length_map]
          omega
        have hnext : dst + (rleLit mem dst max_pixels pixels.length (s + 1) count dmem).2.1.toInt.toNat =
            dst + count.toInt.toNat + min pixels.length (max_pixels.toInt - count.toInt).toNat := by
          rw [h₂]
          omega
        refine ⟨by rw [h₄, h₂, Packet.expand, List.length_append, List.length_map]; omega, ?_⟩
        rw [h₅, h₃, ← hA, hnext, Packet.expand]
        exact storeList_take_take hm hx (by rw [h₂]; omega)
      · -- the budget ends inside the packet: the loop stops
        have hspent : max_pixels.toInt ≤ (rleLit mem dst max_pixels pixels.length (s + 1) count dmem).2.1.toInt := by
          rw [h₂]
          omega
        obtain ⟨h₄, h₅⟩ := rleLoop_spent mem dst max_pixels hspent (rleExpand ps) f _ _
        refine ⟨by rw [h₄, h₂, Packet.expand, List.length_append, List.length_map]; omega, ?_⟩
        rw [h₅, h₃, Packet.expand, ← hA, List.take_append_of_le_length (by simp; omega),
          show (max_pixels.toInt - (rleLit mem dst max_pixels pixels.length (s + 1) count dmem).2.1.toInt).toNat = 0 by
            rw [h₂]; omega,
          List.take_zero, storeList_nil]
        congr 2
        omega

end Packets

/-- **RLE**: for every stream of packets laid out from `src` and every
    `max_pixels`, `fb_rle_decompress` returns `r = min(max(max_pixels, 0), L)`
    for the `L` pixels the stream stands for, stores exactly the first `r`
    of them from `dst` on and nothing at or past `dst[max_pixels]`, and its
    result depends on no byte outside the stream and its terminator. -/
theorem fb_rle_decompress_spec (ps : List Packet) {mem : Nat → UInt8} {src : Nat} (hsrc : src ≠ 0)
    (hat : ListAt mem src (rleBytes ps)) (dmem : Nat → UInt32) {dst : Nat} (hdst : dst ≠ 0) (max_pixels : Int32) :
    (fb_rle_decompress mem src dmem dst max_pixels).1.toInt = min (max max_pixels.toInt 0) (rleExpand ps).length ∧
      (fb_rle_decompress mem src dmem dst max_pixels).2 =
        storeList dmem dst ((rleExpand ps).take max_pixels.toInt.toNat) ∧
      (∀ k, dst + max_pixels.toInt.toNat ≤ k → (fb_rle_decompress mem src dmem dst max_pixels).2 k = dmem k) ∧
      ∀ mem' : Nat → UInt8, ListAt mem' src (rleBytes ps) →
        fb_rle_decompress mem' src dmem dst max_pixels = fb_rle_decompress mem src dmem dst max_pixels := by
  -- the decoder's result from any memory holding the stream
  have key : ∀ mem' : Nat → UInt8, ListAt mem' src (rleBytes ps) →
      (fb_rle_decompress mem' src dmem dst max_pixels).1.toInt = min (max max_pixels.toInt 0) (rleExpand ps).length ∧
        (fb_rle_decompress mem' src dmem dst max_pixels).2 =
          storeList dmem dst ((rleExpand ps).take max_pixels.toInt.toNat) := by
    intro mem' hat'
    have hmax := Int32.toInt_lt max_pixels
    unfold fb_rle_decompress
    rw [if_neg (by omega)]
    obtain ⟨h₁, h₂⟩ := rleLoop_spec mem' dst max_pixels ps (2 ^ 31) src 0 dmem hat' (by simp)
      (by simp only [Int32.toInt_zero]; omega)
    simp only [Int32.toInt_zero, Int.sub_zero, Int.toNat_zero, Nat.add_zero] at h₁ h₂
    exact ⟨by rw [h₁]; omega, h₂⟩
  obtain ⟨h₁, h₂⟩ := key mem hat
  refine ⟨h₁, h₂, fun k hk => ?_, fun mem' hat' => ?_⟩
  · rw [h₂]
    exact storeList_of_le (by rw [List.length_take]; omega)
  · obtain ⟨h₁', h₂'⟩ := key mem' hat'
    exact Prod.ext (Int32.toInt_inj.mp (h₁'.trans h₁.symm)) (h₂'.trans h₂.symm)

/-- A run of three `1`s and the literal pixels `5` and `6`. -/
def rleSample : List Packet :=
  [.run 2 (by decide) (1, 0, 0, 0), .lit [(5, 0, 0, 0), (6, 0, 0, 0)] (by decide) (by decide)]

/-- Decoded from address `1` with a budget of four pixels, the sample gives
    `1, 1, 1, 5` and stops before the `6`. -/
theorem fb_rle_decompress_sample :
    (fb_rle_decompress (fun i => (rleBytes rleSample).getD (i - 1) 0) 1 (fun _ => 0) 1 4).1.toInt = 4 ∧
      (fb_rle_decompress (fun i => (rleBytes rleSample).getD (i - 1) 0) 1 (fun _ => 0) 1 4).2 4 = 5 ∧
      (fb_rle_decompress (fun i => (rleBytes rleSample).getD (i - 1) 0) 1 (fun _ => 0) 1 4).2 5 = 0 := by
  obtain ⟨h₁, h₂, -, -⟩ :=
    fb_rle_decompress_spec rleSample (show (1 : Nat) ≠ 0 by decide) (listAt_getD _ _ _) (fun _ => 0)
      (show (1 : Nat) ≠ 0 by decide) 4
  refine ⟨h₁.trans (by decide), ?_, ?_⟩ <;> rw [h₂] <;> decide

end Xv6.Dev
