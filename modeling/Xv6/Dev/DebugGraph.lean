import Mathlib
import Xv6.Lib.RingWindow

/-! # The debug sample ring (`debug_graph.c`)

    `dbg_record` stores a sample at `head`, moves `head` on modulo
    `DBG_SAMPLES` and counts up to `DBG_SAMPLES`; `dbg_clear` and the first
    `dbg_init` empty the ring; `dbg_dump_ascii` reads `count` samples from
    `(head - count + DBG_SAMPLES) % DBG_SAMPLES` on.  Each call holds
    `dbg_lock` throughout, so calls are steps of one state machine, and a
    run is a list of calls from the statics at boot.

    The samples recorded since the last clear are `recorded calls`.
    `DbgInv` ties the statics to them through `RingWindow.window`: `head`
    and `count` are their number modulo and capped at `DBG_SAMPLES`, and
    the last `count` of them sit in the ring in order.

    * `DbgInv.step`, `dbgRun_inv`: every call keeps `DbgInv`;
    * `DbgInv.dumpIndices_eq`, `DbgInv.dumpSamples_eq`: the dump reads the
      slots of the last `count` samples, each once, and finds them there;
    * `dbg_ring_dump`: for every run.

    The bars `dbg_dump_ascii` prints (`maxv`, `len`) are a function of the
    samples it reads and are left out. -/

namespace Xv6.Dev

open RingWindow

/-- `DBG_SAMPLES`. -/
def DBG_SAMPLES : Nat := 128

instance : NeZero DBG_SAMPLES := ⟨by decide⟩

/-- `struct dbg_sample`: the tick and the value. -/
structure DbgSample where
  when : Nat
  value : Int32
deriving DecidableEq

/-- A sample as the reset loops leave it. -/
def DbgSample.zero : DbgSample := ⟨0, 0⟩

/-- The statics `samples`, `head`, `count` and `dbg_inited`. -/
structure DbgState where
  samples : Nat → DbgSample
  head : Nat
  count : Nat
  inited : Bool

/-- The statics at boot, all zero. -/
def dbgBoot : DbgState := ⟨fun _ => .zero, 0, 0, false⟩

/-- The reset of `dbg_init` and `dbg_clear`. -/
def dbgReset (s : DbgState) : DbgState :=
  { s with samples := fun _ => .zero, head := 0, count := 0 }

/-- `dbg_init()`. -/
def dbg_init (s : DbgState) : DbgState :=
  if s.inited then s else { dbgReset s with inited := true }

/-- `dbg_clear()`. -/
def dbg_clear (s : DbgState) : DbgState := dbgReset s

/-- `dbg_record(value)` at tick `ticks`. -/
def dbg_record (ticks : Nat) (value : Int32) (s : DbgState) : DbgState :=
  let s := dbg_init s
  { s with
    samples := Function.update s.samples s.head ⟨ticks, value⟩
    head := (s.head + 1) % DBG_SAMPLES
    count := if s.count < DBG_SAMPLES then s.count + 1 else s.count }

/-- `idx_start` of `dbg_dump_ascii`, an `int` (C's `%` truncates). -/
def idxStart (s : DbgState) : Int := ((s.head : Int) - s.count + DBG_SAMPLES).tmod DBG_SAMPLES

/-- The indices `idx` both loops of `dbg_dump_ascii` read, in order. -/
def dumpIndices (s : DbgState) : List Int :=
  (List.range s.count).map fun i : Nat => (idxStart s + i).tmod DBG_SAMPLES

/-- The samples they read. -/
def dumpSamples (s : DbgState) : List DbgSample :=
  (dumpIndices s).map fun idx => s.samples idx.toNat

/-- `dbg_dump_ascii()`: the statics after its `dbg_init`, and the samples
    printed, one line each (none for "no samples"). -/
def dbg_dump_ascii (s : DbgState) : DbgState × List DbgSample :=
  let s := dbg_init s
  (s, dumpSamples s)

/-- The calls of the interface. -/
inductive DbgCall where
  | init
  | clear
  | record (ticks : Nat) (value : Int32)
  | dump

/-- One call, under `dbg_lock`. -/
def dbgStep (s : DbgState) : DbgCall → DbgState
  | .init => dbg_init s
  | .clear => dbg_clear s
  | .record ticks value => dbg_record ticks value s
  | .dump => (dbg_dump_ascii s).1

/-- A run of calls. -/
def dbgRun (calls : List DbgCall) (s : DbgState) : DbgState := calls.foldl dbgStep s

/-- The samples recorded since the last clear, oldest first. -/
def recordedAfter (L : List DbgSample) : DbgCall → List DbgSample
  | .clear => []
  | .record ticks value => L ++ [⟨ticks, value⟩]
  | _ => L

/-- The samples a run records after its last clear. -/
def recorded (calls : List DbgCall) : List DbgSample := calls.foldl recordedAfter []

/-! ## The invariant -/

/-- The ring as `RingWindow` sees it. -/
def slots (s : DbgState) : Fin DBG_SAMPLES → DbgSample := fun i => s.samples i

/-- The statics hold the samples `L` recorded since the last reset:
    `head` and `count` are `L`'s length modulo and capped at
    `DBG_SAMPLES`, and the ring holds the last `count` of them in order. -/
structure DbgInv (s : DbgState) (L : List DbgSample) : Prop where
  head : s.head = L.length % DBG_SAMPLES
  count : s.count = min L.length DBG_SAMPLES
  window : window (slots s) (L.length - s.count) s.count = L.drop (L.length - s.count)
  boot : s.inited = false → L = []

section Steps

variable {s : DbgState} {L : List DbgSample}

theorem dbgInv_reset (inited : Bool) : DbgInv { dbgReset s with inited } [] :=
  ⟨rfl, rfl, rfl, fun _ => rfl⟩

theorem dbgInv_boot : DbgInv dbgBoot [] := dbgInv_reset (s := dbgBoot) false

theorem DbgInv.init (h : DbgInv s L) : DbgInv (dbg_init s) L := by
  unfold dbg_init
  split
  · exact h
  · next hi =>
    rw [h.boot (by simpa using hi)]
    exact dbgInv_reset true

theorem dbg_init_inited (s : DbgState) : (dbg_init s).inited = true := by
  unfold dbg_init
  split
  · assumption
  · rfl

/-- **RECORD**: a sample stored at `head` is the newest of the ring; a
    full ring loses its oldest. -/
theorem DbgInv.store (h : DbgInv s L) (hin : s.inited = true) (ticks : Nat) (value : Int32) :
    DbgInv { s with
      samples := Function.update s.samples s.head ⟨ticks, value⟩
      head := (s.head + 1) % DBG_SAMPLES
      count := if s.count < DBG_SAMPLES then s.count + 1 else s.count } (L ++ [⟨ticks, value⟩]) := by
  obtain ⟨hhead, hcount, hwin, -⟩ := h
  -- the slot written is the slot after the queue
  have hstore : (fun i : Fin DBG_SAMPLES => Function.update s.samples s.head (⟨ticks, value⟩ : DbgSample) i) =
      Function.update (slots s) (slot DBG_SAMPLES (L.length - s.count + s.count)) ⟨ticks, value⟩ := by
    funext i
    have hiff : (i : Nat) = s.head ↔ i = slot DBG_SAMPLES (L.length - s.count + s.count) := by
      rw [Fin.ext_iff, show L.length - s.count + s.count = L.length by omega, hhead]
      rfl
    simp only [Function.update_apply, slots, hiff]
  refine ⟨?_, ?_, ?_, fun h' => absurd h' (by simp [hin])⟩
  · simp only [List.length_append, List.length_singleton, hhead]
    unfold DBG_SAMPLES
    omega
  · simp only [List.length_append, List.length_singleton, hcount]
    unfold DBG_SAMPLES
    split <;> omega
  · simp only [List.length_append, List.length_singleton]
    by_cases hfull : s.count < DBG_SAMPLES
    · -- a queue shorter than the ring grows
      have hstart : L.length + 1 - (s.count + 1) = L.length - s.count := by omega
      simp only [if_pos hfull]
      unfold slots
      dsimp only
      rw [hstart, hstore, window_store hfull, hwin, List.drop_append_of_le_length (by omega)]
    · -- a full ring drops its oldest sample
      have hN : s.count = DBG_SAMPLES := by omega
      have hstart : L.length + 1 - s.count = L.length - s.count + 1 := by omega
      simp only [if_neg hfull]
      unfold slots
      dsimp only
      have hle : L.length - DBG_SAMPLES + 1 ≤ L.length := by
        have : 0 < DBG_SAMPLES := by decide
        omega
      rw [hN] at hwin
      rw [hstart, hstore, hN, window_store_full, hwin, List.drop_append_of_le_length hle, List.tail_drop]

theorem DbgInv.record (h : DbgInv s L) (ticks : Nat) (value : Int32) :
    DbgInv (dbg_record ticks value s) (L ++ [⟨ticks, value⟩]) :=
  h.init.store (dbg_init_inited s) ticks value

theorem DbgInv.step (h : DbgInv s L) : ∀ c, DbgInv (dbgStep s c) (recordedAfter L c)
  | .init => h.init
  | .clear => dbgInv_reset (s := s) s.inited
  | .record ticks value => h.record ticks value
  | .dump => h.init

/-- Every run from a state the invariant holds in keeps it. -/
theorem dbgRun_inv : ∀ (calls : List DbgCall) {s : DbgState} {L : List DbgSample}, DbgInv s L →
    DbgInv (dbgRun calls s) (calls.foldl recordedAfter L)
  | [], _, _, h => h
  | c :: calls, _, _, h => dbgRun_inv calls (h.step c)

end Steps

/-! ## What the dump reads -/

section Dump

variable {s : DbgState} {L : List DbgSample}

/-- The start of the dump is the slot of the oldest sample held. -/
theorem DbgInv.idxStart_eq (h : DbgInv s L) :
    idxStart s = (((L.length - s.count) % DBG_SAMPLES : Nat) : Int) := by
  have hc := h.count
  have hh := h.head
  unfold idxStart
  rw [Int.tmod_eq_emod_of_nonneg (by omega), Int.natCast_emod]
  unfold DBG_SAMPLES at *
  omega

/-- **VISITS**: the dump reads the slots of the last `count` samples, in
    order. -/
theorem DbgInv.dumpIndices_eq (h : DbgInv s L) :
    dumpIndices s = (List.range s.count).map fun i => (((L.length - s.count + i) % DBG_SAMPLES : Nat) : Int) := by
  unfold dumpIndices
  refine List.map_congr_left fun i _ => ?_
  rw [h.idxStart_eq, Int.tmod_eq_emod_of_nonneg (by omega), Int.natCast_emod, Int.natCast_emod]
  push_cast
  rw [Int.emod_add_emod]

theorem DbgInv.dumpIndices_nodup (h : DbgInv s L) : (dumpIndices s).Nodup := by
  rw [h.dumpIndices_eq]
  refine List.Nodup.map_on (fun i hi j hj hij => ?_) List.nodup_range
  have hi' := List.mem_range.mp hi
  have hj' := List.mem_range.mp hj
  have hc := h.count
  have hij' := Int.ofNat.inj hij
  unfold DBG_SAMPLES at *
  omega

theorem DbgInv.dumpIndices_bounds (h : DbgInv s L) : ∀ idx ∈ dumpIndices s, 0 ≤ idx ∧ idx < DBG_SAMPLES := by
  rw [h.dumpIndices_eq]
  intro idx hidx
  obtain ⟨i, -, rfl⟩ := List.mem_map.mp hidx
  exact ⟨Int.natCast_nonneg _, Int.ofNat_lt.mpr (Nat.mod_lt _ (by decide))⟩

/-- **READS**: the samples the dump reads are the last `count` recorded,
    oldest first. -/
theorem DbgInv.dumpSamples_eq (h : DbgInv s L) : dumpSamples s = L.drop (L.length - s.count) := by
  rw [← h.window, window_eq_map_range, dumpSamples, h.dumpIndices_eq, List.map_map]
  rfl

end Dump

/-- **DEBUG RING**: after every run of `dbg_record`, `dbg_clear`,
    `dbg_init` and `dbg_dump_ascii` calls from boot, with `k` samples
    recorded since the last clear, `head = k % DBG_SAMPLES` and
    `count = min k DBG_SAMPLES`; the start index `head - count +
    DBG_SAMPLES` is not negative; the dump reads the indices
    `(head - count + DBG_SAMPLES + i) % DBG_SAMPLES` for `i < count`, each
    once and each in `[0, DBG_SAMPLES)`, and `dbg_dump_ascii` prints the
    last `count` samples recorded, in the order they were recorded. -/
theorem dbg_ring_dump (calls : List DbgCall) :
    (dbgRun calls dbgBoot).head = (recorded calls).length % DBG_SAMPLES ∧
      (dbgRun calls dbgBoot).count = min (recorded calls).length DBG_SAMPLES ∧
      0 ≤ ((dbgRun calls dbgBoot).head : Int) - (dbgRun calls dbgBoot).count + DBG_SAMPLES ∧
      dumpIndices (dbgRun calls dbgBoot) = (List.range (dbgRun calls dbgBoot).count).map
        (fun i : Nat => ((dbgRun calls dbgBoot).head + DBG_SAMPLES - (dbgRun calls dbgBoot).count + i : Int) %
          DBG_SAMPLES) ∧
      (dumpIndices (dbgRun calls dbgBoot)).Nodup ∧
      (∀ idx ∈ dumpIndices (dbgRun calls dbgBoot), 0 ≤ idx ∧ idx < DBG_SAMPLES) ∧
      (dbg_dump_ascii (dbgRun calls dbgBoot)).2 =
        (recorded calls).drop ((recorded calls).length - (dbgRun calls dbgBoot).count) := by
  have h := dbgRun_inv calls dbgInv_boot
  have hc := h.count
  have hh := h.head
  -- the dump reads the ring after its own `dbg_init`, which keeps the invariant
  have hout : (dbg_dump_ascii (dbgRun calls dbgBoot)).2 =
      (recorded calls).drop ((recorded calls).length - (dbgRun calls dbgBoot).count) := by
    have hi := h.init
    rw [show (dbg_dump_ascii (dbgRun calls dbgBoot)).2 = dumpSamples (dbg_init (dbgRun calls dbgBoot)) from rfl,
      hi.dumpSamples_eq, hi.count, hc]
    rfl
  refine ⟨hh, hc, by omega, ?_, h.dumpIndices_nodup, h.dumpIndices_bounds, hout⟩
  rw [h.dumpIndices_eq]
  refine List.map_congr_left fun i _ => ?_
  rw [Int.natCast_emod]
  push_cast
  unfold DBG_SAMPLES at *
  omega

end Xv6.Dev
