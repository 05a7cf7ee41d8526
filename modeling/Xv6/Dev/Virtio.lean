import Mathlib

/-! # Descriptor accounting of the virtio disk (`kernel/virtio_disk.c`)

    A request of `virtio_disk_rw` takes three of the `NUM` descriptors with
    `alloc3_desc`, formats them as a chain linked by `VRING_DESC_F_NEXT`,
    names its buffer in `info[]` at the chain's head and gives the head to
    the device; it sleeps until `virtio_disk_intr` sees the head in the used
    ring and clears `b->disk`, then frees the chain with `free_chain`.

    Each piece of code between two sleeps runs under `vdisk_lock`, so a run
    of the driver is a sequence of `Event`s: a call, a round of the
    allocation loop, the end of a call, the device using a chain it was
    given, and an interrupt.  The device is assumed to return each chain
    head it is given once, with a zero status: it takes an entry of the
    available ring and puts it in the used ring.  The rings are modelled as
    the queues of heads between the indices, not as arrays of `NUM` slots.

    * `alloc3_desc_spec`: three distinct free descriptors taken, or none and
      every one taken on the way given back;
    * `free_chain_spec`: a chain formatted as `virtio_disk_rw` does is freed
      exactly, by following `VRING_DESC_F_NEXT`;
    * `step_inv`: every event keeps `Inv`, and none panics where it holds;
    * `virtio_descriptors`: in every reachable state no event panics and
      every descriptor is free or in exactly one request's chain. -/

namespace Xv6.Dev.Virtio

/-- `NUM`: the descriptors of the queue. -/
def NUM : Nat := 8

/-- `VRING_DESC_F_NEXT`: the chain goes on at `next`. -/
def VRING_DESC_F_NEXT : Nat := 1

/-- `VRING_DESC_F_WRITE`: the device writes the buffer. -/
def VRING_DESC_F_WRITE : Nat := 2

/-- `struct virtq_desc`: the fields the driver reads back. -/
structure Desc where
  flags : Nat
  next : Nat
  deriving DecidableEq

/-- The state of `disk` that descriptor accounting reads and writes, with
    the `b->disk` flag of every buffer.  `avail` holds the heads the driver
    has put in the available ring and the device has not taken, `used` those
    the device has put in the used ring past `used_idx`. -/
structure Disk where
  desc : Nat → Desc
  free : Nat → Bool
  info : Nat → Option Nat
  status : Nat → Nat
  busy : Nat → Bool
  avail : List Nat
  used : List Nat

/-! ## The code -/

/-- `alloc_desc()`: the first free descriptor, now taken; `none` for `-1`. -/
def alloc_desc (d : Disk) : Option Nat × Disk :=
  match (List.range NUM).find? (d.free ·) with
  | some i => (some i, { d with free := Function.update d.free i false })
  | none => (none, d)

/-- `free_desc(i)`. -/
def free_desc (d : Disk) (i : Nat) : Except String Disk :=
  if NUM ≤ i then .error "free_desc 1"
  else if d.free i then .error "free_desc 2"
  else .ok { d with desc := Function.update d.desc i ⟨0, 0⟩, free := Function.update d.free i true }

/-- The descriptors taken: what `free_chain`'s loop uses up. -/
def Disk.taken (d : Disk) : Nat := (List.range NUM).countP fun j => !d.free j

theorem countP_update_lt {f : Nat → Bool} {i : Nat} (hf : f i = false) :
    ∀ {l : List Nat}, l.Nodup → i ∈ l →
      l.countP (fun j => !Function.update f i true j) < l.countP fun j => !f j
  | a :: l, hnd, hi => by
    rw [List.nodup_cons] at hnd
    rw [List.countP_cons, List.countP_cons]
    by_cases ha : a = i
    · subst ha
      have hsame : l.countP (fun j => !Function.update f a true j) = l.countP fun j => !f j :=
        List.countP_congr fun j hj => by rw [Function.update_of_ne (fun h : j = a => hnd.1 (h ▸ hj))]
      simp [hsame, hf]
    · have hl : i ∈ l := (List.mem_cons.mp hi).resolve_left (Ne.symm ha)
      have := countP_update_lt hf hnd.2 hl
      rw [Function.update_of_ne ha]
      omega

theorem free_desc_taken {d d' : Disk} {i : Nat} (h : free_desc d i = .ok d') :
    d'.taken < d.taken := by
  unfold free_desc at h
  split_ifs at h with h1 h2
  cases h
  exact countP_update_lt (by simpa using h2) List.nodup_range (List.mem_range.mpr (by omega))

/-- `free_chain(i)`: free `i`, and go on at `next` while `flags` has
    `VRING_DESC_F_NEXT`; both are read before `free_desc` clears them. -/
def free_chain (d : Disk) (i : Nat) : Except String Disk :=
  match _h : free_desc d i with
  | .error e => .error e
  | .ok d' =>
    if (d.desc i).flags &&& VRING_DESC_F_NEXT ≠ 0 then free_chain d' (d.desc i).next else .ok d'
termination_by d.taken
decreasing_by exact free_desc_taken _h

/-- `for(j = 0; j < i; j++) free_desc(idx[j]);` -/
def freeEach (d : Disk) : List Nat → Except String Disk
  | [] => .ok d
  | j :: js => (free_desc d j).bind fun d' => freeEach d' js

/-- The loop of `alloc3_desc`, `n` descriptors still to take after `idx`. -/
def allocLoop : Nat → List Nat → Disk → Except String (Option (List Nat) × Disk)
  | 0, idx, d => .ok (some idx, d)
  | n + 1, idx, d =>
    match alloc_desc d with
    | (some i, d') => allocLoop n (idx ++ [i]) d'
    | (none, d') => (freeEach d' idx).map fun d'' => (none, d'')

/-- `alloc3_desc(idx)`: the three descriptors, or `none` for `-1`. -/
def alloc3_desc (d : Disk) : Except String (Option (List Nat) × Disk) :=
  allocLoop 3 [] d

/-- What `virtio_disk_rw(b, write)` does between taking the chain `idx` and
    its sleep on `b`: format the three descriptors, record `b` at the head,
    and give the head to the device. -/
def submit (d : Disk) (b : Nat) (write : Bool) (idx : List Nat) : Disk :=
  let i0 := idx.getD 0 0
  let i1 := idx.getD 1 0
  let i2 := idx.getD 2 0
  { d with
    desc := Function.update (Function.update (Function.update d.desc
      i0 ⟨VRING_DESC_F_NEXT, i1⟩)
      i1 ⟨(if write then 0 else VRING_DESC_F_WRITE) ||| VRING_DESC_F_NEXT, i2⟩)
      i2 ⟨VRING_DESC_F_WRITE, 0⟩
    status := Function.update d.status i0 0xff
    busy := Function.update d.busy b true
    info := Function.update d.info i0 (some b)
    avail := d.avail ++ [i0] }

/-- Where a call of `virtio_disk_rw` stands, for each buffer. -/
inductive Phase where
  /-- no call for the buffer -/
  | idle
  /-- in the loop that allocates, or asleep in it on `disk.free[0]` -/
  | alloc (write : Bool)
  /-- asleep in `while(b->disk == 1)`, holding the chain `idx` -/
  | wait (idx : List Nat)
  deriving DecidableEq

/-- A round of the allocation loop of `virtio_disk_rw(b, write)`, and the
    rest of the call up to its sleep on `b` once it has its chain. -/
def rwAlloc (d : Disk) (b : Nat) (write : Bool) : Except String (Disk × Phase) :=
  (alloc3_desc d).map fun r =>
    match r.1 with
    | some idx => (submit r.2 b write idx, .wait idx)
    | none => (r.2, .alloc write)

/-- The end of `virtio_disk_rw` on the chain `idx`, once `b->disk` is 0. -/
def rwFinish (d : Disk) (idx : List Nat) : Except String Disk :=
  free_chain { d with info := Function.update d.info (idx.getD 0 0) none } (idx.getD 0 0)

/-- The loop of `virtio_disk_intr` over the used entries `ids`: each names
    the buffer at its head done.  A null `b` would fault in the kernel. -/
def intrLoop (d : Disk) : List Nat → Except String Disk
  | [] => .ok d
  | id :: ids =>
    if d.status id ≠ 0 then .error "virtio_disk_intr status"
    else
      match d.info id with
      | some b => intrLoop { d with busy := Function.update d.busy b false } ids
      | none => .error "kerneltrap"

/-- `virtio_disk_intr()`: every entry of the used ring is seen. -/
def virtio_disk_intr (d : Disk) : Except String Disk :=
  (intrLoop d d.used).map fun d' => { d' with used := [] }

/-- The device uses the `k`th chain of the available ring: it writes a zero
    status at the head and puts the head in the used ring. -/
def deviceUse (d : Disk) (k : Nat) : Option Disk :=
  match d.avail[k]? with
  | some h =>
    some { d with
      avail := d.avail.eraseIdx k
      used := d.used ++ [h]
      status := Function.update d.status h 0 }
  | none => none

/-- The driver and the calls of `virtio_disk_rw` in progress. -/
structure Sys where
  disk : Disk
  phase : Nat → Phase

/-- A piece of the driver's run. -/
inductive Event where
  /-- a process holding buffer `b` calls `virtio_disk_rw(b, write)` -/
  | call (b : Nat) (write : Bool)
  /-- the call for `b` runs its allocation loop once -/
  | alloc (b : Nat)
  /-- the call for `b` wakes with `b->disk` 0 and ends -/
  | finish (b : Nat)
  /-- the device completes the `k`th request of the available ring -/
  | use (k : Nat)
  /-- `virtio_disk_intr` -/
  | intr

/-- An event from `s`: `none` if it cannot happen there, an error if it
    panics. -/
def step (s : Sys) : Event → Option (Except String Sys)
  | .call b write =>
    if s.phase b = .idle then some (.ok { s with phase := Function.update s.phase b (.alloc write) })
    else none
  | .alloc b =>
    match s.phase b with
    | .alloc write =>
      some ((rwAlloc s.disk b write).map fun r =>
        { disk := r.1, phase := Function.update s.phase b r.2 })
    | _ => none
  | .finish b =>
    match s.phase b with
    | .wait idx =>
      if s.disk.busy b then none
      else
        some ((rwFinish s.disk idx).map fun d =>
          { disk := d, phase := Function.update s.phase b .idle })
    | _ => none
  | .use k => (deviceUse s.disk k).map fun d => .ok { s with disk := d }
  | .intr => some ((virtio_disk_intr s.disk).map fun d => { s with disk := d })

/-- After `virtio_disk_init`: every descriptor free, no call in progress. -/
def init : Sys where
  disk := { desc := fun _ => ⟨0, 0⟩, free := fun _ => true, info := fun _ => none,
            status := fun _ => 0, busy := fun _ => false, avail := [], used := [] }
  phase := fun _ => .idle

/-- The states a run of the driver reaches. -/
inductive Reachable : Sys → Prop where
  | init : Reachable init
  | step {s s' : Sys} (e : Event) : Reachable s → step s e = some (.ok s') → Reachable s'

/-! ## Taking and freeing descriptors -/

/-- `d` with the descriptors of `S` marked taken. -/
def Disk.take (d : Disk) (S : List Nat) : Disk :=
  { d with free := fun j => if j ∈ S then false else d.free j }

/-- `d` with the descriptors of `S` cleared and marked free, as
    `free_desc` leaves them. -/
def Disk.release (d : Disk) (S : List Nat) : Disk :=
  { d with
    desc := fun j => if j ∈ S then ⟨0, 0⟩ else d.desc j
    free := fun j => if j ∈ S then true else d.free j }

section Release

variable {d : Disk} {S : List Nat} {j : Nat}

@[simp] theorem take_nil (d : Disk) : d.take [] = d := rfl

theorem take_free_of_not_mem (h : j ∉ S) : (d.take S).free j = d.free j := if_neg h

theorem release_free_of_not_mem (h : j ∉ S) : (d.release S).free j = d.free j := if_neg h

theorem release_desc_of_not_mem (h : j ∉ S) : (d.release S).desc j = d.desc j := if_neg h

theorem release_free_of_mem (h : j ∈ S) : (d.release S).free j = true := if_pos h

/-- Taking `S` and freeing it again leaves only the cleared descriptors. -/
theorem take_release (d : Disk) (S : List Nat) : (d.take S).release S = d.release S := by
  unfold Disk.take Disk.release
  congr 1
  funext j
  by_cases hj : j ∈ S <;> simp [hj]

theorem release_append (d : Disk) (S T : List Nat) :
    (d.release S).release T = d.release (S ++ T) := by
  unfold Disk.release
  congr 1 <;> funext j <;> by_cases hj : j ∈ T <;> by_cases hi : j ∈ S <;> simp [hj, hi]

/-- Freeing descriptors that are free gives none back that was taken. -/
theorem release_free (hS : ∀ j ∈ S, d.free j = true) : (d.release S).free = d.free := by
  funext j
  by_cases hj : j ∈ S
  · rw [release_free_of_mem hj, hS j hj]
  · exact release_free_of_not_mem hj

end Release

/-! ## `alloc3_desc` -/

theorem alloc_desc_some {d d' : Disk} {i : Nat} (h : alloc_desc d = (some i, d')) :
    i < NUM ∧ d.free i = true ∧ d' = { d with free := Function.update d.free i false } := by
  unfold alloc_desc at h
  split at h
  · rename_i j hj
    simp only [Prod.mk.injEq, Option.some.injEq] at h
    obtain ⟨rfl, rfl⟩ := h
    exact ⟨List.mem_range.mp (List.mem_of_find?_eq_some hj), List.find?_some hj, rfl⟩
  · cases h

theorem alloc_desc_none {d d' : Disk} (h : alloc_desc d = (none, d')) : d' = d := by
  unfold alloc_desc at h
  split at h
  · cases h
  · exact (Prod.mk.inj h).2.symm

theorem free_desc_ok {d : Disk} {i : Nat} (hi : i < NUM) (hf : d.free i = false) :
    free_desc d i = .ok (d.release [i]) := by
  rw [free_desc, if_neg (by omega), if_neg (by simp [hf])]
  congr 1
  unfold Disk.release
  congr 1 <;> funext j <;> by_cases hj : j = i <;> simp [hj]

/-- Freeing distinct taken descriptors one by one frees them all. -/
theorem freeEach_ok : ∀ {d : Disk} {S : List Nat}, S.Nodup →
    (∀ j ∈ S, j < NUM ∧ d.free j = false) → freeEach d S = .ok (d.release S)
  | d, [], _, _ => by
    unfold Disk.release
    simp [freeEach]
  | d, i :: S, hnd, hS => by
    rw [List.nodup_cons] at hnd
    have hi := hS i List.mem_cons_self
    have hrest : ∀ j ∈ S, j < NUM ∧ (d.release [i]).free j = false := fun j hj => by
      have hji : j ∉ [i] := by simpa using fun h : j = i => hnd.1 (h ▸ hj)
      rw [release_free_of_not_mem hji]
      exact hS j (List.mem_cons_of_mem _ hj)
    rw [freeEach, free_desc_ok hi.1 hi.2, Except.bind, freeEach_ok hnd.2 hrest, release_append,
      List.singleton_append]

/-- The loop of `alloc3_desc` from the descriptors `idx` it has taken:
    it takes `n` more, or gives back the ones it took and those of `idx`. -/
theorem allocLoop_spec (d : Disk) : ∀ (n : Nat) (idx : List Nat), idx.Nodup →
    (∀ j ∈ idx, j < NUM ∧ d.free j = true) →
    (∃ idx', idx'.length = idx.length + n ∧ idx'.Nodup ∧
      (∀ j ∈ idx', j < NUM ∧ d.free j = true) ∧
      allocLoop n idx (d.take idx) = .ok (some idx', d.take idx')) ∨
    (∃ S, (∀ j ∈ S, j < NUM ∧ d.free j = true) ∧
      allocLoop n idx (d.take idx) = .ok (none, d.release S))
  | 0, idx, hnd, hidx => .inl ⟨idx, rfl, hnd, hidx, rfl⟩
  | n + 1, idx, hnd, hidx => by
    rw [allocLoop]
    cases ha : alloc_desc (d.take idx) with
    | mk r d' =>
      cases r with
      | none =>
        -- no free descriptor: give back those of `idx`
        rw [alloc_desc_none ha]
        refine .inr ⟨idx, hidx, ?_⟩
        have htaken : ∀ j ∈ idx, j < NUM ∧ (d.take idx).free j = false := fun j hj =>
          ⟨(hidx j hj).1, if_pos hj⟩
        simp only [freeEach_ok hnd htaken, take_release, Except.map]
      | some i =>
        obtain ⟨hi, hfree, rfl⟩ := alloc_desc_some ha
        have hnot : i ∉ idx := fun h => by simp [Disk.take, h] at hfree
        have hfree' : d.free i = true := by rwa [take_free_of_not_mem hnot] at hfree
        have hnd' : (idx ++ [i]).Nodup := List.nodup_append.mpr ⟨hnd,
          List.nodup_cons.mpr ⟨List.not_mem_nil, List.nodup_nil⟩,
          fun a ha b hb => by rw [List.mem_singleton.mp hb]; exact fun h => hnot (h ▸ ha)⟩
        have hidx' : ∀ j ∈ idx ++ [i], j < NUM ∧ d.free j = true := by
          intro j hj
          rcases List.mem_append.mp hj with hj | hj
          · exact hidx j hj
          · rw [List.mem_singleton.mp hj]
            exact ⟨hi, hfree'⟩
        have hstep : { d.take idx with free := Function.update (d.take idx).free i false } =
            d.take (idx ++ [i]) := by
          dsimp only [Disk.take]
          congr 1
          funext j
          by_cases hj : j = i <;> simp [hj]
        rw [hstep]
        rcases allocLoop_spec d n (idx ++ [i]) hnd' hidx' with ⟨idx', hlen, h⟩ | h
        · exact .inl ⟨idx', by simp [hlen]; omega, h⟩
        · exact .inr h

/-- `alloc3_desc` never panics: it takes three distinct free descriptors,
    or none, having given back every descriptor it took on the way. -/
theorem alloc3_desc_spec (d : Disk) :
    (∃ i0 i1 i2, [i0, i1, i2].Nodup ∧ (∀ j ∈ [i0, i1, i2], j < NUM ∧ d.free j = true) ∧
      alloc3_desc d = .ok (some [i0, i1, i2], d.take [i0, i1, i2])) ∨
    (∃ S, (∀ j ∈ S, j < NUM ∧ d.free j = true) ∧ alloc3_desc d = .ok (none, d.release S)) := by
  rcases allocLoop_spec d 3 [] List.nodup_nil (by simp) with ⟨idx, hlen, hnd, hidx, h⟩ | h
  · match idx, hlen with
    | [i0, i1, i2], _ => exact .inl ⟨i0, i1, i2, hnd, hidx, h⟩
  · exact .inr h

/-! ## `free_chain` -/

/-- A chain as `virtio_disk_rw` formats it: three distinct taken
    descriptors, the first two linked on by `VRING_DESC_F_NEXT`, the last
    without it. -/
structure Chain (d : Disk) (i0 i1 i2 : Nat) : Prop where
  nodup : [i0, i1, i2].Nodup
  lt : ∀ j ∈ [i0, i1, i2], j < NUM
  taken : ∀ j ∈ [i0, i1, i2], d.free j = false
  next0 : (d.desc i0).flags &&& VRING_DESC_F_NEXT ≠ 0
  link0 : (d.desc i0).next = i1
  next1 : (d.desc i1).flags &&& VRING_DESC_F_NEXT ≠ 0
  link1 : (d.desc i1).next = i2
  last : (d.desc i2).flags &&& VRING_DESC_F_NEXT = 0

/-- A chain stays formatted while its descriptors are left alone. -/
theorem Chain.frame {d d' : Disk} {i0 i1 i2 : Nat} (h : Chain d i0 i1 i2)
    (hfree : ∀ j ∈ [i0, i1, i2], d'.free j = d.free j)
    (hdesc : ∀ j ∈ [i0, i1, i2], d'.desc j = d.desc j) : Chain d' i0 i1 i2 where
  nodup := h.nodup
  lt := h.lt
  taken j hj := (hfree j hj).trans (h.taken j hj)
  next0 := by rw [hdesc i0 (by simp)]; exact h.next0
  link0 := by rw [hdesc i0 (by simp)]; exact h.link0
  next1 := by rw [hdesc i1 (by simp)]; exact h.next1
  link1 := by rw [hdesc i1 (by simp)]; exact h.link1
  last := by rw [hdesc i2 (by simp)]; exact h.last

theorem free_chain_next {d : Disk} {i : Nat} (hi : i < NUM) (hf : d.free i = false)
    (hn : (d.desc i).flags &&& VRING_DESC_F_NEXT ≠ 0) :
    free_chain d i = free_chain (d.release [i]) (d.desc i).next := by
  rw [free_chain]
  split
  · rename_i he
    rw [free_desc_ok hi hf] at he
    cases he
  · rename_i d' he
    rw [free_desc_ok hi hf] at he
    cases he
    rw [if_pos hn]

theorem free_chain_last {d : Disk} {i : Nat} (hi : i < NUM) (hf : d.free i = false)
    (hn : (d.desc i).flags &&& VRING_DESC_F_NEXT = 0) :
    free_chain d i = .ok (d.release [i]) := by
  rw [free_chain]
  split
  · rename_i he
    rw [free_desc_ok hi hf] at he
    cases he
  · rename_i d' he
    rw [free_desc_ok hi hf] at he
    cases he
    rw [if_neg (by omega)]

/-- `free_chain` frees exactly the descriptors of a formatted chain,
    following `VRING_DESC_F_NEXT` from its head. -/
theorem free_chain_spec {d : Disk} {i0 i1 i2 : Nat} (h : Chain d i0 i1 i2) :
    free_chain d i0 = .ok (d.release [i0, i1, i2]) := by
  have hnd := h.nodup
  simp only [List.nodup_cons, List.mem_cons, not_or, List.not_mem_nil, not_false_eq_true,
    List.nodup_nil, and_true] at hnd
  obtain ⟨⟨h01, h02⟩, h12⟩ := hnd
  -- after `i0`, the next two descriptors are as the chain left them
  have h1 : i1 ∉ [i0] := by simpa using Ne.symm h01
  have h2 : i2 ∉ [i0] ++ [i1] := by simpa using ⟨Ne.symm h02, Ne.symm h12⟩
  rw [free_chain_next (h.lt i0 (by simp)) (h.taken i0 (by simp)) h.next0, h.link0,
    free_chain_next (h.lt i1 (by simp)) (by rw [release_free_of_not_mem h1]; exact h.taken i1 (by simp))
      (by rw [release_desc_of_not_mem h1]; exact h.next1),
    release_desc_of_not_mem h1, h.link1, release_append,
    free_chain_last (h.lt i2 (by simp))
      (by rw [release_free_of_not_mem h2]; exact h.taken i2 (by simp))
      (by rw [release_desc_of_not_mem h2]; exact h.last),
    release_append]
  rfl

/-! ## `virtio_disk_intr` -/

/-- The buffers named at the heads `ids`. -/
def Disk.done (d : Disk) (ids : List Nat) (b : Nat) : Bool := ids.any fun id => d.info id = some b

theorem intrLoop_ok : ∀ {d : Disk} {ids : List Nat},
    (∀ id ∈ ids, d.status id = 0 ∧ (d.info id).isSome) →
      intrLoop d ids = .ok { d with busy := fun b => if d.done ids b then false else d.busy b }
  | d, [], _ => by simp [intrLoop, Disk.done]
  | d, id :: ids, h => by
    obtain ⟨hst, hinfo⟩ := h id List.mem_cons_self
    obtain ⟨b₀, hb₀⟩ := Option.isSome_iff_exists.mp hinfo
    rw [intrLoop, if_neg (by simp [hst]), hb₀]
    simp only
    rw [intrLoop_ok (d := { d with busy := Function.update d.busy b₀ false })
      fun id' hid' => h id' (List.mem_cons_of_mem _ hid')]
    congr 2
    funext b
    by_cases hb : b = b₀
    · simp [Disk.done, hb, hb₀]
    · simp [Disk.done, hb, Ne.symm hb, hb₀]

/-! ## A formatted request -/

section Submit

variable {d : Disk} {b : Nat} {write : Bool} {i0 i1 i2 j : Nat}

theorem submit_desc_of_not_mem (hj : j ∉ [i0, i1, i2]) :
    (submit d b write [i0, i1, i2]).desc j = d.desc j := by
  simp only [List.mem_cons, List.not_mem_nil, or_false, not_or] at hj
  simp [submit, Function.update_of_ne hj.1, Function.update_of_ne hj.2.1, Function.update_of_ne hj.2.2]

theorem submit_info (j : Nat) :
    (submit d b write [i0, i1, i2]).info j = if j = i0 then some b else d.info j := by
  simp [submit, Function.update_apply]

theorem submit_status (j : Nat) :
    (submit d b write [i0, i1, i2]).status j = if j = i0 then 0xff else d.status j := by
  simp [submit, Function.update_apply]

theorem submit_busy (b' : Nat) :
    (submit d b write [i0, i1, i2]).busy b' = if b' = b then true else d.busy b' := by
  simp [submit, Function.update_apply]

/-- `virtio_disk_rw` formats the three descriptors it took as a chain. -/
theorem submit_chain (hnd : [i0, i1, i2].Nodup) (hlt : ∀ j ∈ [i0, i1, i2], j < NUM)
    (htaken : ∀ j ∈ [i0, i1, i2], d.free j = false) :
    Chain (submit d b write [i0, i1, i2]) i0 i1 i2 := by
  have hnd' := hnd
  simp only [List.nodup_cons, List.mem_cons, not_or, List.not_mem_nil, not_false_eq_true,
    List.nodup_nil, and_true] at hnd'
  obtain ⟨⟨h01, h02⟩, h12⟩ := hnd'
  have hd0 : (submit d b write [i0, i1, i2]).desc i0 = ⟨VRING_DESC_F_NEXT, i1⟩ := by
    simp [submit, Function.update_of_ne h01, Function.update_of_ne h02]
  have hd1 : (submit d b write [i0, i1, i2]).desc i1 =
      ⟨(if write then 0 else VRING_DESC_F_WRITE) ||| VRING_DESC_F_NEXT, i2⟩ := by
    simp [submit, Function.update_of_ne h12]
  have hd2 : (submit d b write [i0, i1, i2]).desc i2 = ⟨VRING_DESC_F_WRITE, 0⟩ := by
    simp [submit]
  refine ⟨hnd, hlt, htaken, ?_, ?_, ?_, ?_, ?_⟩ <;> simp only [hd0, hd1, hd2] <;>
    cases write <;> decide

end Submit

theorem update_wait {phase : Nat → Phase} {b b' : Nat} {p : Phase} {idx : List Nat} :
    Function.update phase b p b' = .wait idx ↔
      (b' = b ∧ p = .wait idx) ∨ (b' ≠ b ∧ phase b' = .wait idx) := by
  by_cases h : b' = b
  · subst h
    simp
  · simp [h]

/-! ## The invariant -/

/-- What holds of the driver between events. -/
structure Inv (s : Sys) : Prop where
  /-- a waiting call holds a formatted chain, with its buffer at the head -/
  chain : ∀ b idx, s.phase b = .wait idx →
    ∃ i0 i1 i2, idx = [i0, i1, i2] ∧ Chain s.disk i0 i1 i2 ∧ s.disk.info i0 = some b
  /-- no two calls share a descriptor -/
  apart : ∀ b b' idx idx', s.phase b = .wait idx → s.phase b' = .wait idx' → b ≠ b' →
    ∀ i ∈ idx, i ∉ idx'
  /-- every taken descriptor is held by a waiting call -/
  owned : ∀ i < NUM, s.disk.free i = false → ∃ b idx, s.phase b = .wait idx ∧ i ∈ idx
  /-- a head in a ring is that of a waiting call whose buffer is at the disk -/
  ring : ∀ h ∈ s.disk.avail ++ s.disk.used,
    ∃ b idx, s.phase b = .wait idx ∧ idx.head? = some h ∧ s.disk.busy b = true
  /-- each head is in the rings once -/
  nodup : (s.disk.avail ++ s.disk.used).Nodup
  /-- the device wrote a zero status at each head it used -/
  status : ∀ h ∈ s.disk.used, s.disk.status h = 0

namespace Inv

variable {s : Sys} (hs : Inv s)
include hs

/-- A descriptor a waiting call holds is taken. -/
theorem taken_of_mem {b : Nat} {idx : List Nat} (hb : s.phase b = .wait idx) {i : Nat}
    (hi : i ∈ idx) : s.disk.free i = false := by
  obtain ⟨i0, i1, i2, rfl, hc, -⟩ := hs.chain b idx hb
  exact hc.taken i hi

/-- A free descriptor is held by no call. -/
theorem not_mem_of_free {i : Nat} (hi : s.disk.free i = true) {b : Nat} {idx : List Nat}
    (hb : s.phase b = .wait idx) : i ∉ idx := fun hm => by
  simp [hs.taken_of_mem hb hm] at hi

/-- A descriptor is held by one call at most. -/
theorem eq_of_mem {b b' : Nat} {idx idx' : List Nat} (hb : s.phase b = .wait idx)
    (hb' : s.phase b' = .wait idx') {i : Nat} (hi : i ∈ idx) (hi' : i ∈ idx') : b = b' :=
  Classical.byContradiction fun hne => hs.apart b b' idx idx' hb hb' hne i hi hi'

/-- A head in a ring is a taken descriptor, and `info[]` names the buffer
    of the call it heads. -/
theorem ring_info {h : Nat} (hh : h ∈ s.disk.avail ++ s.disk.used) :
    ∃ b idx, s.phase b = .wait idx ∧ idx.head? = some h ∧ s.disk.busy b = true ∧
      s.disk.info h = some b ∧ s.disk.free h = false := by
  obtain ⟨b, idx, hb, hhead, hbusy⟩ := hs.ring h hh
  obtain ⟨i0, i1, i2, rfl, hc, hinfo⟩ := hs.chain b _ hb
  cases hhead
  exact ⟨b, _, hb, rfl, hbusy, hinfo, hc.taken h (by simp)⟩

end Inv

theorem inv_init : Inv init where
  chain _ _ h := nomatch h
  apart _ _ _ _ h := nomatch h
  owned _ _ h := nomatch h
  ring _ h := nomatch h
  nodup := List.nodup_nil
  status _ h := nomatch h

/-- The calls' chains stay where descriptors and `info[]` stay. -/
theorem Inv.chain_frame {s : Sys} (hs : Inv s) {d : Disk} (hdesc : d.desc = s.disk.desc)
    (hfree : d.free = s.disk.free) (hinfo : d.info = s.disk.info) :
    ∀ b idx, s.phase b = .wait idx →
      ∃ i0 i1 i2, idx = [i0, i1, i2] ∧ Chain d i0 i1 i2 ∧ d.info i0 = some b := fun b idx hb => by
  obtain ⟨i0, i1, i2, rfl, hc, hb0⟩ := hs.chain b idx hb
  exact ⟨i0, i1, i2, rfl, hc.frame (fun j _ => by rw [hfree]) (fun j _ => by rw [hdesc]),
    by rw [hinfo]; exact hb0⟩

/-- A step that changes neither the disk nor which calls wait on what. -/
theorem Inv.of_waits {s s' : Sys} (hs : Inv s) (hd : s'.disk = s.disk)
    (hw : ∀ b idx, s'.phase b = .wait idx ↔ s.phase b = .wait idx) : Inv s' where
  chain b idx h := by rw [hd]; exact hs.chain b idx ((hw b idx).mp h)
  apart b b' idx idx' h h' := hs.apart b b' idx idx' ((hw b idx).mp h) ((hw b' idx').mp h')
  owned i hi hf := by
    rw [hd] at hf
    obtain ⟨b, idx, hb, hm⟩ := hs.owned i hi hf
    exact ⟨b, idx, (hw b idx).mpr hb, hm⟩
  ring h hh := by
    rw [hd] at hh ⊢
    obtain ⟨b, idx, hb, hhead, hbusy⟩ := hs.ring h hh
    exact ⟨b, idx, (hw b idx).mpr hb, hhead, hbusy⟩
  nodup := by rw [hd]; exact hs.nodup
  status h hh := by rw [hd] at hh ⊢; exact hs.status h hh

/-! ## Each event keeps the invariant -/

section Events

variable {s : Sys} (hs : Inv s)
include hs

theorem inv_call {b : Nat} (hb : s.phase b = .idle) (write : Bool) :
    Inv { s with phase := Function.update s.phase b (.alloc write) } :=
  hs.of_waits rfl fun b' idx => by
    rw [update_wait]
    constructor
    · rintro (⟨-, h⟩ | ⟨-, h⟩)
      · cases h
      · exact h
    · intro h
      refine .inr ⟨fun he => ?_, h⟩
      rw [he, hb] at h
      cases h

/-- The allocation loop gave back what it took and sleeps. -/
theorem inv_sleep {S : List Nat} (hS : ∀ j ∈ S, j < NUM ∧ s.disk.free j = true) :
    Inv { s with disk := s.disk.release S } := by
  -- the descriptors of `S` are free, so no call holds one
  have hout : ∀ b idx, s.phase b = .wait idx → ∀ j ∈ idx, j ∉ S := fun b idx hb j hj hjS =>
    hs.not_mem_of_free (hS j hjS).2 hb hj
  refine ⟨fun b idx hb => ?_, hs.apart, fun i hi hf => ?_, hs.ring, hs.nodup, hs.status⟩
  · obtain ⟨i0, i1, i2, rfl, hc, hinfo⟩ := hs.chain b _ hb
    exact ⟨i0, i1, i2, rfl, hc.frame (fun j hj => release_free_of_not_mem (hout b _ hb j hj))
      (fun j hj => release_desc_of_not_mem (hout b _ hb j hj)), hinfo⟩
  · have hiS : i ∉ S := fun h => by simp [release_free_of_mem h] at hf
    exact hs.owned i hi (by rwa [release_free_of_not_mem hiS] at hf)

/-- The allocation loop took the free descriptors `i0`, `i1`, `i2`, and
    the call formats them and waits. -/
theorem inv_submit {b : Nat} {write : Bool} (hb : s.phase b = .alloc write) {i0 i1 i2 : Nat}
    (hnd : [i0, i1, i2].Nodup) (hI : ∀ j ∈ [i0, i1, i2], j < NUM ∧ s.disk.free j = true) :
    Inv { disk := submit (s.disk.take [i0, i1, i2]) b write [i0, i1, i2],
          phase := Function.update s.phase b (.wait [i0, i1, i2]) } := by
  -- the new descriptors were free: no call held one, and no ring names one
  have hout : ∀ b' idx, s.phase b' = .wait idx → ∀ j ∈ idx, j ∉ [i0, i1, i2] :=
    fun b' idx hb' j hj hjI => hs.not_mem_of_free (hI j hjI).2 hb' hj
  have hother : ∀ b' idx, s.phase b' = .wait idx → b' ≠ b := fun b' idx hb' he => by
    rw [he, hb] at hb'
    cases hb'
  have hfresh : i0 ∉ s.disk.avail ++ s.disk.used := fun h => by
    obtain ⟨-, -, -, -, -, -, hf⟩ := hs.ring_info h
    simp [(hI i0 (by simp)).2] at hf
  refine ⟨fun b' idx h => ?_, fun b₁ b₂ idx₁ idx₂ h₁ h₂ hne => ?_, fun i hi hf => ?_,
    fun h hh => ?_, ?_, fun h hh => ?_⟩
  · rcases update_wait.mp h with ⟨rfl, he⟩ | ⟨hne, h⟩
    · cases he
      exact ⟨i0, i1, i2, rfl, submit_chain hnd (fun j hj => (hI j hj).1) (fun j hj => if_pos hj),
        by simp [submit_info]⟩
    · obtain ⟨j0, j1, j2, rfl, hc, hinfo⟩ := hs.chain b' _ h
      have hj0 : j0 ≠ i0 := fun he => hout b' _ h j0 (by simp) (by simp [he])
      refine ⟨j0, j1, j2, rfl, hc.frame (fun j hj => take_free_of_not_mem (hout b' _ h j hj))
        (fun j hj => submit_desc_of_not_mem (hout b' _ h j hj)), ?_⟩
      rw [submit_info, if_neg hj0]
      exact hinfo
  · rcases update_wait.mp h₁ with ⟨hb₁, he₁⟩ | ⟨-, h₁⟩ <;>
      rcases update_wait.mp h₂ with ⟨hb₂, he₂⟩ | ⟨-, h₂⟩
    · exact absurd (hb₁.trans hb₂.symm) hne
    · cases he₁
      exact fun i hi hi₂ => hout b₂ idx₂ h₂ i hi₂ hi
    · cases he₂
      exact fun i hi hi₂ => hout b₁ idx₁ h₁ i hi hi₂
    · exact hs.apart b₁ b₂ idx₁ idx₂ h₁ h₂ hne
  · by_cases hiI : i ∈ [i0, i1, i2]
    · exact ⟨b, _, Function.update_self .., hiI⟩
    · have hf' : s.disk.free i = false := by rwa [submit, take_free_of_not_mem hiI] at hf
      obtain ⟨b', idx, hb', hm⟩ := hs.owned i hi hf'
      exact ⟨b', idx, (Function.update_of_ne (hother b' idx hb') _ _).trans hb', hm⟩
  · have hh' : h = i0 ∨ h ∈ s.disk.avail ++ s.disk.used := by
      simp only [submit, List.mem_append, List.mem_singleton] at hh ⊢
      tauto
    rcases hh' with rfl | hh'
    · exact ⟨b, _, Function.update_self .., rfl, by simp [submit_busy]⟩
    · obtain ⟨b', idx, hb', hhead, hbusy⟩ := hs.ring h hh'
      have hne := hother b' idx hb'
      exact ⟨b', idx, (Function.update_of_ne hne _ _).trans hb', hhead,
        by rw [submit_busy, if_neg hne]; exact hbusy⟩
  · -- the head joins the rings once
    have hperm : List.Perm ((s.disk.avail ++ [i0]) ++ s.disk.used)
        (i0 :: (s.disk.avail ++ s.disk.used)) := by
      rw [List.append_assoc, List.singleton_append]
      exact List.perm_middle
    exact hperm.nodup_iff.mpr (List.nodup_cons.mpr ⟨hfresh, hs.nodup⟩)
  · have hne : h ≠ i0 := fun he => hfresh (he ▸ List.mem_append_right _ hh)
    show (submit _ b write [i0, i1, i2]).status h = 0
    rw [submit_status, if_neg hne]
    exact hs.status h hh

/-- The end of `virtio_disk_rw` frees the chain of its call. -/
theorem rwFinish_eq {b i0 i1 i2 : Nat} (hb : s.phase b = .wait [i0, i1, i2]) :
    rwFinish s.disk [i0, i1, i2] =
      .ok (({ s.disk with info := Function.update s.disk.info i0 none }).release [i0, i1, i2]) := by
  obtain ⟨j0, j1, j2, he, hc, -⟩ := hs.chain b _ hb
  simp only [List.cons.injEq, and_true] at he
  obtain ⟨rfl, rfl, rfl⟩ := he
  exact free_chain_spec (hc.frame (fun _ _ => rfl) (fun _ _ => rfl))

/-- A call whose buffer the disk is done with ends. -/
theorem inv_finish {b i0 i1 i2 : Nat} (hb : s.phase b = .wait [i0, i1, i2])
    (hbusy : s.disk.busy b = false) :
    Inv { disk := ({ s.disk with info := Function.update s.disk.info i0 none }).release [i0, i1, i2],
          phase := Function.update s.phase b .idle } := by
  -- the other calls hold none of the chain freed
  have hout : ∀ b' idx, s.phase b' = .wait idx → b' ≠ b → ∀ j ∈ idx, j ∉ [i0, i1, i2] :=
    fun b' idx hb' hne j hj hjI => hs.apart b b' _ idx hb hb' (Ne.symm hne) j hjI hj
  have hwait : ∀ b' idx, Function.update s.phase b .idle b' = .wait idx ↔
      b' ≠ b ∧ s.phase b' = .wait idx := fun b' idx => by
    rw [update_wait]
    simp
  refine ⟨fun b' idx h => ?_, fun b₁ b₂ idx₁ idx₂ h₁ h₂ hne => ?_, fun i hi hf => ?_,
    fun h hh => ?_, hs.nodup, hs.status⟩
  · obtain ⟨hne, h⟩ := (hwait b' idx).mp h
    obtain ⟨j0, j1, j2, rfl, hc, hinfo⟩ := hs.chain b' _ h
    have hj0 : j0 ≠ i0 := fun he => hout b' _ h hne j0 (by simp) (by simp [he])
    refine ⟨j0, j1, j2, rfl, hc.frame (fun j hj => release_free_of_not_mem (hout b' _ h hne j hj))
      (fun j hj => release_desc_of_not_mem (hout b' _ h hne j hj)), ?_⟩
    show Function.update s.disk.info i0 none j0 = some b'
    rw [Function.update_of_ne hj0]
    exact hinfo
  · exact hs.apart b₁ b₂ idx₁ idx₂ ((hwait _ _).mp h₁).2 ((hwait _ _).mp h₂).2 hne
  · have hiI : i ∉ [i0, i1, i2] := fun h => by simp [release_free_of_mem h] at hf
    have hf' : s.disk.free i = false := (release_free_of_not_mem hiI).symm.trans hf
    obtain ⟨b', idx, hb', hm⟩ := hs.owned i hi hf'
    have hne : b' ≠ b := fun he => by
      rw [he, hb] at hb'
      cases hb'
      exact hiI hm
    exact ⟨b', idx, (hwait b' idx).mpr ⟨hne, hb'⟩, hm⟩
  · -- a ring head belongs to a call the disk still holds, not to this one
    obtain ⟨b', idx, hb', hhead, hbusy'⟩ := hs.ring h hh
    have hne : b' ≠ b := fun he => by
      rw [he, hbusy] at hbusy'
      cases hbusy'
    exact ⟨b', idx, (hwait b' idx).mpr ⟨hne, hb'⟩, hhead, hbusy'⟩

/-- The device uses a chain it was given. -/
theorem inv_use {k : Nat} {d : Disk} (h : deviceUse s.disk k = some d) : Inv { s with disk := d } := by
  unfold deviceUse at h
  split at h
  · rename_i hd hk
    cases h
    obtain ⟨hlt, hget⟩ := List.getElem?_eq_some_iff.mp hk
    -- the head moves from one ring to the other
    have hperm : List.Perm (s.disk.avail.eraseIdx k ++ (s.disk.used ++ [hd]))
        (s.disk.avail ++ s.disk.used) := by
      rw [← List.append_assoc]
      refine (List.perm_append_singleton _ _).trans ?_
      rw [← List.cons_append, ← hget]
      exact (List.getElem_cons_eraseIdx_perm hlt).append_right _
    refine ⟨hs.chain_frame rfl rfl rfl, hs.apart, hs.owned, fun h hh => hs.ring h (hperm.subset hh),
      hperm.nodup_iff.mpr hs.nodup, fun h hh => ?_⟩
    show Function.update s.disk.status hd 0 h = 0
    by_cases he : h = hd
    · rw [he, Function.update_self]
    · rw [Function.update_of_ne he]
      exact hs.status h (by simpa [he] using hh)
  · cases h

/-- `virtio_disk_intr` sees every used head, and does not panic. -/
theorem intr_ok : virtio_disk_intr s.disk = .ok { s.disk with
      busy := fun b => if s.disk.done s.disk.used b then false else s.disk.busy b
      used := [] } := by
  have h : ∀ id ∈ s.disk.used, s.disk.status id = 0 ∧ (s.disk.info id).isSome := fun id hid => by
    obtain ⟨b, idx, -, -, -, hinfo, -⟩ := hs.ring_info (List.mem_append_right _ hid)
    exact ⟨hs.status id hid, by simp [hinfo]⟩
  rw [virtio_disk_intr, intrLoop_ok h]
  rfl

theorem inv_intr : Inv { s with disk := { s.disk with
      busy := fun b => if s.disk.done s.disk.used b then false else s.disk.busy b
      used := [] } } := by
  refine ⟨hs.chain_frame rfl rfl rfl, hs.apart, hs.owned, fun h hh => ?_, ?_, fun h hh => nomatch hh⟩
  · have hh' : h ∈ s.disk.avail := by simpa using hh
    obtain ⟨b, idx, hb, hhead, hbusy⟩ := hs.ring h (List.mem_append_left _ hh')
    refine ⟨b, idx, hb, hhead, ?_⟩
    -- no used head names `b`: its head is still in the available ring
    have hnot : s.disk.done s.disk.used b = false := by
      rw [Disk.done, List.any_eq_false]
      intro id hid hinfo
      obtain ⟨b', idx', hb', hhead', -, hinfo', -⟩ := hs.ring_info (List.mem_append_right _ hid)
      have hbb : b' = b := Option.some.inj (hinfo'.symm.trans (of_decide_eq_true hinfo))
      subst hbb
      rw [hb] at hb'
      cases hb'
      rw [hhead] at hhead'
      cases hhead'
      exact (List.nodup_append.mp hs.nodup).2.2 h hh' h hid rfl
    show (if s.disk.done s.disk.used b then false else s.disk.busy b) = true
    rw [hnot]
    exact hbusy
  · simpa using hs.nodup.sublist (List.sublist_append_left _ _)

end Events

/-! ## Runs -/

/-- Where `Inv` holds, no event panics, and every event keeps it. -/
theorem step_inv {s : Sys} (hs : Inv s) {e : Event} {r : Except String Sys}
    (h : step s e = some r) : ∃ s', r = .ok s' ∧ Inv s' := by
  cases e with
  | call b write =>
    simp only [step] at h
    split_ifs at h with hb
    cases h
    exact ⟨_, rfl, inv_call hs hb write⟩
  | alloc b =>
    simp only [step] at h
    split at h
    · rename_i write hb
      cases h
      rcases alloc3_desc_spec s.disk with ⟨i0, i1, i2, hnd, hI, ha⟩ | ⟨S, hS, ha⟩
      · exact ⟨_, by rw [rwAlloc, ha]; rfl, inv_submit hs hb hnd hI⟩
      · -- the call sleeps on `disk.free[0]` and stays in its loop
        have hsame : Function.update s.phase b (.alloc write) = s.phase := by
          rw [← hb]
          exact Function.update_eq_self b s.phase
        refine ⟨_, by rw [rwAlloc, ha]; rfl, ?_⟩
        simp only [hsame]
        exact inv_sleep hs hS
    · cases h
  | finish b =>
    simp only [step] at h
    split at h
    · rename_i idx hb
      obtain ⟨i0, i1, i2, rfl, -, -⟩ := hs.chain b idx hb
      split_ifs at h with hbusy
      cases h
      rw [rwFinish_eq hs hb]
      exact ⟨_, rfl, inv_finish hs hb (by simpa using hbusy)⟩
    · cases h
  | use k =>
    simp only [step] at h
    cases hd : deviceUse s.disk k with
    | none =>
      rw [hd] at h
      cases h
    | some d =>
      rw [hd] at h
      cases h
      exact ⟨_, rfl, inv_use hs hd⟩
  | intr =>
    simp only [step] at h
    cases h
    rw [intr_ok hs]
    exact ⟨_, rfl, inv_intr hs⟩

theorem Reachable.inv {s : Sys} (h : Reachable s) : Inv s := by
  induction h with
  | init => exact inv_init
  | step e _ hstep ih =>
    obtain ⟨s', hr, hs'⟩ := step_inv ih hstep
    cases hr
    exact hs'

/-- The state after the events `es` from `s`, if each can happen there and
    none panics. -/
def run : Sys → List Event → Option Sys
  | s, [] => some s
  | s, e :: es =>
    match step s e with
    | some (.ok s') => run s' es
    | _ => none

theorem Reachable.run {s : Sys} (hs : Reachable s) :
    ∀ {es : List Event} {s' : Sys}, Virtio.run s es = some s' → Reachable s'
  | [], _, h => by
    cases h
    exact hs
  | e :: es, s', h => by
    simp only [Virtio.run] at h
    split at h
    · rename_i s₁ h₁
      exact Reachable.run (hs.step e h₁) h
    · cases h

/-- Descriptor accounting: in every state a run of the driver reaches, no
    event panics, and every descriptor is free and held by no call, or
    taken and in the formatted chain of exactly one waiting call, whose
    buffer `info[]` names at the head; `alloc3_desc` gives back every
    descriptor it took when it fails, and `free_chain` frees exactly a
    formatted chain. -/
theorem virtio_descriptors {s : Sys} (h : Reachable s) :
    (∀ e m, step s e ≠ some (.error m)) ∧
    (∀ i < NUM, (s.disk.free i = true ∧ ∀ b idx, s.phase b = .wait idx → i ∉ idx) ∨
      (s.disk.free i = false ∧ ∃ b i0 i1 i2, s.phase b = .wait [i0, i1, i2] ∧
        i ∈ [i0, i1, i2] ∧ Chain s.disk i0 i1 i2 ∧ s.disk.info i0 = some b ∧
        ∀ b' idx', s.phase b' = .wait idx' → i ∈ idx' → b' = b)) ∧
    (∀ d : Disk, (∃ idx d', alloc3_desc d = .ok (some idx, d')) ∨
      ∃ d', alloc3_desc d = .ok (none, d') ∧ d'.free = d.free) ∧
    ∀ (d : Disk) (i0 i1 i2 : Nat), Chain d i0 i1 i2 →
      free_chain d i0 = .ok (d.release [i0, i1, i2]) := by
  have hs := h.inv
  refine ⟨fun e m he => ?_, fun i hi => ?_, fun d => ?_, fun d i0 i1 i2 hc => free_chain_spec hc⟩
  · obtain ⟨s', hr, -⟩ := step_inv hs he
    cases hr
  · cases hf : s.disk.free i
    · obtain ⟨b, idx, hb, hm⟩ := hs.owned i hi hf
      obtain ⟨i0, i1, i2, rfl, hc, hinfo⟩ := hs.chain b idx hb
      exact .inr ⟨rfl, b, i0, i1, i2, hb, hm, hc, hinfo,
        fun b' idx' hb' hm' => hs.eq_of_mem hb' hb hm' hm⟩
    · exact .inl ⟨rfl, fun b idx hb => hs.not_mem_of_free hf hb⟩
  · rcases alloc3_desc_spec d with ⟨i0, i1, i2, -, -, ha⟩ | ⟨S, hS, ha⟩
    · exact .inl ⟨_, _, ha⟩
    · exact .inr ⟨_, ha, release_free fun j hj => (hS j hj).2⟩

/-- A read of buffer 1 under way. -/
def oneRead : Sys := (run init [.call 1 false, .alloc 1]).getD init

/-- The read holds descriptors 0, 1 and 2, and no event panics there. -/
theorem oneRead_accounted :
    Reachable oneRead ∧ oneRead.phase 1 = .wait [0, 1, 2] ∧
      ∀ e m, step oneRead e ≠ some (.error m) := by
  have hr : Reachable oneRead := @Reachable.run init Reachable.init [.call 1 false, .alloc 1] _ rfl
  exact ⟨hr, by decide, (virtio_descriptors hr).1⟩

end Xv6.Dev.Virtio
