import Mathlib

/-! # The queue held by a ring

    A ring of `N` slots holds a queue: the entry of count `c` sits in slot
    `c % N`, and the `k` entries from count `start` are `window d start k`,
    oldest first.  Counters kept modulo a multiple of `N` (a `uint` counter
    over a ring of a power of two) name the same slots as the counts they
    stand for.

    * `window_cons`, `window_append`: a queue split at its head, or
      anywhere;
    * `window_start`, `window_congr`: a queue depends on its start only
      through the slot, and on the ring only through the slots it covers;
    * `window_store`: storing right after a queue shorter than the ring
      appends to it; `window_store_full`: storing right after a full ring
      drops the oldest entry and appends. -/

namespace RingWindow

variable {β : Type} {N : Nat} [NeZero N]

/-- The slot of count `c`. -/
def slot (N : Nat) [NeZero N] (c : Nat) : Fin N := ⟨c % N, Nat.mod_lt _ (Nat.pos_of_neZero N)⟩

/-- The `k` entries of `d` from count `start`, oldest first. -/
def window (d : Fin N → β) (start : Nat) : Nat → List β
  | 0 => []
  | k + 1 => window d start k ++ [d (slot N (start + k))]

@[simp] theorem length_window (d : Fin N → β) (start : Nat) : ∀ k, (window d start k).length = k
  | 0 => rfl
  | k + 1 => by rw [window, List.length_append, length_window d start k, List.length_singleton]

/-- A queue read slot by slot. -/
theorem window_eq_map_range (d : Fin N → β) (start : Nat) :
    ∀ k, window d start k = (List.range k).map fun i => d (slot N (start + i))
  | 0 => rfl
  | k + 1 => by
      rw [window, window_eq_map_range d start k, List.range_succ, List.map_append, List.map_singleton]

/-- Counts less than `N` apart use different slots. -/
theorem slot_ne {start j k : Nat} (hj : j < k) (hk : k < N) :
    slot N (start + j) ≠ slot N (start + k) := by
  intro h
  have hmod : (start + k - (start + j)) % N = 0 :=
    Nat.sub_mod_eq_zero_of_mod_eq (congrArg Fin.val h).symm
  rw [show start + k - (start + j) = k - j by omega, Nat.mod_eq_of_lt (by omega)] at hmod
  omega

theorem window_congr {d d' : Fin N → β} {start : Nat} :
    ∀ {k}, (∀ j < k, d (slot N (start + j)) = d' (slot N (start + j))) →
      window d start k = window d' start k
  | 0, _ => rfl
  | k + 1, h => by
      rw [window, window, window_congr fun j hj => h j (by omega), h k (by omega)]

/-- A queue depends on its start only through the slot. -/
theorem window_start (d : Fin N → β) {s s' : Nat} (hs : s % N = s' % N) :
    ∀ k, window d s k = window d s' k
  | 0 => rfl
  | k + 1 => by
      have hslot : slot N (s + k) = slot N (s' + k) := by
        simp only [slot, Fin.mk.injEq]
        rw [Nat.add_mod, hs, ← Nat.add_mod]
      rw [window, window, window_start d hs k, hslot]

/-- The oldest entry of a queue comes first. -/
theorem window_cons (d : Fin N → β) :
    ∀ (start k : Nat), window d start (k + 1) = d (slot N start) :: window d (start + 1) k
  | start, 0 => by simp [window]
  | start, k + 1 => by
      rw [window, window_cons d start k, window, List.cons_append,
        show start + 1 + k = start + (k + 1) by omega]

/-- A queue is its first `k` entries followed by the rest. -/
theorem window_append (d : Fin N → β) (start k : Nat) :
    ∀ m, window d start (k + m) = window d start k ++ window d (start + k) m
  | 0 => by simp [window]
  | m + 1 => by
      rw [← Nat.add_assoc, window, window_append d start k m, window, List.append_assoc,
        Nat.add_assoc]

/-- **STORE**: writing the slot right after a queue shorter than the ring
    appends to the queue. -/
theorem window_store {d : Fin N → β} {start k : Nat} (hk : k < N) (x : β) :
    window (Function.update d (slot N (start + k)) x) start (k + 1) = window d start k ++ [x] := by
  rw [window, Function.update_self]
  congr 1
  exact window_congr fun j hj => Function.update_of_ne (slot_ne hj hk) _ _

/-- **STORE, FULL**: writing the slot right after a full queue, which is
    the slot of its oldest entry, drops that entry and appends. -/
theorem window_store_full (d : Fin N → β) (start : Nat) (x : β) :
    window (Function.update d (slot N (start + N)) x) (start + 1) N = (window d start N).tail ++ [x] := by
  obtain ⟨k, hk⟩ : ∃ k, N = k + 1 := ⟨N - 1, (Nat.succ_pred_eq_of_pos (Nat.pos_of_neZero N)).symm⟩
  have hlast : slot N (start + 1 + k) = slot N (start + N) := by
    rw [show start + 1 + k = start + N by omega]
  rw [congrArg (window _ (start + 1)) hk, congrArg (window d start) hk, window_cons d start k, List.tail_cons,
    window, hlast, Function.update_self]
  congr 1
  -- the other slots of the new queue are not the one written
  refine window_congr fun j hj => Function.update_of_ne ?_ _ _
  rw [← hlast]
  exact slot_ne hj (by omega)

end RingWindow
