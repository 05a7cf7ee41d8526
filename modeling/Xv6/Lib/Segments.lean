import Mathlib

/-! # The segments of a list between separators

    `segments sep l` is the list of maximal non-empty runs of `l` that
    contain no `sep`, in order: the pieces `l.splitOn sep` gives, without
    the empty ones that leading, trailing and repeated separators leave.
    A scanner that skips separators and then takes a run meets the
    segments one at a time:

    * `segments_sep_append`: separators in front change nothing;
    * `segments_run_append`: a non-empty run, followed by nothing or by a
      separator, is the first segment;
    * `segments_eq_nil_iff`: no segment is left exactly when only
      separators are. -/

namespace Segments

variable {α : Type} [BEq α] (sep : α)

/-- The maximal non-empty runs of `l` without `sep`. -/
def segments (l : List α) : List (List α) :=
  (l.splitOn sep).filter fun r => !r.isEmpty

@[simp] theorem segments_nil : segments sep [] = [] := by
  simp [segments]

@[simp] theorem segments_sep_cons [LawfulBEq α] (l : List α) : segments sep (sep :: l) = segments sep l := by
  simp [segments, List.splitOn_cons_eq_if_modifyHead]

/-- A segment starts at the first element that is not a separator. -/
theorem segments_cons_ne_nil [LawfulBEq α] {c : α} (hc : c ≠ sep) (l : List α) : segments sep (c :: l) ≠ [] := by
  obtain ⟨hd, tl, htl⟩ := List.exists_cons_of_ne_nil (List.splitOn_ne_nil sep l)
  have hcs : (c == sep) = false := beq_eq_false_iff_ne.mpr hc
  simp [segments, List.splitOn_cons_eq_if_modifyHead, hcs, htl]

theorem segments_sep_append [LawfulBEq α] {s : List α} (hs : ∀ c ∈ s, c = sep) (l : List α) :
    segments sep (s ++ l) = segments sep l := by
  induction s with
  | nil => rfl
  | cons c s ih =>
    obtain rfl := hs c List.mem_cons_self
    rw [List.cons_append, segments_sep_cons, ih fun x hx => hs x (List.mem_cons_of_mem _ hx)]

theorem segments_run_append [LawfulBEq α] {r l : List α} (hr : r ≠ []) (hsep : sep ∉ r)
    (hl : l = [] ∨ l.head? = some sep) : segments sep (r ++ l) = r :: segments sep l := by
  rcases hl with rfl | hl
  · simp [segments, List.splitOn_eq_singleton hsep, hr]
  · -- the run ends at the separator
    obtain ⟨l', rfl⟩ : ∃ l', l = sep :: l' := by
      cases l with
      | nil => cases hl
      | cons c l' =>
        obtain rfl := Option.some.inj hl
        exact ⟨l', rfl⟩
    rw [segments_sep_cons]
    simp [segments, List.splitOn_append_cons_self_of_not_mem hsep, hr]

theorem segments_eq_nil_iff [LawfulBEq α] (l : List α) : segments sep l = [] ↔ ∀ c ∈ l, c = sep := by
  induction l with
  | nil => simp
  | cons c l ih =>
    by_cases hc : c = sep
    · subst hc
      simp [ih]
    · exact ⟨fun h => absurd h (segments_cons_ne_nil sep hc l),
        fun h => absurd (h c List.mem_cons_self) hc⟩

end Segments
