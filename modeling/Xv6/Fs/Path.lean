import Mathlib
import Xv6.Fs.Dir
import Xv6.Lib.Segments

/-! # Path splitting: `skipelem` and the loop of `namex`

    `namexLoop` calls `skipelem` until it returns 0, and looks each name
    up in the directory it holds.  `pathElems` is that loop's sequence of
    names with the lookups left out.  Against `Segments.segments`, the
    maximal runs of the C string without `'/'`:

    * `skipelem_eq_none_iff`: `skipelem` returns 0 exactly when only
      slashes are left;
    * `skipelem_eq_some`: otherwise it copies the first segment, cut to
      `DIRSIZ` bytes, and returns a pointer further into the string with
      no leading slash, at the rest of the segments;
    * `namex_path_elements`: on `namex`'s fuel the loop ends, having seen
      every segment of the path in order, each cut to `DIRSIZ` bytes;
    * `namex_eq_namexNames`: `namex` is the loop `namexNames` over that
      list of names: the lookups it makes are those of the segments.

    A name shorter than `DIRSIZ` is the list of its bytes; the NUL after
    it in `name` is where that list ends. -/

namespace Xv6.Fs

open Segments

/-- The C string at `path`: its bytes before the first NUL. -/
def cstring (path : List UInt8) : List UInt8 := path.takeWhile (· != 0)

/-- The names the loop of `namex` takes from `path`: `skipelem` until it
    returns 0, on at most `fuel` calls as in `namexLoop`; `none` if the
    fuel runs out first. -/
def pathElems : Nat → List UInt8 → Option (List (List UInt8))
  | 0, _ => none
  | fuel + 1, path =>
      match skipelem path with
      | none => some []
      | some (rest, name) => (pathElems fuel rest).map (name :: ·)

example : pathElems 9 [47, 47, 47, 97, 47, 47, 98, 98] = some [[97], [98, 98]] := by decide

theorem slash_ne_zero : slash ≠ 0 := by decide

theorem skipSlashes_eq (path : List UInt8) : skipSlashes path = path.dropWhile (· == slash) := by
  induction path with
  | nil => rfl
  | cons c path ih =>
    by_cases hc : c = slash
    · simp [skipSlashes, hc, ih]
    · simp [skipSlashes, hc]

theorem cstring_slashes_append {s : List UInt8} (hs : ∀ c ∈ s, c = slash) (path : List UInt8) :
    cstring (s ++ path) = s ++ cstring path :=
  List.takeWhile_append_of_pos fun c hc => by simp [hs c hc, slash_ne_zero]

/-- Skipping the leading slashes leaves the same segments. -/
theorem segments_cstring_skipSlashes (path : List UInt8) :
    segments slash (cstring (skipSlashes path)) = segments slash (cstring path) := by
  have hs : ∀ c ∈ path.takeWhile (· == slash), c = slash := fun c hc => by
    simpa using List.mem_takeWhile_imp hc
  conv_rhs => rw [← List.takeWhile_append_dropWhile (p := (· == slash)) (l := path)]
  rw [cstring_slashes_append hs, segments_sep_append slash hs, skipSlashes_eq]

/-- What is left after the leading slashes: nothing, or a byte that is
    not a slash. -/
theorem skipSlashes_head (path : List UInt8) :
    skipSlashes path = [] ∨ ∃ c rest, skipSlashes path = c :: rest ∧ c ≠ slash := by
  rw [skipSlashes_eq]
  rcases h : path.dropWhile (· == slash) with _ | ⟨c, rest⟩
  · exact .inl rfl
  · refine .inr ⟨c, rest, rfl, fun hc => ?_⟩
    have := List.head_dropWhile_not (· == slash) (l := path) (by simp [h])
    simp [h, hc] at this

theorem skipelem_eq_none_iff (path : List UInt8) :
    skipelem path = none ↔ ∀ c ∈ cstring path, c = slash := by
  rw [← segments_eq_nil_iff slash, ← segments_cstring_skipSlashes, segments_eq_nil_iff slash]
  simp only [skipelem]
  rcases skipSlashes_head path with h | ⟨c, rest, h, hc⟩
  · simp [h, cstring]
  · -- a NUL ends the string; any other byte starts a segment
    by_cases h0 : c = 0
    · simp [h, h0, cstring]
    · have hcs : ¬ ∀ x ∈ cstring (c :: rest), x = slash := fun hall =>
        hc (hall c (by simp [cstring, h0]))
      simp only [h, List.headD_cons, h0, if_false, reduceCtorEq, false_iff]
      exact hcs

/-- **SKIPELEM**: a call that does not return 0 copies the first segment,
    cut to `DIRSIZ` bytes, into `name`, and returns a pointer strictly
    further into the string, with no leading slash, at the remaining
    segments. -/
theorem skipelem_eq_some {path rest name : List UInt8} (h : skipelem path = some (rest, name)) :
    ∃ elem, name = elem.take DIRSIZ ∧
      segments slash (cstring path) = elem :: segments slash (cstring rest) ∧
      rest.headD 0 ≠ slash ∧ rest.length < path.length ∧ rest <:+ path := by
  simp only [skipelem] at h
  split at h
  · cases h
  next h0 =>
  obtain ⟨c, q, hq, hc⟩ := (skipSlashes_head path).resolve_left fun he => by simp [he] at h0
  have hc0 : c ≠ 0 := by simpa [hq] using h0
  rw [hq] at h
  simp only [Option.some.injEq, Prod.mk.injEq] at h
  obtain ⟨hrest, hname⟩ := h
  -- the element and what follows it
  set p : UInt8 → Bool := fun c => c != slash && c != 0
  set elem := (c :: q).takeWhile p
  set q₂ := (c :: q).dropWhile p
  have hpc : p c = true := by simp [p, hc, hc0]
  have helem : elem ≠ [] := by simp [elem, hpc]
  have hsplit : c :: q = elem ++ q₂ := List.takeWhile_append_dropWhile.symm
  have hall : ∀ x ∈ elem, p x = true := fun x hx => List.mem_takeWhile_imp hx
  have hslash : slash ∉ elem := fun hm => by simpa [p] using hall slash hm
  have hq₂ : (c :: q).drop elem.length = q₂ := by
    rw [hsplit, List.drop_left]
  have hcstr : cstring (c :: q) = elem ++ cstring q₂ := by
    rw [hsplit]
    refine List.takeWhile_append_of_pos fun x hx => ?_
    have hx' := hall x hx
    simp only [p, Bool.and_eq_true] at hx'
    exact hx'.2
  -- after the element: the end of the string, or a slash
  have hafter : cstring q₂ = [] ∨ (cstring q₂).head? = some slash := by
    rcases hd : q₂ with _ | ⟨d, q₃⟩
    · exact .inl rfl
    · have hnot := List.head_dropWhile_not p (l := c :: q) (by simp [q₂] at hd; simp [hd])
      simp only [q₂] at hd
      simp only [hd, List.head_cons] at hnot
      -- the element stopped at a slash or at the NUL
      have hd' : d = slash ∨ d = 0 := by
        by_contra hne
        simp only [not_or] at hne
        simp [p, hne.1, hne.2] at hnot
      rcases hd' with hds | hd0
      · exact .inr (by simp [cstring, hds, slash_ne_zero])
      · exact .inl (by simp [cstring, hd0])
  rw [hq₂] at hrest
  subst hrest
  refine ⟨elem, ?_, ?_, ?_, ?_, ?_⟩
  · -- a short element is copied whole
    rw [← hname]
    split
    · rfl
    · rw [List.take_of_length_le (by omega)]
  · rw [← segments_cstring_skipSlashes path, hq, hcstr, segments_run_append slash helem hslash hafter,
      segments_cstring_skipSlashes]
  · rcases skipSlashes_head q₂ with he | ⟨d, r, hd, hds⟩
    · simp [he, slash_ne_zero.symm]
    · simpa [hd] using hds
  · have h₁ : (skipSlashes q₂).length ≤ q₂.length := by
      rw [skipSlashes_eq]
      exact (List.dropWhile_suffix _).length_le
    have h₂ : q₂.length + elem.length = (c :: q).length := by
      rw [hsplit, List.length_append]
      omega
    have h₃ : (c :: q).length ≤ path.length := by
      rw [← hq, skipSlashes_eq]
      exact (List.dropWhile_suffix _).length_le
    have h₄ : 0 < elem.length := List.length_pos_iff.mpr helem
    omega
  · have h₁ : skipSlashes q₂ <:+ q₂ := by
      rw [skipSlashes_eq]
      exact List.dropWhile_suffix _
    have h₂ : q₂ <:+ c :: q := List.dropWhile_suffix _
    have h₃ : c :: q <:+ path := by
      rw [← hq, skipSlashes_eq]
      exact List.dropWhile_suffix _
    exact h₁.trans (h₂.trans h₃)

/-- On enough fuel the loop sees every segment, cut to `DIRSIZ` bytes;
    by induction on the fuel, one segment per call. -/
theorem pathElems_eq (fuel : Nat) (path : List UInt8) (hfuel : path.length < fuel) :
    pathElems fuel path = some ((segments slash (cstring path)).map (·.take DIRSIZ)) := by
  induction fuel generalizing path with
  | zero => omega
  | succ fuel ih =>
    rcases hs : skipelem path with _ | ⟨rest, name⟩
    · have hnil : segments slash (cstring path) = [] :=
        (segments_eq_nil_iff slash _).mpr ((skipelem_eq_none_iff path).mp hs)
      simp [pathElems, hs, hnil]
    · obtain ⟨elem, hname, hseg, -, hlen, -⟩ := skipelem_eq_some hs
      simp [pathElems, hs, ih rest (by omega), hseg, hname]

/-- **PATH SPLITTING**: on the fuel `namex` gives its loop, the calls of
    `skipelem` end, and the names they copy are the segments of the
    path, in order, each cut to `DIRSIZ` bytes; `skipelem` returns 0
    exactly when only slashes remain, and otherwise a pointer strictly
    further into the string with no leading slash. -/
theorem namex_path_elements (path : List UInt8) :
    pathElems (path.length + 1) path = some ((segments slash (cstring path)).map (·.take DIRSIZ)) ∧
    (skipelem path = none ↔ ∀ c ∈ cstring path, c = slash) ∧
    ∀ rest name, skipelem path = some (rest, name) →
      rest.headD 0 ≠ slash ∧ rest.length < path.length ∧ rest <:+ path := by
  refine ⟨pathElems_eq _ path (Nat.lt_succ_self _), skipelem_eq_none_iff path,
    fun rest name h => ?_⟩
  obtain ⟨-, -, -, hhead, hlen, hsuf⟩ := skipelem_eq_some h
  exact ⟨hhead, hlen, hsuf⟩

/-! ## The loop of `namex` over the names -/

/-- After an element the string ends exactly where no element is left. -/
theorem headD_eq_zero_iff {path rest name : List UInt8} (h : skipelem path = some (rest, name)) :
    rest.headD 0 = 0 ↔ skipelem rest = none := by
  obtain ⟨-, -, -, hhead, -, -⟩ := skipelem_eq_some h
  -- `skipelem` left no slash in front of `rest`
  have hskip : skipSlashes rest = rest := by
    rcases rest with _ | ⟨c, r⟩
    · rfl
    · simp only [List.headD_cons] at hhead
      simp [skipSlashes, hhead]
  simp only [skipelem, hskip]
  split_ifs with h0
  · exact ⟨fun _ => by simp, fun _ => h0⟩
  · exact ⟨fun h => absurd h h0, fun h => by simp at h⟩

/-- The names `pathElems` gives run out exactly when `skipelem` finds none. -/
theorem pathElems_eq_nil_iff {fuel : Nat} {path : List UInt8} {names : List (List UInt8)}
    (h : pathElems fuel path = some names) : names = [] ↔ skipelem path = none := by
  cases fuel with
  | zero => cases h
  | succ fuel =>
    simp only [pathElems] at h
    split at h
    · next hs =>
      cases h
      simp [hs]
    · next rest name hs =>
      obtain ⟨ns, -, rfl⟩ := Option.map_eq_some_iff.mp h
      simp [hs]

/-- **THE LOOP OVER THE NAMES**: on fuel for which `pathElems` gives the
    names, the loop of `namex` over the string is `namexNames` over them;
    by induction on the fuel, one `skipelem` per name. -/
theorem namexLoop_eq_namexNames (nameiparent : Bool) :
    ∀ (fuel : Nat) (ip : Fin NINODE) (path name : List UInt8) (names : List (List UInt8)),
      pathElems fuel path = some names →
      namexLoop nameiparent ip path name fuel = namexNames nameiparent ip names name
  | 0, _, _, _, _, h => by cases h
  | fuel + 1, ip, path, name, names, h => by
    cases hs : skipelem path with
    | none =>
      -- no element left: both end at once
      have hnil : names = [] := (pathElems_eq_nil_iff h).mpr hs
      subst hnil
      simp only [namexLoop, hs, namexNames]
    | some rn =>
      obtain ⟨rest, nm⟩ := rn
      simp only [pathElems, hs, Option.map_eq_some_iff] at h
      obtain ⟨ns, hns, rfl⟩ := h
      -- the early stop of `nameiparent` tests the end of the string
      have hend : rest.headD 0 = 0 ↔ ns = [] :=
        (headD_eq_zero_iff hs).trans (pathElems_eq_nil_iff hns).symm
      have ih : ∀ ip name, namexLoop nameiparent ip rest name fuel = namexNames nameiparent ip ns name :=
        fun ip name => namexLoop_eq_namexNames nameiparent fuel ip rest name ns hns
      simp only [namexLoop, hs, namexNames, hend, ih]

/-- **NAMEX OVER THE SEGMENTS**: `namex` starts at the root or the current
    directory and looks up, in order, the segments of the path, each cut
    to `DIRSIZ` bytes. -/
theorem namex_eq_namexNames (path : List UInt8) (nameiparent : Bool) :
    namex path nameiparent = (do
      let ip ← if path.headD 0 = slash then iget ROOTINO else idup (← get).cwd
      namexNames nameiparent ip ((segments slash (cstring path)).map (·.take DIRSIZ)) []) := by
  have hloop := fun ip => namexLoop_eq_namexNames nameiparent (path.length + 1) ip path []
    _ (pathElems_eq _ path (Nat.lt_succ_self _))
  simp only [namex, hloop]

end Xv6.Fs
