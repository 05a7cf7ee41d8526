import Mathlib
import Xv6.User.Ulib

/-! # `grep` (`grep.c`)

    The matcher is Kernighan and Pike's: `match` tries `matchhere` at every
    position of the text, or only at its start after a leading `^`;
    `matchhere` reads the pattern item by item, and `matchstar` tries the
    rest of the pattern after each longer run of one character class.  A C
    string is the list of its characters before the NUL, so the end of the
    string is the end of the list.  Each function recurs on a strictly
    shorter pattern or text, so the matcher terminates on every input.

    * `matchstar_iff`, `matchhere_iff`, `matchLoop_iff`: each function
      against the language of the items of its pattern (`Lang`);
    * `match_iff`: `match(re, text)` holds exactly when some suffix of the
      text, the whole text after a `^`, has a prefix in the language, the
      whole suffix before a final `$`;
    * `grep_writes_matching_lines`: the loop that reads into `buf` and
      matches each line found by `strchr` writes the matching lines of the
      input however the reads split it, for lines with no NUL that fit the
      buffer.  A NUL stops `strchr`, so a line after one is never searched
      for (`grep_nul_hides_lines`). -/

namespace Xv6.User

/-! ## The matcher -/

/-- `matchstar(c, re, text)` with `matchhere(re, ·)` as `here`: `re` here,
    or after one more character that `c` takes, while the text lasts. -/
def matchstar (here : List Char → Bool) (c : Char) : List Char → Bool
  | [] => here []
  | t :: text => here (t :: text) || ((t == c || c == '.') && matchstar here c text)

/-- `matchhere(re, text)`: the pattern at the start of the text. -/
def matchhere : List Char → List Char → Bool
  | [], _ => true
  | c :: '*' :: re, text => matchstar (matchhere re) c text
  | ['$'], text => text.isEmpty
  | c :: re, t :: text => (c == '.' || c == t) && matchhere re text
  | _ :: _, [] => false

/-- The loop of `match`: `matchhere` at each position, up to and including
    the empty rest. -/
def matchLoop (re : List Char) : List Char → Bool
  | [] => matchhere re []
  | t :: text => matchhere re (t :: text) || matchLoop re text

/-- `match(re, text)`. -/
def matchRe : List Char → List Char → Bool
  | '^' :: re, text => matchhere re text
  | re, text => matchLoop re text

/-! ## The language of a pattern -/

/-- `.` takes any character, any other character only itself. -/
def accepts (c t : Char) : Bool := c == '.' || c == t

/-- An item of a pattern: one character of a class, or any run of them. -/
inductive Item
  | one (c : Char)
  | star (c : Char)
  deriving DecidableEq

/-- The items of a pattern, read left to right, and whether a final `$`
    anchors them at the end: `c*` is a run, `$` last is the anchor, any
    other character stands for itself. -/
def items : List Char → List Item × Bool
  | [] => ([], false)
  | c :: '*' :: re => (.star c :: (items re).1, (items re).2)
  | ['$'] => ([], true)
  | c :: re => (.one c :: (items re).1, (items re).2)

/-- The words a sequence of items spells. -/
inductive Lang : List Item → List Char → Prop
  | nil : Lang [] []
  | one {c t : Char} {is : List Item} {w : List Char} : accepts c t = true → Lang is w → Lang (.one c :: is) (t :: w)
  | starNil {c : Char} {is : List Item} {w : List Char} : Lang is w → Lang (.star c :: is) w
  | starCons {c t : Char} {is : List Item} {w : List Char} :
      accepts c t = true → Lang (.star c :: is) w → Lang (.star c :: is) (t :: w)

/-- `s` starts with a word of the items, and ends with it when
    `anchored`. -/
def HasPrefix (is : List Item) (anchored : Bool) (s : List Char) : Prop :=
  ∃ pre suf, s = pre ++ suf ∧ (anchored = true → suf = []) ∧ Lang is pre

/-- What `match(re, text)` is to decide: some suffix of the text, only the
    whole text after a leading `^`, starts with a word of the pattern's
    items. -/
def Matches : List Char → List Char → Prop
  | '^' :: re, text => HasPrefix (items re).1 (items re).2 text
  | re, text => ∃ pre suf, text = pre ++ suf ∧ HasPrefix (items re).1 (items re).2 suf

/-! ## The matcher decides the language -/

/-- `matchstar`'s test `*text == c || c == '.'` is `accepts`. -/
theorem star_test (c t : Char) : (t == c || c == '.') = accepts c t := by
  unfold accepts
  rw [Bool.or_comm, BEq.comm (a := t)]

theorem lang_nil_iff {w : List Char} : Lang [] w ↔ w = [] := by
  constructor
  · rintro ⟨⟩
    rfl
  · rintro rfl
    exact .nil

theorem lang_one_iff {c : Char} {is : List Item} {w : List Char} :
    Lang (.one c :: is) w ↔ ∃ t w', w = t :: w' ∧ accepts c t = true ∧ Lang is w' := by
  constructor
  · rintro ⟨⟩
    next t w' ht hw => exact ⟨t, w', rfl, ht, hw⟩
  · rintro ⟨t, w', rfl, ht, hw⟩
    exact .one ht hw

/-- A run item spells any word of characters its class takes, then the
    rest. -/
theorem lang_star_iff {c : Char} {is : List Item} {w : List Char} :
    Lang (.star c :: is) w ↔ ∃ u v, w = u ++ v ∧ (∀ t ∈ u, accepts c t = true) ∧ Lang is v := by
  constructor
  · intro h
    generalize hs : Item.star c :: is = s at h
    induction h with
    | nil => cases hs
    | one => cases hs
    | starNil hv =>
      cases hs
      exact ⟨[], _, rfl, (fun _ h => nomatch h), hv⟩
    | starCons ht _ ih =>
      cases hs
      obtain ⟨u, v, rfl, hu, hv⟩ := ih rfl
      refine ⟨_ :: u, v, rfl, fun x hx => ?_, hv⟩
      rcases List.mem_cons.mp hx with rfl | hx
      · exact ht
      · exact hu x hx
  · rintro ⟨u, v, rfl, hu, hv⟩
    induction u with
    | nil => exact .starNil hv
    | cons t u ih =>
      exact .starCons (hu t List.mem_cons_self) (ih fun x hx => hu x (List.mem_cons_of_mem _ hx))

theorem hasPrefix_nil {a : Bool} {s : List Char} : HasPrefix [] a s ↔ (a = true → s = []) := by
  constructor
  · rintro ⟨pre, suf, rfl, hsuf, hpre⟩
    rw [lang_nil_iff.mp hpre, List.nil_append]
    exact hsuf
  · intro h
    exact ⟨[], s, rfl, h, .nil⟩

theorem hasPrefix_one {c : Char} {is : List Item} {a : Bool} {s : List Char} :
    HasPrefix (.one c :: is) a s ↔ ∃ t s', s = t :: s' ∧ accepts c t = true ∧ HasPrefix is a s' := by
  constructor
  · rintro ⟨pre, suf, rfl, hsuf, hpre⟩
    obtain ⟨t, w', rfl, ht, hw⟩ := lang_one_iff.mp hpre
    exact ⟨t, w' ++ suf, rfl, ht, w', suf, rfl, hsuf, hw⟩
  · rintro ⟨t, s', rfl, ht, pre, suf, rfl, hsuf, hpre⟩
    exact ⟨t :: pre, suf, rfl, hsuf, .one ht hpre⟩

theorem hasPrefix_star {c : Char} {is : List Item} {a : Bool} {s : List Char} :
    HasPrefix (.star c :: is) a s ↔ ∃ u v, s = u ++ v ∧ (∀ t ∈ u, accepts c t = true) ∧ HasPrefix is a v := by
  constructor
  · rintro ⟨pre, suf, rfl, hsuf, hpre⟩
    obtain ⟨u, v, rfl, hu, hv⟩ := lang_star_iff.mp hpre
    exact ⟨u, v ++ suf, List.append_assoc _ _ _, hu, v, suf, rfl, hsuf, hv⟩
  · rintro ⟨u, v, rfl, hu, pre, suf, rfl, hsuf, hpre⟩
    exact ⟨u ++ pre, suf, (List.append_assoc _ _ _).symm, hsuf, lang_star_iff.mpr ⟨u, pre, rfl, hu, hpre⟩⟩

/-- **STAR**: `matchstar` finds the rest of the pattern after some run of
    characters the class takes. -/
theorem matchstar_iff (here : List Char → Bool) (c : Char) :
    ∀ text, matchstar here c text = true ↔
      ∃ u v, text = u ++ v ∧ (∀ t ∈ u, accepts c t = true) ∧ here v = true
  | [] => by
    rw [matchstar]
    constructor
    · intro h
      exact ⟨[], [], rfl, (fun _ h => nomatch h), h⟩
    · rintro ⟨u, v, huv, -, hv⟩
      obtain ⟨rfl, rfl⟩ := List.append_eq_nil_iff.mp huv.symm
      exact hv
  | t :: text => by
    rw [matchstar, Bool.or_eq_true, Bool.and_eq_true, star_test, matchstar_iff here c text]
    constructor
    · rintro (h | ⟨ht, u, v, rfl, hu, hv⟩)
      · exact ⟨[], t :: text, rfl, (fun _ h => nomatch h), h⟩
      · refine ⟨t :: u, v, rfl, fun x hx => ?_, hv⟩
        rcases List.mem_cons.mp hx with rfl | hx
        · exact ht
        · exact hu x hx
    · rintro ⟨u, v, huv, hu, hv⟩
      cases u with
      | nil =>
        rw [List.nil_append] at huv
        exact Or.inl (huv ▸ hv)
      | cons x u =>
        obtain ⟨rfl, rfl⟩ := List.cons.inj huv
        exact Or.inr ⟨hu _ List.mem_cons_self, u, v, rfl, fun y hy => hu y (List.mem_cons_of_mem _ hy), hv⟩

/-- A character that starts neither a run nor the final `$` stands for
    itself. -/
theorem matchhere_one {c : Char} {r : List Char} (hstar : ∀ re', r = '*' :: re' → False)
    (hend : c = '$' → r = [] → False) (text : List Char) :
    (matchhere (c :: r) text = true ↔ ∃ t text', text = t :: text' ∧ accepts c t = true ∧ matchhere r text' = true) ∧
      items (c :: r) = (.one c :: (items r).1, (items r).2) := by
  refine ⟨?_, items.eq_4 c r hstar hend⟩
  cases text with
  | nil =>
    rw [matchhere.eq_5 c r hstar hend]
    simp
  | cons t text =>
    rw [matchhere.eq_4 c r t text hstar hend, Bool.and_eq_true]
    constructor
    · rintro ⟨ht, hm⟩
      exact ⟨t, text, rfl, ht, hm⟩
    · rintro ⟨t', text', heq, ht, hm⟩
      obtain ⟨rfl, rfl⟩ := List.cons.inj heq
      exact ⟨ht, hm⟩

/-- **HERE**: `matchhere` decides whether the text starts with a word of
    the pattern's items, and ends with it after a final `$`.  The induction
    takes the pattern two characters at a time, as `c*` is read. -/
theorem matchhere_iff (re : List Char) :
    ∀ text, matchhere re text = true ↔ HasPrefix (items re).1 (items re).2 text := by
  induction re using List.twoStepInduction with
  | nil =>
    intro text
    simp [matchhere, items, hasPrefix_nil]
  | singleton c =>
    intro text
    by_cases hc : c = '$'
    · subst hc
      rw [matchhere.eq_3, items.eq_3, hasPrefix_nil]
      simp
    · obtain ⟨hm, hi⟩ := matchhere_one (r := []) (fun _ h => nomatch h) (fun h _ => hc h) text
      rw [hm, hi, hasPrefix_one]
      simp only [matchhere, items, hasPrefix_nil, Bool.false_eq_true, false_implies]
  | cons_cons c d re ih ih' =>
    intro text
    by_cases hd : d = '*'
    · -- a run of `c`, then the rest of the pattern
      subst hd
      rw [matchhere.eq_2, items.eq_2, matchstar_iff, hasPrefix_star]
      simp only [ih]
    · obtain ⟨hm, hi⟩ := matchhere_one (r := d :: re) (fun _ h => hd (List.cons.inj h).1)
        (fun _ h => nomatch h) text
      rw [hm, hi, hasPrefix_one]
      simp only [ih' d]

/-- **SEARCH**: the loop of `match` finds the pattern at some position. -/
theorem matchLoop_iff (re : List Char) :
    ∀ text, matchLoop re text = true ↔ ∃ pre suf, text = pre ++ suf ∧ matchhere re suf = true
  | [] => by
    rw [matchLoop]
    constructor
    · intro h
      exact ⟨[], [], rfl, h⟩
    · rintro ⟨pre, suf, h, hm⟩
      obtain ⟨rfl, rfl⟩ := List.append_eq_nil_iff.mp h.symm
      exact hm
  | t :: text => by
    rw [matchLoop, Bool.or_eq_true, matchLoop_iff re text]
    constructor
    · rintro (h | ⟨pre, suf, rfl, hm⟩)
      · exact ⟨[], t :: text, rfl, h⟩
      · exact ⟨t :: pre, suf, rfl, hm⟩
    · rintro ⟨pre, suf, h, hm⟩
      cases pre with
      | nil =>
        rw [List.nil_append] at h
        exact Or.inl (h ▸ hm)
      | cons x pre =>
        obtain ⟨rfl, rfl⟩ := List.cons.inj h
        exact Or.inr ⟨pre, suf, rfl, hm⟩

/-- **MATCH**: `match(re, text)` returns 1 exactly when some suffix of the
    text, only the whole text when the pattern starts with `^`, starts with
    a word of the pattern's items, and is that word when the pattern ends
    with `$`. -/
theorem match_iff (re text : List Char) : matchRe re text = true ↔ Matches re text := by
  by_cases hre : ∃ re', re = '^' :: re'
  · obtain ⟨re', rfl⟩ := hre
    rw [matchRe, Matches, matchhere_iff]
  · rw [matchRe.eq_2 re text (fun re' h => hre ⟨re', h⟩), Matches.eq_2 re text (fun re' h => hre ⟨re', h⟩),
      matchLoop_iff]
    simp only [matchhere_iff]

/-! ## The line loop of `grep` -/

/-- In a line with no NUL, `strchr` finds the newline that ends it. -/
theorem strchr_line {l t : List Char} (hl : '\n' ∉ l) (hnul : NUL ∉ l) :
    strchr (l ++ '\n' :: t) '\n' = some l.length := by
  induction l with
  | nil =>
    have hn : '\n' ≠ NUL := by decide
    simp [strchr, hn]
  | cons x l ih =>
    have hx : x ≠ NUL := fun hx => hnul (hx ▸ List.mem_cons_self)
    have hxn : x ≠ '\n' := fun hx => hl (hx ▸ List.mem_cons_self)
    rw [List.cons_append, strchr, if_neg hx, if_neg hxn,
      ih (fun h => hl (List.mem_cons_of_mem _ h)) (fun h => hnul (List.mem_cons_of_mem _ h))]
    rfl

/-- The inner loop of `grep` on the bytes `p` points to: each line up to a
    newline is matched with the newline overwritten by NUL, and written
    with its newline when it matches; what follows the last newline is the
    partial line `memmove` keeps.  Returns the bytes written and that
    partial line. -/
def grepLines (pattern p : List Char) : List Char × List Char :=
  match _h : strchr p '\n' with
  | none => ([], p)
  | some q =>
    let line := p.take q
    let rest := grepLines pattern (p.drop (q + 1))
    ((if matchRe pattern line then line ++ ['\n'] else []) ++ rest.1, rest.2)
termination_by p.length
decreasing_by
  have := strchr_lt_length _h
  simp only [List.length_drop]
  omega

theorem grepLines_of_none {pattern p : List Char} (h : strchr p '\n' = none) :
    grepLines pattern p = ([], p) := by
  rw [grepLines]
  split
  · rfl
  · simp_all

theorem grepLines_of_some {pattern p : List Char} {q : Nat} (h : strchr p '\n' = some q) :
    grepLines pattern p =
      ((if matchRe pattern (p.take q) then p.take q ++ ['\n'] else []) ++
        (grepLines pattern (p.drop (q + 1))).1, (grepLines pattern (p.drop (q + 1))).2) := by
  rw [grepLines]
  split
  · simp_all
  · simp_all

/-- The `while` loop of `grep`, with `buf` holding the `m` bytes of a
    partial line and `inp` the bytes `fd` has still to deliver.  Read
    number `k` returns `chunk k` bytes, but no more than the
    `sizeof(buf)-m-1` it asks for or than remain; it returns 0 only when
    one of those is 0, and then the loop ends. -/
def grepLoop (pattern : List Char) (chunk : Nat → Nat) :
    Nat → List Char → List Char → Nat → List Char
  | 0, _, _, _ => []
  | fuel + 1, buf, inp, k =>
    let n := min (chunk k) (min (1024 - buf.length - 1) inp.length)
    if 0 < n then
      let r := grepLines pattern (buf ++ inp.take n)
      r.1 ++ grepLoop pattern chunk fuel r.2 (inp.drop n) (k + 1)
    else []

/-- `grep(pattern, fd)` on the input `inp`: the bytes written to fd 1.  A
    read that returns bytes takes at least one, so the loop makes at most
    one more read than the input has bytes. -/
def grep (pattern : List Char) (chunk : Nat → Nat) (inp : List Char) : List Char :=
  grepLoop pattern chunk (inp.length + 1) [] inp 0

/-! ## What `grep` writes -/

/-- Lines put back together, each with its newline. -/
def joinLines (ls : List (List Char)) : List Char := ls.flatMap (· ++ ['\n'])

/-- The lines of `ls` that the pattern matches, in order, each with its
    newline. -/
def selected (pattern : List Char) (ls : List (List Char)) : List Char :=
  joinLines (ls.filter (matchRe pattern))

@[simp] theorem joinLines_nil : joinLines [] = [] := rfl

@[simp] theorem joinLines_cons (l : List Char) (ls : List (List Char)) :
    joinLines (l :: ls) = l ++ '\n' :: joinLines ls := by
  simp [joinLines]

@[simp] theorem selected_nil (pattern : List Char) : selected pattern [] = [] := rfl

theorem selected_cons (pattern l : List Char) (ls : List (List Char)) :
    selected pattern (l :: ls) =
      (if matchRe pattern l then l ++ ['\n'] else []) ++ selected pattern ls := by
  unfold selected
  cases h : matchRe pattern l <;> simp [h]

theorem selected_append (pattern : List Char) (ls ls' : List (List Char)) :
    selected pattern (ls ++ ls') = selected pattern ls ++ selected pattern ls' := by
  simp [selected, joinLines, List.filter_append, List.flatMap_append]

/-- One pass of the inner loop over complete lines with no NUL, then a
    partial line: it writes the lines the pattern matches and keeps the
    partial line. -/
theorem grepLines_spec (pattern : List Char) {ls : List (List Char)} {b : List Char}
    (hls : ∀ l ∈ ls, '\n' ∉ l ∧ NUL ∉ l) (hb : '\n' ∉ b) :
    grepLines pattern (joinLines ls ++ b) = (selected pattern ls, b) := by
  induction ls with
  | nil => exact grepLines_of_none (strchr_of_not_mem hb)
  | cons l ls ih =>
    obtain ⟨hl, hnul⟩ := hls l List.mem_cons_self
    have hsplit : joinLines (l :: ls) ++ b = l ++ '\n' :: (joinLines ls ++ b) := by simp
    have hdrop : (l ++ '\n' :: (joinLines ls ++ b)).drop (l.length + 1) = joinLines ls ++ b := by
      simp [List.drop_append]
    rw [hsplit, grepLines_of_some (strchr_line hl hnul), List.take_left, hdrop,
      ih (fun l' h => hls l' (List.mem_cons_of_mem _ h)), selected_cons]

/-- A part of a line before any newline is no longer than the line. -/
theorem length_le_of_no_newline {b r l t : List Char} (hb : '\n' ∉ b)
    (h : b ++ r = l ++ '\n' :: t) : b.length ≤ l.length := by
  rcases List.append_eq_append_iff.mp h with ⟨a', rfl, -⟩ | ⟨c', rfl, hc'⟩
  · simp
  · cases c' with
    | nil => simp
    | cons x c' =>
      obtain ⟨rfl, -⟩ := List.cons.inj hc'
      exact absurd (List.mem_append_right _ List.mem_cons_self) hb

/-- Whatever the reads have brought in, the buffer holds complete lines
    of the input, then a part of the next line or of the final fragment
    with no newline in it. -/
theorem split_read {ls : List (List Char)} {frag B rest : List Char}
    (hls : ∀ l ∈ ls, '\n' ∉ l) (hfrag : '\n' ∉ frag) (h : B ++ rest = joinLines ls ++ frag) :
    ∃ ls₁ ls₂ b, ls = ls₁ ++ ls₂ ∧ B = joinLines ls₁ ++ b ∧ '\n' ∉ b ∧
      b ++ rest = joinLines ls₂ ++ frag := by
  induction ls generalizing B with
  | nil =>
    refine ⟨[], [], B, rfl, rfl, fun hB => hfrag ?_, h⟩
    rw [joinLines_nil, List.nil_append] at h
    exact h ▸ List.mem_append_left _ hB
  | cons l ls ih =>
    rw [joinLines_cons, List.append_assoc, List.cons_append] at h
    rcases List.append_eq_append_iff.mp h with ⟨a', hl, hrest⟩ | ⟨c', hB, hc'⟩
    · -- the buffer ends inside `l`
      refine ⟨[], l :: ls, B, rfl, rfl, fun hn => hls l List.mem_cons_self ?_, ?_⟩
      · exact hl ▸ List.mem_append_left _ hn
      · rw [hrest, joinLines_cons, hl]
        simp
    · cases c' with
      | nil =>
        -- the buffer ends just before the newline of `l`
        rw [List.append_nil] at hB
        subst hB
        refine ⟨[], B :: ls, B, rfl, rfl, hls B List.mem_cons_self, ?_⟩
        rw [List.nil_append] at hc'
        rw [← hc', joinLines_cons, List.append_assoc, List.cons_append]
      | cons x c' =>
        -- `l` and its newline are in the buffer
        rw [List.cons_append] at hc'
        obtain ⟨rfl, htail⟩ := List.cons.inj hc'
        obtain ⟨ls₁, ls₂, b, rfl, rfl, hb, hrest⟩ :=
          ih (fun l' h => hls l' (List.mem_cons_of_mem _ h)) htail.symm
        exact ⟨l :: ls₁, ls₂, b, rfl, by rw [hB]; simp, hb, hrest⟩

/-- The loop invariant: the buffer holds a part of a line with no newline,
    and with what is still to be read spells the lines not yet written,
    then the final fragment.  From such a state the loop writes the lines
    among them that the pattern matches, whatever the reads return. -/
theorem grepLoop_spec (pattern : List Char) {chunk : Nat → Nat} (hchunk : ∀ k, 0 < chunk k)
    {frag : List Char} (hfrag : '\n' ∉ frag) (fuel : Nat) :
    ∀ (ls : List (List Char)) (buf inp : List Char) (k : Nat),
      (∀ l ∈ ls, '\n' ∉ l ∧ NUL ∉ l ∧ l.length < 1023) → '\n' ∉ buf → inp.length < fuel →
      buf ++ inp = joinLines ls ++ frag → grepLoop pattern chunk fuel buf inp k = selected pattern ls := by
  induction fuel with
  | zero => intro _ _ _ _ _ _ hfuel; omega
  | succ fuel ih =>
    intro ls buf inp k hls hbuf hfuel h
    have hck := hchunk k
    rw [grepLoop]
    dsimp only
    split_ifs with hn
    · -- the read brought bytes in: write the lines they complete
      set n := min (chunk k) (min (1024 - buf.length - 1) inp.length)
      have hread : (buf ++ inp.take n) ++ inp.drop n = joinLines ls ++ frag := by
        rw [List.append_assoc, List.take_append_drop]
        exact h
      obtain ⟨ls₁, ls₂, b, rfl, hB, hb, hrest⟩ := split_read (fun l hl => (hls l hl).1) hfrag hread
      have hls₁ : ∀ l ∈ ls₁, '\n' ∉ l ∧ NUL ∉ l := fun l hl =>
        ⟨(hls l (List.mem_append_left _ hl)).1, (hls l (List.mem_append_left _ hl)).2.1⟩
      have hls₂ := fun l hl => hls l (List.mem_append_right ls₁ hl)
      have hlen : (inp.drop n).length < fuel := by
        rw [List.length_drop]
        omega
      rw [hB, grepLines_spec pattern hls₁ hb, ih ls₂ b (inp.drop n) (k + 1) hls₂ hb hlen hrest,
        selected_append]
    · -- the read returned 0: no complete line is left
      cases ls with
      | nil => rfl
      | cons l ls =>
        obtain ⟨-, -, hlen⟩ := hls l List.mem_cons_self
        rw [joinLines_cons, List.append_assoc, List.cons_append] at h
        have hle := length_le_of_no_newline hbuf h
        have hinp : inp = [] := List.eq_nil_of_length_eq_zero (by omega)
        subst hinp
        have := congrArg List.length h
        simp at this
        omega

/-- **GREP**: for an input of complete lines with no NUL in them, each
    shorter than the `sizeof(buf)-1` bytes a read may fill, then a final
    fragment with no newline, and for reads that return any positive
    number of bytes, `grep` writes the lines the pattern matches, in input
    order, each with its newline. -/
theorem grep_writes_matching_lines (pattern : List Char) (chunk : Nat → Nat)
    (hchunk : ∀ k, 0 < chunk k) (ls : List (List Char)) (frag : List Char)
    (hls : ∀ l ∈ ls, '\n' ∉ l ∧ NUL ∉ l ∧ l.length < 1023) (hfrag : '\n' ∉ frag) :
    grep pattern chunk (joinLines ls ++ frag) = selected pattern ls :=
  grepLoop_spec pattern hchunk hfrag _ ls [] _ 0 hls List.not_mem_nil (Nat.lt_succ_self _) rfl

/-- Two-byte reads split the first line between reads. -/
theorem grep_two_byte_reads :
    grep ['b'] (fun _ => 2) (joinLines [['a', 'c'], ['b']] ++ ['b']) = ['b', '\n'] := by
  rw [grep_writes_matching_lines ['b'] (fun _ => 2) (fun _ => by decide) [['a', 'c'], ['b']] ['b']
    (by decide) (by decide)]
  decide

/-- A NUL in a line stops `strchr` before the newline: the buffer is never
    searched past it, so the line after it is not written. -/
theorem grep_nul_hides_lines :
    grep ['b'] (fun _ => 5) (joinLines [['a', NUL], ['b']]) = [] ∧
      selected ['b'] [['a', NUL], ['b']] = ['b', '\n'] := by
  constructor
  · decide +kernel
  · decide

end Xv6.User
