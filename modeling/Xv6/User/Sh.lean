import Xv6.User.Ulib
import Xv6.Fs.Syscall

/-! # The shell's parser (`sh.c`)

    `parsecmd` reads a command line by recursive descent: `parseline`,
    `parsepipe`, `parseexec`, `parseblock` and `parseredirs` share a cursor
    that `peek` moves past blanks and `gettoken` moves past one token.  The
    cursor is the rest of the line up to `es`; a pointer into the line is
    `es` less the length of what follows it, so the words of the tree are
    offsets `(q, eq)` into the line, as `argv[i]` and `eargv[i]` are.

    * `gettoken_of_lex`, `peek_eq_nextIn`: `gettoken` yields the tokens of
      `lex` one at a time and `peek` looks at the next one, so the parser
      sees the line only through its tokens;
    * `parse_sound`, `parse_complete`: each parsing function returns exactly
      when the tokens it reads derive from its nonterminal, with the tree
      of the derivation, whatever follows in the line's follow set;
    * `parsecmd_iff`: `parsecmd` returns exactly for the lines whose tokens
      derive from `line`, with the derivation's tree, and after
      `nulterminate` every word of the tree reads as its own text. -/

namespace Xv6.User

open Xv6.Fs (O_RDONLY O_WRONLY O_CREATE O_TRUNC)

/-! ## The lexer -/

/-- `whitespace[]`. -/
def whitespace : List Char := [' ', '\t', '\r', '\n', '\x0B']

/-- `symbols[]`. -/
def symbols : List Char := ['<', '|', '>', '&', ';', '(', ')']

/-- `while(s < es && strchr(whitespace, *s)) s++;` on the rest of the
    line. -/
def skipws : List Char → List Char
  | [] => []
  | c :: r => if (strchr whitespace c).isSome then skipws r else c :: r

/-- The word loop of `gettoken`:
    `while(s < es && !strchr(whitespace, *s) && !strchr(symbols, *s)) s++;` -/
def skipword : List Char → List Char
  | [] => []
  | c :: r => if (strchr whitespace c).isNone && (strchr symbols c).isNone then skipword r else c :: r

/-- The `switch(*s)` of `gettoken` at the first byte after the blanks:
    what it returns and the line after the token.  `>>` returns `+`, a
    word `a`, and the end of the line 0. -/
def scan : List Char → Char × List Char
  | [] => (NUL, [])
  | c :: r =>
    if c = NUL then (NUL, c :: r)
    else if c ∈ ['|', '(', ')', ';', '&', '<'] then (c, r)
    else if c = '>' then (if r.headD NUL = '>' then ('+', r.drop 1) else ('>', r))
    else ('a', skipword (c :: r))

/-- What one `gettoken` call yields: its return value, `*q` and `*eq`,
    and `*ps`. -/
structure Token where
  ret : Char
  q : Nat
  eq : Nat
  ps : List Char

/-- `gettoken(ps, es, q, eq)`: skips blanks, reads one token, and skips
    the blanks after it. -/
def gettoken (es : Nat) (ps : List Char) : Token :=
  let s := skipws ps
  ⟨(scan s).1, es - s.length, es - (scan s).2.length, skipws (scan s).2⟩

/-- `*s && strchr(toks, *s)`. -/
def peekAt (toks : List Char) : List Char → Bool
  | [] => false
  | c :: _ => c != NUL && (strchr toks c).isSome

/-- `peek(ps, es, toks)`: whether the byte after the blanks is one of
    `toks`, and the cursor moved past the blanks. -/
def peek (ps toks : List Char) : Bool × List Char :=
  (peekAt toks (skipws ps), skipws ps)

theorem skipws_suffix (ps : List Char) : skipws ps <:+ ps := by
  induction ps with
  | nil => exact List.suffix_refl _
  | cons c r ih =>
    rw [skipws]
    split_ifs
    · exact ih.trans (List.suffix_cons c r)
    · exact List.suffix_refl _

theorem skipws_skipws (ps : List Char) : skipws (skipws ps) = skipws ps := by
  induction ps with
  | nil => rfl
  | cons c r ih =>
    rw [skipws]
    split_ifs with hc
    · exact ih
    · rw [skipws, if_neg hc]

/-- After `skipws` the cursor is at the end or at a byte that is not
    blank. -/
theorem skipws_head {ps r : List Char} {c : Char} (h : skipws ps = c :: r) :
    (strchr whitespace c).isSome = false := by
  induction ps with
  | nil => cases h
  | cons x ps ih =>
    rw [skipws] at h
    split_ifs at h with hx
    · exact ih h
    · obtain ⟨rfl, rfl⟩ := List.cons.inj h
      simpa using hx

theorem skipword_suffix (ps : List Char) : skipword ps <:+ ps := by
  induction ps with
  | nil => exact List.suffix_refl _
  | cons c r ih =>
    rw [skipword]
    split_ifs
    · exact ih.trans (List.suffix_cons c r)
    · exact List.suffix_refl _

theorem scan_suffix (s : List Char) : (scan s).2 <:+ s := by
  cases s with
  | nil => exact List.suffix_refl _
  | cons c r =>
    rw [scan]
    split_ifs
    · exact List.suffix_refl _
    · exact List.suffix_cons c r
    · exact (List.drop_suffix 1 r).trans (List.suffix_cons c r)
    · exact List.suffix_cons c r
    · exact skipword_suffix _

/-- A token other than the end takes at least one byte: a word starts
    at a byte that is neither blank nor a symbol. -/
theorem scan_lt {c : Char} {r : List Char} (hc : (strchr whitespace c).isSome = false)
    (h : (scan (c :: r)).1 ≠ NUL) : (scan (c :: r)).2.length < (c :: r).length := by
  rw [scan] at h ⊢
  split_ifs at h ⊢ with h0 h1 h2
  · exact absurd rfl h
  · simp
  · simp only [List.length_drop, List.length_cons]
    omega
  · simp
  · -- a word: its first byte is neither blank nor a symbol
    have hws : strchr whitespace c = none := Option.not_isSome_iff_eq_none.mp (by simp [hc])
    have hsym : strchr symbols c = none := by
      rw [← Option.not_isSome_iff_eq_none, strchr_isSome_iff (by decide)]
      simp only [symbols, List.mem_cons, List.not_mem_nil, or_false] at h1 ⊢
      tauto
    rw [skipword, if_pos (by simp [hws, hsym])]
    exact Nat.lt_succ_of_le (skipword_suffix r).length_le

theorem gettoken_suffix (es : Nat) (ps : List Char) : (gettoken es ps).ps <:+ ps :=
  (skipws_suffix _).trans ((scan_suffix _).trans (skipws_suffix ps))

theorem gettoken_lt {es : Nat} {ps : List Char} (h : (gettoken es ps).ret ≠ NUL) :
    (gettoken es ps).ps.length < ps.length := by
  unfold gettoken at h ⊢
  dsimp only at h ⊢
  have hws := (skipws_suffix ps).length_le
  have hsk := (skipws_suffix (scan (skipws ps)).2).length_le
  cases hs : skipws ps with
  | nil => rw [hs] at h; exact absurd rfl h
  | cons c r =>
    rw [hs] at h hsk hws
    have := scan_lt (skipws_head hs) h
    omega

theorem gettoken_skipws (es : Nat) (ps : List Char) : gettoken es (skipws ps) = gettoken es ps := by
  simp only [gettoken, skipws_skipws]

@[simp] theorem peek_snd (ps toks : List Char) : (peek ps toks).2 = skipws ps := rfl

theorem peek_suffix (ps toks : List Char) : (peek ps toks).2 <:+ ps := skipws_suffix ps

/-! ## The tokens of a line -/

/-- A token of the line: what `gettoken` returns for it, and the offsets
    of its first byte and of the byte after it. -/
structure Lexeme where
  ret : Char
  q : Nat
  eq : Nat
  deriving DecidableEq

/-- The tokens `gettoken` reads from the cursor on, until it returns 0 at
    the end of the line. -/
def lex (es : Nat) (ps : List Char) : List Lexeme :=
  if _h : (gettoken es ps).ret = NUL then []
  else ⟨(gettoken es ps).ret, (gettoken es ps).q, (gettoken es ps).eq⟩ :: lex es (gettoken es ps).ps
termination_by ps.length
decreasing_by exact gettoken_lt _h

/-- The byte a token starts with: `>>` starts with `>`, and a word with a
    byte that is no symbol. -/
def Lexeme.lead (l : Lexeme) : Char := if l.ret = '+' then '>' else l.ret

/-- Whether the next token starts with one of `toks`. -/
def nextIn (toks : List Char) : List Lexeme → Bool
  | [] => false
  | l :: _ => decide (l.lead ∈ toks)

/-- Blanks before the cursor change no token. -/
@[simp] theorem lex_skipws (es : Nat) (ps : List Char) : lex es (skipws ps) = lex es ps := by
  rw [lex.eq_1 es (skipws ps), lex.eq_1 es ps, gettoken_skipws]

/-- **GETTOKEN**: `gettoken` returns the next token of `lex`, and leaves
    the cursor before the ones after it. -/
theorem gettoken_of_lex {es : Nat} {ps : List Char} {l : Lexeme} {ls : List Lexeme}
    (h : lex es ps = l :: ls) :
    (gettoken es ps).ret = l.ret ∧ (gettoken es ps).q = l.q ∧ (gettoken es ps).eq = l.eq ∧
      lex es (gettoken es ps).ps = ls := by
  rw [lex.eq_1] at h
  split_ifs at h
  obtain ⟨rfl, rfl⟩ := List.cons.inj h
  exact ⟨rfl, rfl, rfl, rfl⟩

/-- At the end of the line `gettoken` returns 0. -/
theorem gettoken_of_lex_nil {es : Nat} {ps : List Char} (h : lex es ps = []) :
    (gettoken es ps).ret = NUL := by
  rw [lex.eq_1] at h
  split_ifs at h with h0
  exact h0

theorem ret_ne_nul_of_mem_lex {es : Nat} {ps : List Char} {l : Lexeme} (h : l ∈ lex es ps) :
    l.ret ≠ NUL := by
  induction ps using (measure List.length).wf.induction with
  | h ps ih =>
    rw [lex.eq_1] at h
    split_ifs at h with h0
    · cases h
    · rcases List.mem_cons.mp h with rfl | h
      · exact h0
      · exact ih _ (gettoken_lt h0) h

/-- The token `scan` reads starts with the byte it reads it at, where a
    word's first byte is no symbol. -/
theorem scan_lead {toks : List Char} (htoks : ∀ c ∈ toks, c ∈ symbols) {c : Char} {r : List Char}
    (h0 : c ≠ NUL) :
    (scan (c :: r)).1 ≠ NUL ∧
      ((if (scan (c :: r)).1 = '+' then '>' else (scan (c :: r)).1) ∈ toks ↔ c ∈ toks) := by
  rw [scan, if_neg h0]
  by_cases h1 : c ∈ ['|', '(', ')', ';', '&', '<']
  · have hc : c ≠ '+' := by rintro rfl; simp at h1
    rw [if_pos h1]
    exact ⟨h0, by simp [hc]⟩
  rw [if_neg h1]
  by_cases h2 : c = '>'
  · subst h2
    rw [if_pos rfl]
    by_cases h3 : r.headD NUL = '>'
    · rw [if_pos h3]
      exact ⟨by dsimp only; decide, by simp⟩
    · rw [if_neg h3]
      exact ⟨by dsimp only; decide, by simp⟩
  · -- a word: no symbol starts it
    have ha : 'a' ∉ toks := fun h => absurd (htoks _ h) (by decide)
    have hc : c ∉ toks := fun h => by
      have := htoks c h
      simp only [symbols, List.mem_cons, List.not_mem_nil, or_false] at this h1
      tauto
    rw [if_neg h2]
    exact ⟨by dsimp only; decide, by simp [ha, hc]⟩

/-- `peek`'s test at a byte against the token `gettoken` reads there. -/
theorem peekAt_eq_nextIn {toks : List Char} (htoks : ∀ c ∈ toks, c ∈ symbols) (s : List Char)
    (q eq : Nat) (ls : List Lexeme) :
    peekAt toks s = nextIn toks (if (scan s).1 = NUL then [] else ⟨(scan s).1, q, eq⟩ :: ls) := by
  have hnul : NUL ∉ toks := fun h => absurd (htoks _ h) (by decide)
  cases s with
  | nil => simp [peekAt, scan, nextIn]
  | cons c r =>
    by_cases h0 : c = NUL
    · subst h0
      simp [peekAt, scan, nextIn]
    obtain ⟨hne, hiff⟩ := scan_lead htoks (r := r) h0
    have hc : (c != NUL) = true := by simpa using h0
    rw [if_neg hne]
    simp only [peekAt, nextIn, Lexeme.lead, hc, Bool.true_and]
    rw [Bool.eq_iff_iff, strchr_isSome_iff hnul, decide_eq_true_iff, hiff]

/-- **PEEK**: for a set of symbols, `peek` answers whether the next token
    starts with one of them. -/
theorem peek_eq_nextIn (es : Nat) {ps toks : List Char} (htoks : ∀ c ∈ toks, c ∈ symbols) :
    (peek ps toks).1 = nextIn toks (lex es ps) := by
  rw [lex.eq_1, dite_eq_ite]
  exact peekAt_eq_nextIn htoks _ _ _ _

/-- A `peek` that answers yes sees a token, not the end. -/
theorem ret_ne_nul_of_peek {es : Nat} {ps toks : List Char} (h : (peek ps toks).1 = true) :
    (gettoken es ps).ret ≠ NUL := by
  simp only [peek] at h
  simp only [gettoken]
  cases hs : skipws ps with
  | nil => rw [hs] at h; simp [peekAt] at h
  | cons c r =>
    rw [hs] at h
    have h0 : c ≠ NUL := by simp only [peekAt, Bool.and_eq_true, bne_iff_ne] at h; exact h.1
    exact (@scan_lead [] (by simp) _ _ h0).1

/-- After a `peek` that answers yes, `gettoken` moves the cursor on. -/
theorem peek_gettoken_lt {es : Nat} {ps toks : List Char} (h : (peek ps toks).1 = true) :
    (gettoken es (peek ps toks).2).ps.length < ps.length := by
  rw [peek_snd, gettoken_skipws]
  exact gettoken_lt (ret_ne_nul_of_peek h)

/-! ## The parser -/

/-- `MAXARGS`. -/
def MAXARGS : Nat := 10

/-- The parse tree: `struct execcmd`, `redircmd`, `pipecmd`, `listcmd` and
    `backcmd`.  A word is the pair `(q, eq)` of the offsets of its first
    byte and of the byte after it; `exec` holds the `argv` entries before
    the null one, each with its `eargv`. -/
inductive Cmd
  | exec (argv : List (Nat × Nat))
  | redir (cmd : Cmd) (file efile : Nat) (mode fd : Int32)
  | pipe (left right : Cmd)
  | list (left right : Cmd)
  | back (cmd : Cmd)
  deriving DecidableEq

/-- The `switch(tok)` of `parseredirs`: `redircmd` with the mode and the
    fd of the operator. -/
def redirect (cmd : Cmd) (tok : Char) (q eq : Nat) : Cmd :=
  if tok = '<' then .redir cmd q eq O_RDONLY 0
  else if tok = '>' then .redir cmd q eq (O_WRONLY ||| O_CREATE ||| O_TRUNC) 1
  else if tok = '+' then .redir cmd q eq (O_WRONLY ||| O_CREATE) 1
  else cmd

/-- `ret` with the `argv` of the `execcmd` it wraps filled in: the
    `redircmd`s that `parseredirs` puts around it point to that `execcmd`,
    whose `argv` the loop of `parseexec` goes on writing. -/
def Cmd.fillArgv : Cmd → List (Nat × Nat) → Cmd
  | .exec _, argv => .exec argv
  | .redir c file efile mode fd, argv => .redir (c.fillArgv argv) file efile mode fd
  | .pipe l r, _ => .pipe l r
  | .list l r, _ => .list l r
  | .back c, _ => .back c

/-- What a parsing function returns: the command and the cursor after it,
    a suffix of the cursor it was given. -/
structure Parsed (ps : List Char) where
  cmd : Cmd
  rest : List Char
  suffix : rest <:+ ps

/-- A result from a later cursor, seen from an earlier one. -/
def Parsed.lift {ps ps' : List Char} (r : Parsed ps') (h : ps' <:+ ps) : Parsed ps :=
  ⟨r.cmd, r.rest, r.suffix.trans h⟩

/-- `parseredirs(cmd, ps, es)`: a `redircmd` around `cmd` for each
    redirection that follows, the first innermost. -/
def parseredirs (es : Nat) (cmd : Cmd) (ps : List Char) : Except String (Parsed ps) :=
  if _h : (peek ps ['<', '>']).1 then
    let tok := gettoken es (peek ps ['<', '>']).2
    let file := gettoken es tok.ps
    if file.ret ≠ 'a' then .error "missing file for redirection"
    else (parseredirs es (redirect cmd tok.ret file.q file.eq) file.ps).map
      (·.lift ((gettoken_suffix es _).trans ((gettoken_suffix es _).trans (peek_suffix ps _))))
  else .ok ⟨cmd, (peek ps ['<', '>']).2, peek_suffix ps _⟩
termination_by ps.length
decreasing_by
  have h1 := @peek_gettoken_lt es _ _ _h
  have h2 := (gettoken_suffix es (gettoken es (peek ps ['<', '>']).2).ps).length_le
  omega

/-- The `while(peek(ps, es, "&"))` loop of `parseline`: a `backcmd` for
    each `&`. -/
def parsebacks (es : Nat) (cmd : Cmd) (ps : List Char) : Parsed ps :=
  if _h : (peek ps ['&']).1 then
    (parsebacks es (.back cmd) (gettoken es (peek ps ['&']).2).ps).lift
      ((gettoken_suffix es _).trans (peek_suffix ps _))
  else ⟨cmd, (peek ps ['&']).2, peek_suffix ps _⟩
termination_by ps.length
decreasing_by exact peek_gettoken_lt _h

/-- The `while(!peek(ps, es, "|)&;"))` loop of `parseexec`, with the
    command built so far and the words read so far; when it ends, the
    `execcmd` inside gets its `argv`. -/
def parseargs (es : Nat) (ret : Cmd) (argv : List (Nat × Nat)) (ps : List Char) :
    Except String (Parsed ps) :=
  if (peek ps ['|', ')', '&', ';']).1 then
    .ok ⟨ret.fillArgv argv, (peek ps ['|', ')', '&', ';']).2, peek_suffix ps _⟩
  else
    let t := gettoken es (peek ps ['|', ')', '&', ';']).2
    if _h : t.ret = NUL then .ok ⟨ret.fillArgv argv, t.ps, (gettoken_suffix es _).trans (peek_suffix ps _)⟩
    else if t.ret ≠ 'a' then .error "syntax"
    else if MAXARGS ≤ argv.length + 1 then .error "too many args"
    else
      match parseredirs es ret t.ps with
      | .error e => .error e
      | .ok r => (parseargs es r.cmd (argv ++ [(t.q, t.eq)]) r.rest).map
          (·.lift (r.suffix.trans ((gettoken_suffix es _).trans (peek_suffix ps _))))
termination_by ps.length
decreasing_by
  have h1 : t.ps.length < (peek ps ['|', ')', '&', ';']).2.length := gettoken_lt _h
  have h2 := r.suffix.length_le
  have h3 := (peek_suffix ps ['|', ')', '&', ';']).length_le
  omega

mutual
/-- `parseline(ps, es)`: a pipeline, its `&`s, and after a `;` another
    line. -/
def parseline (es : Nat) (ps : List Char) : Except String (Parsed ps) :=
  match parsepipe es ps with
  | .error e => .error e
  | .ok c =>
    let b := parsebacks es c.cmd c.rest
    if _h : (peek b.rest [';']).1 then
      match parseline es (gettoken es (peek b.rest [';']).2).ps with
      | .error e => .error e
      | .ok r => .ok ⟨.list b.cmd r.cmd, r.rest, r.suffix.trans ((gettoken_suffix es _).trans
          ((peek_suffix _ _).trans (b.suffix.trans c.suffix)))⟩
    else .ok ⟨b.cmd, (peek b.rest [';']).2, (peek_suffix _ _).trans (b.suffix.trans c.suffix)⟩
termination_by 5 * ps.length + 3
decreasing_by
  · omega
  · have h1 := @peek_gettoken_lt es (parsebacks es c.cmd c.rest).rest _ _h
    have h2 := (parsebacks es c.cmd c.rest).suffix.length_le
    have h3 := c.suffix.length_le
    omega

/-- `parsepipe(ps, es)`: a command, and after a `|` another pipeline. -/
def parsepipe (es : Nat) (ps : List Char) : Except String (Parsed ps) :=
  match parseexec es ps with
  | .error e => .error e
  | .ok c =>
    if _h : (peek c.rest ['|']).1 then
      match parsepipe es (gettoken es (peek c.rest ['|']).2).ps with
      | .error e => .error e
      | .ok r => .ok ⟨.pipe c.cmd r.cmd, r.rest, r.suffix.trans ((gettoken_suffix es _).trans
          ((peek_suffix _ _).trans c.suffix))⟩
    else .ok ⟨c.cmd, (peek c.rest ['|']).2, (peek_suffix _ _).trans c.suffix⟩
termination_by 5 * ps.length + 2
decreasing_by
  · omega
  · have h1 := @peek_gettoken_lt es _ _ _h
    have h2 := c.suffix.length_le
    omega

/-- `parseexec(ps, es)`: a block, or words and redirections. -/
def parseexec (es : Nat) (ps : List Char) : Except String (Parsed ps) :=
  if (peek ps ['(']).1 then (parseblock es (peek ps ['(']).2).map (·.lift (peek_suffix ps _))
  else
    match parseredirs es (.exec []) (peek ps ['(']).2 with
    | .error e => .error e
    | .ok r => (parseargs es r.cmd [] r.rest).map (·.lift (r.suffix.trans (peek_suffix ps _)))
termination_by 5 * ps.length + 1
decreasing_by
  have h := (peek_suffix ps ['(']).length_le
  omega

/-- `parseblock(ps, es)`: a line in parentheses, then redirections. -/
def parseblock (es : Nat) (ps : List Char) : Except String (Parsed ps) :=
  if _h : (peek ps ['(']).1 then
    match parseline es (gettoken es (peek ps ['(']).2).ps with
    | .error e => .error e
    | .ok c =>
      if (peek c.rest [')']).1 then
        (parseredirs es c.cmd (gettoken es (peek c.rest [')']).2).ps).map
          (·.lift ((gettoken_suffix es _).trans ((peek_suffix _ _).trans
            (c.suffix.trans ((gettoken_suffix es _).trans (peek_suffix ps _))))))
      else .error "syntax - missing )"
  else .error "parseblock"
termination_by 5 * ps.length
decreasing_by
  have h := @peek_gettoken_lt es _ _ _h
  omega
end

/-- `nulterminate(cmd)`: a NUL written into the line after every word of
    the tree. -/
def nulterminate : Cmd → List Char → List Char
  | .exec argv, buf => argv.foldl (fun b a => b.set a.2 NUL) buf
  | .redir c _ efile _ _, buf => (nulterminate c buf).set efile NUL
  | .pipe l r, buf => nulterminate r (nulterminate l buf)
  | .list l r, buf => nulterminate r (nulterminate l buf)
  | .back c, buf => nulterminate c buf

/-- `parsecmd(s)`: the tree, and the line after `nulterminate`; an error
    is the message `panic` prints. -/
def parsecmd (s : List Char) : Except String (Cmd × List Char) :=
  let es := strlen s
  match parseline es (s.take es) with
  | .error e => .error e
  | .ok c => if (peek c.rest []).2 ≠ [] then .error "syntax" else .ok (c.cmd, nulterminate c.cmd s)

/-! ## The grammar -/

/-- The nonterminals of a command line. -/
inductive Sym
  | line
  | pipe
  | exec
  deriving DecidableEq

/-- `redirs ::= {('<' | '>' | '>>') WORD}`, with its operators and files
    in order. -/
inductive Redirs : List Lexeme → List (Lexeme × Lexeme) → Prop
  | nil : Redirs [] []
  | cons {ts : List Lexeme} {rds : List (Lexeme × Lexeme)} (op w : Lexeme) :
      op.ret ∈ ['<', '>', '+'] → w.ret = 'a' → Redirs ts rds → Redirs (op :: w :: ts) ((op, w) :: rds)

/-- `{WORD redirs}`, with its words and its redirections in order. -/
inductive Args : List Lexeme → List Lexeme → List (Lexeme × Lexeme) → Prop
  | nil : Args [] [] []
  | cons {ts₁ ts ws : List Lexeme} {rds₁ rds : List (Lexeme × Lexeme)} (w : Lexeme) :
      w.ret = 'a' → Redirs ts₁ rds₁ → Args ts ws rds → Args (w :: ts₁ ++ ts) (w :: ws) (rds₁ ++ rds)

/-- The redirections around a command, the first innermost. -/
def wrap (c : Cmd) : List (Lexeme × Lexeme) → Cmd
  | [] => c
  | (op, w) :: rds => wrap (redirect c op.ret w.q w.eq) rds

/-- `n` `backcmd`s around a command. -/
def backs : Nat → Cmd → Cmd
  | 0, c => c
  | n + 1, c => backs n (.back c)

/-- A word as the tree holds it. -/
def Lexeme.span (l : Lexeme) : Nat × Nat := (l.q, l.eq)

/-- Derivations of a command line's tokens, with the tree each builds:
    `line ::= pipe {'&'} [';' line]`, `pipe ::= exec ['|' pipe]` and
    `exec ::= '(' line ')' redirs | redirs {WORD redirs}`, where an `exec`
    has fewer than `MAXARGS` words.  The tree nests `PIPE` and `LIST` to
    the right, has one `BACK` per `&`, and wraps each command in its
    redirections in source order. -/
inductive Derives : Sym → List Lexeme → Cmd → Prop
  | back {ts : List Lexeme} {c : Cmd} (amps : List Lexeme) :
      Derives .pipe ts c → (∀ a ∈ amps, a.ret = '&') → Derives .line (ts ++ amps) (backs amps.length c)
  | seq {ts us : List Lexeme} {c d : Cmd} (amps : List Lexeme) (semi : Lexeme) :
      Derives .pipe ts c → (∀ a ∈ amps, a.ret = '&') → semi.ret = ';' → Derives .line us d →
      Derives .line (ts ++ amps ++ semi :: us) (.list (backs amps.length c) d)
  | exec {ts : List Lexeme} {c : Cmd} : Derives .exec ts c → Derives .pipe ts c
  | pipe {ts us : List Lexeme} {c d : Cmd} (bar : Lexeme) :
      Derives .exec ts c → bar.ret = '|' → Derives .pipe us d → Derives .pipe (ts ++ bar :: us) (.pipe c d)
  | block {ts rs : List Lexeme} {c : Cmd} {rds : List (Lexeme × Lexeme)} (lp rp : Lexeme) :
      lp.ret = '(' → Derives .line ts c → rp.ret = ')' → Redirs rs rds →
      Derives .exec (lp :: ts ++ rp :: rs) (wrap c rds)
  | simple {ts₀ ts ws : List Lexeme} {rds₀ rds : List (Lexeme × Lexeme)} :
      Redirs ts₀ rds₀ → Args ts ws rds → ws.length < MAXARGS →
      Derives .exec (ts₀ ++ ts) (wrap (.exec (ws.map Lexeme.span)) (rds₀ ++ rds))

/-- The parsing function of a nonterminal. -/
def parser (es : Nat) : Sym → (ps : List Char) → Except String (Parsed ps)
  | .line => parseline es
  | .pipe => parsepipe es
  | .exec => parseexec es

/-- What may follow a nonterminal, besides the end of the line: `)` after
    the line of a block, and the operators after a pipeline or a command. -/
def follow : Sym → List Char
  | .line => [')']
  | .pipe => ['&', ';', ')']
  | .exec => ['|', '&', ';', ')']

/-- The tokens are used up or the next one is one of `toks`. -/
def Follows (toks : List Char) : List Lexeme → Prop
  | [] => True
  | l :: _ => l.ret ∈ toks

/-! ## The parser reads tokens -/

/-- The token a `gettoken` call read. -/
def Token.lexeme (t : Token) : Lexeme := ⟨t.ret, t.q, t.eq⟩

@[simp] theorem lex_peek (es : Nat) (ps toks : List Char) : lex es (peek ps toks).2 = lex es ps := by
  rw [peek_snd, lex_skipws]

/-- When `gettoken` reads a token, it is the first of `lex`. -/
theorem lex_of_ret_ne {es : Nat} {ps : List Char} (h : (gettoken es ps).ret ≠ NUL) :
    lex es ps = (gettoken es ps).lexeme :: lex es (gettoken es ps).ps := by
  rw [lex.eq_1, dif_neg h]
  rfl

/-- When `gettoken` returns 0 there is no token left, before it or after
    it. -/
theorem lex_of_ret_nul {es : Nat} {ps : List Char} (h : (gettoken es ps).ret = NUL) :
    lex es ps = [] ∧ lex es (gettoken es ps).ps = [] := by
  have hlex : lex es ps = [] := by rw [lex.eq_1, dif_pos h]
  refine ⟨hlex, ?_⟩
  have hps : (gettoken es ps).ps = skipws ps := by
    simp only [gettoken] at h ⊢
    cases hs : skipws ps with
    | nil => rfl
    | cons c r =>
      rw [hs] at h
      by_cases h0 : c = NUL
      · subst h0
        rw [scan, if_pos rfl, ← hs, skipws_skipws]
      · exact absurd h (@scan_lead [] (by simp) _ _ h0).1
  rw [hps, lex_skipws, hlex]

theorem gettoken_peek (es : Nat) (ps toks : List Char) :
    gettoken es (peek ps toks).2 = gettoken es ps := by
  rw [peek_snd, gettoken_skipws]

/-- A `peek` that answers yes sees a token that starts with one of
    `toks`. -/
theorem peek_lead {es : Nat} {ps toks : List Char} (htoks : ∀ c ∈ toks, c ∈ symbols)
    (hp : (peek ps toks).1 = true) :
    (gettoken es (peek ps toks).2).ret ≠ NUL ∧ (gettoken es (peek ps toks).2).lexeme.lead ∈ toks := by
  have hne : (gettoken es (peek ps toks).2).ret ≠ NUL := by
    rw [gettoken_peek]
    exact ret_ne_nul_of_peek hp
  rw [peek_eq_nextIn es htoks, ← lex_peek es ps toks, lex_of_ret_ne hne] at hp
  exact ⟨hne, of_decide_eq_true hp⟩

/-- The first token is one of `toks` exactly when `peek` says so. -/
theorem peek_of_lex {es : Nat} {ps toks : List Char} (htoks : ∀ c ∈ toks, c ∈ symbols)
    {l : Lexeme} {ls : List Lexeme} (h : lex es ps = l :: ls) :
    (peek ps toks).1 = decide (l.lead ∈ toks) := by
  rw [peek_eq_nextIn es htoks, h]
  rfl

theorem peek_of_lex_nil {es : Nat} {ps toks : List Char} (htoks : ∀ c ∈ toks, c ∈ symbols)
    (h : lex es ps = []) : (peek ps toks).1 = false := by
  rw [peek_eq_nextIn es htoks, h]
  rfl

theorem lead_of_ne {l : Lexeme} (h : l.ret ≠ '+') : l.lead = l.ret := by
  simp [Lexeme.lead, h]

/-- A token that starts with `<` or `>` is one of the three redirection
    operators. -/
theorem ret_mem_of_lead {l : Lexeme} (h : l.lead ∈ ['<', '>']) : l.ret ∈ ['<', '>', '+'] := by
  unfold Lexeme.lead at h
  split_ifs at h with hp
  · simp [hp]
  · simp only [List.mem_cons, List.not_mem_nil, or_false] at h ⊢
    tauto

/-- A token that starts with a symbol other than `>` is that symbol. -/
theorem ret_eq_of_lead {l : Lexeme} {c : Char} (h : l.lead ∈ [c]) (hc : c ≠ '>') : l.ret = c := by
  unfold Lexeme.lead at h
  split_ifs at h
  · exact absurd (List.mem_singleton.mp h).symm hc
  · exact List.mem_singleton.mp h

theorem ok_of_map {ε α β : Type} {f : α → β} {x : Except ε α} {b : β} (h : x.map f = .ok b) :
    ∃ a, x = .ok a ∧ f a = b := by
  cases x with
  | error e => simp [Except.map] at h
  | ok a => exact ⟨a, rfl, by simpa [Except.map] using h⟩

@[simp] theorem Parsed.lift_cmd {ps ps' : List Char} (r : Parsed ps') (h : ps' <:+ ps) :
    (r.lift h).cmd = r.cmd := rfl

@[simp] theorem Parsed.lift_rest {ps ps' : List Char} (r : Parsed ps') (h : ps' <:+ ps) :
    (r.lift h).rest = r.rest := rfl

theorem wrap_append (c : Cmd) (a b : List (Lexeme × Lexeme)) : wrap c (a ++ b) = wrap (wrap c a) b := by
  induction a generalizing c with
  | nil => rfl
  | cons x a ih =>
    obtain ⟨op, w⟩ := x
    exact ih _

theorem fillArgv_redirect (c : Cmd) (tok : Char) (q eq : Nat) (argv : List (Nat × Nat)) :
    (redirect c tok q eq).fillArgv argv = redirect (c.fillArgv argv) tok q eq := by
  unfold redirect
  split_ifs <;> rfl

/-- Filling in `argv` reaches through the redirections. -/
theorem fillArgv_wrap (c : Cmd) (rds : List (Lexeme × Lexeme)) (argv : List (Nat × Nat)) :
    (wrap c rds).fillArgv argv = wrap (c.fillArgv argv) rds := by
  induction rds generalizing c with
  | nil => rfl
  | cons x rds ih =>
    obtain ⟨op, w⟩ := x
    simp only [wrap]
    rw [ih, fillArgv_redirect]

/-! ## Soundness: what the parser returns is derivable -/

/-- **REDIRS**: `parseredirs` reads a `redirs` and wraps the command in
    it. -/
theorem parseredirs_sound (es : Nat) (ps : List Char) :
    ∀ (cmd : Cmd) (r : Parsed ps), parseredirs es cmd ps = .ok r →
      ∃ ts rds, lex es ps = ts ++ lex es r.rest ∧ Redirs ts rds ∧ r.cmd = wrap cmd rds := by
  induction ps using (measure List.length).wf.induction with
  | h ps ih =>
    intro cmd r h
    rw [parseredirs] at h
    dsimp only at h
    split_ifs at h with hp hf
    · -- an operator, then its file
      obtain ⟨hne, hlead⟩ := @peek_lead es _ _ (by simp [symbols]) hp
      have hfile : (gettoken es (gettoken es (peek ps ['<', '>']).2).ps).ret ≠ NUL := by
        rw [not_not.mp hf]
        decide
      obtain ⟨r', hr', rfl⟩ := ok_of_map h
      have hlt : (gettoken es (gettoken es (peek ps ['<', '>']).2).ps).ps.length < ps.length :=
        lt_of_le_of_lt (gettoken_suffix es _).length_le (peek_gettoken_lt hp)
      obtain ⟨ts, rds, hlex, hrd, hcmd⟩ := ih _ hlt _ r' hr'
      refine ⟨_ :: _ :: ts, _, ?_, .cons (gettoken es (peek ps ['<', '>']).2).lexeme
        (gettoken es (gettoken es (peek ps ['<', '>']).2).ps).lexeme (ret_mem_of_lead hlead)
        (not_not.mp hf) hrd, hcmd⟩
      rw [← lex_peek es ps ['<', '>'], lex_of_ret_ne hne, lex_of_ret_ne hfile, hlex]
      rfl
    · cases h
      exact ⟨[], [], by simp, .nil, rfl⟩

/-- **BACKS**: the `&` loop reads `&`s and puts a `backcmd` around the
    command for each. -/
theorem parsebacks_sound (es : Nat) (ps : List Char) :
    ∀ cmd : Cmd, ∃ amps, lex es ps = amps ++ lex es (parsebacks es cmd ps).rest ∧
      (∀ a ∈ amps, a.ret = '&') ∧ (parsebacks es cmd ps).cmd = backs amps.length cmd := by
  induction ps using (measure List.length).wf.induction with
  | h ps ih =>
    intro cmd
    rw [parsebacks]
    split_ifs with hp
    · obtain ⟨hne, hlead⟩ := @peek_lead es _ _ (by simp [symbols]) hp
      obtain ⟨amps, hlex, hamp, hcmd⟩ := ih _ (peek_gettoken_lt hp) (.back cmd)
      refine ⟨(gettoken es (peek ps ['&']).2).lexeme :: amps, ?_, ?_, hcmd⟩
      · rw [← lex_peek es ps ['&'], lex_of_ret_ne hne, Parsed.lift_rest, hlex]
        rfl
      · intro a ha
        rcases List.mem_cons.mp ha with rfl | ha
        · exact ret_eq_of_lead hlead (by decide)
        · exact hamp a ha
    · exact ⟨[], by simp, by simp, rfl⟩

/-- **ARGS**: the loop of `parseexec` reads words and their redirections,
    fewer than `MAXARGS` words in all, and fills them in as `argv`. -/
theorem parseargs_sound (es : Nat) (ps : List Char) :
    ∀ (ret : Cmd) (argv : List (Nat × Nat)) (r : Parsed ps), argv.length < MAXARGS →
      parseargs es ret argv ps = .ok r →
      ∃ ts ws rds, lex es ps = ts ++ lex es r.rest ∧ Args ts ws rds ∧
        argv.length + ws.length < MAXARGS ∧ r.cmd = (wrap ret rds).fillArgv (argv ++ ws.map Lexeme.span) := by
  induction ps using (measure List.length).wf.induction with
  | h ps ih =>
    intro ret argv r hargv h
    rw [parseargs] at h
    dsimp only at h
    split_ifs at h with hp h0 ha hmax
    · -- the next token ends the command
      cases h
      exact ⟨[], [], [], by simp, .nil, by simpa using hargv, by simp [wrap]⟩
    · -- the end of the line
      cases h
      obtain ⟨hl, hl'⟩ := lex_of_ret_nul h0
      refine ⟨[], [], [], ?_, .nil, by simpa using hargv, by simp [wrap]⟩
      rw [hl', ← lex_peek es ps ['|', ')', '&', ';'], hl]
      rfl
    · -- a word, then its redirections
      split at h
      · cases h
      · rename_i r₁ hr₁
        obtain ⟨r', hr', rfl⟩ := ok_of_map h
        obtain ⟨ts₁, rds₁, hlex₁, hrd₁, hcmd₁⟩ := parseredirs_sound es _ _ r₁ hr₁
        have hlt : r₁.rest.length < ps.length :=
          lt_of_le_of_lt r₁.suffix.length_le (lt_of_lt_of_le (gettoken_lt h0) (peek_suffix ps _).length_le)
        obtain ⟨ts, ws, rds, hlex, hargs, hcount, hcmd⟩ := ih _ hlt _ _ r' (by simp; omega) hr'
        refine ⟨(gettoken es (peek ps ['|', ')', '&', ';']).2).lexeme :: ts₁ ++ ts,
          (gettoken es (peek ps ['|', ')', '&', ';']).2).lexeme :: ws, rds₁ ++ rds, ?_,
          .cons _ (not_not.mp ha) hrd₁ hargs, ?_, ?_⟩
        · rw [← lex_peek es ps ['|', ')', '&', ';'], lex_of_ret_ne h0, hlex₁, hlex]
          simp
        · simp only [List.length_append, List.length_cons, List.length_nil] at hcount ⊢
          omega
        · rw [Parsed.lift_cmd, hcmd, hcmd₁, wrap_append]
          simp [Lexeme.span, Token.lexeme]

/-- What soundness says of a parsing function at a cursor: what it
    returns is a derivation of the tokens it read. -/
def Sound (es : Nat) (sym : Sym) (f : (ps : List Char) → Except String (Parsed ps)) (ps : List Char) :
    Prop :=
  ∀ r, f ps = .ok r → ∃ ts, lex es ps = ts ++ lex es r.rest ∧ Derives sym ts r.cmd

theorem parseblock_sound {es : Nat} {ps : List Char}
    (ih : ∀ ps', ps'.length < ps.length → Sound es .line (parseline es) ps') :
    Sound es .exec (parseblock es) ps := by
  intro r h
  rw [parseblock] at h
  split_ifs at h with hp
  · split at h
    · cases h
    · rename_i c hc
      split_ifs at h with hq
      · obtain ⟨r', hr', rfl⟩ := ok_of_map h
        obtain ⟨hne, hlead⟩ := @peek_lead es _ _ (by simp [symbols]) hp
        obtain ⟨hne', hlead'⟩ := @peek_lead es _ _ (by simp [symbols]) hq
        obtain ⟨ts, hlex, hder⟩ := ih _ (peek_gettoken_lt hp) c hc
        obtain ⟨rs, rds, hlex', hrd, hcmd⟩ := parseredirs_sound es _ _ r' hr'
        refine ⟨(gettoken es (peek ps ['(']).2).lexeme :: ts ++
          (gettoken es (peek c.rest [')']).2).lexeme :: rs, ?_, ?_⟩
        · rw [← lex_peek es ps ['('], lex_of_ret_ne hne, hlex, ← lex_peek es c.rest [')'],
            lex_of_ret_ne hne', hlex']
          simp
          rfl
        · rw [Parsed.lift_cmd, hcmd]
          exact .block _ _ (ret_eq_of_lead hlead (by decide)) hder (ret_eq_of_lead hlead' (by decide)) hrd

theorem parseexec_sound {es : Nat} {ps : List Char}
    (hb : Sound es .exec (parseblock es) (peek ps ['(']).2) : Sound es .exec (parseexec es) ps := by
  intro r h
  rw [parseexec] at h
  split_ifs at h with hp
  · obtain ⟨r', hr', rfl⟩ := ok_of_map h
    obtain ⟨ts, hlex, hder⟩ := hb r' hr'
    exact ⟨ts, by rw [← lex_peek es ps ['('], hlex]; rfl, hder⟩
  · split at h
    · cases h
    · rename_i r₁ hr₁
      obtain ⟨r', hr', rfl⟩ := ok_of_map h
      obtain ⟨ts₀, rds₀, hlex₀, hrd₀, hcmd₀⟩ := parseredirs_sound es _ _ r₁ hr₁
      obtain ⟨ts, ws, rds, hlex, hargs, hcount, hcmd⟩ := parseargs_sound es _ _ _ r' (by decide) hr'
      refine ⟨ts₀ ++ ts, ?_, ?_⟩
      · rw [← lex_peek es ps ['('], hlex₀, hlex]
        simp
      · rw [Parsed.lift_cmd, hcmd, hcmd₀, ← wrap_append, fillArgv_wrap, List.nil_append]
        exact .simple hrd₀ hargs (by simpa using hcount)

theorem parsepipe_sound {es : Nat} {ps : List Char} (he : Sound es .exec (parseexec es) ps)
    (ih : ∀ ps', ps'.length < ps.length → Sound es .pipe (parsepipe es) ps') :
    Sound es .pipe (parsepipe es) ps := by
  intro r h
  rw [parsepipe] at h
  split at h
  · cases h
  · rename_i c hc
    obtain ⟨ts, hlex, hder⟩ := he c hc
    split_ifs at h with hp
    · split at h
      · cases h
      · rename_i r' hr'
        cases h
        obtain ⟨hne, hlead⟩ := @peek_lead es _ _ (by simp [symbols]) hp
        have hlt := lt_of_lt_of_le (@peek_gettoken_lt es _ _ hp) c.suffix.length_le
        obtain ⟨us, hlex', hder'⟩ := ih _ hlt r' hr'
        refine ⟨ts ++ _ :: us, ?_, .pipe _ hder (ret_eq_of_lead hlead (by decide)) hder'⟩
        rw [hlex, ← lex_peek es c.rest ['|'], lex_of_ret_ne hne, hlex']
        simp
    · cases h
      exact ⟨ts, by rw [lex_peek]; exact hlex, .exec hder⟩

theorem parseline_sound {es : Nat} {ps : List Char} (hp : Sound es .pipe (parsepipe es) ps)
    (ih : ∀ ps', ps'.length < ps.length → Sound es .line (parseline es) ps') :
    Sound es .line (parseline es) ps := by
  intro r h
  rw [parseline] at h
  split at h
  · cases h
  · rename_i c hc
    obtain ⟨ts, hlex, hder⟩ := hp c hc
    obtain ⟨amps, hlex₁, hamp, hcmd₁⟩ := parsebacks_sound es c.rest c.cmd
    dsimp only at h
    split_ifs at h with hq
    · split at h
      · cases h
      · rename_i r' hr'
        cases h
        obtain ⟨hne, hlead⟩ := @peek_lead es _ _ (by simp [symbols]) hq
        have hlt := lt_of_lt_of_le (@peek_gettoken_lt es _ _ hq)
          ((parsebacks es c.cmd c.rest).suffix.trans c.suffix).length_le
        obtain ⟨us, hlex', hder'⟩ := ih _ hlt r' hr'
        refine ⟨ts ++ amps ++ (gettoken es (peek (parsebacks es c.cmd c.rest).rest [';']).2).lexeme :: us,
          ?_, ?_⟩
        · rw [hlex, hlex₁, ← lex_peek es (parsebacks es c.cmd c.rest).rest [';'], lex_of_ret_ne hne, hlex']
          simp
        · rw [hcmd₁]
          exact .seq _ _ hder hamp (ret_eq_of_lead hlead (by decide)) hder'
    · cases h
      refine ⟨ts ++ amps, ?_, ?_⟩
      · rw [lex_peek, hlex, hlex₁]
        simp
      · rw [hcmd₁]
        exact .back _ hder hamp

/-- **SOUND**: whatever a parsing function returns is a derivation, from
    its nonterminal, of the tokens it read. -/
theorem parse_sound (es : Nat) (ps : List Char) : ∀ sym, Sound es sym (parser es sym) ps := by
  induction ps using (measure List.length).wf.induction with
  | h ps ih =>
    have hb : Sound es .exec (parseblock es) (peek ps ['(']).2 :=
      parseblock_sound fun ps' h => ih ps' (lt_of_lt_of_le h (peek_suffix ps _).length_le) .line
    have he : Sound es .exec (parseexec es) ps := parseexec_sound hb
    have hp : Sound es .pipe (parsepipe es) ps := parsepipe_sound he fun ps' h => ih ps' h .pipe
    have hl : Sound es .line (parseline es) ps := parseline_sound hp fun ps' h => ih ps' h .line
    intro sym
    cases sym
    exacts [hl, hp, he]

/-! ## Completeness: every derivation is found -/

theorem gettoken_lexeme_of_lex {es : Nat} {ps : List Char} {l : Lexeme} {ls : List Lexeme}
    (h : lex es ps = l :: ls) : (gettoken es ps).lexeme = l ∧ lex es (gettoken es ps).ps = ls := by
  obtain ⟨h1, h2, h3, h4⟩ := gettoken_of_lex h
  exact ⟨by rw [Token.lexeme, h1, h2, h3], h4⟩

theorem peek_true {es : Nat} {ps toks : List Char} (htoks : ∀ c ∈ toks, c ∈ symbols) {l : Lexeme}
    {ls : List Lexeme} (h : lex es ps = l :: ls) (hl : l.lead ∈ toks) : (peek ps toks).1 = true := by
  rw [peek_of_lex htoks h]
  exact decide_eq_true hl

theorem peek_false {es : Nat} {ps toks : List Char} (htoks : ∀ c ∈ toks, c ∈ symbols) {ls : List Lexeme}
    (h : lex es ps = ls) (hl : nextIn toks ls = false) : (peek ps toks).1 = false := by
  rw [peek_eq_nextIn es htoks, h]
  exact hl

/-- A token from `toks`, which has no `>>`, starts with itself. -/
theorem lead_mem {l : Lexeme} {toks toks' : List Char} (h : l.ret ∈ toks) (hp : '+' ∉ toks)
    (hs : ∀ c ∈ toks, c ∈ toks') : l.lead ∈ toks' := by
  rw [lead_of_ne (fun h' => hp (h' ▸ h))]
  exact hs _ h

theorem lead_mem_of_redir {l : Lexeme} (h : l.ret ∈ ['<', '>', '+']) : l.lead ∈ ['<', '>'] := by
  unfold Lexeme.lead
  split_ifs with hp
  · simp
  · simp only [List.mem_cons, List.not_mem_nil, or_false] at h ⊢
    tauto

theorem Follows.mono {toks toks' : List Char} {ls : List Lexeme} (h : Follows toks ls)
    (hs : ∀ c ∈ toks, c ∈ toks') : Follows toks' ls := by
  cases ls with
  | nil => trivial
  | cons l ls => exact hs _ h

/-- `peek` does not take a next token from `toks` when none of them starts
    with one of `toks'`. -/
theorem nextIn_eq_false {toks toks' : List Char} {ls : List Lexeme} (h : Follows toks ls)
    (hd : ∀ c ∈ toks, (if c = '+' then '>' else c) ∉ toks') : nextIn toks' ls = false := by
  cases ls with
  | nil => rfl
  | cons l ls => exact decide_eq_false (hd _ h)

theorem Redirs.follows {ts rest : List Lexeme} {rds : List (Lexeme × Lexeme)} {toks : List Char}
    (h : Redirs ts rds) (hr : Follows toks rest) (ht : ∀ c ∈ ['<', '>', '+'], c ∈ toks) :
    Follows toks (ts ++ rest) := by
  cases h with
  | nil => exact hr
  | cons op w hop _ _ => exact ht _ hop

theorem Args.follows {ts ws rest : List Lexeme} {rds : List (Lexeme × Lexeme)} {toks : List Char}
    (h : Args ts ws rds) (hr : Follows toks rest) (ht : 'a' ∈ toks) : Follows toks (ts ++ rest) := by
  cases h with
  | nil => exact hr
  | cons w hw _ _ =>
    show w.ret ∈ toks
    rw [hw]
    exact ht

/-- **REDIRS**: on a `redirs` followed by a token that is no redirection,
    `parseredirs` wraps the command in it. -/
theorem parseredirs_complete (es : Nat) {ts : List Lexeme} {rds : List (Lexeme × Lexeme)}
    (h : Redirs ts rds) :
    ∀ (ps : List Char) (cmd : Cmd) (rest : List Lexeme), lex es ps = ts ++ rest →
      nextIn ['<', '>'] rest = false →
      ∃ r, parseredirs es cmd ps = .ok r ∧ r.cmd = wrap cmd rds ∧ lex es r.rest = rest := by
  induction h with
  | nil =>
    intro ps cmd rest hlex hnext
    have hp := peek_false (by simp [symbols]) hlex hnext
    rw [parseredirs, dif_neg (by simp [hp])]
    exact ⟨_, rfl, rfl, by rw [lex_peek]; exact hlex⟩
  | cons op w hop hw _ ih =>
    intro ps cmd rest hlex hnext
    have hp := peek_true (by simp [symbols]) hlex (lead_mem_of_redir hop)
    obtain ⟨hop', hlex₁⟩ := gettoken_lexeme_of_lex
      (show lex es (peek ps ['<', '>']).2 = op :: w :: (_ ++ rest) by rw [lex_peek, hlex]; rfl)
    obtain ⟨hw', hlex₂⟩ := gettoken_lexeme_of_lex hlex₁
    subst hop' hw'
    obtain ⟨r, hr, hcmd, hrest⟩ := ih _ (redirect cmd (gettoken es (peek ps ['<', '>']).2).ret
      (gettoken es (gettoken es (peek ps ['<', '>']).2).ps).q
      (gettoken es (gettoken es (peek ps ['<', '>']).2).ps).eq) rest hlex₂ hnext
    rw [parseredirs, dif_pos hp]
    dsimp only
    rw [if_neg (not_not.mpr (show (gettoken es (gettoken es (peek ps ['<', '>']).2).ps).ret = 'a' from hw)),
      hr]
    exact ⟨_, rfl, hcmd, hrest⟩

/-- **BACKS**: on `&`s followed by a token other than `&`, the loop puts a
    `backcmd` around the command for each. -/
theorem parsebacks_complete (es : Nat) {amps : List Lexeme} (hamp : ∀ a ∈ amps, a.ret = '&') :
    ∀ (ps : List Char) (cmd : Cmd) (rest : List Lexeme), lex es ps = amps ++ rest →
      nextIn ['&'] rest = false →
      (parsebacks es cmd ps).cmd = backs amps.length cmd ∧ lex es (parsebacks es cmd ps).rest = rest := by
  induction amps with
  | nil =>
    intro ps cmd rest hlex hnext
    have hp := @peek_false _ _ ['&'] (by simp [symbols]) _ hlex hnext
    rw [parsebacks, dif_neg (by simp [hp])]
    exact ⟨rfl, by rw [lex_peek]; exact hlex⟩
  | cons a amps ih =>
    intro ps cmd rest hlex hnext
    have ha := hamp a List.mem_cons_self
    have hp := @peek_true _ _ ['&'] (by simp [symbols]) _ _ hlex
      (@lead_mem _ (['&']) _ (by simp [ha]) (by simp) (by simp))
    obtain ⟨-, hlex₁⟩ := gettoken_lexeme_of_lex
      (show lex es (peek ps ['&']).2 = a :: (amps ++ rest) by rw [lex_peek, hlex]; rfl)
    obtain ⟨hcmd, hrest⟩ := ih (fun b hb => hamp b (List.mem_cons_of_mem _ hb)) _ (.back cmd) rest
      hlex₁ hnext
    rw [parsebacks, dif_pos hp]
    exact ⟨hcmd, hrest⟩

/-- **ARGS**: on `{WORD redirs}` followed by the end or a token that ends
    a command, with fewer than `MAXARGS` words in all, the loop of
    `parseexec` reads them and fills in `argv`. -/
theorem parseargs_complete (es : Nat) {ts ws : List Lexeme} {rds : List (Lexeme × Lexeme)}
    (h : Args ts ws rds) :
    ∀ (ps : List Char) (ret : Cmd) (argv : List (Nat × Nat)) (rest : List Lexeme),
      lex es ps = ts ++ rest → Follows (follow .exec) rest → argv.length + ws.length < MAXARGS →
      ∃ r, parseargs es ret argv ps = .ok r ∧
        r.cmd = (wrap ret rds).fillArgv (argv ++ ws.map Lexeme.span) ∧ lex es r.rest = rest := by
  induction h with
  | nil =>
    intro ps ret argv rest hlex hf _
    rw [List.nil_append] at hlex
    cases rest with
    | nil =>
      -- the end of the line: `gettoken` returns 0
      have hp := @peek_false _ _ ['|', ')', '&', ';'] (by simp [symbols]) _ hlex rfl
      have h0 : (gettoken es (peek ps ['|', ')', '&', ';']).2).ret = NUL :=
        gettoken_of_lex_nil (by rw [lex_peek]; exact hlex)
      rw [parseargs, if_neg (by simp [hp])]
      dsimp only
      rw [dif_pos h0]
      exact ⟨_, rfl, by simp [wrap], (lex_of_ret_nul h0).2⟩
    | cons l rest =>
      -- a token that ends the command
      have hp := @peek_true _ _ ['|', ')', '&', ';'] (by simp [symbols]) _ _ hlex
        (@lead_mem _ (follow .exec) _ hf (by simp [follow]) (by simp [follow]))
      rw [parseargs, if_pos hp]
      exact ⟨_, rfl, by simp [wrap], by rw [lex_peek]; exact hlex⟩
  | @cons ts₁ ts' ws' rds₁ rds' w hw hrd hargs ih =>
    intro ps ret argv rest hlex hf hcount
    have hp := @peek_false _ _ ['|', ')', '&', ';'] (by simp [symbols]) _ hlex
      (decide_eq_false (by rw [lead_of_ne (by rw [hw]; decide), hw]; decide))
    obtain ⟨hw', hlex₁⟩ := gettoken_lexeme_of_lex
      (show lex es (peek ps ['|', ')', '&', ';']).2 = w :: (ts₁ ++ (ts' ++ rest)) by
        rw [lex_peek, hlex]
        simp)
    subst hw'
    have hwa : (gettoken es (peek ps ['|', ')', '&', ';']).2).ret = 'a' := hw
    have h0 : (gettoken es (peek ps ['|', ')', '&', ';']).2).ret ≠ NUL := by
      rw [hwa]
      decide
    have hnext : nextIn ['<', '>'] (ts' ++ rest) = false :=
      nextIn_eq_false (hargs.follows (@Follows.mono _ ('a' :: follow .exec) _ hf (by simp [follow])) (by simp))
        (by simp [follow])
    obtain ⟨r₁, hr₁, hcmd₁, hrest₁⟩ := parseredirs_complete es hrd _ ret _ hlex₁ hnext
    have hcount' : (argv ++ [((gettoken es (peek ps ['|', ')', '&', ';']).2).q,
        (gettoken es (peek ps ['|', ')', '&', ';']).2).eq)]).length + ws'.length < MAXARGS := by
      simp only [List.length_append, List.length_cons, List.length_nil] at hcount ⊢
      omega
    obtain ⟨r, hr, hcmd, hrest⟩ := ih r₁.rest r₁.cmd _ rest hrest₁ hf hcount'
    rw [parseargs, if_neg (by simp [hp])]
    dsimp only
    rw [dif_neg h0, if_neg (not_not.mpr hwa), if_neg (by simp only [List.length_cons] at hcount; omega), hr₁]
    dsimp only
    rw [hr]
    refine ⟨_, rfl, ?_, hrest⟩
    rw [Parsed.lift_cmd, hcmd, hcmd₁, ← wrap_append]
    simp [Lexeme.span, Token.lexeme]

/-- What completeness says of a derivation: on its tokens, followed by the
    end of the line or by a token that may follow its nonterminal, the
    parsing function returns the derivation's tree and stops before the
    rest. -/
def Complete (es : Nat) (sym : Sym) (ts : List Lexeme) (c : Cmd) : Prop :=
  ∀ ps rest, lex es ps = ts ++ rest → Follows (follow sym) rest →
    ∃ r, parser es sym ps = .ok r ∧ r.cmd = c ∧ lex es r.rest = rest

theorem line_complete_back {es : Nat} {ts amps : List Lexeme} {c : Cmd}
    (hp : Complete es .pipe ts c) (hamp : ∀ a ∈ amps, a.ret = '&') :
    Complete es .line (ts ++ amps) (backs amps.length c) := by
  intro ps rest hlex hf
  have hf' : Follows (follow .pipe) (amps ++ rest) := by
    cases amps with
    | nil => exact hf.mono (by simp [follow])
    | cons a amps =>
      show a.ret ∈ follow .pipe
      rw [hamp a List.mem_cons_self]
      decide
  obtain ⟨c₁, hc₁, hcmd₁, hrest₁⟩ := hp ps (amps ++ rest) (by rw [hlex, List.append_assoc]) hf'
  obtain ⟨hcmd, hrest⟩ := parsebacks_complete es hamp c₁.rest c₁.cmd rest hrest₁
    (nextIn_eq_false hf (by simp [follow]))
  have hq := @peek_false _ _ [';'] (by simp [symbols]) _ hrest (nextIn_eq_false hf (by simp [follow]))
  have hc₁' : parsepipe es ps = .ok c₁ := hc₁
  show ∃ r, parseline es ps = .ok r ∧ _
  rw [parseline, hc₁']
  dsimp only
  rw [dif_neg (by simp [hq])]
  refine ⟨_, rfl, ?_, by rw [lex_peek]; exact hrest⟩
  show (parsebacks es c₁.cmd c₁.rest).cmd = _
  rw [hcmd, hcmd₁]

theorem line_complete_seq {es : Nat} {ts us amps : List Lexeme} {c d : Cmd} {semi : Lexeme}
    (hp : Complete es .pipe ts c) (hamp : ∀ a ∈ amps, a.ret = '&') (hsemi : semi.ret = ';')
    (hl : Complete es .line us d) :
    Complete es .line (ts ++ amps ++ semi :: us) (.list (backs amps.length c) d) := by
  intro ps rest hlex hf
  have hf' : Follows (follow .pipe) (amps ++ semi :: (us ++ rest)) := by
    cases amps with
    | nil =>
      show semi.ret ∈ follow .pipe
      rw [hsemi]
      decide
    | cons a amps =>
      show a.ret ∈ follow .pipe
      rw [hamp a List.mem_cons_self]
      decide
  obtain ⟨c₁, hc₁, hcmd₁, hrest₁⟩ := hp ps _ (by rw [hlex]; simp) hf'
  have hsemi' : nextIn ['&'] (semi :: (us ++ rest)) = false :=
    decide_eq_false (by rw [lead_of_ne (by rw [hsemi]; decide), hsemi]; decide)
  obtain ⟨hcmd, hrest⟩ := parsebacks_complete es hamp c₁.rest c₁.cmd _ hrest₁ hsemi'
  have hq := @peek_true _ _ [';'] (by simp [symbols]) _ _ hrest
    (@lead_mem _ ([';']) _ (by simp [hsemi]) (by simp) (by simp))
  obtain ⟨-, hlex₁⟩ := gettoken_lexeme_of_lex
    (show lex es (peek (parsebacks es c₁.cmd c₁.rest).rest [';']).2 = semi :: (us ++ rest) by
      rw [lex_peek, hrest])
  obtain ⟨d₁, hd₁, hcmd₂, hrest₂⟩ := hl _ rest hlex₁ hf
  have hc₁' : parsepipe es ps = .ok c₁ := hc₁
  have hd₁' : parseline es _ = .ok d₁ := hd₁
  show ∃ r, parseline es ps = .ok r ∧ _
  rw [parseline, hc₁']
  dsimp only
  rw [dif_pos hq, hd₁']
  refine ⟨_, rfl, ?_, hrest₂⟩
  show Cmd.list (parsebacks es c₁.cmd c₁.rest).cmd d₁.cmd = _
  rw [hcmd, hcmd₂, hcmd₁]

theorem pipe_complete_exec {es : Nat} {ts : List Lexeme} {c : Cmd} (he : Complete es .exec ts c) :
    Complete es .pipe ts c := by
  intro ps rest hlex hf
  obtain ⟨c₁, hc₁, hcmd₁, hrest₁⟩ := he ps rest hlex (hf.mono (by simp [follow]))
  have hq := @peek_false _ _ ['|'] (by simp [symbols]) _ hrest₁ (nextIn_eq_false hf (by simp [follow]))
  have hc₁' : parseexec es ps = .ok c₁ := hc₁
  show ∃ r, parsepipe es ps = .ok r ∧ _
  rw [parsepipe, hc₁']
  dsimp only
  rw [dif_neg (by simp [hq])]
  exact ⟨_, rfl, hcmd₁, by rw [lex_peek]; exact hrest₁⟩

theorem pipe_complete_pipe {es : Nat} {ts us : List Lexeme} {c d : Cmd} {bar : Lexeme}
    (he : Complete es .exec ts c) (hbar : bar.ret = '|') (hp : Complete es .pipe us d) :
    Complete es .pipe (ts ++ bar :: us) (.pipe c d) := by
  intro ps rest hlex hf
  obtain ⟨c₁, hc₁, hcmd₁, hrest₁⟩ := he ps (bar :: (us ++ rest)) (by rw [hlex]; simp)
    (show bar.ret ∈ follow .exec by rw [hbar]; decide)
  have hq := @peek_true _ _ ['|'] (by simp [symbols]) _ _ hrest₁
    (@lead_mem _ (['|']) _ (by simp [hbar]) (by simp) (by simp))
  obtain ⟨-, hlex₁⟩ := gettoken_lexeme_of_lex
    (show lex es (peek c₁.rest ['|']).2 = bar :: (us ++ rest) by rw [lex_peek, hrest₁])
  obtain ⟨d₁, hd₁, hcmd₂, hrest₂⟩ := hp _ rest hlex₁ hf
  have hc₁' : parseexec es ps = .ok c₁ := hc₁
  have hd₁' : parsepipe es _ = .ok d₁ := hd₁
  show ∃ r, parsepipe es ps = .ok r ∧ _
  rw [parsepipe, hc₁']
  dsimp only
  rw [dif_pos hq, hd₁']
  refine ⟨_, rfl, ?_, hrest₂⟩
  show Cmd.pipe c₁.cmd d₁.cmd = _
  rw [hcmd₁, hcmd₂]

theorem exec_complete_block {es : Nat} {ts rs : List Lexeme} {c : Cmd} {rds : List (Lexeme × Lexeme)}
    {lp rp : Lexeme} (hlp : lp.ret = '(') (hl : Complete es .line ts c) (hrp : rp.ret = ')')
    (hrd : Redirs rs rds) : Complete es .exec (lp :: ts ++ rp :: rs) (wrap c rds) := by
  intro ps rest hlex hf
  have hlex₀ : lex es ps = lp :: (ts ++ rp :: (rs ++ rest)) := by rw [hlex]; simp
  have hlead : lp.lead ∈ ['('] := @lead_mem _ (['(']) _ (by simp [hlp]) (by simp) (by simp)
  have hp := @peek_true _ _ ['('] (by simp [symbols]) _ _ hlex₀ hlead
  have hp' := @peek_true _ _ ['('] (by simp [symbols]) _ _
    (show lex es (peek ps ['(']).2 = _ by rw [lex_peek]; exact hlex₀) hlead
  obtain ⟨-, hlex₁⟩ := gettoken_lexeme_of_lex
    (show lex es (peek (peek ps ['(']).2 ['(']).2 = _ by rw [lex_peek, lex_peek]; exact hlex₀)
  obtain ⟨c₁, hc₁, hcmd₁, hrest₁⟩ := hl _ _ hlex₁ (show rp.ret ∈ follow .line by rw [hrp]; decide)
  have hq := @peek_true _ _ [')'] (by simp [symbols]) _ _ hrest₁
    (@lead_mem _ ([')']) _ (by simp [hrp]) (by simp) (by simp))
  obtain ⟨-, hlex₂⟩ := gettoken_lexeme_of_lex
    (show lex es (peek c₁.rest [')']).2 = rp :: (rs ++ rest) by rw [lex_peek, hrest₁])
  obtain ⟨r, hr, hcmd, hrest⟩ := parseredirs_complete es hrd _ c₁.cmd rest hlex₂
    (nextIn_eq_false hf (by simp [follow]))
  have hc₁' : parseline es _ = .ok c₁ := hc₁
  show ∃ r, parseexec es ps = .ok r ∧ _
  rw [parseexec, if_pos hp, parseblock, dif_pos hp', hc₁']
  dsimp only
  rw [if_pos hq, hr]
  refine ⟨_, rfl, ?_, hrest⟩
  rw [Parsed.lift_cmd, Parsed.lift_cmd, hcmd, hcmd₁]

theorem exec_complete_simple {es : Nat} {ts₀ ts ws : List Lexeme} {rds₀ rds : List (Lexeme × Lexeme)}
    (hrd : Redirs ts₀ rds₀) (hargs : Args ts ws rds) (hcount : ws.length < MAXARGS) :
    Complete es .exec (ts₀ ++ ts) (wrap (.exec (ws.map Lexeme.span)) (rds₀ ++ rds)) := by
  intro ps rest hlex hf
  have hlex' : lex es ps = ts₀ ++ (ts ++ rest) := by rw [hlex, List.append_assoc]
  have hfa : Follows ('a' :: follow .exec) (ts ++ rest) := hargs.follows (hf.mono (by simp [follow])) (by simp)
  have hfr : Follows (['<', '>', '+'] ++ 'a' :: follow .exec) (ts₀ ++ (ts ++ rest)) :=
    hrd.follows (hfa.mono (by simp [follow])) (by simp [follow])
  have hp := @peek_false _ _ ['('] (by simp [symbols]) _ hlex' (nextIn_eq_false hfr (by simp [follow]))
  obtain ⟨r₁, hr₁, hcmd₁, hrest₁⟩ := parseredirs_complete es hrd (peek ps ['(']).2 (.exec []) (ts ++ rest)
    (by rw [lex_peek]; exact hlex') (nextIn_eq_false hfa (by simp [follow]))
  obtain ⟨r, hr, hcmd, hrest⟩ := parseargs_complete es hargs r₁.rest r₁.cmd [] rest hrest₁ hf
    (by simpa using hcount)
  show ∃ r, parseexec es ps = .ok r ∧ _
  rw [parseexec, if_neg (by simp [hp]), hr₁]
  dsimp only
  rw [hr]
  refine ⟨_, rfl, ?_, hrest⟩
  rw [Parsed.lift_cmd, hcmd, hcmd₁, ← wrap_append, fillArgv_wrap]
  rfl

/-- **COMPLETE**: on the tokens of a derivation, followed by the end of the
    line or a token that may follow its nonterminal, the parsing function
    returns the derivation's tree. -/
theorem parse_complete (es : Nat) {sym : Sym} {ts : List Lexeme} {c : Cmd} (h : Derives sym ts c) :
    Complete es sym ts c := by
  induction h with
  | back amps _ hamp ih => exact line_complete_back ih hamp
  | seq amps semi _ hamp hsemi _ ihp ihl => exact line_complete_seq ihp hamp hsemi ihl
  | exec _ ih => exact pipe_complete_exec ih
  | pipe bar _ hbar _ ihe ihp => exact pipe_complete_pipe ihe hbar ihp
  | block lp rp hlp _ hrp hrd ih => exact exec_complete_block hlp ih hrp hrd
  | simple hrd hargs hcount => exact exec_complete_simple hrd hargs hcount

/-! ## `parsecmd` -/

theorem lex_nil (es : Nat) : lex es [] = [] := by
  rw [lex.eq_1, dif_pos (show (gettoken es []).ret = NUL from rfl)]

/-- In a line with no NUL, no token left means nothing but blanks left. -/
theorem skipws_eq_nil_of_lex {es : Nat} {ps : List Char} (hnul : NUL ∉ ps) (h : lex es ps = []) :
    skipws ps = [] := by
  have h0 := gettoken_of_lex_nil h
  simp only [gettoken] at h0
  cases hs : skipws ps with
  | nil => rfl
  | cons c r =>
    rw [hs] at h0
    have hc : c ≠ NUL := fun hc => hnul ((skipws_suffix ps).subset (hs ▸ hc ▸ List.mem_cons_self))
    exact absurd h0 (@scan_lead [] (by simp) _ _ hc).1

/-- **PARSECMD**: `parsecmd` returns, rather than panicking, exactly when
    the tokens of the line derive from `line`, and what it returns is the
    tree of that derivation. -/
theorem parsecmd_ok_iff (s : List Char) (c : Cmd) :
    (∃ buf, parsecmd s = .ok (c, buf)) ↔ Derives .line (lex (strlen s) (s.take (strlen s))) c := by
  constructor
  · rintro ⟨buf, h⟩
    unfold parsecmd at h
    dsimp only at h
    split at h
    · cases h
    · rename_i r hr
      split_ifs at h with hrest
      cases h
      obtain ⟨ts, hlex, hder⟩ := parse_sound (strlen s) _ .line r hr
      have hnil : lex (strlen s) r.rest = [] := by
        rw [← lex_skipws, ← peek_snd r.rest [], not_not.mp hrest, lex_nil]
      rw [hlex, hnil, List.append_nil]
      exact hder
  · intro h
    obtain ⟨r, hr, hcmd, hrest⟩ := parse_complete (strlen s) h (s.take (strlen s)) [] (by simp) trivial
    have hnul : NUL ∉ r.rest := fun hn => nul_not_mem_take_strlen s (r.suffix.subset hn)
    have hws : skipws r.rest = [] := skipws_eq_nil_of_lex hnul hrest
    have hr' : parseline (strlen s) (s.take (strlen s)) = .ok r := hr
    refine ⟨nulterminate r.cmd s, ?_⟩
    unfold parsecmd
    dsimp only
    rw [hr']
    simp [hws, hcmd]

/-! ## `nulterminate` -/

/-- A byte the word loop of `gettoken` takes: neither blank nor a
    symbol. -/
def wordByte (c : Char) : Bool := (strchr whitespace c).isNone && (strchr symbols c).isNone

/-- The `(q, eq)` of every `argv` entry and redirection file of the
    tree. -/
def Cmd.words : Cmd → List (Nat × Nat)
  | .exec argv => argv
  | .redir c file efile _ _ => c.words ++ [(file, efile)]
  | .pipe l r => l.words ++ r.words
  | .list l r => l.words ++ r.words
  | .back c => c.words

/-- The C string at offset `q` of a buffer: its bytes up to the first
    NUL. -/
def cstrAt (buf : List Char) (q : Nat) : List Char := (buf.drop q).takeWhile (· != NUL)

/-- The bytes of the line `L` from `q` to `eq` are a word: bytes that the
    word loop takes, up to the end of the line or a byte it stops at. -/
structure WordAt (L : List Char) (q eq : Nat) : Prop where
  lt : q < eq
  le : eq ≤ L.length
  bytes : ∀ i, q ≤ i → i < eq → ∃ b, L[i]? = some b ∧ wordByte b = true
  stop : ∀ b, L[eq]? = some b → wordByte b = false

theorem skipword_eq (s : List Char) : skipword s = s.dropWhile wordByte := by
  induction s with
  | nil => rfl
  | cons c r ih =>
    rw [skipword, List.dropWhile_cons, ← ih]
    rfl

/-- `gettoken` returns `a` only for a byte that is no symbol, and then
    reads the word that starts there. -/
theorem scan_of_ret_a {c : Char} {r : List Char} (h : (scan (c :: r)).1 = 'a') :
    (strchr symbols c).isNone = true ∧ scan (c :: r) = ('a', skipword (c :: r)) := by
  rw [scan] at h ⊢
  split_ifs at h ⊢ with h0 h1 h2 h3
  · exact absurd h (by dsimp only; decide)
  · dsimp only at h
    subst h
    simp at h1
  · exact absurd h (by dsimp only; decide)
  · exact absurd h (by dsimp only; decide)
  · refine ⟨?_, rfl⟩
    rw [Option.isNone_iff_eq_none, ← Option.not_isSome_iff_eq_none, strchr_isSome_iff (by decide)]
    simp only [symbols, List.mem_cons, List.not_mem_nil, or_false] at h1 ⊢
    tauto

/-- The word that `gettoken` reads from a suffix of the line is a word of
    the line at the offsets it returns. -/
theorem wordAt_gettoken {L ps : List Char} (hps : ps <:+ L) (ha : (gettoken L.length ps).ret = 'a') :
    WordAt L (gettoken L.length ps).q (gettoken L.length ps).eq := by
  simp only [gettoken] at ha ⊢
  obtain ⟨y, hy⟩ := (skipws_suffix ps).trans hps
  cases hs : skipws ps with
  | nil =>
    rw [hs] at ha
    exact absurd ha (by decide)
  | cons c r =>
    rw [hs] at ha hy
    obtain ⟨hsym, hscan⟩ := scan_of_ret_a ha
    have hc : wordByte c = true := by
      have := skipws_head hs
      simp_all [wordByte]
    rw [hscan, skipword_eq]
    have hall : ∀ b ∈ (c :: r).takeWhile wordByte, wordByte b = true :=
      List.all_eq_true.mp List.all_takeWhile
    have hpos : 0 < ((c :: r).takeWhile wordByte).length := by
      rw [List.takeWhile_cons_of_pos hc]
      simp
    have hstop := List.head?_dropWhile_not wordByte (c :: r)
    have hsplit := (List.takeWhile_append_dropWhile (p := wordByte) (l := c :: r)).symm
    -- the line is `y`, then the word `w`, then the rest `z`
    generalize (c :: r).takeWhile wordByte = w at hsplit hall hpos
    generalize (c :: r).dropWhile wordByte = z at hsplit hstop ⊢
    rw [hsplit] at hy ⊢
    subst hy
    have hq : (y ++ (w ++ z)).length - (w ++ z).length = y.length := by simp
    have heq : (y ++ (w ++ z)).length - z.length = y.length + w.length := by simp; omega
    rw [hq, heq]
    refine ⟨by omega, by simp, fun i hi hi' => ?_, fun b hb => ?_⟩
    · rw [List.getElem?_append_right hi, List.getElem?_append_left (by omega),
        List.getElem?_eq_getElem (by omega)]
      exact ⟨_, rfl, hall _ (List.getElem_mem _)⟩
    · rw [List.getElem?_append_right (by omega), List.getElem?_append_right (by omega)] at hb
      rw [show y.length + w.length - y.length - w.length = 0 by omega, ← List.head?_eq_getElem?] at hb
      rw [hb] at hstop
      exact hstop

/-- **WORDS**: every word `gettoken` reads from a suffix of the line is a
    word of the line at its offsets. -/
theorem wordAt_of_mem_lex {L : List Char} (ps : List Char) (hps : ps <:+ L) :
    ∀ l ∈ lex L.length ps, l.ret = 'a' → WordAt L l.q l.eq := by
  induction ps using (measure List.length).wf.induction with
  | h ps ih =>
    intro l hl ha
    rw [lex.eq_1] at hl
    split_ifs at hl with h0
    · cases hl
    rcases List.mem_cons.mp hl with rfl | hl
    · exact wordAt_gettoken hps ha
    · exact ih _ (gettoken_lt h0) ((gettoken_suffix _ _).trans hps) l hl ha

theorem length_foldl_set (argv : List (Nat × Nat)) (buf : List Char) :
    (argv.foldl (fun b a => b.set a.2 NUL) buf).length = buf.length := by
  induction argv generalizing buf with
  | nil => rfl
  | cons a argv ih => rw [List.foldl_cons, ih, List.length_set]

theorem length_nulterminate (c : Cmd) (buf : List Char) : (nulterminate c buf).length = buf.length := by
  induction c generalizing buf with
  | exec argv => exact length_foldl_set argv buf
  | redir c _ _ _ _ ih => rw [nulterminate, List.length_set, ih]
  | pipe l r ihl ihr => rw [nulterminate, ihr, ihl]
  | list l r ihl ihr => rw [nulterminate, ihr, ihl]
  | back c ih => exact ih buf

/-- A NUL written at each offset in `ends` that lies in the buffer. -/
theorem getElem?_set_nul {buf : List Char} {e i : Nat} :
    (buf.set e NUL)[i]? = if i = e ∧ i < buf.length then some NUL else buf[i]? := by
  rw [List.getElem?_set]
  by_cases h : e = i
  · subst h
    by_cases hl : e < buf.length <;> simp [hl]
  · simp [h, Ne.symm h]

theorem ite_nul_or {P Q : Prop} [Decidable P] [Decidable Q] {i n : Nat} {x : Option Char} :
    (if P ∧ i < n then some NUL else if Q ∧ i < n then some NUL else x) =
      if (P ∨ Q) ∧ i < n then some NUL else x := by
  by_cases hP : P <;> by_cases hQ : Q <;> by_cases hn : i < n <;> simp [hP, hQ, hn]

theorem getElem?_foldl_set (argv : List (Nat × Nat)) (buf : List Char) (i : Nat) :
    (argv.foldl (fun b a => b.set a.2 NUL) buf)[i]? =
      if i ∈ argv.map Prod.snd ∧ i < buf.length then some NUL else buf[i]? := by
  induction argv generalizing buf with
  | nil => simp
  | cons a argv ih =>
    rw [List.foldl_cons, ih, List.length_set, getElem?_set_nul, ite_nul_or]
    simp only [List.map_cons, List.mem_cons, or_comm]

/-- **NULTERMINATE**: the line after `nulterminate` has a NUL at the end
    offset of every word of the tree that lies in it, and is unchanged
    elsewhere. -/
theorem getElem?_nulterminate (c : Cmd) (buf : List Char) (i : Nat) :
    (nulterminate c buf)[i]? = if i ∈ c.words.map Prod.snd ∧ i < buf.length then some NUL else buf[i]? := by
  induction c generalizing buf with
  | exec argv => exact getElem?_foldl_set argv buf i
  | redir c _ efile _ _ ih =>
    rw [nulterminate, getElem?_set_nul, ih, length_nulterminate, ite_nul_or]
    simp only [Cmd.words, List.map_append, List.mem_append, List.map_cons, List.map_nil,
      List.mem_singleton, or_comm]
  | pipe l r ihl ihr =>
    rw [nulterminate, ihr, ihl, length_nulterminate, ite_nul_or]
    simp only [Cmd.words, List.map_append, List.mem_append, or_comm]
  | list l r ihl ihr =>
    rw [nulterminate, ihr, ihl, length_nulterminate, ite_nul_or]
    simp only [Cmd.words, List.map_append, List.mem_append, or_comm]
  | back c ih => exact ih buf

/-- A C string runs from `q` up to the NUL or the end of the buffer at
    `eq`. -/
theorem cstrAt_eq {buf : List Char} {q eq : Nat} (hq : q ≤ eq)
    (hbytes : ∀ i, q ≤ i → i < eq → ∃ b, buf[i]? = some b ∧ b ≠ NUL)
    (hend : buf[eq]? = none ∨ buf[eq]? = some NUL) :
    cstrAt buf q = (buf.drop q).take (eq - q) := by
  induction h : eq - q generalizing q with
  | zero =>
    have : q = eq := by omega
    subst this
    unfold cstrAt
    rcases hend with hn | hn
    · rw [List.drop_eq_nil_of_le (List.getElem?_eq_none_iff.mp hn)]
      rfl
    · rw [List.drop_eq_getElem_cons (List.getElem?_eq_some_iff.mp hn).1,
        (List.getElem?_eq_some_iff.mp hn).2]
      simp
  | succ n ih =>
    obtain ⟨b, hb, hbn⟩ := hbytes q le_rfl (by omega)
    obtain ⟨hlt, hbq⟩ := List.getElem?_eq_some_iff.mp hb
    have hrest := ih (q := q + 1) (by omega) (fun i h₁ h₂ => hbytes i (by omega) h₂) (by omega)
    unfold cstrAt at hrest ⊢
    rw [List.drop_eq_getElem_cons hlt, hbq, List.takeWhile_cons_of_pos (by simpa using hbn), hrest,
      List.take_succ_cons]

theorem backs_words (n : Nat) (c : Cmd) : (backs n c).words = c.words := by
  induction n generalizing c with
  | zero => rfl
  | succ n ih => rw [backs, ih]; rfl

theorem redirect_words {c : Cmd} {tok : Char} {q eq : Nat} {w : Nat × Nat}
    (h : w ∈ (redirect c tok q eq).words) : w ∈ c.words ∨ w = (q, eq) := by
  unfold redirect at h
  split_ifs at h <;> simp_all [Cmd.words]

/-- A word of a wrapped command is one of the command's or the file of one
    of the redirections. -/
theorem wrap_words {c : Cmd} {rds : List (Lexeme × Lexeme)} {w : Nat × Nat} (h : w ∈ (wrap c rds).words) :
    w ∈ c.words ∨ ∃ p ∈ rds, p.2.span = w := by
  induction rds generalizing c with
  | nil => exact .inl h
  | cons p rds ih =>
    obtain ⟨op, f⟩ := p
    rcases ih h with h | ⟨p, hp, rfl⟩
    · rcases redirect_words h with h | rfl
      · exact .inl h
      · exact .inr ⟨(op, f), List.mem_cons_self, rfl⟩
    · exact .inr ⟨p, List.mem_cons_of_mem _ hp, rfl⟩

/-- The file of each redirection is a word among the tokens. -/
theorem Redirs.files {ts : List Lexeme} {rds : List (Lexeme × Lexeme)} (h : Redirs ts rds) :
    ∀ p ∈ rds, p.2 ∈ ts ∧ p.2.ret = 'a' := by
  induction h with
  | nil => exact fun _ hp => nomatch hp
  | cons op w _ hw _ ih =>
    intro p hp
    rcases List.mem_cons.mp hp with rfl | hp
    · exact ⟨by simp, hw⟩
    · obtain ⟨h₁, h₂⟩ := ih p hp
      exact ⟨by simp [h₁], h₂⟩

/-- The words and the redirection files of `{WORD redirs}` are words among
    its tokens. -/
theorem Args.words {ts ws : List Lexeme} {rds : List (Lexeme × Lexeme)} (h : Args ts ws rds) :
    (∀ w ∈ ws, w ∈ ts ∧ w.ret = 'a') ∧ ∀ p ∈ rds, p.2 ∈ ts ∧ p.2.ret = 'a' := by
  induction h with
  | nil => exact ⟨(fun _ hw => nomatch hw), (fun _ hp => nomatch hp)⟩
  | cons w hw hrd _ ih =>
    refine ⟨fun w' hw' => ?_, fun p hp => ?_⟩
    · rcases List.mem_cons.mp hw' with rfl | hw'
      · exact ⟨by simp, hw⟩
      · obtain ⟨h₁, h₂⟩ := ih.1 w' hw'
        exact ⟨by simp [h₁], h₂⟩
    · rcases List.mem_append.mp hp with hp | hp
      · obtain ⟨h₁, h₂⟩ := hrd.files p hp
        exact ⟨by simp [h₁], h₂⟩
      · obtain ⟨h₁, h₂⟩ := ih.2 p hp
        exact ⟨by simp [h₁], h₂⟩

/-- Every word of a derivation's tree is a word among its tokens. -/
theorem Derives.words_mem {sym : Sym} {ts : List Lexeme} {c : Cmd} (h : Derives sym ts c) :
    ∀ w ∈ c.words, ∃ l ∈ ts, l.ret = 'a' ∧ l.span = w := by
  induction h with
  | back amps _ _ ih =>
    intro w hw
    rw [backs_words] at hw
    obtain ⟨l, hl, h₁, h₂⟩ := ih w hw
    exact ⟨l, by simp [hl], h₁, h₂⟩
  | seq amps semi _ _ _ _ ihp ihl =>
    intro w hw
    simp only [Cmd.words, backs_words, List.mem_append] at hw
    rcases hw with hw | hw
    · obtain ⟨l, hl, h₁, h₂⟩ := ihp w hw
      exact ⟨l, by simp [hl], h₁, h₂⟩
    · obtain ⟨l, hl, h₁, h₂⟩ := ihl w hw
      exact ⟨l, by simp [hl], h₁, h₂⟩
  | exec _ ih => exact ih
  | pipe bar _ _ _ ihe ihp =>
    intro w hw
    simp only [Cmd.words, List.mem_append] at hw
    rcases hw with hw | hw
    · obtain ⟨l, hl, h₁, h₂⟩ := ihe w hw
      exact ⟨l, by simp [hl], h₁, h₂⟩
    · obtain ⟨l, hl, h₁, h₂⟩ := ihp w hw
      exact ⟨l, by simp [hl], h₁, h₂⟩
  | block lp rp _ _ _ hrd ih =>
    intro w hw
    rcases wrap_words hw with hw | ⟨p, hp, rfl⟩
    · obtain ⟨l, hl, h₁, h₂⟩ := ih w hw
      exact ⟨l, by simp [hl], h₁, h₂⟩
    · obtain ⟨h₁, h₂⟩ := hrd.files p hp
      exact ⟨p.2, by simp [h₁], h₂, rfl⟩
  | simple hrd hargs _ =>
    intro w hw
    rcases wrap_words hw with hw | ⟨p, hp, rfl⟩
    · obtain ⟨l, hl, rfl⟩ := List.mem_map.mp hw
      obtain ⟨h₁, h₂⟩ := hargs.words.1 l hl
      exact ⟨l, by simp [h₁], h₂, rfl⟩
    · rcases List.mem_append.mp hp with hp | hp
      · obtain ⟨h₁, h₂⟩ := hrd.files p hp
        exact ⟨p.2, by simp [h₁], h₂, rfl⟩
      · obtain ⟨h₁, h₂⟩ := hargs.words.2 p hp
        exact ⟨p.2, by simp [h₁], h₂, rfl⟩

/-- Inside a word of the line no word of the tree ends. -/
theorem not_mem_ends {L : List Char} {c : Cmd} (hw : ∀ w ∈ c.words, WordAt L w.1 w.2) {q eq i : Nat}
    (hword : WordAt L q eq) (h₁ : q ≤ i) (h₂ : i < eq) : i ∉ c.words.map Prod.snd := by
  intro hi
  obtain ⟨w', hw', rfl⟩ := List.mem_map.mp hi
  obtain ⟨b, hb, hwb⟩ := hword.bytes _ h₁ h₂
  rw [(hw w' hw').stop b hb] at hwb
  cases hwb

/-- After `nulterminate`, each word of the tree reads as a C string
    exactly the bytes of the line from its start to its end. -/
theorem cstrAt_nulterminate {s : List Char} {c : Cmd}
    (hw : ∀ w ∈ c.words, WordAt (s.take (strlen s)) w.1 w.2) {w : Nat × Nat} (hmem : w ∈ c.words) :
    cstrAt (nulterminate c s) w.1 = (s.drop w.1).take (w.2 - w.1) := by
  obtain ⟨q, eq⟩ := w
  have hword := hw _ hmem
  have hlen := hword.le
  rw [List.length_take] at hlen
  have hsame : ∀ i, q ≤ i → i < eq → (nulterminate c s)[i]? = s[i]? := fun i h₁ h₂ => by
    rw [getElem?_nulterminate, if_neg (fun h => not_mem_ends hw hword h₁ h₂ h.1)]
  have hend : (nulterminate c s)[eq]? = none ∨ (nulterminate c s)[eq]? = some NUL := by
    rw [getElem?_nulterminate]
    by_cases hlt : eq < s.length
    · exact .inr (if_pos ⟨List.mem_map.mpr ⟨_, hmem, rfl⟩, hlt⟩)
    · rw [if_neg (fun h => hlt h.2)]
      exact .inl (List.getElem?_eq_none_iff.mpr (by omega))
  have hbytes : ∀ i, q ≤ i → i < eq → ∃ b, (nulterminate c s)[i]? = some b ∧ b ≠ NUL := by
    intro i h₁ h₂
    obtain ⟨b, hb, -⟩ := hword.bytes i h₁ h₂
    refine ⟨b, ?_, fun hn => nul_not_mem_take_strlen s (hn ▸ List.mem_of_getElem? hb)⟩
    rw [hsame i h₁ h₂, ← hb, List.getElem?_take, if_pos (by omega)]
  rw [cstrAt_eq (le_of_lt hword.lt) hbytes hend]
  apply List.ext_getElem?
  intro n
  rw [List.getElem?_take, List.getElem?_take, List.getElem?_drop, List.getElem?_drop]
  split_ifs with hn
  · exact hsame _ (by omega) (by omega)
  · rfl

/-- **NUL-TERMINATED**: the line `parsecmd` hands back is the line after
    `nulterminate`, and there every `argv` entry and redirection file of
    the tree is a word of the line and reads as a C string exactly that
    word's text. -/
theorem parsecmd_words {s : List Char} {c : Cmd} {buf : List Char} (h : parsecmd s = .ok (c, buf)) :
    buf = nulterminate c s ∧ ∀ w ∈ c.words, ∃ l ∈ lex (strlen s) (s.take (strlen s)),
      l.ret = 'a' ∧ l.span = w ∧ cstrAt buf w.1 = (s.drop w.1).take (w.2 - w.1) := by
  have hder := (parsecmd_ok_iff s c).mp ⟨buf, h⟩
  have hbuf : buf = nulterminate c s := by
    unfold parsecmd at h
    dsimp only at h
    split at h
    · cases h
    · split_ifs at h
      cases h
      rfl
  have hlen : (s.take (strlen s)).length = strlen s := by
    rw [List.length_take, Nat.min_eq_left (strlen_le_length s)]
  have hwords : ∀ w ∈ c.words, WordAt (s.take (strlen s)) w.1 w.2 := fun w hw => by
    obtain ⟨l, hl, ha, rfl⟩ := hder.words_mem w hw
    have hl' : l ∈ lex (s.take (strlen s)).length (s.take (strlen s)) := by
      rw [hlen]
      exact hl
    exact wordAt_of_mem_lex _ (List.suffix_refl _) l hl' ha
  refine ⟨hbuf, fun w hw => ?_⟩
  obtain ⟨l, hl, ha, hspan⟩ := hder.words_mem w hw
  exact ⟨l, hl, ha, hspan, hbuf ▸ cstrAt_nulterminate hwords hw⟩

/-- **SH**: `parsecmd` returns, rather than panicking, exactly for the
    lines whose tokens derive from `line`; the tree it returns is the tree
    of that derivation, and the line it leaves is the line after
    `nulterminate`, in which every `argv` entry and redirection file is a
    word of the line that reads as a C string exactly that word's text. -/
theorem parsecmd_spec (s : List Char) :
    ((∃ c buf, parsecmd s = .ok (c, buf)) ↔ ∃ c, Derives .line (lex (strlen s) (s.take (strlen s))) c) ∧
      ∀ c buf, parsecmd s = .ok (c, buf) →
        Derives .line (lex (strlen s) (s.take (strlen s))) c ∧ buf = nulterminate c s ∧
          ∀ w ∈ c.words, ∃ l ∈ lex (strlen s) (s.take (strlen s)),
            l.ret = 'a' ∧ l.span = w ∧ cstrAt buf w.1 = (s.drop w.1).take (w.2 - w.1) := by
  refine ⟨⟨fun ⟨c, h⟩ => ⟨c, (parsecmd_ok_iff s c).mp h⟩, fun ⟨c, h⟩ => ⟨c, (parsecmd_ok_iff s c).mpr h⟩⟩,
    fun c buf h => ?_⟩
  obtain ⟨hbuf, hwords⟩ := parsecmd_words h
  exact ⟨(parsecmd_ok_iff s c).mp ⟨buf, h⟩, hbuf, hwords⟩

example : (parsecmd ['a', '|', 'b']).map Prod.fst = .ok (.pipe (.exec [(0, 1)]) (.exec [(2, 3)])) := by
  decide +kernel

end Xv6.User
