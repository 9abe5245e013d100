import AmigaGcc.Library.Text.Lexeme

/-!
# C as its preprocessor reads it

`scan` is for the characters: it splices continued lines, makes a blank of each comment
and knows literals, and what it leaves are the logical lines. It does not depend on the
macros. `Environment.readLine` is for a logical line: the conditionals nest, also in a
part that is skipped, and the code of a live line is cut into declarations at its
semicolons and braces.

What `#if` and `#include` mean is left to an `Environment`, whose only law is that
`__cplusplus` is defined everywhere or nowhere.
-/

namespace Library

namespace Text

namespace Cpp

/-! ## Characters -/

/-- `[[:space:]]` -/
def space (c : Char) : Bool := c.isWhitespace || c == '\x0b' || c == '\x0c'

/-- Without the newlines that are behind a backslash. -/
def splice : Chars → Chars
  | '\\' :: '\n' :: t => splice t
  | c :: t => c :: splice t
  | [] => []

inductive Glyph where
  | plain (c : Char)
  /-- In a character or string literal. -/
  | quoted (c : Char)
  deriving DecidableEq

/-- A logical line. -/
abbrev Line := List Glyph

def Glyph.char : Glyph → Char
  | plain c => c
  | quoted c => c

def Glyph.space : Glyph → Bool
  | plain c => Cpp.space c
  | quoted _ => false

inductive Mode where
  | code
  /-- Behind a `/`, which may start a comment. -/
  | slash
  /-- In a comment up to the end of the line. -/
  | line
  | block
  /-- In a block comment, behind a `*`. -/
  | star
  | literal (q : Char)
  /-- In a literal, behind a backslash. -/
  | escape (q : Char)
  deriving DecidableEq

structure Scan where
  mode : Mode
  /-- The logical line that has not ended. -/
  line : Line
  lines : List Line
  deriving DecidableEq

namespace Scan

def start : Scan := ⟨.code, [], []⟩

def put (r : Scan) (mode : Mode) (g : Glyph) : Scan := { r with mode, line := r.line ++ [g] }

def newline (r : Scan) : Scan := ⟨.code, [], r.lines ++ [r.line ++ [.plain '\n']]⟩

def code (r : Scan) (c : Char) : Scan :=
  if c = '\n' then r.newline
  else if c = '/' then { r with mode := .slash }
  else if c = '"' ∨ c = '\'' then r.put (.literal c) (.quoted c)
  else r.put .code (.plain c)

def step (r : Scan) (c : Char) : Scan :=
  match r.mode with
  | .code => r.code c
  | .slash =>
      if c = '*' then r.put .block (.plain ' ')
      else if c = '/' then r.put .line (.plain ' ')
      else (r.put .code (.plain '/')).code c
  | .line => if c = '\n' then r.newline else r
  | .block => if c = '*' then { r with mode := .star } else r
  | .star =>
      if c = '/' then { r with mode := .code }
      else if c = '*' then r
      else { r with mode := .block }
  | .literal q =>
      if c = '\n' then r.newline
      else if c = '\\' then r.put (.escape q) (.quoted c)
      else if c = q then r.put .code (.quoted c)
      else r.put (.literal q) (.quoted c)
  | .escape q => if c = '\n' then r.newline else r.put (.literal q) (.quoted c)

/-- The text so far ends in a block comment. -/
def inComment (r : Scan) : Bool := r.mode == .block || r.mode == .star

/-- The text so far ends with a whole logical line. -/
def complete (r : Scan) : Bool := r.mode == .code && r.line == []

/-- The logical lines when the text ends here. -/
def all (r : Scan) : List Line :=
  r.lines ++ [if r.mode = .slash then r.line ++ [.plain '/'] else r.line]

end Scan

def scan (t : Chars) : Scan := (splice t).foldl Scan.step Scan.start

/-! ## Directives -/

inductive Directive where
  | ifdef (name : Chars)
  | ifndef (name : Chars)
  | ifExpr (expr : Chars)
  | elifExpr (expr : Chars)
  | orElse
  | endif
  /-- `#define`, `#undef`, `#include` and the others. -/
  | other (text : Chars)
  deriving DecidableEq

/-- What is behind the `#`. -/
def parse (t : Chars) : Directive :=
  let kind := t.takeWhile word
  let rest := (t.dropWhile word).dropWhile space
  if kind = ['i', 'f', 'd', 'e', 'f'] then .ifdef (rest.takeWhile word)
  else if kind = ['i', 'f', 'n', 'd', 'e', 'f'] then .ifndef (rest.takeWhile word)
  else if kind = ['i', 'f'] then .ifExpr rest
  else if kind = ['e', 'l', 'i', 'f'] then .elifExpr rest
  else if kind = ['e', 'l', 's', 'e'] then .orElse
  else if kind = ['e', 'n', 'd', 'i', 'f'] then .endif
  else .other t

def directive (l : Line) : Option Directive :=
  match l.dropWhile Glyph.space with
  | .plain '#' :: r => some (parse ((r.map Glyph.char).dropWhile space))
  | _ => none

/-! ## Declarations -/

/-- A piece of code between semicolons and braces, with its runs of white space as
single blanks; `ended` when there is a semicolon behind it. -/
structure Decl where
  text : Chars
  ended : Bool
  deriving DecidableEq

structure Code where
  depth : ℕ := 0
  /-- The blocks that `extern "C" {` has opened. -/
  links : ℕ := 0
  decls : List Decl := []
  /-- The piece that is open. -/
  text : Chars := []
  /-- White space was read behind it. -/
  gap : Bool := false
  /-- No brace has closed a block that is not open. -/
  ok : Bool := true
  deriving DecidableEq

namespace Code

def finished (k : Code) (ended : Bool) : List Decl :=
  if k.text = [] then k.decls else k.decls ++ [⟨k.text, ended⟩]

/-- All pieces, the open one included. -/
def declared (k : Code) : List Decl := k.finished false

def put (k : Code) (c : Char) : Code :=
  { k with text := k.text ++ if k.gap then [' ', c] else [c], gap := false }

def close (k : Code) (ended : Bool) : Code :=
  { k with decls := k.finished ended, text := [], gap := false }

def openBrace (k : Code) : Code :=
  if unblank k.text = ['e', 'x', 't', 'e', 'r', 'n', '"', 'C', '"'] then
    { k with depth := k.depth + 1, links := k.links + 1, text := [], gap := false }
  else { k.close false with depth := k.depth + 1 }

def closeBrace (k : Code) : Code :=
  if k.depth = 0 then { k.close false with ok := false }
  else { k.close false with depth := k.depth - 1 }

def read (k : Code) : Glyph → Code
  | .quoted c => k.put c
  | .plain c =>
      if space c then if k.text = [] then k else { k with gap := true }
      else if c = ';' then k.close true
      else if c = '{' then k.openBrace
      else if c = '}' then k.closeBrace
      else k.put c

end Code

/-! ## Conditionals -/

/-- What the directives depend on. -/
structure Environment where
  Macros : Type
  start : Macros
  /-- What a directive that is no conditional leaves. -/
  meet : Chars → Macros → Macros
  holds : Chars → Macros → Bool
  defined : Chars → Macros → Bool
  cplusplus : Bool
  defined_cplusplus : ∀ m,
    defined ['_', '_', 'c', 'p', 'l', 'u', 's', 'p', 'l', 'u', 's'] m = cplusplus

structure Cond where
  /-- The present branch is compiled. -/
  live : Bool
  /-- No later branch is compiled. -/
  taken : Bool
  /-- The present branch is that of `#else`. -/
  last : Bool
  deriving DecidableEq

def live : List Cond → Bool
  | [] => true
  | c :: _ => c.live

structure State (M : Type) where
  macros : M
  conds : List Cond := []
  /-- Every `#elif`, `#else` and `#endif` belongs to a conditional. -/
  nested : Bool := true
  code : Code := {}

namespace State

variable {M : Type}

def push (s : State M) (b : Bool) : State M :=
  { s with conds := ⟨live s.conds && b, !live s.conds || b, false⟩ :: s.conds }

/-- Another branch of the innermost conditional. -/
def branch (s : State M) (b : Bool) (last : Bool) : State M :=
  match s.conds with
  | [] => { s with nested := false }
  | c :: cs =>
      { s with
        conds := ⟨!c.taken && b, c.taken || b, last⟩ :: cs
        nested := s.nested && !c.last }

def pop (s : State M) : State M :=
  match s.conds with
  | [] => { s with nested := false }
  | _ :: cs => { s with conds := cs }

/-- `n` conditionals and `d` braces are open, and all that were closed had been open. -/
def Open (s : State M) (n d : ℕ) : Prop :=
  (s.nested = true ∧ s.conds.length = n) ∧ s.code.ok = true ∧ s.code.depth = d

instance (s : State M) (n d : ℕ) : Decidable (s.Open n d) := inferInstanceAs (Decidable (_ ∧ _))

end State

namespace Environment

/-- `#define` and `#undef`; no file is found, and no expression holds. -/
def plain (cplusplus : Bool) : Environment where
  Macros := List Chars
  start := []
  meet t m :=
    let name := ((t.dropWhile word).dropWhile space).takeWhile word
    if t.takeWhile word = ['d', 'e', 'f', 'i', 'n', 'e'] then name :: m
    else if t.takeWhile word = ['u', 'n', 'd', 'e', 'f'] then m.filter (· ≠ name)
    else m
  holds _ _ := false
  defined n m :=
    if n = ['_', '_', 'c', 'p', 'l', 'u', 's', 'p', 'l', 'u', 's'] then cplusplus else n ∈ m
  cplusplus
  defined_cplusplus _ := if_pos rfl

variable (e : Environment)

def direct (s : State e.Macros) : Directive → State e.Macros
  | .ifdef n => s.push (e.defined n s.macros)
  | .ifndef n => s.push (!e.defined n s.macros)
  | .ifExpr x => s.push (e.holds x s.macros)
  | .elifExpr x => s.branch (e.holds x s.macros) false
  | .orElse => s.branch true true
  | .endif => s.pop
  | .other x => if live s.conds then { s with macros := e.meet x s.macros } else s

def readLine (s : State e.Macros) (l : Line) : State e.Macros :=
  match directive l with
  | some d => e.direct s d
  | none => if live s.conds then { s with code := l.foldl Code.read s.code } else s

def readLines (s : State e.Macros) (ls : List Line) : State e.Macros := ls.foldl e.readLine s

def read (t : Chars) : State e.Macros := e.readLines { macros := e.start } (scan t).all

def Balanced (t : Chars) : Prop := (scan t).inComment = false ∧ (e.read t).Open 0 0

instance (t : Chars) : Decidable (e.Balanced t) := inferInstanceAs (Decidable (_ ∧ _))

end Environment

/-! ## The logical lines of an appended text -/

theorem getLast?_ne_of_cons {c d : Char} {t : Chars} (h : (c :: t).getLast? ≠ some d) :
    t.getLast? ≠ some d := by
  cases t with
  | nil => exact nofun
  | cons b t => rwa [List.getLast?_cons_cons] at h

theorem splice_append {a : Chars} (h : a.getLast? ≠ some '\\') (b : Chars) :
    splice (a ++ b) = splice a ++ splice b := by
  fun_induction splice a with
  | case1 t ih => exact ih (getLast?_ne_of_cons (getLast?_ne_of_cons h))
  | case2 c t hc ih =>
      -- The backslash and the newline are not parted: `a` does not end with a backslash.
      have hno : ∀ u, c = '\\' → t ++ b = '\n' :: u → False := by
        intro u hback hu
        cases t with
        | nil => exact h (by rw [hback]; rfl)
        | cons d t =>
            cases hu
            exact hc t hback rfl
      rw [List.cons_append, splice, ih (getLast?_ne_of_cons h), List.cons_append]
      exact hno
  | case3 => rfl

theorem getLast?_unlines (ls : List Chars) : (unlines ls).getLast? ≠ some '\\' := by
  rcases List.eq_nil_or_concat ls with rfl | ⟨ls, l, rfl⟩
  · exact nofun
  · simp [unlines]

theorem scan_append {a : Chars} (h : a.getLast? ≠ some '\\') (b : Chars) :
    scan (a ++ b) = (splice b).foldl Scan.step (scan a) := by
  rw [scan, splice_append h, List.foldl_append]
  rfl

namespace Scan

/-- Outside of a block comment and behind a whole character. -/
structure Outside (r : Scan) : Prop where
  comment : r.inComment = false
  slash : r.mode ≠ .slash

theorem complete_iff {r : Scan} : r.complete = true ↔ r = ⟨.code, [], r.lines⟩ := by
  obtain ⟨mode, line, lines⟩ := r
  simp [complete]

theorem outside_step {r : Scan} (h : r.inComment = false) {c : Char}
    (hn : c ≠ '\n') (hs : c ≠ '/') (hb : c ≠ '*') :
    (r.step c).Outside ∧ (r.step c).lines = r.lines := by
  have hcode : ∀ r : Scan, (r.code c).Outside ∧ (r.code c).lines = r.lines := by
    intro r
    rw [code, if_neg hn, if_neg hs]
    split <;> exact ⟨⟨rfl, nofun⟩, rfl⟩
  obtain ⟨mode, line, lines⟩ := r
  cases mode with
  | code => exact hcode _
  | slash =>
      rw [step, if_neg hb, if_neg hs]
      exact hcode _
  | line =>
      rw [step, if_neg hn]
      exact ⟨⟨rfl, nofun⟩, rfl⟩
  | block => cases h
  | star => cases h
  | literal q =>
      simp only [step, if_neg hn]
      split
      · exact ⟨⟨rfl, nofun⟩, rfl⟩
      · split <;> exact ⟨⟨rfl, nofun⟩, rfl⟩
  | escape q =>
      simp only [step, if_neg hn]
      exact ⟨⟨rfl, nofun⟩, rfl⟩

theorem Outside.foldl {r : Scan} (h : r.Outside) {w : Chars}
    (hw : ∀ c ∈ w, c ≠ '\n' ∧ c ≠ '/' ∧ c ≠ '*') :
    (w.foldl step r).Outside ∧ (w.foldl step r).lines = r.lines := by
  induction w generalizing r with
  | nil => exact ⟨h, rfl⟩
  | cons c w ih =>
      obtain ⟨⟨hn, hs, hb⟩, hw⟩ := List.forall_mem_cons.mp hw
      obtain ⟨hout, hlines⟩ := outside_step h.comment hn hs hb
      obtain ⟨hout', hlines'⟩ := ih hout hw
      exact ⟨hout', hlines'.trans hlines⟩

theorem Outside.step_newline {r : Scan} (h : r.Outside) : r.step '\n' = r.newline := by
  obtain ⟨mode, line, lines⟩ := r
  cases mode with
  | code => rfl
  | slash => exact absurd rfl h.slash
  | line => rfl
  | block => cases h.comment
  | star => cases h.comment
  | literal q => rfl
  | escape q => rfl

theorem foldl_line {r : Scan} (h : r.inComment = false) {w : Chars} (hne : w ≠ [])
    (hw : ∀ c ∈ w, c ≠ '\n' ∧ c ≠ '/' ∧ c ≠ '*') :
    ∃ l, (w ++ ['\n']).foldl step r = ⟨.code, [], r.lines ++ [l]⟩ := by
  cases w with
  | nil => exact absurd rfl hne
  | cons c w =>
      obtain ⟨⟨hn, hs, hb⟩, hw⟩ := List.forall_mem_cons.mp hw
      obtain ⟨hout, hlines⟩ := outside_step h hn hs hb
      obtain ⟨hout', hlines'⟩ := hout.foldl hw
      refine ⟨(w.foldl step (r.step c)).line ++ [.plain '\n'], ?_⟩
      rw [List.foldl_append, List.foldl_cons, List.foldl_cons, List.foldl_nil,
        hout'.step_newline, newline, hlines', hlines]

/-- What `r` has read, behind what `r₀` has read. -/
def behind (r₀ r : Scan) : Scan :=
  match r.lines with
  | [] => ⟨r.mode, r₀.line ++ r.line, r₀.lines⟩
  | l :: ls => ⟨r.mode, r.line, r₀.lines ++ (r₀.line ++ l) :: ls⟩

variable (r₀ r : Scan)

@[simp] theorem mode_behind : (r₀.behind r).mode = r.mode := by
  rw [behind]
  split <;> rfl

theorem behind_mode (mode : Mode) :
    { r₀.behind r with mode } = r₀.behind { r with mode } := by
  rw [behind, behind]
  cases r.lines <;> rfl

@[simp] theorem put_behind (mode : Mode) (g : Glyph) :
    (r₀.behind r).put mode g = r₀.behind (r.put mode g) := by
  rw [behind, behind, put]
  cases hl : r.lines with
  | nil => simp [put, hl]
  | cons l ls => simp [put, hl]

@[simp] theorem newline_behind : (r₀.behind r).newline = r₀.behind r.newline := by
  rw [behind, behind]
  cases hl : r.lines with
  | nil => simp [newline, hl]
  | cons l ls => simp [newline, hl]

@[simp] theorem code_behind (c : Char) : (r₀.behind r).code c = r₀.behind (r.code c) := by
  rw [code, code, newline_behind, behind_mode, put_behind, put_behind]
  split_ifs <;> rfl

@[simp] theorem step_behind (c : Char) : (r₀.behind r).step c = r₀.behind (r.step c) := by
  rw [step, step, mode_behind]
  cases r.mode with
  | code => exact code_behind r₀ r c
  | slash =>
      simp only [put_behind, code_behind]
      split_ifs <;> rfl
  | line =>
      simp only [newline_behind]
      split_ifs <;> rfl
  | block =>
      simp only [behind_mode]
      split_ifs <;> rfl
  | star =>
      simp only [behind_mode]
      split_ifs <;> rfl
  | literal q =>
      simp only [newline_behind, put_behind]
      split_ifs <;> rfl
  | escape q =>
      simp only [newline_behind, put_behind]
      split_ifs <;> rfl

theorem foldl_behind (t : Chars) : t.foldl step (r₀.behind r) = r₀.behind (t.foldl step r) := by
  induction t generalizing r with
  | nil => rfl
  | cons c t ih => rw [List.foldl_cons, List.foldl_cons, step_behind, ih]

theorem foldl_eq_behind (t : Chars) :
    t.foldl step r₀ = r₀.behind (t.foldl step ⟨r₀.mode, [], []⟩) := by
  have hr : r₀ = r₀.behind ⟨r₀.mode, [], []⟩ := by simp [behind]
  rw [← foldl_behind, ← hr]

end Scan

/-! ## What a line does -/

/-- Nothing but comments and white space, to the end of a line. -/
structure Comments (t : Chars) : Prop where
  complete : (scan t).complete = true
  blank : ∀ l ∈ (scan t).lines, l.all Glyph.space = true

instance (t : Chars) : Decidable (Comments t) :=
  decidable_of_iff
    ((scan t).complete = true ∧ ((scan t).lines.all fun l => l.all Glyph.space) = true)
    ⟨fun h => ⟨h.1, List.all_eq_true.mp h.2⟩, fun h => ⟨h.complete, List.all_eq_true.mpr h.blank⟩⟩

theorem Scan.complete_behind {r₀ : Scan} (h : r₀.line = []) (r : Scan) :
    (r₀.behind r).complete = r.complete := by
  rw [behind, complete, complete]
  cases r.lines <;> simp [h]

theorem Scan.inComment_behind (r₀ r : Scan) : (r₀.behind r).inComment = r.inComment := by
  rw [inComment, inComment, mode_behind]

theorem Scan.all_behind {r₀ : Scan} (h : r₀.line = []) (r : Scan) :
    (r₀.behind r).all = r₀.lines ++ r.all := by
  rw [behind]
  cases hl : r.lines <;> simp [all, h, hl]

theorem scan_append_of_complete {t : Chars} (ht : t.getLast? ≠ some '\\')
    (h : (scan t).complete = true) (a : Chars) : scan (t ++ a) = (scan t).behind (scan a) := by
  have hmode : (scan t).mode = .code := by rw [Scan.complete_iff.mp h]
  rw [scan_append ht, Scan.foldl_eq_behind, hmode]
  rfl

theorem complete_append {t a : Chars} (ht : t.getLast? ≠ some '\\')
    (h : (scan t).complete = true) (ha : (scan a).complete = true) :
    (scan (t ++ a)).complete = true := by
  rw [scan_append_of_complete ht h, Scan.complete_iff.mp h, Scan.complete_iff.mp ha, Scan.behind]
  split <;> rfl

namespace Code

theorem read_space {k : Code} (hk : k.text = []) {g : Glyph} (hg : g.space = true) :
    k.read g = k := by
  cases g with
  | plain c =>
      rw [Glyph.space] at hg
      rw [read, if_pos hg, if_pos hk]
  | quoted c => cases hg

theorem foldl_read_blank {k : Code} (hk : k.text = []) {l : Line}
    (hl : l.all Glyph.space = true) : l.foldl read k = k := by
  induction l with
  | nil => rfl
  | cons g l ih =>
      rw [List.all_cons, Bool.and_eq_true] at hl
      rw [List.foldl_cons, read_space hk hl.1, ih hl.2]

@[simp] theorem text_closeBrace (k : Code) : k.closeBrace.text = [] := by
  rw [closeBrace]
  split <;> rfl

@[simp] theorem declared_closeBrace (k : Code) : k.closeBrace.declared = k.declared := by
  rw [closeBrace]
  split <;> rfl

end Code

namespace State

variable {M : Type} (s : State M) {n d : ℕ}

theorem open_push_iff (b : Bool) : (s.push b).Open (n + 1) d ↔ s.Open n d := by
  simp [Open, push]

theorem open_pop_iff : s.pop.Open n d ↔ s.Open (n + 1) d := by
  rw [Open, Open, pop]
  split <;> simp [*]

@[simp] theorem code_pop : s.pop.code = s.code := by
  rw [pop]
  split <;> rfl

theorem open_closeBrace_iff :
    ({ s with code := s.code.closeBrace } : State M).Open n d ↔ s.Open n (d + 1) := by
  rw [Open, Open, Code.closeBrace]
  split <;> simp [*, Code.close]
  omega

end State

namespace Environment

variable (e : Environment) (s : State e.Macros)

theorem readLine_of_directive {l : Line} {d : Directive} (h : directive l = some d) :
    e.readLine s l = e.direct s d := by
  rw [readLine, h]

theorem readLine_of_code {l : Line} (h : directive l = none) :
    e.readLine s l =
      if live s.conds then { s with code := l.foldl Code.read s.code } else s := by
  rw [readLine, h]

@[simp] theorem readLine_nil : e.readLine s [] = s := by
  rw [readLine_of_code e s rfl]
  split <;> rfl

theorem readLine_blank {l : Line} (h : l.all Glyph.space = true) (hs : s.code.text = []) :
    e.readLine s l = s := by
  have hdirective : directive l = none := by
    rw [directive, List.dropWhile_eq_nil_iff.mpr (List.all_eq_true.mp h)]
  rw [readLine_of_code e s hdirective, Code.foldl_read_blank hs h, ite_self]

theorem readLines_append (ls ls' : List Line) :
    e.readLines s (ls ++ ls') = e.readLines (e.readLines s ls) ls' :=
  List.foldl_append

theorem readLines_blank {ls : List Line} (h : ∀ l ∈ ls, l.all Glyph.space = true)
    (hs : s.code.text = []) : e.readLines s ls = s := by
  induction ls with
  | nil => rfl
  | cons l ls ih =>
      obtain ⟨hl, hls⟩ := List.forall_mem_cons.mp h
      have hline := e.readLine_blank s hl hs
      rw [readLines, List.foldl_cons, hline]
      exact ih hls

theorem readLines_all {r : Scan} (h : r.complete = true) :
    e.readLines s r.all = e.readLines s r.lines := by
  rw [Scan.complete_iff.mp h, Scan.all, readLines_append]
  exact e.readLine_nil _

theorem read_of_scan {t : Chars} {ls : List Line} (h : scan t = ⟨.code, [], ls⟩) :
    e.read t = e.readLines { macros := e.start } ls := by
  rw [read, h]
  exact e.readLines_all _ rfl

theorem read_append {t : Chars} (ht : t.getLast? ≠ some '\\') (h : (scan t).complete = true)
    (a : Chars) : e.read (t ++ a) = e.readLines (e.read t) (scan a).all := by
  have hline : (scan t).line = [] := by rw [Scan.complete_iff.mp h]
  rw [read, scan_append_of_complete ht h, Scan.all_behind hline, readLines_append, read,
    readLines_all e _ h]

theorem read_comments {a : Chars} (h : Comments a) : e.read a = { macros := e.start } := by
  rw [read, readLines_all e _ h.complete]
  exact e.readLines_blank _ h.blank rfl

theorem read_comments_append {a : Chars} (ha : a.getLast? ≠ some '\\') (h : Comments a)
    (t : Chars) : e.read (a ++ t) = e.read t := by
  rw [e.read_append ha h.complete, e.read_comments h, read]

theorem read_append_comments {t a : Chars} (ht : t.getLast? ≠ some '\\')
    (hcomplete : (scan t).complete = true) (hidle : (e.read t).code.text = [])
    (h : Comments a) : e.read (t ++ a) = e.read t := by
  rw [e.read_append ht hcomplete, readLines_all e _ h.complete]
  exact e.readLines_blank _ h.blank hidle

end Environment

/-! ## What is read stays -/

namespace Code

variable (k : Code)

theorem decls_finished (ended : Bool) : k.decls <+: k.finished ended := by
  rw [finished]
  split
  · exact List.prefix_rfl
  · exact List.prefix_append _ _

theorem decls_read (g : Glyph) : k.decls <+: (k.read g).decls := by
  have hopen : k.decls <+: k.openBrace.decls := by
    rw [openBrace]
    split
    · exact List.prefix_rfl
    · exact k.decls_finished false
  have hclose : k.decls <+: k.closeBrace.decls := by
    rw [closeBrace]
    split <;> exact k.decls_finished false
  cases g with
  | quoted c => exact List.prefix_rfl
  | plain c =>
      rw [read]
      split_ifs
      exacts [List.prefix_rfl, List.prefix_rfl, k.decls_finished true, hopen, hclose,
        List.prefix_rfl]

theorem decls_foldl (l : Line) : k.decls <+: (l.foldl read k).decls := by
  induction l generalizing k with
  | nil => exact List.prefix_rfl
  | cons g l ih => exact (k.decls_read g).trans (ih (k.read g))

/-- No brace that closes a block becomes right later. -/
theorem ok_of_read {g : Glyph} (h : (k.read g).ok = true) : k.ok = true := by
  have hopen : k.openBrace.ok = k.ok := by
    rw [openBrace]
    split <;> rfl
  have hclose : k.closeBrace.ok = true → k.ok = true := by
    rw [closeBrace]
    split
    · exact nofun
    · exact id
  cases g with
  | quoted c => exact h
  | plain c =>
      rw [read] at h
      split_ifs at h
      exacts [h, h, h, hopen ▸ h, hclose h, h]

theorem ok_of_foldl {l : Line} (h : (l.foldl read k).ok = true) : k.ok = true := by
  induction l generalizing k with
  | nil => exact h
  | cons g l ih => exact k.ok_of_read (ih (k.read g) h)

theorem decls_foldl_blank {l : Line} (h : l.all Glyph.space = true) :
    (l.foldl read k).decls = k.decls := by
  induction l generalizing k with
  | nil => rfl
  | cons g l ih =>
      rw [List.all_cons, Bool.and_eq_true] at h
      have hg : (k.read g).decls = k.decls := by
        cases g with
        | plain c =>
            rw [read, if_pos (show space c = true from h.1)]
            split <;> rfl
        | quoted c => cases h.1
      rw [List.foldl_cons, ih _ h.2, hg]

/-- A piece that is open is not in front. -/
theorem declared_eq_iff {k : Code} {ds : List Decl} (h : ds <+: k.decls) :
    k.declared = ds ↔ k.text = [] ∧ k.decls.length = ds.length := by
  have hlength := h.length_le
  rw [declared, finished]
  split
  · next htext =>
      refine ⟨?_, fun ⟨_, hl⟩ => (h.eq_of_length hl.symm).symm⟩
      rintro rfl
      exact ⟨htext, rfl⟩
  · next htext =>
      refine ⟨?_, fun ⟨hidle, _⟩ => absurd hidle htext⟩
      rintro rfl
      rw [List.length_append] at hlength
      exact absurd hlength (by simp)

end Code

theorem directive_eq_some_append {l : Line} {d : Directive} (h : directive l = some d)
    (m : Line) : ∃ d', directive (l ++ m) = some d' := by
  rw [directive] at h
  split at h
  · next r hr =>
      have happend : (l ++ m).dropWhile Glyph.space = .plain '#' :: (r ++ m) := by
        rw [List.dropWhile_append, hr]
        rfl
      rw [directive, happend]
      exact ⟨_, rfl⟩
  · cases h

theorem blank_of_directive_append {l m : Line} {d : Directive} (hl : directive l = none)
    (h : directive (l ++ m) = some d) : l.all Glyph.space = true := by
  cases hr : l.dropWhile Glyph.space with
  | nil => exact List.all_eq_true.mpr (List.dropWhile_eq_nil_iff.mp hr)
  | cons g r =>
      have happend : (l ++ m).dropWhile Glyph.space = g :: (r ++ m) := by
        rw [List.dropWhile_append, hr]
        rfl
      rw [directive, hr] at hl
      rw [directive, happend] at h
      split at h
      · next hg =>
          cases hg
          cases hl
      · cases h

/-- The lines of a longer text: the line that has not ended goes on. -/
theorem scan_append_all {a : Chars} (ha : a.getLast? ≠ some '\\') (b : Chars) :
    ∃ l ls, (scan (a ++ b)).all = (scan a).lines ++ ((scan a).line ++ l) :: ls := by
  rw [scan_append ha, Scan.foldl_eq_behind]
  generalize (splice b).foldl Scan.step ⟨(scan a).mode, [], []⟩ = r
  cases hr : r.lines with
  | nil =>
      by_cases hmode : r.mode = .slash
      · exact ⟨r.line ++ [.plain '/'], [], by simp [Scan.all, Scan.behind, hr, hmode]⟩
      · exact ⟨r.line, [], by simp [Scan.all, Scan.behind, hr, hmode]⟩
  | cons l ls => exact ⟨l, ls ++ [_], by simp [Scan.all, Scan.behind, hr]; rfl⟩

namespace Environment

variable (e : Environment) (s : State e.Macros)

@[simp] theorem code_direct (d : Directive) : (e.direct s d).code = s.code := by
  cases d with
  | ifdef n => rfl
  | ifndef n => rfl
  | ifExpr x => rfl
  | elifExpr x =>
      rw [direct, State.branch]
      split <;> rfl
  | orElse =>
      rw [direct, State.branch]
      split <;> rfl
  | endif => exact s.code_pop
  | other x =>
      rw [direct]
      split <;> rfl

theorem decls_readLine (l : Line) : s.code.decls <+: (e.readLine s l).code.decls := by
  rw [readLine]
  split
  · rw [code_direct]
  · split
    · exact s.code.decls_foldl l
    · exact List.prefix_rfl

theorem decls_readLines (ls : List Line) : s.code.decls <+: (e.readLines s ls).code.decls := by
  induction ls generalizing s with
  | nil => exact List.prefix_rfl
  | cons l ls ih => exact (e.decls_readLine s l).trans (ih (e.readLine s l))

/-- A line goes on with nothing, or with what is read behind its start. -/
theorem decls_readLine_append (l m : Line) :
    ∃ k : Code, k.decls = (e.readLine s l).code.decls ∧
      ((e.readLine s (l ++ m)).code.decls = k.decls ∨
        (e.readLine s (l ++ m)).code.decls = (m.foldl Code.read k).decls) := by
  refine ⟨(e.readLine s l).code, rfl, ?_⟩
  cases hl : directive l with
  | some d =>
      obtain ⟨d', hd'⟩ := directive_eq_some_append hl m
      rw [e.readLine_of_directive s hl, e.readLine_of_directive s hd', code_direct, code_direct]
      exact Or.inl rfl
  | none =>
      cases hlm : directive (l ++ m) with
      | some d =>
          have hblank := s.code.decls_foldl_blank (blank_of_directive_append hl hlm)
          rw [e.readLine_of_code s hl, e.readLine_of_directive s hlm, code_direct]
          split
          · exact Or.inl hblank.symm
          · exact Or.inl rfl
      | none =>
          rw [e.readLine_of_code s hl, e.readLine_of_code s hlm]
          split
          · exact Or.inr (by rw [List.foldl_append])
          · exact Or.inl rfl

/-- What is declared in front stays declared. -/
theorem decls_read_append {a : Chars} (ha : a.getLast? ≠ some '\\') (b : Chars) :
    (e.read a).code.decls <+: (e.read (a ++ b)).code.decls := by
  obtain ⟨m, ls, hall⟩ := scan_append_all ha b
  have hread : ∀ s : State e.Macros, (e.readLines s (scan a).all).code.decls =
      (e.readLine (e.readLines s (scan a).lines) (scan a).line).code.decls := by
    intro s
    rw [Scan.all, e.readLines_append]
    split
    · -- The `/` at the end ends no piece.
      obtain ⟨k, hk, h | h⟩ :=
        e.decls_readLine_append (e.readLines s (scan a).lines) (scan a).line [.plain '/']
      · exact h.trans hk
      · exact h.trans hk
    · rfl
  rw [read, read, hread, hall, e.readLines_append]
  obtain ⟨k, hk, h⟩ := e.decls_readLine_append
    (e.readLines { macros := e.start } (scan a).lines) (scan a).line m
  refine List.IsPrefix.trans ?_ (e.decls_readLines _ ls)
  rw [← hk]
  rcases h with h | h
  · rw [h]
  · rw [h]
    exact k.decls_foldl m

/-- Nor does a conditional or a brace become right later. -/
theorem flags_of_readLine {l : Line}
    (h : (e.readLine s l).nested = true ∧ (e.readLine s l).code.ok = true) :
    s.nested = true ∧ s.code.ok = true := by
  rw [readLine] at h
  split at h
  · next d _ =>
      have hbranch : ∀ b last, (s.branch b last).nested = true → s.nested = true := by
        intro b last hb
        rw [State.branch] at hb
        split at hb
        · cases hb
        · exact (Bool.and_eq_true_iff.mp hb).1
      rw [code_direct] at h
      refine ⟨?_, h.2⟩
      cases d with
      | ifdef n => exact h.1
      | ifndef n => exact h.1
      | ifExpr x => exact h.1
      | elifExpr x => exact hbranch _ _ h.1
      | orElse => exact hbranch _ _ h.1
      | endif =>
          have hpop := h.1
          rw [direct, State.pop] at hpop
          split at hpop
          · cases hpop
          · exact hpop
      | other x =>
          have hother := h.1
          rw [direct] at hother
          split at hother <;> exact hother
  · split at h
    · exact ⟨h.1, s.code.ok_of_foldl h.2⟩
    · exact h

theorem flags_of_readLines {ls : List Line}
    (h : (e.readLines s ls).nested = true ∧ (e.readLines s ls).code.ok = true) :
    s.nested = true ∧ s.code.ok = true := by
  induction ls generalizing s with
  | nil => exact h
  | cons l ls ih => exact e.flags_of_readLine s (ih _ h)

end Environment

end Cpp

end Text

end Library
