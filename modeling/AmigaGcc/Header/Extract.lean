import AmigaGcc.Header.Mark
import AmigaGcc.Library.Text.Cpp
import AmigaGcc.Library.Text.Grep

/-!
# The headers of the NDK 1.3

`extract` is the step `extract ndk13` on the lines of one header. Where `V36` occurs, the
header is copied from the include guard to the next line with `V36`, and a footer closes
what should be open there: the block of `extern "C"`, and the guard.

The footer is the same for every header, so the result is well formed only if the first
line with `V36` behind the guard is in the right place: between two declarations, in the
block of `extern "C"` and in no other conditional than the guard. `Clib.Fits` says this, and
which are the two odd places where the footer fits by accident, in a comment that ends where
its own comment does, and at the end of a line that a backslash joins with its first line.
-/

namespace AmigaGcc

namespace Header

open Library.Text Library.Text.Cpp

/-- `/#ifndef[[:space:]]*CLIB/` -/
def opensGuard (l : Chars) : Bool :=
  l.tails.any fun t =>
    (Ere.longest (.cat (.text "#ifndef".toList) (.cat (.many space) (.text "CLIB".toList)))
      t).isSome

/-- `/V36/` -/
def hasV36 (l : Chars) : Bool := occurs "V36".toList l

def footer : List Chars :=
  ["#ifdef __cplusplus".toList, ['}'], "#endif /* __cplusplus */".toList, "#endif".toList]

/-- What `extract ndk13` makes of a header. -/
def extract (ls : List Chars) : List Chars :=
  if ls.any hasV36 then (printRange opensGuard hasV36 false ls).map strip ++ footer
  else ls.map strip

/-! ## Headers and what becomes of them -/

/-- The text of a header, for which `__stdargs` stands for nothing. -/
def stripped (ls : List Chars) : Chars := unlines (ls.map strip)

/-- A header in `clib`, for the compilers that these environments stand for: comments, the
guard, and behind it everything that is declared, with one block of `extern "C"` where
`__cplusplus` is defined. -/
structure Clib (𝓔 : Set Environment) where
  before : List Chars
  guard : Chars
  after : List Chars
  /-- What is behind `CLIB` in the name of the guard. -/
  name : Chars
  opens : opensGuard guard = true
  comments : ((scan (stripped (before ++ [guard]))).all.filter fun l =>
    ¬ l.all Glyph.space).map directive = [some (.ifndef ("CLIB".toList ++ name))]
  balanced : ∀ e ∈ 𝓔, e.Balanced (stripped (before ++ guard :: after))
  encloses : ∀ e ∈ 𝓔, ∀ p, p <+: after →
    (e.read (stripped (before ++ guard :: p))).conds = [] →
      (e.read (stripped (before ++ guard :: after))).code.declared =
        (e.read (stripped (before ++ guard :: p))).code.declared
  links : ∀ e ∈ 𝓔, (e.read (stripped (before ++ guard :: after))).code.links =
    if e.cplusplus && !e.defined ("CLIB".toList ++ name) e.start then 1 else 0
  tells : (before ++ guard :: after).any hasV36 = true

section Result

variable (e : Environment) (ls : List Chars)

/-- The lines in front of the first with `V36`. -/
def front : List Chars := ls.takeWhile fun l => !hasV36 l

/-- The declarations in front of the first line with `V36`. -/
def preceding : List Decl := (e.read (stripped (front ls))).code.decls

/-- What is written is balanced, and declares what is in front of `V36`. -/
def WellFormed : Prop :=
  e.Balanced (unlines (extract ls)) ∧
    (e.read (unlines (extract ls))).code.declared = preceding e ls

instance : Decidable (WellFormed e ls) := inferInstanceAs (Decidable (_ ∧ _))

/-- The parts of a header from a guard to the next `V36`. -/
def parts : List Chars := (intervals opensGuard hasV36 ls).flatten

/-- The footer closes what `t` leaves open, and `ds` is declared. -/
def Closed (t : Chars) (ds : List Decl) : Prop :=
  if (scan t).complete then
    -- Between two lines the guard is open, and in a live block of C++ the brace.
    let s := e.read t
    s.Open 1 (if live s.conds && e.cplusplus then 1 else 0) ∧ s.code.declared = ds
  else if (scan t).inComment then
    -- The comment ends with that of the footer, and only the last `#endif` is left of it.
    let s := e.read (t ++ "*/\n".toList)
    s.Open 1 0 ∧ s.code.declared = ds
  else
    -- A backslash at the end: the first line of the footer is part of the last line.
    let s := e.read (t ++ "#ifdef __cplusplus\n".toList)
    s.Open 2 (if live s.conds then 1 else 0) ∧ s.code.declared = ds

end Result

namespace Clib

variable {𝓔 : Set Environment} (h : Clib 𝓔)

def lines : List Chars := h.before ++ h.guard :: h.after

def head : List Chars := h.before ++ h.guard :: through hasV36 h.after

/-- No other line looks like the guard, but lines that are not copied. -/
def Single : Prop :=
  Comments (stripped h.before) ∧ (h.before ++ past hasV36 h.after).any opensGuard = false

instance : Decidable h.Single := inferInstanceAs (Decidable (_ ∧ _))

/-- No declaration is open, and none is between the first `V36` of the header and here. -/
def Silent (e : Environment) (s : State e.Macros) : Prop :=
  s.code.text = [] ∧ s.code.decls.length = (e.read (stripped (front h.lines))).code.decls.length

/-- The first line with `V36` behind the guard is where the footer fits. -/
def Fits (e : Environment) : Prop :=
  if h.Single then
    if (scan (stripped h.head)).complete then
      -- Behind it the guard is the only conditional, with the block of `extern "C"`.
      let s := e.read (stripped h.head)
      (s.conds.length = 1 ∧ s.code.depth = if live s.conds && e.cplusplus then 1 else 0) ∧
        h.Silent e s
    else if (scan (stripped h.head)).inComment then
      -- In a comment that ends behind the block, or is not compiled in C++.
      let s := e.read (stripped h.head ++ "*/\n".toList)
      s.Open 1 0 ∧ h.Silent e s
    else
      -- With a backslash at its end.
      let s := e.read (stripped h.head ++ "#ifdef __cplusplus\n".toList)
      s.Open 2 (if live s.conds then 1 else 0) ∧ h.Silent e s
  else
    -- A range starts in the comments, or another one behind this line.
    Closed e (stripped (parts h.lines)) (preceding e h.lines)

end Clib

/-! ## The footer -/

section Footer

variable (e : Environment) {t : Chars}

/-- What is behind the first line of the footer. -/
def closing : Chars := '}' :: "\n#endif /* __cplusplus */\n#endif\n".toList

def ifdefCplusplus : Line :=
  ['#', 'i', 'f', 'd', 'e', 'f', ' ', '_', '_', 'c', 'p', 'l', 'u', 's', 'p', 'l', 'u', 's',
    '\n'].map .plain

def brace : Line := ['}', '\n'].map .plain

def endif : Line := ['#', 'e', 'n', 'd', 'i', 'f', '\n'].map .plain

/-- `#endif`, and the blank that is left of the comment. -/
def endifBlank : Line := ['#', 'e', 'n', 'd', 'i', 'f', ' ', ' ', '\n'].map .plain

theorem foldl_closing (ls : List Line) :
    (splice closing).foldl Scan.step ⟨.code, [], ls⟩ =
      ⟨.code, [], ls ++ [brace, endifBlank, endif]⟩ := by
  have hclosed : (splice closing).foldl Scan.step ⟨.code, [], []⟩ =
      ⟨.code, [], [brace, endifBlank, endif]⟩ := by decide +kernel
  rw [Scan.foldl_eq_behind, hclosed]
  rfl

/-- Outside of comments the first line of the footer is read with what is open, and the
others are lines of their own. -/
theorem scan_footer_of_outside (ht : t.getLast? ≠ some '\\') (h : (scan t).inComment = false) :
    ∃ ls, scan (t ++ "#ifdef __cplusplus\n".toList) = ⟨.code, [], ls⟩ ∧
      scan (t ++ unlines footer) = ⟨.code, [], ls ++ [brace, endifBlank, endif]⟩ := by
  have hfirst : splice "#ifdef __cplusplus\n".toList =
      "#ifdef __cplusplus".toList ++ ['\n'] := by decide +kernel
  have hsplice : splice (unlines footer) =
      ("#ifdef __cplusplus".toList ++ ['\n']) ++ splice closing := by decide +kernel
  have hplain : ∀ c ∈ "#ifdef __cplusplus".toList, c ≠ '\n' ∧ c ≠ '/' ∧ c ≠ '*' :=
    forall_mem_of_all (by decide +kernel)
  obtain ⟨l, hl⟩ := Scan.foldl_line h (by decide +kernel) hplain
  refine ⟨(scan t).lines ++ [l], ?_, ?_⟩
  · rw [scan_append ht, hfirst, hl]
  · rw [scan_append ht, hsplice, List.foldl_append, hl, foldl_closing]

/-- In a comment, the footer is read up to the end of its own comment. -/
theorem scan_footer_of_comment (ht : t.getLast? ≠ some '\\') (h : (scan t).inComment = true) :
    ∃ ls, scan (t ++ "*/\n".toList) = ⟨.code, [], ls⟩ ∧
      scan (t ++ unlines footer) = ⟨.code, [], ls ++ [endif]⟩ := by
  have hmode : (scan t).mode = .block ∨ (scan t).mode = .star := by
    simpa [Scan.inComment] using h
  refine ⟨(scan t).lines ++ [(scan t).line ++ [.plain '\n']], ?_, ?_⟩
  · have hend : ∀ m, m = Mode.block ∨ m = .star →
        (splice "*/\n".toList).foldl Scan.step ⟨m, [], []⟩ = ⟨.code, [], [[.plain '\n']]⟩ := by
      rintro m (rfl | rfl) <;> decide +kernel
    rw [scan_append ht, Scan.foldl_eq_behind, hend _ hmode]
    rfl
  · have hend : ∀ m, m = Mode.block ∨ m = .star →
        (splice (unlines footer)).foldl Scan.step ⟨m, [], []⟩ =
          ⟨.code, [], [[.plain '\n'], endif]⟩ := by
      rintro m (rfl | rfl) <;> decide +kernel
    rw [scan_append ht, Scan.foldl_eq_behind, hend _ hmode, List.append_assoc]
    rfl

theorem readLine_brace (s : State e.Macros) : e.readLine s brace =
    if live s.conds then { s with code := s.code.closeBrace } else s := by
  have hcode : brace.foldl Code.read s.code = s.code.closeBrace := if_pos s.code.text_closeBrace
  rw [e.readLine_of_code s rfl, hcode]

theorem readLine_endif (s : State e.Macros) : e.readLine s endif = s.pop :=
  e.readLine_of_directive s (d := .endif) rfl

theorem readLine_endifBlank (s : State e.Macros) : e.readLine s endifBlank = s.pop :=
  e.readLine_of_directive s (d := .endif) rfl

theorem readLine_ifdefCplusplus (s : State e.Macros) :
    e.readLine s ifdefCplusplus = s.push e.cplusplus := by
  rw [← e.defined_cplusplus s.macros]
  exact e.readLine_of_directive s (d := .ifdef _) rfl

theorem open_brace_iff (s : State e.Macros) {n : ℕ} :
    (e.readLine s brace).Open n 0 ↔ s.Open n (if live s.conds then 1 else 0) := by
  rw [readLine_brace]
  cases live s.conds with
  | false => rfl
  | true => exact s.open_closeBrace_iff

theorem declared_brace (s : State e.Macros) :
    (e.readLine s brace).code.declared = s.code.declared := by
  rw [readLine_brace]
  split
  · exact s.code.declared_closeBrace
  · rfl

/-- Behind a whole line, the rest of the footer closes two conditionals, and a brace where
the inner one is live. -/
theorem open_closing_iff (s : State e.Macros) :
    (e.readLines s [brace, endifBlank, endif]).Open 0 0 ↔
      s.Open 2 (if live s.conds then 1 else 0) := by
  change (e.readLine (e.readLine (e.readLine s brace) endifBlank) endif).Open 0 0 ↔ _
  rw [readLine_endif, State.open_pop_iff, readLine_endifBlank, State.open_pop_iff,
    open_brace_iff]

theorem declared_closing (s : State e.Macros) :
    (e.readLines s [brace, endifBlank, endif]).code.declared = s.code.declared := by
  change (e.readLine (e.readLine (e.readLine s brace) endifBlank) endif).code.declared = _
  rw [readLine_endif, State.code_pop, readLine_endifBlank, State.code_pop, declared_brace]

end Footer

/-! ## The cut -/

section Cut

variable (e : Environment) {t : Chars} {ds : List Decl}

/-- The text with the footer is balanced, and declares `ds`. -/
def Ended (t : Chars) (ds : List Decl) : Prop :=
  e.Balanced (t ++ unlines footer) ∧ (e.read (t ++ unlines footer)).code.declared = ds

/-- `u` closes what is open behind `t`, and `more` is the rest of the footer. -/
theorem ended_iff_of_scan {u : Chars} {ms more : List Line}
    (hfirst : scan (t ++ u) = ⟨.code, [], ms⟩)
    (hfooter : scan (t ++ unlines footer) = ⟨.code, [], ms ++ more⟩) :
    Ended e t ds ↔
      (e.readLines (e.read (t ++ u)) more).Open 0 0 ∧
        (e.readLines (e.read (t ++ u)) more).code.declared = ds := by
  have hread : e.read (t ++ unlines footer) = e.readLines (e.read (t ++ u)) more := by
    rw [e.read_of_scan hfirst, e.read_of_scan hfooter, e.readLines_append]
  have hend : (scan (t ++ unlines footer)).inComment = false := by
    rw [hfooter]
    rfl
  rw [Ended, Environment.Balanced, hread, hend, eq_self, true_and]

/-- Outside of comments: two conditionals are open behind the first line of the footer. -/
theorem ended_iff_of_outside (ht : t.getLast? ≠ some '\\')
    (hout : (scan t).inComment = false) :
    Ended e t ds ↔
      let s := e.read (t ++ "#ifdef __cplusplus\n".toList)
      s.Open 2 (if live s.conds then 1 else 0) ∧ s.code.declared = ds := by
  obtain ⟨ms, hfirst, hfooter⟩ := scan_footer_of_outside ht hout
  rw [ended_iff_of_scan e hfirst hfooter, open_closing_iff, declared_closing]

/-- In a comment: one conditional is open behind the comment. -/
theorem ended_iff_of_comment (ht : t.getLast? ≠ some '\\') (hin : (scan t).inComment = true) :
    Ended e t ds ↔
      let s := e.read (t ++ "*/\n".toList)
      s.Open 1 0 ∧ s.code.declared = ds := by
  obtain ⟨ms, hfirst, hfooter⟩ := scan_footer_of_comment ht hin
  have hendif : ∀ s, e.readLines s [endif] = s.pop := readLine_endif e
  rw [ended_iff_of_scan e hfirst hfooter, hendif, State.open_pop_iff, State.code_pop]

/-- Between two lines: one conditional is open, and the brace of a live block. -/
theorem ended_iff_of_complete (ht : t.getLast? ≠ some '\\')
    (hcomplete : (scan t).complete = true) :
    Ended e t ds ↔
      let s := e.read t
      s.Open 1 (if live s.conds && e.cplusplus then 1 else 0) ∧ s.code.declared = ds := by
  have hout : (scan t).inComment = false := by
    rw [Scan.complete_iff.mp hcomplete]
    rfl
  have hall : (scan "#ifdef __cplusplus\n".toList).all = [ifdefCplusplus] ++ [[]] := by
    decide +kernel
  have hread : e.read (t ++ "#ifdef __cplusplus\n".toList) =
      (e.read t).push e.cplusplus := by
    rw [e.read_append ht hcomplete, hall, e.readLines_append]
    exact (e.readLine_nil _).trans (readLine_ifdefCplusplus e _)
  rw [ended_iff_of_outside e ht hout, hread]
  exact and_congr_left' (State.open_push_iff _ _)

theorem ended_iff_closed (ht : t.getLast? ≠ some '\\') : Ended e t ds ↔ Closed e t ds := by
  rw [Closed]
  split
  · next hcomplete => exact ended_iff_of_complete e ht hcomplete
  · split
    · next hin => exact ended_iff_of_comment e ht hin
    · next hin => exact ended_iff_of_outside e ht (Bool.eq_false_iff.mpr hin)

theorem stripped_append (ls ls' : List Chars) :
    stripped (ls ++ ls') = stripped ls ++ stripped ls' := by
  rw [stripped, List.map_append, unlines, List.flatMap_append]
  rfl

theorem getLast?_stripped (ls : List Chars) : (stripped ls).getLast? ≠ some '\\' :=
  getLast?_unlines _

theorem wellFormed_iff_closed {ls : List Chars} (h : ls.any hasV36 = true) :
    WellFormed e ls ↔ Closed e (stripped (parts ls)) (preceding e ls) := by
  have hextract : unlines (extract ls) = stripped (parts ls) ++ unlines footer := by
    rw [extract, if_pos h, printRange_eq_intervals, unlines, List.flatMap_append]
    rfl
  rw [← ended_iff_closed e (getLast?_stripped _), WellFormed, hextract]
  rfl

theorem closed_comments_append {a : Chars} (ha : a.getLast? ≠ some '\\') (h : Comments a) :
    Closed e (a ++ t) ds ↔ Closed e t ds := by
  have hline : (scan a).line = [] := by rw [Scan.complete_iff.mp h.complete]
  have hread := e.read_comments_append ha h
  rw [Closed, Closed, List.append_assoc, List.append_assoc, hread, hread, hread,
    scan_append_of_complete ha h.complete, Scan.complete_behind hline, Scan.inComment_behind]

end Cut

/-! ## One guard -/

theorem takeWhile_prefix_through {b : Chars → Bool} (u w : List Chars) :
    (u ++ w).takeWhile (fun l => !b l) <+: u ++ through b w := by
  have hthrough : w.takeWhile (fun l => !b l) <+: through b w := by
    induction w with
    | nil => exact List.prefix_rfl
    | cons l w ih =>
        rw [List.takeWhile_cons, through]
        cases b l with
        | true => exact List.nil_prefix
        | false => exact (List.prefix_cons_inj l).mpr ih
  rw [List.takeWhile_append]
  split
  · exact (List.prefix_append_right_inj u).mpr hthrough
  · exact (List.takeWhile_prefix _).trans (List.prefix_append _ _)

namespace Clib

variable {𝓔 : Set Environment} (h : Clib 𝓔) (e : Environment)

theorem front_prefix_head : front h.lines <+: h.head := by
  have hsplit : ∀ w, h.before ++ h.guard :: w = (h.before ++ [h.guard]) ++ w := fun w => by
    rw [List.append_assoc, List.singleton_append]
  rw [front, lines, head, hsplit h.after, hsplit (through hasV36 h.after)]
  exact takeWhile_prefix_through _ _

theorem stripped_head : stripped h.head = stripped h.before ++
    stripped (h.guard :: through hasV36 h.after) :=
  stripped_append _ _

variable {h}

/-- One range is copied, from the guard to the first `V36` behind it. -/
theorem Single.parts (hs : h.Single) : parts h.lines = h.guard :: through hasV36 h.after := by
  have hnone := List.any_eq_false.mp hs.2
  have hintervals := intervals_append_cons (a := opensGuard) (b := hasV36) (u := h.before)
    (w := h.after) (fun l hl => Bool.eq_false_iff.mpr (hnone l (List.mem_append_left _ hl)))
    h.opens (fun l hl => Bool.eq_false_iff.mpr (hnone l (List.mem_append_right _ hl)))
  rw [Header.parts, lines, hintervals, List.flatten_singleton]

theorem Single.closed_iff (hs : h.Single) {ds : List Decl} :
    Closed e (stripped (Header.parts h.lines)) ds ↔ Closed e (stripped h.head) ds := by
  rw [hs.parts, h.stripped_head, closed_comments_append e (getLast?_stripped _) hs.1]

variable (h)

/-- Nothing is lost that is in front of `V36`. -/
theorem declared_eq_iff_silent (t : Chars) :
    (e.read (stripped h.head ++ t)).code.declared = preceding e h.lines ↔
      h.Silent e (e.read (stripped h.head ++ t)) := by
  obtain ⟨rest, hrest⟩ := h.front_prefix_head
  refine Code.declared_eq_iff ?_
  rw [← hrest, stripped_append, List.append_assoc]
  exact e.decls_read_append (getLast?_stripped _) _

variable {h e}

theorem flags_head (he : e ∈ 𝓔) (hcomplete : (scan (stripped h.head)).complete = true) :
    (e.read (stripped h.head)).nested = true ∧ (e.read (stripped h.head)).code.ok = true := by
  have hlines : stripped h.lines = stripped h.head ++ stripped (past hasV36 h.after) := by
    rw [← stripped_append, head, List.append_assoc, List.cons_append, through_append_past]
    rfl
  have hopen := (h.balanced e he).2
  rw [← lines, hlines, e.read_append (getLast?_stripped _) hcomplete] at hopen
  exact e.flags_of_readLines _ ⟨hopen.1.1, hopen.2.1⟩

theorem wellFormed_iff_fits (he : e ∈ 𝓔) : WellFormed e h.lines ↔ h.Fits e := by
  have hclosed : WellFormed e h.lines ↔ _ := wellFormed_iff_closed e h.tells
  rw [hclosed, Fits]
  split
  · next hs =>
      rw [hs.closed_iff, Closed]
      split
      · next hcomplete =>
          have hsilent := h.declared_eq_iff_silent e []
          rw [List.append_nil] at hsilent
          obtain ⟨hnested, hok⟩ := flags_head he hcomplete
          simp only [State.Open, hsilent, hnested, hok, true_and]
      · split
        · exact and_congr_right' (h.declared_eq_iff_silent e _)
        · exact and_congr_right' (h.declared_eq_iff_silent e _)
  · rfl

/-- With `V36` in front of the guard only, the whole header is copied, and closed again. -/
theorem not_wellFormed_of_past (hs : h.Single) (hafter : ∀ l ∈ h.after, hasV36 l = false)
    (hcomplete : (scan (stripped h.lines)).complete = true) (he : e ∈ 𝓔) :
    ¬ WellFormed e h.lines := by
  have hhead : h.head = h.lines := by rw [head, through_eq_self hafter, lines]
  have hopen := (h.balanced e he).2
  rw [wellFormed_iff_fits he, Fits, if_pos hs, hhead, if_pos hcomplete]
  rintro ⟨⟨hconds, -⟩, -⟩
  have hnone := hopen.1.2
  rw [← lines, hconds] at hnone
  exact absurd hnone (by decide)

/-- A comment between two declarations is a good place for the first `V36`. -/
theorem wellFormed_of_comments (hs : h.Single) (he : e ∈ 𝓔) {p q : List Chars} {v : Chars}
    (hafter : h.after = p ++ v :: q)
    (hfront : ∀ l ∈ h.before ++ h.guard :: p, hasV36 l = false) (hv : hasV36 v = true)
    (hcomments : Comments (stripped [v]))
    (hcomplete : (scan (stripped (h.before ++ h.guard :: p))).complete = true)
    (hopen : let s := e.read (stripped (h.before ++ h.guard :: p))
      (s.conds.length = 1 ∧ s.code.depth = if live s.conds && e.cplusplus then 1 else 0) ∧
        s.code.text = []) :
    WellFormed e h.lines := by
  have hp : ∀ l ∈ p, hasV36 l = false := fun l hl =>
    hfront l (List.mem_append_right _ (List.mem_cons_of_mem _ hl))
  have hhead : h.head = (h.before ++ h.guard :: p) ++ [v] := by
    rw [head, hafter, (through_append_cons hp hv).1]
    simp
  have hlines : front h.lines = h.before ++ h.guard :: p := by
    have hnone : ∀ l ∈ h.before ++ h.guard :: p, (!hasV36 l) = true := fun l hl => by
      rw [hfront l hl]
      rfl
    have hstop : (v :: q).takeWhile (fun l => !hasV36 l) = [] := by simp [hv]
    rw [front, lines, hafter, ← List.cons_append, ← List.append_assoc,
      List.takeWhile_append_of_pos hnone, hstop, List.append_nil]
  have hbackslash := getLast?_stripped (h.before ++ h.guard :: p)
  have hread := e.read_append_comments hbackslash hcomplete hopen.2 hcomments
  have hwhole := complete_append hbackslash hcomplete hcomments.complete
  rw [wellFormed_iff_fits he, Fits, if_pos hs, hhead, stripped_append, if_pos hwhole]
  simp only [Silent, hlines]
  rw [hread]
  exact ⟨hopen.1, hopen.2, rfl⟩

example : ∀ cplusplus, WellFormed (.plain cplusplus) ["#ifndef CLIB_ALIB_PROTOS_H".toList,
    "#ifdef __cplusplus".toList, "extern \"C\" ".toList ++ ['{'], "#endif".toList,
    "VOID beep(VOID);".toList, "/* V36 */".toList, "VOID NewList(VOID);".toList,
    "#ifdef __cplusplus".toList, ['}'], "#endif".toList, "#endif".toList] := by
  decide +kernel

end Clib

/-- `V36` in front of the block of `extern "C"`. -/
def early : Clib (Set.range Environment.plain) where
  before := ["/* graphics.library */".toList]
  guard := "#ifndef CLIB_GRAPHICS_PROTOS_H".toList
  after := ["#define CLIB_GRAPHICS_PROTOS_H".toList, "/* for V36 and up */".toList,
    "#ifdef __cplusplus".toList, "extern \"C\" ".toList ++ ['{'], "#endif".toList,
    "VOID __stdargs WaitTOF( VOID );".toList,
    "#ifdef __cplusplus".toList, ['}'], "#endif".toList, "#endif".toList]
  name := "_GRAPHICS_PROTOS_H".toList
  opens := by decide +kernel
  comments := by decide +kernel
  balanced := by
    rintro _ ⟨cplusplus, rfl⟩
    cases cplusplus <;> decide +kernel
  encloses := by
    rintro _ ⟨cplusplus, rfl⟩ p hp
    rw [← List.mem_inits] at hp
    revert p
    cases cplusplus <;> decide +kernel
  links := by
    rintro _ ⟨cplusplus, rfl⟩
    cases cplusplus <;> decide +kernel
  tells := by decide +kernel

end Header

end AmigaGcc
