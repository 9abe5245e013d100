import Mathlib.Data.List.DropRight
import AmigaGcc.Library.Text.Grep

/-!
# Fields of a line

What `sed -e 's/[[:blank:]]\+/ /g' | cut -d' ' -f n` makes of a line, and what
the two ways to read the output of a command make of the lines it prints: the
`$(..)` of the shell and the `$(shell ..)` of make.

The rules at the end of each section are about words, the nonempty texts without
white space: a line of words separated by single blanks is its own squeezed form
and is cut into these words, and an output of a single word is read as this word.
-/

namespace Library

namespace Text

/-- A text of characters that are not white space, at least one. -/
def Word (w : Chars) : Prop := w ≠ [] ∧ ∀ c ∈ w, c.isWhitespace = false

instance (w : Chars) : Decidable (Word w) :=
  decidable_of_iff (w ≠ [] ∧ w.all (fun c => !c.isWhitespace) = true) (by simp [Word])

theorem Word.not_mem {w : Chars} (h : Word w) {c : Char} (hc : c.isWhitespace = true) :
    c ∉ w := by
  intro hmem
  rw [h.2 c hmem] at hc
  cases hc

/-- Rewrite a literal into its characters; evaluating `toList` decodes it. -/
theorem toList_eq {s : String} {l : Chars} (h : String.ofList l = s) : s.toList = l := by
  rw [← h, String.toList_ofList]

/-! ## Blanks and fields -/

/-- `[[:blank:]]` -/
def blank (c : Char) : Bool := c == ' ' || c == '\t'

/-- What stands between two fields: blanks, at least one. -/
def Gap (t : Chars) : Prop := t ≠ [] ∧ ∀ c ∈ t, blank c = true

instance (t : Chars) : Decidable (Gap t) :=
  decidable_of_iff (t ≠ [] ∧ t.all blank = true) (by simp [Gap])

/-- The rest of a line, behind a blank or not. -/
def squeezeAfter : Bool → Chars → Chars
  | _, [] => []
  | behind, c :: l =>
      if blank c then
        if behind then squeezeAfter true l else ' ' :: squeezeAfter true l
      else c :: squeezeAfter false l

/-- `sed -e 's/[[:blank:]]\+/ /g'` -/
def squeeze (l : Chars) : Chars := squeezeAfter false l

/-- `cut -d' ' -f n`, which prints a line without the delimiter as it is. -/
def cut (n : ℕ) (l : Chars) : Chars :=
  if ' ' ∈ l then (l.splitOn ' ').getD (n - 1) [] else l

/-- A text without blanks, not empty. -/
def Field (w : Chars) : Prop := w ≠ [] ∧ ∀ c ∈ w, blank c = false

theorem Word.field {w : Chars} (h : Word w) : Field w := by
  refine ⟨h.1, fun c hc => ?_⟩
  have hspace : c ≠ ' ' := fun he => h.not_mem (c := ' ') (by decide) (he ▸ hc)
  have htab : c ≠ '\t' := fun he => h.not_mem (c := '\t') (by decide) (he ▸ hc)
  simp [blank, hspace, htab]

theorem Field.not_mem {w : Chars} (h : Field w) : ' ' ∉ w := by
  intro hmem
  have hblank := h.2 ' ' hmem
  cases hblank

theorem squeezeAfter_field_append {w : Chars} (h : Field w) (b : Bool) (l : Chars) :
    squeezeAfter b (w ++ l) = w ++ squeezeAfter false l := by
  obtain ⟨hne, hall⟩ := h
  induction w generalizing b with
  | nil => exact absurd rfl hne
  | cons c w ih =>
      have hc : blank c = false := hall c List.mem_cons_self
      rw [List.cons_append, squeezeAfter, hc, List.cons_append]
      cases w with
      | nil => simp
      | cons d w =>
          have hrest := ih false (by simp) fun e he => hall e (List.mem_cons_of_mem c he)
          rw [if_neg Bool.false_ne_true, hrest]

theorem squeezeAfter_gap_append {gap : Chars} (h : Gap gap) (l : Chars) :
    squeezeAfter false (gap ++ l) = ' ' :: squeezeAfter true l := by
  have htail : ∀ t : Chars, (∀ c ∈ t, blank c = true) →
      squeezeAfter true (t ++ l) = squeezeAfter true l := by
    intro t ht
    induction t with
    | nil => rfl
    | cons c t ih =>
        obtain ⟨hc, ht⟩ := List.forall_mem_cons.mp ht
        rw [List.cons_append, squeezeAfter, if_pos hc, if_pos rfl, ih ht]
  cases gap with
  | nil => exact absurd rfl h.1
  | cons c gap =>
      obtain ⟨hc, hgap⟩ := List.forall_mem_cons.mp h.2
      rw [List.cons_append, squeezeAfter, if_pos hc, if_neg Bool.false_ne_true, htail gap hgap]

/-- Three fields, with anything behind them, are squeezed to single blanks. -/
theorem squeeze_fields {u v w gap gap' : Chars} (hu : Field u) (hv : Field v) (hw : Field w)
    (hgap : Gap gap) (hgap' : Gap gap') (l : Chars) :
    squeeze (u ++ (gap ++ (v ++ (gap' ++ (w ++ l))))) =
      u ++ ' ' :: (v ++ ' ' :: (w ++ squeezeAfter false l)) := by
  rw [squeeze, squeezeAfter_field_append hu, squeezeAfter_gap_append hgap,
    squeezeAfter_field_append hv, squeezeAfter_gap_append hgap',
    squeezeAfter_field_append hw]

theorem squeeze_row {u v w : Chars} (hu : Field u) (hv : Field v) (hw : Field w) :
    squeeze (u ++ ' ' :: (v ++ ' ' :: w)) = u ++ ' ' :: (v ++ ' ' :: w) := by
  have hgap : Gap [' '] := by decide
  have h := squeeze_fields hu hv hw hgap hgap []
  simpa [squeezeAfter] using h

/-- Three fields, the last of which may be any text without a blank. -/
theorem cut_fields {u v w : Chars} (hu : ' ' ∉ u) (hv : ' ' ∉ v) (hw : ' ' ∉ w) (n : ℕ) :
    cut n (u ++ ' ' :: (v ++ ' ' :: w)) = [u, v, w].getD (n - 1) [] := by
  have hspace : ∀ t ∈ [u, v, w], ' ' ∉ t := by
    intro t ht
    simp only [List.mem_cons, List.not_mem_nil, or_false] at ht
    rcases ht with rfl | rfl | rfl
    · exact hu
    · exact hv
    · exact hw
  have hsplit := List.splitOn_intercalate ' ' hspace (List.cons_ne_nil _ _)
  have hline : [' '].intercalate [u, v, w] = u ++ ' ' :: (v ++ ' ' :: w) := by
    simp [List.intercalate]
  rw [hline] at hsplit
  rw [cut, if_pos (by simp), hsplit]

theorem squeeze_words {u v w : Chars} (hu : Word u) (hv : Word v) (hw : Word w) :
    squeeze (u ++ ' ' :: (v ++ ' ' :: w)) = u ++ ' ' :: (v ++ ' ' :: w) :=
  squeeze_row hu.field hv.field hw.field

theorem cut_words {u v w : Chars} (hu : Word u) (hv : Word v) (hw : Word w) (n : ℕ) :
    cut n (u ++ ' ' :: (v ++ ' ' :: w)) = [u, v, w].getD (n - 1) [] :=
  cut_fields (hu.not_mem (by decide)) (hv.not_mem (by decide)) (hw.not_mem (by decide)) n

theorem mem_of_mem_splitOnP {p : Char → Bool} {l t : Chars} (ht : t ∈ l.splitOnP p) {c : Char}
    (hc : c ∈ t) : c ∈ l ∧ p c = false := by
  induction l generalizing t with
  | nil =>
      rw [List.splitOnP_nil, List.mem_singleton] at ht
      rw [ht] at hc
      cases hc
  | cons d l ih =>
      have hrest : ∀ u ∈ l.splitOnP p, c ∈ u → c ∈ d :: l ∧ p c = false := fun u hu hcu =>
        ⟨List.mem_cons_of_mem d (ih hu hcu).1, (ih hu hcu).2⟩
      rw [List.splitOnP_cons_eq_if_modifyHead] at ht
      split at ht
      · rcases List.mem_cons.mp ht with rfl | ht
        · cases hc
        · exact hrest t ht hc
      · next hd =>
          obtain ⟨u, us, hsplit⟩ := List.exists_cons_of_ne_nil (List.splitOnP_ne_nil p l)
          rw [hsplit] at ht hrest
          rcases List.mem_cons.mp ht with rfl | ht
          · rcases List.mem_cons.mp hc with rfl | hc
            · exact ⟨List.mem_cons_self, eq_false_of_ne_true hd⟩
            · exact hrest u List.mem_cons_self hc
          · exact hrest t (List.mem_cons_of_mem u ht) hc

theorem squeezeAfter_no_tab (b : Bool) (l : Chars) : '\t' ∉ squeezeAfter b l := by
  induction l generalizing b with
  | nil => exact List.not_mem_nil
  | cons c l ih =>
      rw [squeezeAfter]
      split
      · split
        · exact ih true
        · simpa using ih true
      · next hc =>
          have hne : c ≠ '\t' := by
            rintro rfl
            exact hc rfl
          simpa using ⟨hne.symm, ih false⟩

theorem blank_of_mem_cut {n : ℕ} {l : Chars} {c : Char} (hc : c ∈ cut n (squeeze l)) :
    blank c = false := by
  have hmem : c ∈ squeeze l ∧ c ≠ ' ' := by
    rw [cut] at hc
    split at hc
    · rw [List.splitOn_eq_splitOnP] at hc
      rw [List.getD_eq_getElem?_getD] at hc
      cases hpiece : ((squeeze l).splitOnP (· == ' '))[n - 1]? with
      | none => simp [hpiece] at hc
      | some t =>
          rw [hpiece, Option.getD_some] at hc
          have hspec := mem_of_mem_splitOnP (List.mem_of_getElem? hpiece) hc
          exact ⟨hspec.1, by simpa using hspec.2⟩
    · next hno => exact ⟨hc, fun he => hno (he ▸ hc)⟩
  have htab : c ≠ '\t' := fun he => squeezeAfter_no_tab false l (he ▸ hmem.1)
  simp [blank, hmem.2, htab]

theorem infix_append_cons_iff {p a b : Chars} {c : Char} (hc : c ∉ p) :
    p <:+: a ++ c :: b ↔ p <:+: a ∨ p <:+: b := by
  constructor
  · rintro ⟨s, t, h⟩
    rw [List.append_assoc] at h
    rcases List.append_eq_append_iff.mp h with ⟨x, rfl, hx⟩ | ⟨x, -, hx⟩
    · rcases List.append_eq_append_iff.mp hx with ⟨y, rfl, -⟩ | ⟨y, hp, hy⟩
      · exact Or.inl ⟨s, y, by simp⟩
      · cases y with
        | nil =>
            rw [List.append_nil] at hp
            exact Or.inl ⟨s, [], by simp [hp]⟩
        | cons d y =>
            rw [List.cons_append, List.cons.injEq] at hy
            exact absurd (hp ▸ by simp [hy.1]) hc
    · cases x with
      | nil =>
          rw [List.nil_append] at hx
          cases p with
          | nil => exact Or.inr (List.nil_infix)
          | cons d p =>
              rw [List.cons_append, List.cons.injEq] at hx
              exact absurd (hx.1 ▸ List.mem_cons_self) hc
      | cons d x =>
          rw [List.cons_append, List.cons.injEq] at hx
          exact Or.inr ⟨x, t, by rw [hx.2, List.append_assoc]⟩
  · rintro (h | h)
    · exact h.trans (List.prefix_append a _).isInfix
    · exact h.trans ((List.suffix_cons c b).trans (List.suffix_append a _)).isInfix

/-! ## The output of a command -/

def unlines (ls : List Chars) : Chars := ls.flatMap fun l => l ++ ['\n']

/-- `$(..)` of the shell: the newlines at the end are dropped. -/
def capture (out : Chars) : Chars := out.rdropWhile (· == '\n')

/-- Drop each carriage return in front of a newline. -/
def dropReturns : Chars → Chars
  | [] => []
  | c :: l => if c = '\r' ∧ l.head? = some '\n' then dropReturns l else c :: dropReturns l

/-- `$(shell ..)` of make: a carriage return goes with its newline, the newlines
at the end are dropped and the others become blanks. -/
def makeShell (out : Chars) : Chars :=
  ((dropReturns out).rdropWhile (· == '\n')).map fun c => if c = '\n' then ' ' else c

theorem dropReturns_of_not_mem {w : Chars} (h : '\r' ∉ w) (l : Chars) :
    dropReturns (w ++ l) = w ++ dropReturns l := by
  induction w with
  | nil => rfl
  | cons c w ih =>
      have hc : c ≠ '\r' := fun he => h (he ▸ List.mem_cons_self)
      have hw : '\r' ∉ w := fun hmem => h (List.mem_cons_of_mem c hmem)
      simp [dropReturns, hc, ih hw]

theorem rdropWhile_newline {w : Chars} (h : '\n' ∉ w) :
    w.rdropWhile (· == '\n') = w := by
  apply List.rdropWhile_eq_self_iff.mpr
  intro hne hlast
  rw [beq_iff_eq] at hlast
  exact h (hlast ▸ List.getLast_mem hne)

theorem capture_line {l : Chars} (h : '\n' ∉ l) : capture (unlines [l]) = l := by
  have hunlines : unlines [l] = l ++ ['\n'] := by simp [unlines]
  rw [capture, hunlines, List.rdropWhile_concat_pos _ _ _ (by simp), rdropWhile_newline h]

theorem map_newline_of_not_mem {w : Chars} (h : '\n' ∉ w) :
    (w.map fun c => if c = '\n' then ' ' else c) = w := by
  refine (List.map_congr_left fun c hc => ?_).trans (List.map_id w)
  have hc' : c ≠ '\n' := fun he => h (he ▸ hc)
  simp [hc']

/-- An output of one word, with or without a carriage return, is read as this
word. -/
theorem makeShell_word {w l : Chars} (h : Word w) (hl : l = w ∨ l = w ++ ['\r']) :
    makeShell (unlines [l]) = w := by
  have hreturn : '\r' ∉ w := h.not_mem (by decide)
  have hnewline : '\n' ∉ w := h.not_mem (by decide)
  have hdrop : dropReturns (unlines [l]) = w ++ ['\n'] := by
    rcases hl with rfl | rfl
    · simp [unlines, dropReturns_of_not_mem hreturn, dropReturns]
    · simp [unlines, dropReturns_of_not_mem hreturn, dropReturns]
  rw [makeShell, hdrop, List.rdropWhile_concat_pos _ _ _ (by simp),
    rdropWhile_newline hnewline, map_newline_of_not_mem hnewline]

/-- An output of two words is read as a text with a blank in it. -/
theorem makeShell_two_words {v w : Chars} (hv : Word v) (hw : Word w) :
    makeShell (unlines [v, w]) = v ++ ' ' :: w := by
  have hv' : '\n' ∉ v := hv.not_mem (by decide)
  have hw' : '\n' ∉ w := hw.not_mem (by decide)
  have hdrop : dropReturns (unlines [v, w]) = (v ++ '\n' :: w) ++ ['\n'] := by
    simp [unlines, dropReturns_of_not_mem (hv.not_mem (c := '\r') (by decide)),
      dropReturns_of_not_mem (hw.not_mem (c := '\r') (by decide)), dropReturns]
  have hlast : (v ++ '\n' :: w).rdropWhile (· == '\n') = v ++ '\n' :: w := by
    apply List.rdropWhile_eq_self_iff.mpr
    intro hne hlast
    rw [beq_iff_eq, List.getLast_append_of_ne_nil _ (List.cons_ne_nil _ _),
      List.getLast_cons hw.1] at hlast
    exact hw' (hlast ▸ List.getLast_mem hw.1)
  rw [makeShell, hdrop, List.rdropWhile_concat_pos _ _ _ (by simp), hlast, List.map_append,
    map_newline_of_not_mem hv', List.map_cons, map_newline_of_not_mem hw']
  rfl

end Text

end Library
