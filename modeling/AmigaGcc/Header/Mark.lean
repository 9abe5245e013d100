import AmigaGcc.Library.Text.Ere
import AmigaGcc.Library.Text.Lexeme

/-!
# `__stdargs` in the headers of the NDK

The headers in `clib` get `__stdargs` in front of the functions they declare; for the
NDK 1.3 it is taken out of a copy and put in again. `mark` and `strip` are the two
substitutions, on one line.

The expression of `mark` can match a declarator in more than one way, but each match
ends at the first parenthesis behind its start, and the run of word characters in front
of the parenthesis is the same in all of them. So what a match leaves behind does not
depend on which one is taken (`mark_declarator`), and the line is marked where
`insertBefore` says, from one parenthesis to the next (`mark_eq_insertBefore`).
-/

namespace AmigaGcc

namespace Header

open Library.Text Library.Text.Ere

/-- `([a-zA-Z0-9 _]*)([[:blank:]]+|\*)([a-zA-Z0-9_]+)\(` -/
def declarator : Ere :=
  cat (group (many fun c => word c || c == ' '))
    (cat (group (alt (plus blank) (text ['*'])))
      (cat (group (plus word)) (text ['('])))

/-- `\1\2 __stdargs \3(` -/
def marked : List Chars → Chars
  | [type, sep, name] => type ++ (sep ++ (" __stdargs ".toList ++ (name ++ ['('])))
  | _ => []

/-- `s/([a-zA-Z0-9 _]*)([[:blank:]]+|\*)([a-zA-Z0-9_]+)\(/\1\2 __stdargs \3(/g` -/
def mark (l : Chars) : Chars := subst declarator marked l

/-- `s/__stdargs//g` -/
def strip (l : Chars) : Chars := subst (text "__stdargs".toList) (fun _ => []) l

/-! ## Where a line is marked -/

/-- What a declarator stands behind. -/
def opens (c : Char) : Bool := blank c || c == '*'

/-- The text starts with word characters, and `(` follows them. -/
def declares (l : Chars) : Bool :=
  l.takeWhile word ≠ [] && (l.dropWhile word).head? == some '('

/-- `w` in front of every declarator of the rest of a line, which is behind a blank or
`*`, or not. -/
def insertBefore (w : Chars) : Bool → Chars → Chars
  | _, [] => []
  | behind, c :: l =>
      if behind && declares (c :: l) then w ++ c :: insertBefore w (opens c) l
      else c :: insertBefore w (opens c) l

theorem word_eq_false_of_opens {c : Char} (h : opens c = true) : word c = false := by
  simp only [opens, blank, Bool.or_eq_true, beq_iff_eq] at h
  rcases h with (rfl | rfl) | rfl <;> rfl

theorem opens_eq_false_of_word {c : Char} (h : word c = true) : opens c = false := by
  cases ho : opens c with
  | false => rfl
  | true => rw [word_eq_false_of_opens ho] at h; cases h

theorem declares_iff {l : Chars} :
    declares l = true ↔ ∃ n r, (n ≠ [] ∧ ∀ c ∈ n, word c = true) ∧ l = n ++ '(' :: r := by
  rw [declares, Bool.and_eq_true, decide_eq_true_iff, beq_iff_eq]
  constructor
  · rintro ⟨hne, hhead⟩
    obtain ⟨r, hr⟩ := List.head?_eq_some_iff.mp hhead
    refine ⟨l.takeWhile word, r, ⟨hne, fun c hc => List.mem_takeWhile_imp hc⟩, ?_⟩
    rw [← hr, List.takeWhile_append_dropWhile]
  · rintro ⟨n, r, ⟨hne, hword⟩, rfl⟩
    have hparen : word '(' = false := rfl
    rw [List.takeWhile_append_of_pos hword, List.dropWhile_append_of_pos hword]
    simp [hne, hparen]

theorem declares_eq_false_of_not_mem {l : Chars} (h : '(' ∉ l) : declares l = false := by
  rw [Bool.eq_false_iff]
  intro hd
  obtain ⟨n, r, -, rfl⟩ := declares_iff.mp hd
  simp at h

theorem declares_append_eq_false {v : Chars} {o : Char} (hv : '(' ∉ v) (ho : word o = false)
    (hparen : o ≠ '(') (r : Chars) : declares (v ++ o :: r) = false := by
  rw [Bool.eq_false_iff]
  intro hd
  obtain ⟨n, r', ⟨-, hword⟩, hl⟩ := declares_iff.mp hd
  rcases append_cons_cases hl with ⟨-, hpo, -⟩ | hmem | hmem
  · exact hparen hpo
  · exact hv hmem
  · rw [hword o hmem] at ho
    cases ho

section InsertBefore

variable (w : Chars)

theorem insertBefore_of_declares {c : Char} {l : Chars} (h : declares (c :: l) = true) :
    insertBefore w true (c :: l) = w ++ insertBefore w false (c :: l) := by
  rw [insertBefore, insertBefore, h]
  rfl

theorem insertBefore_cons_false (c : Char) (l : Chars) :
    insertBefore w false (c :: l) = c :: insertBefore w (opens c) l := rfl

theorem insertBefore_cons_of_not {c : Char} {l : Chars} (h : declares (c :: l) = false)
    (behind : Bool) :
    insertBefore w behind (c :: l) = c :: insertBefore w (opens c) l := by
  rw [insertBefore, h, Bool.and_false, if_neg Bool.false_ne_true]

theorem insertBefore_paren (behind : Bool) (r : Chars) :
    insertBefore w behind ('(' :: r) = '(' :: insertBefore w false r :=
  insertBefore_cons_of_not w rfl behind

theorem insertBefore_eq_self {l : Chars} (h : '(' ∉ l) (behind : Bool) :
    insertBefore w behind l = l := by
  induction l generalizing behind with
  | nil => rfl
  | cons c l ih =>
      rw [insertBefore_cons_of_not w (declares_eq_false_of_not_mem h),
        ih (List.not_mem_of_not_mem_cons h)]

theorem insertBefore_append {v : Chars} {o : Char} (hv : '(' ∉ v) (ho : word o = false)
    (hparen : o ≠ '(') (r : Chars) (behind : Bool) :
    insertBefore w behind (v ++ o :: r) = v ++ o :: insertBefore w (opens o) r := by
  induction v generalizing behind with
  | nil =>
      exact insertBefore_cons_of_not w (declares_append_eq_false hv ho hparen r) behind
  | cons c v ih =>
      have hnone := declares_append_eq_false hv ho hparen r
      rw [List.cons_append] at hnone ⊢
      rw [insertBefore_cons_of_not w hnone, ih (List.not_mem_of_not_mem_cons hv),
        List.cons_append]

theorem insertBefore_run {n : Chars} (hword : ∀ c ∈ n, word c = true) (r : Chars) :
    insertBefore w false (n ++ '(' :: r) = n ++ '(' :: insertBefore w false r := by
  induction n with
  | nil => exact insertBefore_paren w false r
  | cons c n ih =>
      obtain ⟨hc, hn⟩ := List.forall_mem_cons.mp hword
      rw [List.cons_append, insertBefore_cons_false, opens_eq_false_of_word hc, ih hn,
        List.cons_append]

theorem insertBefore_declarator {n : Chars} (hne : n ≠ []) (hword : ∀ c ∈ n, word c = true)
    (r : Chars) :
    insertBefore w true (n ++ '(' :: r) = w ++ (n ++ '(' :: insertBefore w false r) := by
  cases n with
  | nil => exact absurd rfl hne
  | cons c n =>
      have hd : declares (c :: (n ++ '(' :: r)) = true :=
        declares_iff.mpr ⟨c :: n, r, ⟨hne, hword⟩, rfl⟩
      rw [List.cons_append, insertBefore_of_declares w hd, ← List.cons_append,
        insertBefore_run w hword]

end InsertBefore

/-! ## The first pass -/

theorem matches_declarator {t : Chars} {gs : List Chars} :
    declarator.Matches t gs ↔ ∃ type sep name,
      (∀ c ∈ type, (word c || c == ' ') = true) ∧
      (Gap sep ∨ sep = ['*']) ∧ (name ≠ [] ∧ ∀ c ∈ name, word c = true) ∧
      t = type ++ (sep ++ (name ++ ['('])) ∧ gs = [type, sep, name] := by
  constructor
  · rintro ⟨type, _, _, _, ⟨_, ⟨htype, rfl⟩, rfl⟩, ⟨sep, _, _, _, ⟨_, hsep, rfl⟩,
      ⟨name, _, _, _, ⟨_, hname, rfl⟩, ⟨rfl, rfl⟩, rfl, rfl⟩, rfl, rfl⟩, rfl, rfl⟩
    rw [matches_plus] at hname
    obtain ⟨hname, rfl⟩ := hname
    rcases hsep with hsep | ⟨rfl, rfl⟩
    · rw [matches_plus] at hsep
      obtain ⟨hsep, rfl⟩ := hsep
      exact ⟨type, sep, name, htype, Or.inl hsep, hname, rfl, rfl⟩
    · exact ⟨type, ['*'], name, htype, Or.inr rfl, hname, rfl, rfl⟩
  · rintro ⟨type, sep, name, htype, hsep, hname, rfl, rfl⟩
    have hsep' : (alt (plus blank) (text ['*'])).Matches sep [] :=
      hsep.imp (fun h => matches_plus.mpr ⟨h, rfl⟩) fun h => ⟨h, rfl⟩
    exact ⟨type, [type], _, [sep, name], ⟨[], ⟨htype, rfl⟩, rfl⟩,
      ⟨sep, [sep], _, [name], ⟨[], hsep', rfl⟩,
        ⟨name, [name], _, [], ⟨[], matches_plus.mpr ⟨hname, rfl⟩, rfl⟩, ⟨rfl, rfl⟩, rfl, rfl⟩,
        rfl, rfl⟩, rfl, rfl⟩

theorem solid_declarator : declarator.Solid := by
  intro gs h
  obtain ⟨type, sep, name, -, -, -, hnil, -⟩ := matches_declarator.mp h
  simp at hnil

/-- A match ends at the first parenthesis behind its start. -/
theorem longest_declarator {y r : Chars} {m : Parse} (hy : '(' ∉ y)
    (h : declarator.longest (y ++ '(' :: r) = some m) :
    ∃ v o n, y = v ++ o :: n ∧ opens o = true ∧ (n ≠ [] ∧ ∀ c ∈ n, word c = true) ∧
      marked m.groups = v ++ o :: (" __stdargs ".toList ++ (n ++ ['('])) ∧ m.rest = r := by
  obtain ⟨hm, hl⟩ := matches_of_longest h
  obtain ⟨type, sep, name, htype, hsep, hname, ht, hgs⟩ := matches_declarator.mp hm
  have hparen : '(' ∉ type ++ (sep ++ name) := by
    intro hmem
    rcases List.mem_append.mp hmem with hmem | hmem
    · exact absurd (htype _ hmem) (by decide)
    rcases List.mem_append.mp hmem with hmem | hmem
    · rcases hsep with hsep | rfl
      · exact absurd (hsep.2 _ hmem) (by decide)
      · exact absurd hmem (by decide)
    · exact absurd (hname.2 _ hmem) (by decide)
  have hsplit : (type ++ (sep ++ name)) ++ '(' :: m.rest = y ++ '(' :: r := by
    rw [← hl, ht]
    simp
  obtain ⟨hfront, hrest⟩ : type ++ (sep ++ name) = y ∧ m.rest = r := by
    rcases append_cons_cases hsplit with ⟨hfront, -, hrest⟩ | hmem | hmem
    · exact ⟨hfront, hrest⟩
    · exact absurd hmem hparen
    · exact absurd hmem hy
  obtain ⟨s, o, rfl, ho⟩ : ∃ s o, sep = s ++ [o] ∧ opens o = true := by
    rcases hsep with hsep | rfl
    · obtain ⟨s, o, rfl⟩ := List.eq_nil_or_concat sep |>.resolve_left hsep.1
      refine ⟨s, o, List.concat_eq_append, ?_⟩
      have hblank := hsep.2 o (by simp)
      simp [opens, hblank]
    · exact ⟨[], '*', rfl, rfl⟩
  refine ⟨type ++ s, o, name, ?_, ho, hname, ?_, hrest⟩
  · rw [← hfront]
    simp
  · rw [hgs, marked]
    simp

theorem exists_run (u : Chars) :
    (∀ c ∈ u, word c = true) ∨
      ∃ v o n, u = v ++ o :: n ∧ word o = false ∧ ∀ c ∈ n, word c = true := by
  induction u with
  | nil => exact Or.inl fun c hc => absurd hc List.not_mem_nil
  | cons c u ih =>
      rcases ih with hall | ⟨v, o, n, rfl, ho, hn⟩
      · cases hc : word c with
        | true => exact Or.inl (List.forall_mem_cons.mpr ⟨hc, hall⟩)
        | false => exact Or.inr ⟨[], c, u, rfl, hc, hall⟩
      · exact Or.inr ⟨c :: v, o, n, rfl, ho, hn⟩

/-- Where no match starts there is no declarator. -/
theorem insertBefore_of_quiet {u r : Chars} (hu : '(' ∉ u)
    (hquiet : declarator.Quiet u ('(' :: r)) (w : Chars) :
    insertBefore w false (u ++ '(' :: r) = u ++ '(' :: insertBefore w false r := by
  rcases exists_run u with hall | ⟨v, o, n, rfl, ho, hn⟩
  · exact insertBefore_run w hall r
  · have hv : '(' ∉ v := fun h => hu (List.mem_append_left _ h)
    have hparen : o ≠ '(' := fun h => hu (List.mem_append_right v (h ▸ List.mem_cons_self))
    have hbehind : insertBefore w (opens o) (n ++ '(' :: r) =
        n ++ '(' :: insertBefore w false r := by
      by_cases hne : n = []
      · subst hne
        exact insertBefore_paren w (opens o) r
      · cases hopens : opens o with
        | false => exact insertBefore_run w hn r
        | true =>
            have hsep : Gap [o] ∨ [o] = ['*'] := by
              simp only [opens, Bool.or_eq_true, beq_iff_eq] at hopens
              rcases hopens with hblank | rfl
              · exact Or.inl ⟨List.cons_ne_nil o [], by simpa using hblank⟩
              · exact Or.inr rfl
            have hmatch := matches_declarator.mpr
              ⟨[], [o], n, fun c hc => absurd hc List.not_mem_nil, hsep, ⟨hne, hn⟩, rfl, rfl⟩
            have hnone := hquiet v (o :: n) rfl (List.cons_ne_nil o n)
            exact absurd hmatch (longest_eq_none_iff.mp hnone _ _ r (by simp))
    rw [List.append_assoc, List.cons_append, insertBefore_append w hv ho hparen, hbehind,
      List.append_assoc, List.cons_append]

theorem mark_eq_self {l : Chars} (h : '(' ∉ l) : mark l = l := by
  have hquiet : declarator.Quiet l [] := by
    intro x y hxy _
    apply longest_eq_none_iff.mpr
    intro t gs r hr hm
    obtain ⟨type, sep, name, -, -, -, rfl, -⟩ := matches_declarator.mp hm
    apply h
    rw [hxy, ← List.append_nil y, ← hr]
    simp
  have hsubst := subst_of_quiet (f := marked) hquiet
  have hnil : subst declarator marked [] = [] := rfl
  rwa [List.append_nil, hnil, List.append_nil] at hsubst

theorem mark_paren (r : Chars) : mark ('(' :: r) = '(' :: mark r := by
  apply subst_cons_of_none
  cases hm : declarator.longest ('(' :: r) with
  | none => rfl
  | some m =>
      obtain ⟨v, o, k, hnil, -⟩ := longest_declarator (y := []) List.not_mem_nil hm
      exact absurd hnil.symm (by simp)

/-- From one parenthesis to the next. -/
theorem mark_append {u : Chars} (hu : '(' ∉ u) {r : Chars}
    (hr : mark r = insertBefore " __stdargs ".toList false r) :
    mark (u ++ '(' :: r) = insertBefore " __stdargs ".toList false (u ++ '(' :: r) := by
  rcases subst_append solid_declarator u ('(' :: r) (f := marked) with
    hquiet | ⟨x, y, m, rfl, hy, hm, hsubst⟩
  · rw [insertBefore_of_quiet hu hquiet, ← hr, ← mark_paren, mark, subst_of_quiet hquiet]
    rfl
  · have hparen : '(' ∉ y := fun h => hu (List.mem_append_right x h)
    obtain ⟨v, o, k, rfl, ho, ⟨hne, hword⟩, hmarked, hrest⟩ := longest_declarator hparen hm
    have hline : (x ++ (v ++ o :: k)) ++ '(' :: r = (x ++ v) ++ o :: (k ++ '(' :: r) := by simp
    have hxv : '(' ∉ x ++ v := by
      intro h
      apply hu
      rw [← List.append_assoc]
      exact List.mem_append_left _ h
    have hopen : o ≠ '(' := fun h => hparen (List.mem_append_right v (h ▸ List.mem_cons_self))
    rw [mark] at hr
    rw [mark, hsubst, hmarked, hrest, hr, hline,
      insertBefore_append _ hxv (word_eq_false_of_opens ho) hopen, ho,
      insertBefore_declarator _ hne hword]
    simp

/-- The first pass marks the declarators and nothing else. -/
theorem mark_eq_insertBefore (l : Chars) :
    mark l = insertBefore " __stdargs ".toList false l := by
  induction hn : l.length using Nat.strongRecOn generalizing l with
  | ind n ih =>
      by_cases hl : '(' ∈ l
      · obtain ⟨u, r, rfl, hu⟩ := List.eq_append_cons_of_mem hl
        have hlt : r.length < n := by
          rw [List.length_append, List.length_cons] at hn
          omega
        exact mark_append hu (ih _ hlt r rfl)
      · rw [insertBefore_eq_self _ hl, mark_eq_self hl]

/-! ## The second pass -/

/-- A line is marked nowhere, or there is a first place, whatever is put in. -/
theorem first_marked (l : Chars) (behind : Bool) :
    (∀ w, insertBefore w behind l = l) ∨
      ∃ x y, l = x ++ y ∧ (behind = false → x ≠ []) ∧
        ∀ w, insertBefore w behind l = x ++ (w ++ insertBefore w false y) := by
  induction l generalizing behind with
  | nil => exact Or.inl fun w => rfl
  | cons c l ih =>
      by_cases h : behind = true ∧ declares (c :: l) = true
      · obtain ⟨rfl, hd⟩ := h
        exact Or.inr ⟨[], c :: l, rfl, nofun, fun w => insertBefore_of_declares w hd⟩
      · have hcons : ∀ w, insertBefore w behind (c :: l) = c :: insertBefore w (opens c) l := by
          intro w
          rw [insertBefore, if_neg (by rwa [Bool.and_eq_true])]
        rcases ih (opens c) with hsame | ⟨x, y, rfl, -, hput⟩
        · exact Or.inl fun w => by rw [hcons, hsame]
        · refine Or.inr ⟨c :: x, y, rfl, fun _ => List.cons_ne_nil c x, fun w => ?_⟩
          rw [hcons, hput, List.cons_append]

theorem strip_append_blank (a b : Chars) : strip (a ++ ' ' :: b) = strip a ++ ' ' :: strip b :=
  subst_text_sep (by decide) (by decide) a b

theorem strip_blank (b : Chars) : strip (' ' :: b) = ' ' :: strip b := strip_append_blank [] b

theorem strip_stdargs (r : Chars) : strip ("__stdargs".toList ++ r) = strip r :=
  subst_text_append (by decide) r

theorem strip_eq_self {l : Chars} (h : ¬ "__stdargs".toList <:+: l) : strip l = l :=
  subst_text_eq_self h

/-- What is taken out is what was put in, but for two blanks. -/
theorem strip_insertBefore {l : Chars} (h : ¬ "__stdargs".toList <:+: l) :
    strip (insertBefore " __stdargs ".toList false l) = insertBefore "  ".toList false l := by
  induction hn : l.length using Nat.strongRecOn generalizing l with
  | ind n ih =>
      rcases first_marked l false with hsame | ⟨x, y, rfl, hx, hput⟩
      · rw [hsame, hsame, strip_eq_self h]
      · have hlt : y.length < n := by
          have hpos := List.length_pos_of_ne_nil (hx rfl)
          rw [List.length_append] at hn
          omega
        have hxs : ¬ "__stdargs".toList <:+: x := fun hi => h (hi.trans List.infix_append_left)
        have hys : ¬ "__stdargs".toList <:+: y := fun hi => h (hi.trans List.infix_append_right)
        have hword : ∀ r : Chars, " __stdargs ".toList ++ r =
            ' ' :: ("__stdargs".toList ++ ' ' :: r) := fun r => rfl
        rw [hput, hput, hword, strip_append_blank, strip_stdargs, strip_blank, strip_eq_self hxs,
          ih _ hlt hys rfl]
        rfl

theorem declares_insertBefore (w l : Chars) :
    declares (insertBefore w false l) = declares l := by
  have hrun : (insertBefore w false l).takeWhile word = l.takeWhile word ∧
      ((insertBefore w false l).dropWhile word).head? = (l.dropWhile word).head? := by
    induction l with
    | nil => exact ⟨rfl, rfl⟩
    | cons c l ih =>
        rw [insertBefore_cons_false]
        cases hc : word c with
        | false => simp [hc]
        | true => simp [hc, opens_eq_false_of_word hc, ih]
  rw [declares, declares, hrun.1, hrun.2]

theorem insertBefore_blanks (w : Chars) {gap : Chars} (h : ∀ c ∈ gap, blank c = true)
    (l : Chars) : insertBefore w true (gap ++ l) = gap ++ insertBefore w true l := by
  induction gap with
  | nil => rfl
  | cons c gap ih =>
      obtain ⟨hc, hgap⟩ := List.forall_mem_cons.mp h
      have hopens : opens c = true := by rw [opens, hc, Bool.true_or]
      have hd : declares (c :: (gap ++ l)) = false := by
        simp [declares, word_eq_false_of_opens hopens]
      rw [List.cons_append, insertBefore_cons_of_not w hd, hopens, ih hgap, List.cons_append]

/-- Behind blanks the same declarators are marked again. -/
theorem insertBefore_insertBefore {gap : Chars} (h : ∀ c ∈ gap, blank c = true) (w : Chars)
    (behind : Bool) (l : Chars) :
    insertBefore w behind (insertBefore gap behind l) = insertBefore (gap ++ w) behind l := by
  induction l generalizing behind with
  | nil => rfl
  | cons c l ih =>
      have hdeclares := declares_insertBefore gap (c :: l)
      rw [insertBefore_cons_false] at hdeclares
      cases hd : declares (c :: l) with
      | false =>
          rw [hd] at hdeclares
          rw [insertBefore_cons_of_not gap hd, insertBefore_cons_of_not w hdeclares,
            insertBefore_cons_of_not _ hd, ih]
      | true =>
          rw [hd] at hdeclares
          cases behind with
          | false =>
              rw [insertBefore_cons_false, insertBefore_cons_false, insertBefore_cons_false, ih]
          | true =>
              rw [insertBefore_of_declares gap hd, insertBefore_blanks w h,
                insertBefore_cons_false, insertBefore_of_declares w hdeclares,
                insertBefore_cons_false, ih, insertBefore_of_declares _ hd,
                insertBefore_cons_false, List.append_assoc]

theorem unblank_insertBefore {w w' : Chars} (h : unblank w = unblank w') (behind : Bool)
    (l : Chars) :
    unblank (insertBefore w behind l) = unblank (insertBefore w' behind l) := by
  rw [unblank, unblank] at h
  induction l generalizing behind with
  | nil => rfl
  | cons c l ih =>
      have htail := ih (opens c)
      rw [unblank, unblank] at htail ⊢
      rw [insertBefore, insertBefore]
      split
      · rw [List.filter_append, List.filter_append, List.filter_cons, List.filter_cons, h, htail]
      · rw [List.filter_cons, List.filter_cons, htail]

/-- On a line without `__stdargs`, the pass over the headers of the NDK puts
` __stdargs ` in front of each declarator and nowhere else. For the NDK 1.3 it is taken
out and put in again: the same declarators are marked, and only blanks are added. -/
theorem mark_declarators {l : Chars} (h : ¬ "__stdargs".toList <:+: l) :
    mark l = insertBefore " __stdargs ".toList false l ∧
      mark (strip (mark l)) = insertBefore "   __stdargs ".toList false l ∧
      unblank (mark (strip (mark l))) = unblank (mark l) := by
  have hagain : mark (strip (mark l)) = insertBefore "   __stdargs ".toList false l := by
    have hgap : ∀ c ∈ "  ".toList, blank c = true := forall_mem_of_all rfl
    rw [mark_eq_insertBefore l, strip_insertBefore h, mark_eq_insertBefore,
      insertBefore_insertBefore hgap]
    rfl
  refine ⟨mark_eq_insertBefore l, hagain, ?_⟩
  rw [hagain, mark_eq_insertBefore l]
  exact unblank_insertBefore (by decide) false l

/-- A pointer and an integer, with a function as an argument. -/
theorem mark_declarators_open :
    mark "APTR *Open( STRPTR Name(int) );".toList =
        insertBefore " __stdargs ".toList false "APTR *Open( STRPTR Name(int) );".toList ∧
      mark (strip (mark "APTR *Open( STRPTR Name(int) );".toList)) =
        insertBefore "   __stdargs ".toList false "APTR *Open( STRPTR Name(int) );".toList ∧
      unblank (mark (strip (mark "APTR *Open( STRPTR Name(int) );".toList))) =
        unblank (mark "APTR *Open( STRPTR Name(int) );".toList) := by
  apply mark_declarators
  repeat rw [toList_eq rfl]
  decide

end Header

end AmigaGcc
