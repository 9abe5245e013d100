import AmigaGcc.Library.Text.Fields

/-!
# What a line of C is made of

`lexemes` cuts a line into its runs of word characters and its other characters, and
leaves the blanks out: lines with the same lexemes are the same up to blanks.

The second part is about the places where a text occurs in a line. A text that ends
with a character it has nowhere else does not overlap itself (`occurrence_cases`).
-/

namespace Library

namespace Text

/-- `[a-zA-Z0-9_]` -/
def word (c : Char) : Bool := c.isAlphanum || c == '_'

theorem word_eq_false_of_blank {c : Char} (h : blank c = true) : word c = false := by
  simp only [blank, Bool.or_eq_true, beq_iff_eq] at h
  rcases h with rfl | rfl <;> rfl

def unblank (l : Chars) : Chars := l.filter fun c => !blank c

/-- The first lexeme goes on with one more character in front. -/
def glue (c : Char) : List Chars → List Chars
  | [] => [[c]]
  | w :: ws => (c :: w) :: ws

/-- The runs of word characters, and the other characters, without the blanks. -/
def lexemes : Chars → List Chars
  | [] => []
  | c :: l =>
      if blank c then lexemes l
      else if word c && l.head?.any word then glue c (lexemes l)
      else [c] :: lexemes l

/-! ## Lexemes -/

theorem unblank_append (u v : Chars) : unblank (u ++ v) = unblank u ++ unblank v :=
  List.filter_append u v

theorem lexemes_cons_blank {c : Char} (h : blank c = true) (l : Chars) :
    lexemes (c :: l) = lexemes l := by
  rw [lexemes, if_pos h]

theorem lexemes_gap_append {gap : Chars} (h : ∀ c ∈ gap, blank c = true) (l : Chars) :
    lexemes (gap ++ l) = lexemes l := by
  induction gap with
  | nil => rfl
  | cons c gap ih =>
      obtain ⟨hc, hgap⟩ := List.forall_mem_cons.mp h
      rw [List.cons_append, lexemes_cons_blank hc, ih hgap]

theorem lexemes_cons_word {c d : Char} (hc : word c = true) (hd : word d = true) (l : Chars) :
    lexemes (c :: d :: l) = glue c (lexemes (d :: l)) := by
  have hb : blank c = false := by
    cases hb : blank c with
    | false => rfl
    | true => rw [word_eq_false_of_blank hb] at hc; cases hc
  rw [lexemes, hb, if_neg Bool.false_ne_true, hc, List.head?_cons, Option.any_some, hd]
  rfl

theorem lexemes_cons_single {c : Char} (hb : blank c = false) {l : Chars}
    (h : word c = false ∨ ∀ d ∈ l.head?, word d = false) :
    lexemes (c :: l) = [c] :: lexemes l := by
  have hglue : (word c && l.head?.any word) = false := by
    rcases h with hc | hl
    · rw [hc, Bool.false_and]
    · cases hhead : l.head? with
      | none => exact Bool.and_false _
      | some d => rw [Option.any_some, hl d hhead, Bool.and_false]
  rw [lexemes, hb, hglue]
  rfl

/-- A character is a blank, goes on in a run, or is a lexeme or the end of one. -/
theorem lexemes_cases (c : Char) (l : Chars) :
    blank c = true ∨ (word c = true ∧ ∃ d k, l = d :: k ∧ word d = true) ∨
      (blank c = false ∧ (word c = false ∨ ∀ d ∈ l.head?, word d = false)) := by
  cases hb : blank c with
  | true => exact Or.inl rfl
  | false =>
      right
      cases hc : word c with
      | false => exact Or.inr ⟨rfl, Or.inl rfl⟩
      | true =>
          cases l with
          | nil => exact Or.inr ⟨rfl, Or.inr nofun⟩
          | cons d k =>
              cases hd : word d with
              | true => exact Or.inl ⟨rfl, d, k, rfl, hd⟩
              | false =>
                  refine Or.inr ⟨rfl, Or.inr fun e he => ?_⟩
                  obtain rfl : d = e := Option.some.inj he
                  exact hd

theorem lexemes_ne_nil {c : Char} (h : word c = true) (l : Chars) : lexemes (c :: l) ≠ [] := by
  rcases lexemes_cases c l with hb | ⟨hc, d, k, rfl, hd⟩ | ⟨hb, hl⟩
  · rw [word_eq_false_of_blank hb] at h
    cases h
  · rw [lexemes_cons_word hc hd]
    cases lexemes (d :: k) <;> exact List.cons_ne_nil _ _
  · rw [lexemes_cons_single hb hl]
    exact List.cons_ne_nil _ _

theorem flatten_glue (c : Char) (ws : List Chars) : (glue c ws).flatten = c :: ws.flatten := by
  cases ws <;> rfl

theorem glue_append (c : Char) {ws : List Chars} (h : ws ≠ []) (ws' : List Chars) :
    glue c (ws ++ ws') = glue c ws ++ ws' := by
  cases ws with
  | nil => exact absurd rfl h
  | cons w ws => rfl

theorem flatten_lexemes (l : Chars) : (lexemes l).flatten = unblank l := by
  induction l with
  | nil => rfl
  | cons c l ih =>
      rw [unblank] at ih
      rw [unblank, List.filter_cons]
      rcases lexemes_cases c l with hb | ⟨hc, d, k, rfl, hd⟩ | ⟨hb, hl⟩
      · rw [lexemes_cons_blank hb, ih, hb]
        rfl
      · have hb : blank c = false := by
          cases hb : blank c with
          | false => rfl
          | true => rw [word_eq_false_of_blank hb] at hc; cases hc
        rw [lexemes_cons_word hc hd, flatten_glue, ih, hb]
        rfl
      · rw [lexemes_cons_single hb hl, List.flatten_cons, ih, hb]
        rfl

/-- No run goes on from one text to the next. -/
def Boundary (u v : Chars) : Prop :=
  ∀ c ∈ u.getLast?, ∀ d ∈ v.head?, word c = false ∨ word d = false

theorem lexemes_append {u v : Chars} (h : Boundary u v) :
    lexemes (u ++ v) = lexemes u ++ lexemes v := by
  induction u with
  | nil => rfl
  | cons c u ih =>
      have htail : lexemes (u ++ v) = lexemes u ++ lexemes v := by
        cases u with
        | nil => rfl
        | cons d u => exact ih h
      rw [List.cons_append]
      rcases lexemes_cases c u with hb | ⟨hc, d, k, rfl, hd⟩ | ⟨hb, hl⟩
      · rw [lexemes_cons_blank hb, lexemes_cons_blank hb, htail]
      · rw [List.cons_append, lexemes_cons_word hc hd, lexemes_cons_word hc hd,
          ← List.cons_append, htail, glue_append c (lexemes_ne_nil hd k)]
      · have hl' : word c = false ∨ ∀ d ∈ (u ++ v).head?, word d = false := by
          cases u with
          | nil =>
              cases hc : word c with
              | false => exact Or.inl rfl
              | true =>
                  refine Or.inr fun d hd => (h c rfl d hd).resolve_left ?_
                  rw [hc]
                  decide
          | cons d u => exact hl
        rw [lexemes_cons_single hb hl, lexemes_cons_single hb hl', htail, List.cons_append]

/-! ## Occurrences -/

/-- A line split at two characters: at one place, or one of them is in front of the
other. -/
theorem append_cons_cases {a b c d : Chars} {x y : Char} (h : a ++ x :: b = c ++ y :: d) :
    (a = c ∧ x = y ∧ b = d) ∨ y ∈ a ∨ x ∈ c := by
  rcases List.append_eq_append_iff.mp h with ⟨k, rfl, hk⟩ | ⟨k, rfl, hk⟩
  · cases k with
    | nil => exact Or.inl ⟨(List.append_nil a).symm, List.cons.inj hk⟩
    | cons z k =>
        exact Or.inr (Or.inr (List.mem_append_right a ((List.cons.inj hk).1 ▸ List.mem_cons_self)))
  · cases k with
    | nil =>
        obtain ⟨hxy, hbd⟩ := List.cons.inj hk
        exact Or.inl ⟨List.append_nil c, hxy.symm, hbd.symm⟩
    | cons z k =>
        exact Or.inr (Or.inl (List.mem_append_right c ((List.cons.inj hk).1 ▸ List.mem_cons_self)))

/-- Two ways to cut off an end of which all characters have a property, and the one in
front of it has not. -/
theorem append_inj_of_getLast? {p : Char → Bool} {a b c d : Chars} (h : a ++ b = c ++ d)
    (hb : ∀ x ∈ b, p x = true) (hd : ∀ x ∈ d, p x = true)
    (ha : ∀ x ∈ a.getLast?, p x = false) (hc : ∀ x ∈ c.getLast?, p x = false) :
    a = c ∧ b = d := by
  have hend : ∀ {s t k : Chars}, s = t ++ k → (∀ x ∈ k, p x = true) →
      (∀ x ∈ s.getLast?, p x = false) → k = [] := by
    intro s t k hs hk hlast
    rcases List.eq_nil_or_concat k with rfl | ⟨k, x, rfl⟩
    · rfl
    · have hx := hk x (by simp)
      rw [hlast x (by simp [hs])] at hx
      cases hx
  rcases List.append_eq_append_iff.mp h with ⟨k, hck, hbk⟩ | ⟨k, hak, hdk⟩
  · obtain rfl := hend hck (fun x hx => hb x (hbk ▸ List.mem_append_left d hx)) hc
    exact ⟨(hck.trans (List.append_nil a)).symm, hbk⟩
  · obtain rfl := hend hak (fun x hx => hd x (hdk ▸ List.mem_append_left b hx)) ha
    exact ⟨hak.trans (List.append_nil c), hdk.symm⟩

/-- A text that occurs across a cut has the two characters at the cut in a row. -/
theorem infix_append_cases {t a b : Chars} (h : t <:+: a ++ b)
    (hcut : ∀ x ∈ a.getLast?, ∀ y ∈ b.head?, ¬ [x, y] <:+: t) : t <:+: a ∨ t <:+: b := by
  rcases List.infix_append_iff_ne_nil.mp h with ha | hb | ⟨s, s', hs, hs', rfl, hsa, hsb⟩
  · exact Or.inl ha
  · exact Or.inr hb
  · obtain ⟨s, x, rfl⟩ := (List.eq_nil_or_concat s).resolve_left hs
    obtain ⟨y, s', rfl⟩ := List.exists_cons_of_ne_nil hs'
    obtain ⟨a, rfl⟩ := hsa
    obtain ⟨b, rfl⟩ := hsb
    exact absurd ⟨s, s', by simp⟩ (hcut x (by simp) y (by simp))

theorem exists_last {t l : Chars} (ht : t ≠ []) (h : t <:+: l) :
    ∃ a b, l = a ++ (t ++ b) ∧ ¬ t <:+: b := by
  induction hn : l.length using Nat.strongRecOn generalizing l with
  | ind n ih =>
      obtain ⟨a, b, rfl⟩ := h
      by_cases hb : t <:+: b
      · have hlt : b.length < n := by
          have hpos := List.length_pos_of_ne_nil ht
          rw [List.length_append, List.length_append] at hn
          omega
        obtain ⟨a', b', rfl, hb'⟩ := ih _ hlt hb rfl
        exact ⟨a ++ (t ++ a'), b', by simp, hb'⟩
      · exact ⟨a, b, List.append_assoc a t b, hb⟩

/-- Two places where a text occurs that ends with a character it has nowhere else. -/
theorem occurrence_cases {t : Chars} {c : Char} (hc : c ∉ t) {u v a b : Chars}
    (h : u ++ (t ++ c :: v) = a ++ (t ++ c :: b)) :
    (u = a ∧ v = b) ∨ (∃ w, a = u ++ (t ++ c :: w) ∧ v = w ++ (t ++ c :: b)) ∨
      ∃ w, u = a ++ (t ++ c :: w) ∧ b = w ++ (t ++ c :: v) := by
  -- the longer of the two lines up to `c` ends with `t`, which has no `c`
  have hlater : ∀ {u a k b v : Chars}, u ++ t = a ++ (t ++ c :: k) → b = k ++ c :: v →
      ∃ w, u = a ++ (t ++ c :: w) ∧ b = w ++ (t ++ c :: v) := by
    intro u a k b v huk hb
    have hsuffix : t <:+ (a ++ t) ++ c :: k := ⟨u, by rw [huk, List.append_assoc]⟩
    obtain ⟨w, rfl⟩ : t <:+ k := by
      rcases List.suffix_or_suffix_of_suffix hsuffix (List.suffix_append (a ++ t) (c :: k)) with
        hck | hck
      · rcases List.suffix_cons_iff.mp hck with rfl | hk
        · exact absurd List.mem_cons_self hc
        · exact hk
      · exact absurd (hck.subset List.mem_cons_self) hc
    refine ⟨w, ?_, by rw [hb, List.append_assoc]⟩
    have hshift : u ++ t = (a ++ (t ++ c :: w)) ++ t := by simp [huk]
    exact List.append_cancel_right hshift
  rw [← List.append_assoc, ← List.append_assoc a] at h
  rcases List.append_eq_append_iff.mp h with ⟨k, hk, hb⟩ | ⟨k, hk, hb⟩
  · cases k with
    | nil =>
        obtain rfl : a = u := List.append_cancel_right (hk.trans (List.append_nil _))
        exact Or.inl ⟨rfl, (List.cons.inj hb).2⟩
    | cons d k =>
        obtain ⟨rfl, hv⟩ := List.cons.inj hb
        rw [List.append_assoc] at hk
        exact Or.inr (Or.inl (hlater hk hv))
  · cases k with
    | nil =>
        obtain rfl : u = a := List.append_cancel_right (hk.trans (List.append_nil _))
        exact Or.inl ⟨rfl, (List.cons.inj hb).2.symm⟩
    | cons d k =>
        obtain ⟨rfl, hv⟩ := List.cons.inj hb
        rw [List.append_assoc] at hk
        exact Or.inr (Or.inr (hlater hk hv))

end Text

end Library
