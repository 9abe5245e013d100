import Mathlib.Algebra.BigOperators.Group.List.Basic
import Mathlib.Algebra.Ring.Nat
import AmigaGcc.Library.Text.Lexeme

/-!
# Splitting at blanks and joining

The shell splits an unquoted text into its pieces, at blanks and newlines, and joins
the elements of an array with single blanks. Joining undoes splitting for the texts
with single blanks between their pieces and nothing around them (`join_pieces`).
-/

namespace Library

namespace Text

/-- Where the shell splits. -/
def ifs (c : Char) : Bool := c = ' ' ∨ c = '\t' ∨ c = '\n'

def pieces (l : Chars) : List Chars := (l.splitOnP ifs).filter fun w => w ≠ []

def join (ws : List Chars) : Chars := [' '].intercalate ws

/-- What a text can be split into. -/
def Piece (w : Chars) : Prop := w ≠ [] ∧ ∀ c ∈ w, ifs c = false

instance (w : Chars) : Decidable (Piece w) :=
  decidable_of_iff (w ≠ [] ∧ w.all (fun c => !ifs c) = true) (by simp [Piece])

theorem piece_append_cons {a b : Chars} {c : Char} (ha : ∀ d ∈ a, ifs d = false)
    (hc : ifs c = false) (hb : ∀ d ∈ b, ifs d = false) : Piece (a ++ c :: b) :=
  ⟨List.append_ne_nil_of_right_ne_nil a (List.cons_ne_nil c b),
    List.forall_mem_append.mpr ⟨ha, List.forall_mem_cons.mpr ⟨hc, hb⟩⟩⟩

structure Spaced (l : Chars) : Prop where
  first : ∀ c ∈ l.head?, ifs c = false
  last : ∀ c ∈ l.getLast?, ifs c = false
  blanks : ∀ c ∈ l, ifs c = true → c = ' '
  single : ¬ [' ', ' '] <:+: l

/-! ## Splitting -/

theorem pieces_append_cons {c : Char} (hc : ifs c = true) (x y : Chars) :
    pieces (x ++ c :: y) = pieces x ++ pieces y := by
  rw [pieces, List.splitOnP_append_cons x y hc, List.filter_append]
  rfl

theorem pieces_nil : pieces [] = [] := rfl

theorem pieces_cons {c : Char} (hc : ifs c = true) (y : Chars) : pieces (c :: y) = pieces y :=
  pieces_append_cons hc [] y

theorem pieces_piece {w : Chars} (h : Piece w) : pieces w = [w] := by
  rw [pieces, List.splitOnP_eq_singleton h.2]
  simp [h.1]

theorem pieces_piece_append {w : Chars} (h : Piece w) (y : Chars) :
    pieces (w ++ ' ' :: y) = w :: pieces y := by
  rw [pieces_append_cons rfl, pieces_piece h, List.singleton_append]

theorem piece_of_mem_pieces {l w : Chars} (h : w ∈ pieces l) : Piece w := by
  obtain ⟨hw, hne⟩ := List.mem_filter.mp h
  refine ⟨by simpa using hne, fun c hc => ?_⟩
  exact (mem_of_mem_splitOnP hw hc).2

theorem mem_of_mem_pieces {l w : Chars} (h : w ∈ pieces l) {c : Char} (hc : c ∈ w) : c ∈ l :=
  (mem_of_mem_splitOnP (List.mem_of_mem_filter h) hc).1

theorem pieces_ne_nil {c : Char} (hc : ifs c = false) (l : Chars) : pieces (c :: l) ≠ [] := by
  rw [pieces, List.splitOnP_cons_eq_if_modifyHead, hc, if_neg Bool.false_ne_true]
  obtain ⟨u, us, hsplit⟩ := List.exists_cons_of_ne_nil (List.splitOnP_ne_nil ifs l)
  rw [hsplit, List.modifyHead_cons, List.filter_cons_of_pos (by simp)]
  exact List.cons_ne_nil _ _

/-! ## Joining -/

theorem join_cons {ws : List Chars} (h : ws ≠ []) (w : Chars) :
    join (w :: ws) = w ++ ' ' :: join ws := by
  cases ws with
  | nil => exact absurd rfl h
  | cons v ws => simp [join, List.intercalate]

theorem join_singleton (w : Chars) : join [w] = w := by simp [join, List.intercalate]

theorem mem_join {c : Char} (hc : c ≠ ' ') {ws : List Chars} (h : c ∈ join ws) :
    ∃ w ∈ ws, c ∈ w := by
  induction ws with
  | nil => exact absurd h List.not_mem_nil
  | cons w ws ih =>
      by_cases hne : ws = []
      · rw [hne, join_singleton] at h
        exact ⟨w, List.mem_cons_self, h⟩
      · rw [join_cons hne, List.mem_append, List.mem_cons] at h
        rcases h with hw | rfl | hws
        · exact ⟨w, List.mem_cons_self, hw⟩
        · exact absurd rfl hc
        · obtain ⟨v, hv, hcv⟩ := ih hws
          exact ⟨v, List.mem_cons_of_mem w hv, hcv⟩

theorem countP_join {p : Char → Bool} (hp : p ' ' = false) (ws : List Chars) :
    (join ws).countP p = (ws.map (List.countP p)).sum := by
  induction ws with
  | nil => rfl
  | cons w ws ih =>
      by_cases hne : ws = []
      · simp [hne, join_singleton]
      · rw [join_cons hne, List.countP_append, List.countP_cons_of_neg (by simp [hp]), ih,
          List.map_cons, List.sum_cons]

theorem count_join {ws : List Chars} (h : ∀ w ∈ ws, Piece w) :
    (join ws).count ' ' = ws.length - 1 := by
  induction ws with
  | nil => rfl
  | cons w ws ih =>
      obtain ⟨hw, hws⟩ := List.forall_mem_cons.mp h
      have hzero : w.count ' ' = 0 := by
        rw [List.count_eq_zero]
        intro hmem
        exact absurd (hw.2 ' ' hmem) (by decide)
      by_cases hne : ws = []
      · rw [hne, join_singleton, hzero]
        rfl
      · have hpos := List.length_pos_of_ne_nil hne
        rw [join_cons hne, List.count_append, hzero, List.count_cons_self, ih hws,
          List.length_cons]
        omega

theorem Piece.spaced {w : Chars} (h : Piece w) : Spaced w := by
  refine ⟨fun c hc => h.2 c (List.mem_of_head? hc), fun c hc => h.2 c (List.mem_of_getLast? hc),
    fun c hc hifs => ?_, fun hin => ?_⟩
  · rw [h.2 c hc] at hifs
    cases hifs
  · exact absurd (h.2 ' ' (hin.subset List.mem_cons_self)) (by decide)

theorem spaced_join {ws : List Chars} (hne : ws ≠ []) (h : ∀ w ∈ ws, Piece w) :
    Spaced (join ws) ∧ join ws ≠ [] := by
  induction ws with
  | nil => exact absurd rfl hne
  | cons w ws ih =>
      obtain ⟨hw, hws⟩ := List.forall_mem_cons.mp h
      by_cases hnil : ws = []
      · rw [hnil, join_singleton]
        exact ⟨hw.spaced, hw.1⟩
      · obtain ⟨htail, htail'⟩ := ih hnil hws
        obtain ⟨d, k, hk⟩ := List.exists_cons_of_ne_nil htail'
        have hd : ifs d = false := htail.first d (by rw [hk, List.head?_cons, Option.mem_some])
        rw [join_cons hnil]
        refine ⟨⟨fun c hc => ?_, fun c hc => ?_, fun c hc hifs => ?_, fun hin => ?_⟩, by simp⟩
        · rw [List.head?_append_of_ne_nil _ hw.1] at hc
          exact hw.2 c (List.mem_of_head? hc)
        · apply htail.last c
          rwa [List.getLast?_append_of_ne_nil _ (List.cons_ne_nil _ _),
            List.getLast?_cons_of_ne_nil htail'] at hc
        · rcases List.mem_append.mp hc with hmem | hmem
          · rw [hw.2 c hmem] at hifs
            cases hifs
          · rcases List.mem_cons.mp hmem with rfl | hmem
            · rfl
            · exact htail.blanks c hmem hifs
        · have hcut : ∀ x ∈ w.getLast?, ∀ y ∈ (' ' :: join ws).head?, ¬ [x, y] <:+: [' ', ' '] := by
            intro x hx y _ hxy
            obtain rfl : x = ' ' := by simpa using hxy.subset List.mem_cons_self
            exact absurd (hw.2 ' ' (List.mem_of_getLast? hx)) (by decide)
          rcases infix_append_cases hin hcut with hfront | hback
          · exact hw.spaced.single hfront
          · rcases List.infix_cons_iff.mp hback with hprefix | hinfix
            · rw [hk, List.cons_prefix_cons, List.cons_prefix_cons] at hprefix
              rw [← hprefix.2.1] at hd
              cases hd
            · exact htail.single hinfix

theorem join_pieces {l : Chars} (h : Spaced l) : join (pieces l) = l := by
  induction hn : l.length using Nat.strongRecOn generalizing l with
  | ind n ih =>
      by_cases hl : ' ' ∈ l
      · obtain ⟨u, k, rfl, hu⟩ := List.eq_append_cons_of_mem hl
        have hupiece : Piece u := by
          refine ⟨fun hnil => ?_, fun c hc => ?_⟩
          · have hfirst := h.first ' ' (by rw [hnil, List.nil_append, List.head?_cons]; rfl)
            cases hfirst
          · cases hifs : ifs c with
            | false => rfl
            | true => exact absurd (h.blanks c (List.mem_append_left _ hc) hifs ▸ hc) hu
        have hkne : k ≠ [] := by
          rintro rfl
          have hlast := h.last ' ' (by simp)
          cases hlast
        obtain ⟨d, k, rfl⟩ := List.exists_cons_of_ne_nil hkne
        have hd : ifs d = false := by
          cases hifs : ifs d with
          | false => rfl
          | true =>
              obtain rfl := h.blanks d (by simp) hifs
              exact absurd ⟨u, k, by simp⟩ h.single
        have hk : Spaced (d :: k) := by
          refine ⟨fun c hc => ?_, fun c hc => h.last c ?_, fun c hc => h.blanks c ?_, fun hin =>
            h.single ?_⟩
          · obtain rfl : d = c := Option.some.inj hc
            exact hd
          · rw [List.getLast?_append_of_ne_nil _ (List.cons_ne_nil _ _),
              List.getLast?_cons_of_ne_nil hkne]
            exact hc
          · exact List.mem_append_right u (List.mem_cons_of_mem ' ' hc)
          · exact hin.trans ⟨u ++ [' '], [], by simp⟩
        have hlt : (d :: k).length < n := by
          rw [List.length_append, List.length_cons] at hn
          omega
        rw [pieces_append_cons rfl, pieces_piece hupiece, List.singleton_append,
          join_cons (pieces_ne_nil hd k), ih _ hlt hk rfl]
      · have hifs : ∀ c ∈ l, ifs c = false := by
          intro c hc
          cases hifs : ifs c with
          | false => rfl
          | true => exact absurd (h.blanks c hc hifs ▸ hc) hl
        by_cases hnil : l = []
        · rw [hnil]
          rfl
        · rw [pieces_piece ⟨hnil, hifs⟩, join_singleton]

end Text

end Library
