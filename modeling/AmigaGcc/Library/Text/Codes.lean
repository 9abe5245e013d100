import AmigaGcc.Library.Text.Grep

/-!
# Patterns and lines by their codes

`occurs` over the codes of the characters, for the comparison of many patterns
with many lines by evaluation. The kernel evaluates a text at each of its uses;
`forcingAll` evaluates all of them before they are compared. `occurs_of_forcing`
is all that is needed of it.
-/

namespace Library

namespace Text

variable {α β : Type*}

def codes (l : Chars) : List ℕ := l.map Char.toNat

def matchesCodes : List ℕ → List ℕ → Bool
  | [], _ => true
  | _ :: _, [] => false
  | c :: p, d :: l => (c.beq 46 || c.beq d) && matchesCodes p l

def occursCodes (p : List ℕ) : List ℕ → Bool
  | [] => matchesCodes p []
  | d :: l => matchesCodes p (d :: l) || occursCodes p l

theorem beq_toNat (c d : Char) : c.toNat.beq d.toNat = (c == d) := by
  rw [Bool.eq_iff_iff]
  simp [Char.toNat_inj]

theorem matchesCodes_codes (p l : Chars) :
    matchesCodes (codes p) (codes l) = matchesHere p l := by
  induction p generalizing l with
  | nil => rfl
  | cons c p ih =>
      cases l with
      | nil => rfl
      | cons d l =>
          have hdot : c.toNat.beq 46 = (c == '.') := beq_toNat c '.'
          have hrest : matchesCodes (List.map Char.toNat p) (List.map Char.toNat l) =
              matchesHere p l := ih l
          simp only [codes, List.map_cons, matchesCodes, matchesHere, hdot, beq_toNat, hrest]

theorem occursCodes_codes (p l : Chars) : occursCodes (codes p) (codes l) = occurs p l := by
  induction l with
  | nil => exact matchesCodes_codes p []
  | cons d l ih =>
      have hhere := matchesCodes_codes p (d :: l)
      simp only [codes, List.map_cons] at hhere ih
      simp only [codes, List.map_cons, occursCodes, occurs, hhere, ih]

/-- Go on with a number that is evaluated. -/
def forcing (n : ℕ) (k : ℕ → Bool) : Bool :=
  match n with
  | 0 => k 0
  | m + 1 => k (m + 1)

def forcingCodes : Chars → (List ℕ → Bool) → Bool
  | [], k => k []
  | c :: l, k => forcing c.toNat fun n => forcingCodes l fun l => k (n :: l)

def forcingAll : List (α × Chars) → (List (α × List ℕ) → Bool) → Bool
  | [], k => k []
  | (a, s) :: l, k => forcingCodes s fun s => forcingAll l fun l => k ((a, s) :: l)

theorem forcing_eq (n : ℕ) (k : ℕ → Bool) : forcing n k = k n := by
  cases n <;> rfl

theorem forcingCodes_eq (l : Chars) (k : List ℕ → Bool) : forcingCodes l k = k (codes l) := by
  induction l generalizing k with
  | nil => rfl
  | cons c l ih => rw [forcingCodes, forcing_eq, ih]; rfl

theorem forcingAll_eq (l : List (α × Chars)) (k : List (α × List ℕ) → Bool) :
    forcingAll l k = k (l.map fun x => (x.1, codes x.2)) := by
  induction l generalizing k with
  | nil => rfl
  | cons x l ih => rw [forcingAll, forcingCodes_eq, ih]; rfl

/-- Where the evaluation finds that a name occurs in the line of another one only if
`ok` says so, it does not occur in the others. -/
theorem occurs_of_forcing (names : List (α × Chars)) (front back : Chars) (ok : α → α → Bool)
    (h : (forcingAll names fun ns => forcingCodes front fun front => forcingCodes back fun back =>
      ns.all fun x => ns.all fun y => !occursCodes x.2 (front ++ (y.2 ++ back)) || ok x.1 y.1) =
        true)
    {x y : α × Chars} (hx : x ∈ names) (hy : y ∈ names)
    (hoccurs : occurs x.2 (front ++ (y.2 ++ back)) = true) : ok x.1 y.1 = true := by
  have hline : ∀ l : Chars,
      codes front ++ (codes l ++ codes back) = codes (front ++ (l ++ back)) := by
    simp [codes]
  rw [forcingAll_eq, forcingCodes_eq, forcingCodes_eq] at h
  simp only [List.all_map, List.all_eq_true, Function.comp, hline, occursCodes_codes] at h
  simpa [hoccurs] using h x hx y hy

end Text

end Library
