import AmigaGcc.Library.Text.Split
import AmigaGcc.Sdk.Shape

/-!
# What a directive keeps of its line

`a=(${line//:/ })` makes blanks of the colons of a line, splits it and expands the words
that match file names. `Url` puts one colon back, and `sed` joins the words with single
blanks and drops the quotes. `Address.Kept` and `Edit.Kept` say when this undoes what
the tokenizer did.

The files that match a word are a parameter, of which `Expands` says what the shell
documents. Other ways to get back the same text need files with a blank, a colon or a
pattern in their names (`Ordinary`).
-/

namespace AmigaGcc

namespace Sdk

open Library Library.Text Shell Shell.Prog

namespace Tokens

/-! ## Expansion -/

/-- The characters of patterns. -/
def special (c : Char) : Bool := c ∈ ['*', '?', '[', '\\']

/-- A word is replaced by names, and only if it is a pattern. -/
structure Expands (glob : Glob) : Prop where
  ne_nil : ∀ w, glob w ≠ []
  plain : ∀ w, (∀ c ∈ w.toList, special c = false) → glob w = [w]

/-- A file name without blanks, colons and characters of patterns. -/
structure PlainName (n : String) : Prop where
  piece : Piece n.toList
  colon : ':' ∉ n.toList
  special : ∀ c ∈ n.toList, special c = false

/-- The words match plain file names only. -/
def Ordinary (glob : Glob) : Prop := ∀ w, ∀ n ∈ glob w, n = w ∨ PlainName n

def names (glob : Glob) (w : Chars) : List String := glob (String.ofList w)

theorem names_plain {glob : Glob} (h : Expands glob) {w : Chars}
    (hw : ∀ c ∈ w, special c = false) : names glob w = [String.ofList w] := by
  apply h.plain
  rwa [String.toList_ofList]

/-- `${line//:/ }` -/
def blankColons (l : Chars) : Chars := l.map fun c => if c = ':' then ' ' else c

theorem words_ofList (l : Chars) : words (String.ofList l) = (pieces l).map String.ofList := by
  rw [words, String.toList_ofList]
  rfl

theorem tokens_ofList (glob : Glob) (l : Chars) :
    tokens glob (String.ofList l) =
      (pieces (blankColons l)).flatMap (names glob) := by
  have htokens : tokens glob (String.ofList l) = expand glob (String.ofList (blankColons l)) := by
    rw [tokens, String.toList_ofList]
    rfl
  rw [htokens, expand, words_ofList, List.flatMap_map]
  rfl

/-! ## What wget and sed are called with -/

/-- The operands of wget, one list for each call, when nothing is there yet. -/
def fetched (glob : Glob) (p : Prog Cmd Test) : List (List String) :=
  (commands (fun _ => true) p).filterMap fun c => match c with
    | .wget address _ => some (expand glob address)
    | _ => none

/-- The programs and the operands of sed. -/
def edited (glob : Glob) (p : Prog Cmd Test) : List (List String × List String) :=
  (commands (fun _ => true) p).filterMap fun c => match c with
    | .sed programs file => some (programs, expand glob file)
    | _ => none

section Directive

variable (name pre : String) (glob : Glob)

theorem fetched_url {a : List String} (h : a.getD 1 "" ≠ "git") :
    fetched glob (url name glob a) = [expand glob (a.getD 1 "" ++ ":" ++ a.getD 2 "")] := by
  unfold url
  dsimp only
  rw [if_neg h]
  rfl

theorem edited_sed (a : List String) :
    edited glob (sed pre a) =
      [([unquote (" ".intercalate (a.drop 2))], expand glob (pre ++ "/" ++ a.getD 1 ""))] := by
  rfl

theorem directive_sed {line : String} (h : (tokens glob line).getD 0 "" = "sed") :
    directive name pre glob line = sed pre (tokens glob line) := by
  unfold directive
  dsimp only
  rw [h]
  rfl

end Directive

/-! ## Words of a line -/

theorem colon_not_mem_blankColons (l : Chars) : ':' ∉ blankColons l := by
  intro h
  obtain ⟨c, -, hc⟩ := List.mem_map.mp h
  split at hc
  · cases hc
  · next hne => exact hne hc

theorem blankColons_eq_self {l : Chars} (h : ':' ∉ l) : blankColons l = l := by
  refine (List.map_congr_left fun c hc => ?_).trans (List.map_id l)
  exact if_neg fun hcolon : c = ':' => h (hcolon ▸ hc)

theorem blankColons_append (l k : Chars) :
    blankColons (l ++ k) = blankColons l ++ blankColons k := List.map_append

theorem blankColons_colon (l : Chars) : blankColons (':' :: l) = ' ' :: blankColons l := rfl

theorem blankColons_blank (l : Chars) : blankColons (' ' :: l) = ' ' :: blankColons l := rfl

/-- What is left in the array: no blanks and no colons. -/
structure Tame (n : String) : Prop where
  piece : Piece n.toList
  colon : ':' ∉ n.toList

theorem tame_of_mem {glob : Glob} (h : Ordinary glob) {l w : Chars}
    (hw : w ∈ pieces (blankColons l)) {n : String} (hn : n ∈ names glob w) : Tame n := by
  rcases h _ n hn with rfl | hplain
  · refine ⟨?_, fun hmem => ?_⟩
    · rw [String.toList_ofList]
      exact piece_of_mem_pieces hw
    · rw [String.toList_ofList] at hmem
      exact colon_not_mem_blankColons l (mem_of_mem_pieces hw hmem)
  · exact ⟨hplain.piece, hplain.colon⟩

theorem piece_of_tame {ms : List String} (h : ∀ m ∈ ms, Tame m) :
    ∀ w ∈ ms.map String.toList, Piece w := by
  intro w hw
  obtain ⟨m, hm, rfl⟩ := List.mem_map.mp hw
  exact (h m hm).piece

/-! ## `Url` -/

/-- An URL, which is not one of git. -/
structure Address where
  scheme : Chars
  rest : Chars
  scheme_word : scheme ≠ [] ∧
    ∀ c ∈ scheme, c.isAlphanum = true ∨ c = '+' ∨ c = '-' ∨ c = '.'
  not_git : scheme ≠ "git".toList
  rest_blank : ∀ c ∈ rest, ifs c = false

namespace Address

variable (u : Address)

def text : Chars := u.scheme ++ ':' :: u.rest

def line : String := String.ofList ("Url: ".toList ++ u.text)

/-- There is no second colon, and the words are not replaced by others. -/
structure Kept (glob : Glob) : Prop where
  colon : ':' ∉ u.rest
  first : u.rest ≠ [] → (names glob u.rest).head? = some (String.ofList u.rest)
  whole : names glob u.text = [String.ofList u.text]

theorem scheme_spec {c : Char} (hc : c ∈ u.scheme) :
    ifs c = false ∧ c ≠ ':' ∧ special c = false := by
  have hall : ∀ c : Char, c.isAlphanum = true ∨ c = '+' ∨ c = '-' ∨ c = '.' →
      c ≠ ' ' ∧ c ≠ '\t' ∧ c ≠ '\n' ∧ c ≠ ':' ∧ c ≠ '*' ∧ c ≠ '?' ∧ c ≠ '[' ∧ c ≠ '\\' := by
    intro c hc
    refine ⟨?_, ?_, ?_, ?_, ?_, ?_, ?_, ?_⟩ <;> rintro rfl <;> revert hc <;> decide
  have hne := hall c (u.scheme_word.2 c hc)
  simp [ifs, special, hne]

theorem scheme_piece : Piece u.scheme := ⟨u.scheme_word.1, fun _ hc => (u.scheme_spec hc).1⟩

theorem pieces_line : pieces (blankColons ("Url: ".toList ++ u.text)) =
    "Url".toList :: u.scheme :: pieces (blankColons u.rest) := by
  have hcolon : ':' ∉ u.scheme := fun hmem => (u.scheme_spec hmem).2.1 rfl
  have hkey : "Url: ".toList ++ u.text = "Url".toList ++ ':' :: ' ' :: u.text := rfl
  have hpiece : Piece "Url".toList := by decide
  have hkeep : blankColons "Url".toList = "Url".toList := blankColons_eq_self (by decide)
  generalize "Url".toList = key at hkey hpiece hkeep ⊢
  rw [hkey, text, blankColons_append, hkeep, blankColons_colon, blankColons_blank,
    blankColons_append, blankColons_eq_self hcolon, blankColons_colon,
    pieces_piece_append hpiece, pieces_cons rfl, pieces_piece_append u.scheme_piece]

theorem tokens_line {glob : Glob} (h : Expands glob) :
    tokens glob u.line = "Url" :: String.ofList u.scheme ::
      (pieces (blankColons u.rest)).flatMap (names glob) := by
  have hscheme : names glob u.scheme = [String.ofList u.scheme] :=
    names_plain h fun _ hc => (u.scheme_spec hc).2.2
  have hurl : names glob "Url".toList = ["Url"] := by
    rw [names, String.ofList_toList]
    exact h.plain "Url" (forall_mem_of_all rfl)
  have hline : u.line = String.ofList ("Url: ".toList ++ u.text) := rfl
  rw [hline, tokens_ofList, pieces_line, List.flatMap_cons, List.flatMap_cons, hurl, hscheme,
    List.singleton_append, List.singleton_append]

theorem text_piece : Piece u.text :=
  piece_append_cons (fun _ hc => (u.scheme_spec hc).1) rfl u.rest_blank

end Address

def path (glob : Glob) (u : Address) : String :=
  ((pieces (blankColons u.rest)).flatMap (names glob)).getD 0 ""

section Url

variable {glob : Glob} {u : Address}

theorem fetched_directive (h : Expands glob) (name pre : String) :
    fetched glob (directive name pre glob u.line) =
      [expand glob (String.ofList u.scheme ++ ":" ++ path glob u)] := by
  have hurl : IsUrl glob u.line := by rw [IsUrl, u.tokens_line h, List.getD_cons_zero]
  have hscheme : (tokens glob u.line).getD 1 "" = String.ofList u.scheme := by
    rw [u.tokens_line h, List.getD_cons_succ, List.getD_cons_zero]
  have hpath : (tokens glob u.line).getD 2 "" = path glob u := by
    rw [u.tokens_line h, List.getD_cons_succ, List.getD_cons_succ, path]
  have hgit : (tokens glob u.line).getD 1 "" ≠ "git" := by
    rw [hscheme]
    intro he
    exact u.not_git (by rw [← he, String.toList_ofList])
  rw [directive_url name pre glob hurl, fetched_url name glob hgit, hscheme, hpath]

theorem expand_piece {l : Chars} (h : Piece l) : expand glob (String.ofList l) = names glob l := by
  rw [expand, words_ofList, pieces_piece h, List.map_singleton, List.flatMap_singleton, names]

theorem ofList_address (s p : Chars) :
    String.ofList s ++ ":" ++ String.ofList p = String.ofList (s ++ ':' :: p) := by
  have hline : s ++ ':' :: p = s ++ [':'] ++ p := by simp
  rw [hline, String.ofList_append, String.ofList_append]

theorem fetched_of_kept (h : Expands glob) (hkept : u.Kept glob) (name pre : String) :
    fetched glob (directive name pre glob u.line) = [[String.ofList u.text]] := by
  have hpath : path glob u = String.ofList u.rest := by
    rw [path, blankColons_eq_self hkept.colon]
    by_cases hrest : u.rest = []
    · rw [hrest, pieces_nil]
      rfl
    · have hfirst := hkept.first hrest
      obtain ⟨ns, hns⟩ := List.head?_eq_some_iff.mp hfirst
      rw [pieces_piece ⟨hrest, u.rest_blank⟩, List.flatMap_singleton, hns, List.getD_cons_zero]
  rw [fetched_directive h, hpath, ofList_address, ← Address.text, expand_piece u.text_piece,
    hkept.whole]

theorem path_tame (h : Ordinary glob) (hpath : path glob u ≠ "") : Tame (path glob u) := by
  obtain ⟨w, hw, hn⟩ : ∃ w ∈ pieces (blankColons u.rest), path glob u ∈ names glob w := by
    rw [path] at hpath ⊢
    cases hns : (pieces (blankColons u.rest)).flatMap (names glob) with
    | nil =>
        rw [hns] at hpath
        exact absurd rfl hpath
    | cons n ns =>
        have hmem : n ∈ (pieces (blankColons u.rest)).flatMap (names glob) :=
          hns ▸ List.mem_cons_self
        exact List.mem_flatMap.mp hmem
  exact tame_of_mem h hw hn

theorem kept_of_fetched (h : Expands glob) (hordinary : Ordinary glob) {name pre : String}
    (hfetched : fetched glob (directive name pre glob u.line) = [[String.ofList u.text]]) :
    u.Kept glob := by
  rw [fetched_directive h, List.singleton_inj] at hfetched
  have hfree : (∀ c ∈ (path glob u).toList, ifs c = false) ∧ ':' ∉ (path glob u).toList := by
    by_cases hpath : path glob u = ""
    · rw [hpath]
      exact ⟨nofun, nofun⟩
    · exact ⟨(path_tame hordinary hpath).piece.2, (path_tame hordinary hpath).colon⟩
  have hpiece : Piece (u.scheme ++ ':' :: (path glob u).toList) :=
    piece_append_cons (fun _ hc => (u.scheme_spec hc).1) rfl hfree.1
  rw [← String.ofList_toList (s := path glob u), ofList_address, expand_piece hpiece] at hfetched
  have hsame : u.text = u.scheme ++ ':' :: (path glob u).toList := by
    have hmem : String.ofList u.text ∈ names glob (u.scheme ++ ':' :: (path glob u).toList) :=
      hfetched ▸ List.mem_cons_self
    rcases hordinary _ _ hmem with he | hplain
    · exact String.ofList_injective he
    · have hcolon := hplain.colon
      rw [String.toList_ofList, Address.text] at hcolon
      simp at hcolon
  have hrest : u.rest = (path glob u).toList := (List.cons.inj (List.append_cancel_left hsame)).2
  have hcolon : ':' ∉ u.rest := hrest ▸ hfree.2
  refine ⟨hcolon, fun hne => ?_, ?_⟩
  · have hpath := congrArg String.ofList hrest
    rw [String.ofList_toList, path, blankColons_eq_self hcolon,
      pieces_piece ⟨hne, u.rest_blank⟩, List.flatMap_singleton] at hpath
    obtain ⟨n, ns, hns⟩ := List.exists_cons_of_ne_nil (h.ne_nil (String.ofList u.rest))
    rw [names] at hpath ⊢
    rw [hns, List.getD_cons_zero] at hpath
    rw [hns, hpath, List.head?_cons]
  · rw [← hsame] at hfetched
    exact hfetched

end Url

/-! ## `sed` -/

/-- A file and a program for it. -/
structure Edit where
  file : Chars
  program : Chars
  file_word : Piece file
  program_line : '\n' ∉ program

namespace Edit

variable (e : Edit)

def quoted : Chars := '"' :: (e.program ++ ['"'])

def line : String := String.ofList ("sed : ".toList ++ (e.file ++ ' ' :: e.quoted))

def path (pre : String) : Chars := pre.toList ++ '/' :: e.file

/-- No colons, single blanks, and no word is replaced by another. -/
structure Kept (glob : Glob) (pre : String) : Prop where
  word : Piece (e.path pre)
  file_colon : ':' ∉ e.file
  file_alone : names glob e.file = [String.ofList e.file]
  path_alone : names glob (e.path pre) = [String.ofList (e.path pre)]
  program_colon : ':' ∉ e.program
  program_tab : '\t' ∉ e.program
  program_single : ¬ [' ', ' '] <:+: e.program
  program_alone : ∀ w ∈ pieces e.quoted, names glob w = [String.ofList w]

theorem pieces_line : pieces (blankColons ("sed : ".toList ++ (e.file ++ ' ' :: e.quoted))) =
    "sed".toList :: (pieces (blankColons e.file) ++ pieces (blankColons e.quoted)) := by
  have hkey : "sed : ".toList ++ (e.file ++ ' ' :: e.quoted) =
      "sed".toList ++ ' ' :: ':' :: ' ' :: (e.file ++ ' ' :: e.quoted) := rfl
  have hpiece : Piece "sed".toList := by decide
  have hkeep : blankColons "sed".toList = "sed".toList := blankColons_eq_self (by decide)
  generalize "sed".toList = key at hkey hpiece hkeep ⊢
  rw [hkey, blankColons_append, hkeep, blankColons_blank, blankColons_colon, blankColons_blank,
    blankColons_append, blankColons_blank, pieces_piece_append hpiece, pieces_cons rfl,
    pieces_cons rfl, pieces_append_cons rfl]

theorem tokens_line {glob : Glob} (h : Expands glob) :
    tokens glob e.line = "sed" :: ((pieces (blankColons e.file)).flatMap (names glob) ++
      (pieces (blankColons e.quoted)).flatMap (names glob)) := by
  have hsed : names glob "sed".toList = ["sed"] := by
    rw [names, String.ofList_toList]
    exact h.plain "sed" (forall_mem_of_all rfl)
  have hline : e.line = String.ofList ("sed : ".toList ++ (e.file ++ ' ' :: e.quoted)) := rfl
  rw [hline, tokens_ofList, pieces_line, List.flatMap_cons, hsed, List.flatMap_append,
    List.singleton_append]

theorem spaced_quoted (htab : '\t' ∉ e.program) (hsingle : ¬ [' ', ' '] <:+: e.program) :
    Spaced e.quoted := by
  refine ⟨fun c hc => ?_, fun c hc => ?_, fun c hc hifs => ?_, fun hin => ?_⟩
  · obtain rfl : '"' = c := Option.some.inj hc
    rfl
  · have hline : e.quoted = ('"' :: e.program) ++ ['"'] := rfl
    rw [hline, List.getLast?_concat] at hc
    obtain rfl : '"' = c := Option.some.inj hc
    rfl
  · have hmem : c = '"' ∨ c ∈ e.program := by simpa [quoted, or_comm, or_assoc] using hc
    rcases hmem with rfl | hmem
    · cases hifs
    · simp only [ifs, decide_eq_true_iff] at hifs
      rcases hifs with rfl | rfl | rfl
      · rfl
      · exact absurd hmem htab
      · exact absurd hmem e.program_line
  · have hcut : ∀ a b : Chars, (a.getLast? = some '"' ∨ b.head? = some '"') →
        [' ', ' '] <:+: a ++ b → [' ', ' '] <:+: a ∨ [' ', ' '] <:+: b := by
      intro a b hab h
      apply infix_append_cases h
      intro x hx y hy hxy
      have hx' : x = ' ' := by simpa using hxy.subset List.mem_cons_self
      have hy' : y = ' ' := by simpa using hxy.subset (List.mem_cons_of_mem x List.mem_cons_self)
      rcases hab with ha | hb
      · rw [ha, hx'] at hx
        exact absurd (Option.some.inj hx) (by decide)
      · rw [hb, hy'] at hy
        exact absurd (Option.some.inj hy) (by decide)
    have hsplit : e.quoted = ['"'] ++ (e.program ++ ['"']) := rfl
    rw [hsplit] at hin
    rcases hcut _ _ (Or.inl rfl) hin with hfirst | hrest
    · exact absurd hfirst.length_le (by decide)
    · rcases hcut _ _ (Or.inr rfl) hrest with hprogram | hlast
      · exact hsingle hprogram
      · exact absurd hlast.length_le (by decide)

end Edit


/-! ### Quotes -/

def unquoted (l : Chars) : Chars :=
  let k := if l.head? = some '"' then l.tail else l
  if k.getLast? = some '"' then k.dropLast else k

theorem toList_unquote (s : String) : (unquote s).toList = unquoted s.toList := by
  rw [unquote, String.toList_ofList]
  rfl

theorem unquoted_quoted (p : Chars) : unquoted ('"' :: (p ++ ['"'])) = p := by
  have hlast : (p ++ ['"']).getLast? = some '"' := List.getLast?_concat
  simp only [unquoted, List.head?_cons, if_true, List.tail_cons, hlast, List.dropLast_concat]

theorem unquoted_cases (l : Chars) :
    ∃ a b, l = a ++ (unquoted l ++ b) ∧ (a = [] ∨ a = ['"']) ∧ (b = [] ∨ b = ['"']) := by
  have hlast : ∀ k : Chars, ∃ b, k = (if k.getLast? = some '"' then k.dropLast else k) ++ b ∧
      (b = [] ∨ b = ['"']) := by
    intro k
    split
    · next hk =>
        exact ⟨['"'], (List.dropLast_append_getLast? '"' hk).symm, Or.inr rfl⟩
    · exact ⟨[], (List.append_nil k).symm, Or.inl rfl⟩
  rw [unquoted]
  by_cases hl : l.head? = some '"'
  · obtain ⟨k, rfl⟩ := List.head?_eq_some_iff.mp hl
    obtain ⟨b, hb, hb'⟩ := hlast k
    refine ⟨['"'], b, ?_, Or.inr rfl, hb'⟩
    rw [if_pos hl, List.tail_cons, ← hb]
    rfl
  · obtain ⟨b, hb, hb'⟩ := hlast l
    refine ⟨[], b, ?_, Or.inl rfl, hb'⟩
    rw [if_neg hl, ← hb]
    rfl

theorem unquoted_infix (l : Chars) : unquoted l <:+: l := by
  obtain ⟨a, b, hl, -⟩ := unquoted_cases l
  exact ⟨a, b, by rw [List.append_assoc, ← hl]⟩

theorem countP_unquoted {p : Char → Bool} (hp : p '"' = false) (l : Chars) :
    (unquoted l).countP p = l.countP p := by
  obtain ⟨a, b, hl, ha, hb⟩ := unquoted_cases l
  have hzero : ∀ t : Chars, t = [] ∨ t = ['"'] → t.countP p = 0 := by
    rintro t (rfl | rfl) <;> simp [hp]
  have hcount := congrArg (List.countP p) hl
  rw [List.countP_append, List.countP_append, hzero a ha, hzero b hb] at hcount
  omega

/-! ### The round trip -/

section Sed

variable {glob : Glob} {pre : String} {e : Edit}

def Edit.rest (glob : Glob) (e : Edit) : List String :=
  (pieces (blankColons e.file)).flatMap (names glob) ++
    (pieces (blankColons e.quoted)).flatMap (names glob)

theorem edited_directive (h : Expands glob) (name : String) :
    edited glob (directive name pre glob e.line) =
      [([unquote (" ".intercalate (e.rest glob).tail)],
        expand glob (pre ++ "/" ++ (e.rest glob).getD 0 ""))] := by
  have hsed : (tokens glob e.line).getD 0 "" = "sed" := by
    rw [e.tokens_line h, List.getD_cons_zero]
  have hfile : (tokens glob e.line).getD 1 "" = (e.rest glob).getD 0 "" := by
    rw [e.tokens_line h, List.getD_cons_succ, Edit.rest]
  have hprogram : (tokens glob e.line).drop 2 = (e.rest glob).tail := by
    rw [e.tokens_line h, List.drop_succ_cons, List.drop_one, Edit.rest]
  rw [directive_sed name pre glob hsed, edited_sed, hfile, hprogram]

theorem toList_unquote_intercalate (ws : List String) :
    (unquote (" ".intercalate ws)).toList = unquoted (join (ws.map String.toList)) := by
  rw [toList_unquote, String.toList_intercalate]
  rfl

theorem flatMap_names {ws : List Chars} (h : ∀ w ∈ ws, names glob w = [String.ofList w]) :
    ws.flatMap (names glob) = ws.map String.ofList := by
  induction ws with
  | nil => rfl
  | cons w ws ih =>
      obtain ⟨hw, hws⟩ := List.forall_mem_cons.mp h
      rw [List.flatMap_cons, hw, ih hws, List.map_cons, List.singleton_append]

theorem Edit.path_eq (e : Edit) (pre : String) :
    pre ++ "/" ++ String.ofList e.file = String.ofList (e.path pre) := by
  have hpath : e.path pre = pre.toList ++ ['/'] ++ e.file := by simp [Edit.path]
  rw [hpath, String.ofList_append, String.ofList_append, String.ofList_toList]

theorem edited_of_kept (h : Expands glob) (hkept : e.Kept glob pre) (name : String) :
    edited glob (directive name pre glob e.line) =
      [([String.ofList e.program], [String.ofList (e.path pre)])] := by
  have hcolon : ':' ∉ e.quoted := by
    intro hmem
    have hmem' : ':' ∈ e.program := by simpa [Edit.quoted] using hmem
    exact hkept.program_colon hmem'
  have hrest : e.rest glob = String.ofList e.file :: (pieces e.quoted).map String.ofList := by
    rw [Edit.rest, blankColons_eq_self hkept.file_colon, blankColons_eq_self hcolon,
      pieces_piece e.file_word, List.flatMap_singleton, hkept.file_alone,
      flatMap_names hkept.program_alone, List.singleton_append]
  have hprogram : unquote (" ".intercalate ((pieces e.quoted).map String.ofList)) =
      String.ofList e.program := by
    have hid : ((pieces e.quoted).map String.ofList).map String.toList = pieces e.quoted := by
      rw [List.map_map]
      exact (List.map_congr_left fun w _ => String.toList_ofList).trans (List.map_id _)
    have hspaced := e.spaced_quoted hkept.program_tab hkept.program_single
    rw [← String.ofList_toList (s := unquote _), toList_unquote_intercalate, hid,
      join_pieces hspaced, Edit.quoted, unquoted_quoted]
  rw [edited_directive h, hrest, List.tail_cons, List.getD_cons_zero, hprogram, e.path_eq,
    expand_piece hkept.word, hkept.path_alone]

theorem exists_first (h : Expands glob) (hordinary : Ordinary glob) (e : Edit) :
    ∃ w, (e.rest glob).getD 0 "" ∈ names glob w ∧ Tame ((e.rest glob).getD 0 "") ∧
      (':' ∉ e.file → w = e.file) := by
  have hquoted : pieces (blankColons e.quoted) ≠ [] := pieces_ne_nil (c := '"') rfl _
  have hrest : e.rest glob = (pieces (blankColons e.file) ++ pieces (blankColons e.quoted)).flatMap
      (names glob) := List.flatMap_append.symm
  obtain ⟨w, ws, hws⟩ := List.exists_cons_of_ne_nil
    (List.append_ne_nil_of_right_ne_nil (pieces (blankColons e.file)) hquoted)
  obtain ⟨n, ns, hns⟩ := List.exists_cons_of_ne_nil (h.ne_nil (String.ofList w))
  have hfirst : (e.rest glob).getD 0 "" = n := by
    rw [hrest, hws, List.flatMap_cons, names, hns, List.cons_append, List.getD_cons_zero]
  have hmem : n ∈ names glob w := by
    rw [names, hns]
    exact List.mem_cons_self
  refine ⟨w, hfirst ▸ hmem, hfirst ▸ ?_, fun hcolon => ?_⟩
  · have hw : w ∈ pieces (blankColons e.file) ++ pieces (blankColons e.quoted) :=
      hws ▸ List.mem_cons_self
    rcases List.mem_append.mp hw with hw | hw
    · exact tame_of_mem hordinary hw hmem
    · exact tame_of_mem hordinary hw hmem
  · rw [blankColons_eq_self hcolon, pieces_piece e.file_word, List.singleton_append] at hws
    exact (List.cons.inj hws).1.symm

theorem piece_of_mem_expand (hordinary : Ordinary glob) {s : String} {l : Chars}
    (h : String.ofList l ∈ expand glob s) : Piece l := by
  obtain ⟨v, hv, hname⟩ := List.mem_flatMap.mp h
  obtain ⟨w, hw, rfl⟩ := List.mem_map.mp hv
  rcases hordinary _ _ hname with he | hplain
  · rw [String.ofList_injective he]
    exact piece_of_mem_pieces hw
  · have hpiece := hplain.piece
    rwa [String.toList_ofList] at hpiece

/-- The file is the one of the line only if its words are left alone. -/
theorem file_of_edited (h : Expands glob) (hordinary : Ordinary glob)
    (hfile : expand glob (pre ++ "/" ++ (e.rest glob).getD 0 "") = [String.ofList (e.path pre)]) :
    Piece (e.path pre) ∧ names glob (e.path pre) = [String.ofList (e.path pre)] ∧ ':' ∉ e.file ∧
      (e.rest glob).getD 0 "" = String.ofList e.file := by
  obtain ⟨w, hw, htame, hfirst⟩ := exists_first h hordinary e
  generalize (e.rest glob).getD 0 "" = n at hfile hw htame ⊢
  have hpiece : Piece (e.path pre) :=
    piece_of_mem_expand hordinary (hfile ▸ List.mem_cons_self)
  have hline : pre ++ "/" ++ n = String.ofList (pre.toList ++ '/' :: n.toList) := by
    have happend : pre.toList ++ '/' :: n.toList = pre.toList ++ ['/'] ++ n.toList := by simp
    rw [happend, String.ofList_append, String.ofList_append, String.ofList_toList,
      String.ofList_toList]
  have hpiece' : Piece (pre.toList ++ '/' :: n.toList) :=
    piece_append_cons (fun c hc => hpiece.2 c (List.mem_append_left _ hc)) rfl htame.piece.2
  rw [hline, expand_piece hpiece'] at hfile
  have hsame : n.toList = e.file := by
    have hmem : String.ofList (e.path pre) ∈ names glob (pre.toList ++ '/' :: n.toList) :=
      hfile ▸ List.mem_cons_self
    rcases hordinary _ _ hmem with he | hplain
    · have hpath := String.ofList_injective he
      exact (List.cons.inj (List.append_cancel_left hpath)).2.symm
    · have hspecial := hplain.special
      have hcolon := hplain.colon
      rw [String.toList_ofList] at hspecial hcolon
      rcases hordinary _ _ hw with rfl | hn
      · rw [String.toList_ofList]
        exact hfirst fun hmem => hcolon (List.mem_append_right _ (List.mem_cons_of_mem _ hmem))
      · have hnone : ∀ c ∈ pre.toList ++ '/' :: n.toList, special c = false :=
          List.forall_mem_append.mpr ⟨fun c hc => hspecial c (List.mem_append_left _ hc),
            List.forall_mem_cons.mpr ⟨rfl, hn.special⟩⟩
        rw [names_plain h hnone, List.singleton_inj] at hfile
        have hpath := String.ofList_injective hfile
        exact (List.cons.inj (List.append_cancel_left hpath)).2
  refine ⟨hpiece, ?_, hsame ▸ htame.colon, ?_⟩
  · rw [hsame] at hfile
    exact hfile
  · rw [← hsame, String.ofList_toList]

theorem length_le_flatMap (h : Expands glob) (ws : List Chars) :
    ws.length ≤ (ws.flatMap (names glob)).length := by
  induction ws with
  | nil => exact Nat.le_refl 0
  | cons w ws ih =>
      have hpos := List.length_pos_of_ne_nil (h.ne_nil (String.ofList w))
      rw [List.flatMap_cons, List.length_append, List.length_cons, names]
      omega

/-- Replacing words one by one by names loses characters of patterns, unless nothing is
replaced. -/
theorem special_flatMap (h : Expands glob) (hordinary : Ordinary glob) {ws : List Chars}
    (hlength : (ws.flatMap (names glob)).length ≤ ws.length) :
    ((ws.flatMap (names glob)).map fun n => n.toList.countP special).sum ≤
        (ws.map (List.countP special)).sum ∧
      ((ws.map (List.countP special)).sum ≤
          ((ws.flatMap (names glob)).map fun n => n.toList.countP special).sum →
        ∀ w ∈ ws, names glob w = [String.ofList w]) := by
  induction ws with
  | nil => exact ⟨Nat.le_refl 0, fun _ w hw => absurd hw List.not_mem_nil⟩
  | cons w ws ih =>
      obtain ⟨n, ns, hns⟩ := List.exists_cons_of_ne_nil (h.ne_nil (String.ofList w))
      have hns' : names glob w = n :: ns := hns
      have hge := length_le_flatMap h ws
      rw [List.flatMap_cons, List.length_append, hns', List.length_cons, List.length_cons]
        at hlength
      obtain rfl : ns = [] := List.eq_nil_of_length_eq_zero (by omega)
      obtain ⟨hle, halone⟩ := ih (by rw [List.length_nil] at hlength; omega)
      have hword : n.toList.countP special ≤ w.countP special ∧
          (w.countP special ≤ n.toList.countP special → n = String.ofList w) := by
        rcases hordinary _ n (hns ▸ List.mem_cons_self) with rfl | hplain
        · rw [String.toList_ofList]
          exact ⟨Nat.le_refl _, fun _ => rfl⟩
        · have hzero : n.toList.countP special = 0 := by
            rw [List.countP_eq_zero]
            intro c hc
            simp [hplain.special c hc]
          refine ⟨hzero ▸ Nat.zero_le _, fun hw => ?_⟩
          rw [hzero, Nat.le_zero, List.countP_eq_zero] at hw
          have hsame := names_plain h fun c hc => Bool.eq_false_iff.mpr (hw c hc)
          rw [hns', List.singleton_inj] at hsame
          exact hsame
      rw [List.flatMap_cons, hns', List.singleton_append, List.map_cons, List.sum_cons,
        List.map_cons, List.sum_cons]
      refine ⟨by omega, fun hsum => List.forall_mem_cons.mpr ⟨?_, halone (by omega)⟩⟩
      rw [hns', hword.2 (by omega)]

/-- What is left in the array, joined, has no colon, no tab and no two blanks in a row. -/
theorem unquoted_join_spec {ms : List String} (hne : ms ≠ []) (h : ∀ m ∈ ms, Tame m) :
    ':' ∉ unquoted (join (ms.map String.toList)) ∧
      '\t' ∉ unquoted (join (ms.map String.toList)) ∧
      ¬ [' ', ' '] <:+: unquoted (join (ms.map String.toList)) := by
  have hspaced := (spaced_join (mt List.map_eq_nil_iff.mp hne) (piece_of_tame h)).1
  have hsub := unquoted_infix (join (ms.map String.toList))
  refine ⟨fun hmem => ?_, fun hmem => ?_, fun hin => hspaced.single (hin.trans hsub)⟩
  · obtain ⟨w, hw, hcw⟩ := mem_join (by decide) (hsub.subset hmem)
    obtain ⟨m, hm, rfl⟩ := List.mem_map.mp hw
    exact (h m hm).colon hcw
  · exact absurd (hspaced.blanks '\t' (hsub.subset hmem) rfl) (by decide)

/-- Words that give the same text but for quotes are as many, and have as many characters
of patterns. -/
theorem counts_of_join {us ws : List Chars} (hu : ∀ w ∈ us, Piece w) (hw : ∀ w ∈ ws, Piece w)
    (h : unquoted (join us) = unquoted (join ws)) :
    us.length - 1 = ws.length - 1 ∧
      (us.map (List.countP special)).sum = (ws.map (List.countP special)).sum := by
  have hcounts : ∀ p : Char → Bool, p '"' = false →
      (join us).countP p = (join ws).countP p := by
    intro p hp
    rw [← countP_unquoted hp, h, countP_unquoted hp]
  have hblanks := hcounts (· == ' ') rfl
  have hspecial := hcounts special rfl
  rw [← List.count_eq_countP, ← List.count_eq_countP, count_join hu, count_join hw] at hblanks
  rw [countP_join rfl, countP_join rfl] at hspecial
  exact ⟨hblanks, hspecial⟩

/-- The program is the one of the line only if its words are left alone, and there are
single blanks between them. -/
theorem program_of_edited (h : Expands glob) (hordinary : Ordinary glob) (hcolon : ':' ∉ e.file)
    (hfirst : (e.rest glob).getD 0 "" = String.ofList e.file)
    (hprogram : unquote (" ".intercalate (e.rest glob).tail) = String.ofList e.program) :
    names glob e.file = [String.ofList e.file] ∧ ':' ∉ e.program ∧ '\t' ∉ e.program ∧
      ¬ [' ', ' '] <:+: e.program ∧ ∀ w ∈ pieces e.quoted, names glob w = [String.ofList w] := by
  obtain ⟨n, ns, hns⟩ := List.exists_cons_of_ne_nil (h.ne_nil (String.ofList e.file))
  have hrest : e.rest glob = n :: (ns ++ (pieces (blankColons e.quoted)).flatMap (names glob)) := by
    rw [Edit.rest, blankColons_eq_self hcolon, pieces_piece e.file_word, List.flatMap_singleton,
      names, hns, List.cons_append]
  rw [hrest, List.getD_cons_zero] at hfirst
  have htame : ∀ m ∈ ns ++ (pieces (blankColons e.quoted)).flatMap (names glob), Tame m := by
    intro m hm
    rcases List.mem_append.mp hm with hm | hm
    · have hfile : e.file ∈ pieces (blankColons e.file) := by
        rw [blankColons_eq_self hcolon, pieces_piece e.file_word]
        exact List.mem_singleton_self _
      apply tame_of_mem hordinary hfile
      rw [names, hns]
      exact List.mem_cons_of_mem n hm
    · obtain ⟨w, hw, hmw⟩ := List.mem_flatMap.mp hm
      exact tame_of_mem hordinary hw hmw
  rw [hrest, List.tail_cons] at hprogram
  generalize hms : ns ++ (pieces (blankColons e.quoted)).flatMap (names glob) = ms
    at hprogram htame
  -- what the handler has is `join` of the words `ms`, up to quotes
  have hjoin : unquoted (join (ms.map String.toList)) = e.program := by
    have hlist := congrArg String.toList hprogram
    rwa [toList_unquote_intercalate, String.toList_ofList] at hlist
  have hwords : pieces (blankColons e.quoted) ≠ [] := pieces_ne_nil (c := '"') rfl _
  have hlength := length_le_flatMap h (pieces (blankColons e.quoted))
  have hpos := List.length_pos_of_ne_nil hwords
  have hlength' := congrArg List.length hms
  rw [List.length_append] at hlength'
  have hpos' : 0 < ms.length := by omega
  obtain ⟨hcolon', htab, hsingle⟩ := unquoted_join_spec (List.ne_nil_of_length_pos hpos') htame
  rw [hjoin] at hcolon' htab hsingle
  have hquoted : blankColons e.quoted = e.quoted := by
    apply blankColons_eq_self
    intro hmem
    exact hcolon' (by simpa [Edit.quoted] using hmem)
  rw [hquoted] at hms hlength hlength' hpos
  -- there are as many words as before, and as many characters of patterns
  have hsame : unquoted (join (pieces e.quoted)) = unquoted (join (ms.map String.toList)) := by
    rw [join_pieces (e.spaced_quoted htab hsingle), hjoin, Edit.quoted, unquoted_quoted]
  obtain ⟨hcount, hspecial⟩ :=
    counts_of_join (fun w hw => piece_of_mem_pieces hw) (piece_of_tame htame) hsame
  rw [List.length_map] at hcount
  rw [List.map_map] at hspecial
  obtain rfl : ns = [] := List.eq_nil_of_length_eq_zero (by omega)
  rw [List.nil_append] at hms
  have hle : ((pieces e.quoted).flatMap (names glob)).length ≤ (pieces e.quoted).length := by
    omega
  have halone := (special_flatMap h hordinary hle).2
  rw [hms] at halone
  exact ⟨by rw [names, hns, hfirst], hcolon', htab, hsingle, halone hspecial.le⟩

theorem kept_of_edited (h : Expands glob) (hordinary : Ordinary glob) {name : String}
    (hedited : edited glob (directive name pre glob e.line) =
      [([String.ofList e.program], [String.ofList (e.path pre)])]) : e.Kept glob pre := by
  rw [edited_directive h, List.singleton_inj, Prod.mk.injEq, List.singleton_inj] at hedited
  obtain ⟨hprogram, hfile⟩ := hedited
  obtain ⟨hword, hpath, hcolon, hfirst⟩ := file_of_edited h hordinary hfile
  obtain ⟨halone, hcolon', htab, hsingle, hwords⟩ :=
    program_of_edited h hordinary hcolon hfirst hprogram
  exact ⟨hword, hcolon, halone, hpath, hcolon', htab, hsingle, hwords⟩

end Sed

/-! ## Both directives -/

/-- wget is called with the URL of the line. -/
def Address.Handed (glob : Glob) (name pre : String) (u : Address) : Prop :=
  fetched glob (directive name pre glob u.line) = [[String.ofList u.text]]

/-- sed is called with the program of the line, for the file of the line. -/
def Edit.Handed (glob : Glob) (name pre : String) (e : Edit) : Prop :=
  edited glob (directive name pre glob e.line) =
    [([String.ofList e.program], [String.ofList (e.path pre)])]

/-- The arguments are handed on if they are kept by the tokenizer, and only then, as long
as the files that words match have plain names. -/
theorem handed_iff_kept {glob : Glob} (h : Expands glob) (name pre : String) :
    (∀ u : Address, u.Kept glob → u.Handed glob name pre) ∧
      (∀ e : Edit, e.Kept glob pre → e.Handed glob name pre) ∧
      (Ordinary glob → (∀ u : Address, u.Handed glob name pre → u.Kept glob) ∧
        ∀ e : Edit, e.Handed glob name pre → e.Kept glob pre) := by
  refine ⟨fun u hu => fetched_of_kept h hu name pre, fun e he => edited_of_kept h he name,
    fun hordinary => ⟨fun u hu => ?_, fun e he => ?_⟩⟩
  · exact kept_of_fetched h hordinary hu
  · exact kept_of_edited h hordinary he

def bare : Glob := fun w => [w]

theorem expands_bare : Expands bare := ⟨fun _ => List.cons_ne_nil _ _, fun _ _ => rfl⟩

theorem ordinary_bare : Ordinary bare := fun _ _ hn => Or.inl (List.mem_singleton.mp hn)

def archive (rest : Chars) (h : ∀ c ∈ rest, ifs c = false) : Address where
  scheme := "http".toList
  rest := "//a.net".toList ++ rest
  scheme_word := ⟨by decide, forall_mem_of_all rfl⟩
  not_git := by decide
  rest_blank := List.forall_mem_append.mpr ⟨forall_mem_of_all rfl, h⟩

def editing (program : Chars) (h : '\n' ∉ program) : Edit where
  file := "a.h".toList
  program := program
  file_word := by decide
  program_line := h

theorem handed_iff_kept_mui :
    (archive "/m.lha".toList (forall_mem_of_all rfl)).Handed bare "mui" "/opt" ∧
      (editing "s/a b/c/".toList (by decide)).Handed bare "mui" "/opt" ∧
      (archive "/m.lha".toList (forall_mem_of_all rfl)).Kept bare := by
  have hcolon : ':' ∉ (archive "/m.lha".toList (forall_mem_of_all rfl)).rest := by decide
  have hurl := (handed_iff_kept expands_bare "mui" "/opt").1
    (archive "/m.lha".toList (forall_mem_of_all rfl)) ⟨hcolon, fun _ => rfl, rfl⟩
  have hedit := (handed_iff_kept expands_bare "mui" "/opt").2.1
    (editing "s/a b/c/".toList (by decide))
    ⟨by decide, by decide, rfl, rfl, by decide, by decide, by decide, fun _ _ => rfl⟩
  exact ⟨hurl, hedit, ((handed_iff_kept expands_bare "mui" "/opt").2.2 ordinary_bare).1 _ hurl⟩

/-- A port is lost, and so are colons and double blanks of a program. -/
theorem port_and_colon_lost :
    ¬ (archive ":8080/m.lha".toList (forall_mem_of_all rfl)).Handed bare "mui" "/opt" ∧
      ¬ (editing "s/a:b/c/".toList (by decide)).Handed bare "mui" "/opt" ∧
      ¬ (editing "s/a  b/c/".toList (by decide)).Handed bare "mui" "/opt" := by
  refine ⟨fun h => ?_, fun h => ?_, fun h => ?_⟩
  · have hcolon := (kept_of_fetched expands_bare ordinary_bare h).colon
    exact absurd hcolon (by decide)
  · have hcolon := (kept_of_edited expands_bare ordinary_bare h).program_colon
    exact absurd hcolon (by decide)
  · have hsingle := (kept_of_edited expands_bare ordinary_bare h).program_single
    exact absurd hsingle (by decide)

end Tokens

end Sdk

end AmigaGcc
