import Mathlib.Logic.Function.Basic
import AmigaGcc.Library.Shell.Basic
import AmigaGcc.Library.Transition

/-!
# The download recipe

`getFile` is the body of the Makefile's `get-file`, between `L1` and `L2`. It
works on three names in the download directory: the archive `F`, the copy
`F.bak` it is moved to, and `F.neu`, which `wget` writes. A run of the recipe
starts from whatever the run before left of the three.

`Honest` is what one run should do for the archive, and `getFile_honest_iff`
says for which downloads it does: the branch for an empty `F.neu` removes it and
leaves `F` behind as `F.bak`, and a non-empty `F.neu` is taken as the archive
whether or not `wget` succeeded. The comparison with `F.bak` is never true, since
the quotes around it take in the text `; echo`.
-/

namespace AmigaGcc

namespace Download

open Library Shell Shell.Prog

/-- The names `get-file` uses: `$(3)`, `$(3).bak` and `$(3).neu`. -/
inductive Name where
  | file
  | bak
  | neu
  deriving DecidableEq, Repr

structure File where
  content : List UInt8
  mtime : ℕ
  deriving DecidableEq, Repr

abbrev Disk := Name → Option File

inductive Cmd where
  | cdDownload
  | mv (a b : Name)
  | wget
  | rm (a : Name)
  | rmForce (a : Name)
  | cdUp
  deriving DecidableEq, Repr

inductive Test where
  /-- `[ -s a ]` -/
  | nonempty (a : Name)
  /-- `[ "$(cmp --silent a b); echo $?" == 0 ]` -/
  | same (a b : Name)
  deriving DecidableEq, Repr

/-- What `get-file` does with `F.neu` once `wget` has ended. -/
def settle : Prog Cmd Test :=
  cond (.nonempty .neu)
    (cond (.same .neu .bak)
      (chain [cmd (.mv .bak .file), cmd (.rm .neu)])
      (chain [cmd (.mv .neu .file), cmd (.rmForce .bak)]))
    (cmd (.rm .neu))

/-- `define get-file`, without the logging around it. -/
def getFile : Prog Cmd Test :=
  chain [cmd .cdDownload, cmd (.mv .file .bak), cmd .wget, settle, cmd .cdUp]

/-- The content of a file that `[ -s ]` accepts. -/
abbrev Content := { c : List UInt8 // c ≠ [] }

/-- How a call of `wget` ends, and what it leaves in `F.neu`. -/
inductive Outcome where
  | failEmpty
  | failPartial (c : Content)
  | success (c : Content)

/-- The bytes `wget -O F.neu` has written. -/
def Outcome.written : Outcome → List UInt8
  | failEmpty => []
  | failPartial c => c
  | success c => c

/-- The exit status of `wget`; 4 is a network failure. -/
def Outcome.status : Outcome → ℕ
  | success _ => 0
  | _ => 4

structure Run where
  outcome : Outcome
  time : ℕ

/-- `mv a b`: fails, and changes nothing, when there is no `a`. -/
def mv (a b : Name) (d : Disk) : ℕ × Disk :=
  match d a with
  | none => (1, d)
  | some f => (0, Function.update (Function.update d a none) b (some f))

/-- `rm a`: fails when there is no `a`. -/
def rm (a : Name) (d : Disk) : ℕ × Disk :=
  match d a with
  | none => (1, d)
  | some _ => (0, Function.update d a none)

/-- The status of `cmp --silent a b`, which prints nothing. -/
def cmp (a b : Name) (d : Disk) : ℕ :=
  match d a, d b with
  | some f, some g => if f.content = g.content then 0 else 1
  | _, _ => 2

/-- The text of `"$(cmp --silent a b); echo $?"`. -/
def cmpText (a b : Name) (d : Disk) : List Char :=
  "; echo ".toList ++ (toString (cmp a b d)).toList

def machine (r : Run) : Machine Cmd Test Disk where
  exec
    | .cdDownload, d => (0, d)
    | .mv a b, d => mv a b d
    | .wget, d =>
        (r.outcome.status, Function.update d .neu (some ⟨r.outcome.written, r.time⟩))
    | .rm a, d => rm a d
    | .rmForce a, d => (0, Function.update d a none)
    | .cdUp, d => (0, d)
  test
    | .nonempty a, d => (d a).any fun f => f.content ≠ []
    | .same a b, d => cmpText a b d = ['0']

def download (r : Run) (d : Disk) : Shell.State Disk :=
  start (machine r) getFile d

/-! ## What one run leaves -/

/-- The file that is `F.bak` once `mv F F.bak` has been tried: the archive, or an
older `F.bak` when there is no archive. -/
def kept (d : Disk) : Option File :=
  (d .file).or (d .bak)

/-- What a run leaves under the three names. With nothing downloaded the archive
stays moved away; anything that was downloaded replaces it. -/
def left (r : Run) (d : Disk) : Disk
  | .file => if r.outcome.written = [] then none else some ⟨r.outcome.written, r.time⟩
  | .bak => if r.outcome.written = [] then kept d else none
  | .neu => none

def fetched (r : Run) (d : Disk) : Disk
  | .file => none
  | .bak => kept d
  | .neu => some ⟨r.outcome.written, r.time⟩

theorem update_mv_eq_fetched (r : Run) (d : Disk) :
    Function.update (mv .file .bak d).2 .neu (some ⟨r.outcome.written, r.time⟩) =
      fetched r d := by
  funext n
  cases h : d .file <;> cases n <;> simp [mv, fetched, kept, h, Function.update]

theorem download_eq_settle (r : Run) (d : Disk) :
    download r d =
      { eval (machine r) settle { store := fetched r d, status := r.outcome.status } with
        status := 0 } := by
  rw [← update_mv_eq_fetched]
  have hsettle : settle.Straight := ⟨⟨⟨trivial, trivial⟩, trivial, trivial⟩, trivial⟩
  exact eval_seq (machine r) hsettle (cmd .cdUp) rfl

theorem cmpText_ne (a b : Name) (d : Disk) : cmpText a b d ≠ ['0'] := by
  have hsemicolon : (cmpText a b d).head? = some ';' := rfl
  intro h
  rw [h] at hsemicolon
  exact absurd hsemicolon (by decide)

theorem settle_store (r : Run) (d : Disk) (n : ℕ) :
    (eval (machine r) settle { store := fetched r d, status := n }).store = left r d := by
  funext a
  by_cases hw : r.outcome.written = []
  · cases a <;> simp [settle, eval, machine, fetched, hw, left, rm, Function.update]
  · cases a <;>
      simp [settle, chain, eval, machine, fetched, hw, cmpText_ne, left, mv, Function.update]

theorem download_store (r : Run) (d : Disk) : (download r d).store = left r d := by
  rw [download_eq_settle]
  exact settle_store r d r.outcome.status

theorem download_status (r : Run) (d : Disk) : (download r d).status = 0 := by
  rw [download_eq_settle]

/-! ## Many runs -/

def held (d : Disk) : Option (List UInt8) := (d .file).map File.content

/-- The download directory over many runs, with the content accepted last: the
one of the last successful download, or the one there was at the start. -/
structure Archive where
  disk : Disk
  accepted : Option (List UInt8)

def Archive.initial (d : Disk) : Archive :=
  ⟨d, held d⟩

def Outcome.accept (o : Outcome) (old : Option (List UInt8)) : Option (List UInt8) :=
  match o with
  | success c => some c
  | failEmpty | failPartial _ => old

def Archive.next (s : Archive) (r : Run) : Option Archive :=
  some ⟨(download r s.disk).store, r.outcome.accept s.accepted⟩

/-- What a run should do for the archive: it holds the content accepted last, a
failed download leaves it exactly as it was, and the recipe succeeds only when
there is an archive. -/
def Honest (s : Archive) (r : Run) : Prop :=
  held (download r s.disk).store = r.outcome.accept s.accepted ∧
    (r.outcome.status ≠ 0 → (download r s.disk).store .file = s.disk .file) ∧
    ((download r s.disk).status = 0 → (download r s.disk).store .file ≠ none)

/-- The downloads the recipe handles: the successful ones, and a partial file
that equals the archive it was to replace, down to the time. -/
def Handled (s : Archive) (r : Run) : Prop :=
  match r.outcome with
  | .success _ => True
  | .failEmpty => False
  | .failPartial c => s.disk .file = some ⟨c.1, r.time⟩

theorem left_file (r : Run) (d : Disk) (h : r.outcome.written ≠ []) :
    left r d .file = some ⟨r.outcome.written, r.time⟩ :=
  if_neg h

/-- One run, from a state in which the archive holds the content accepted
last. -/
theorem honest_iff_handled (s : Archive) (r : Run) (hs : held s.disk = s.accepted) :
    Honest s r ↔ Handled s r := by
  rw [Honest, download_store, download_status]
  obtain ⟨o, time⟩ := r
  cases o with
  | failEmpty =>
      -- `F` is gone, and the recipe has succeeded
      exact ⟨fun h => h.2.2 rfl rfl, False.elim⟩
  | failPartial c =>
      have hleft : left ⟨.failPartial c, time⟩ s.disk .file = some ⟨c.1, time⟩ :=
        left_file ⟨.failPartial c, time⟩ s.disk c.2
      rw [held, hleft]
      constructor
      · intro h
        exact (h.2.1 (by simp [Outcome.status])).symm
      · intro h
        have hkeep : s.disk .file = some ⟨c.1, time⟩ := h
        refine ⟨?_, fun _ => hkeep.symm, fun _ => Option.some_ne_none _⟩
        rw [← hkeep]
        exact hs
  | success c =>
      have hleft : left ⟨.success c, time⟩ s.disk .file = some ⟨c.1, time⟩ :=
        left_file ⟨.success c, time⟩ s.disk c.2
      rw [held, hleft]
      exact ⟨fun _ => trivial,
        fun _ => ⟨rfl, fun h => absurd rfl h, fun _ => Option.some_ne_none _⟩⟩

theorem accepted_of_handled (s t : Archive) (r : Run) (hs : held s.disk = s.accepted)
    (h : Handled s r) (ht : s.next r = some t) : held t.disk = t.accepted := by
  obtain rfl := Option.some.inj ht
  exact ((honest_iff_handled s r hs).mpr h).1

/-- Every run of the recipe does what it should exactly when every download
either succeeds or leaves a partial file that equals the archive. -/
theorem getFile_honest_iff (d : Disk) (runs : List Run) :
    Transition.Throughout Archive.next Honest (Archive.initial d) runs ↔
      Transition.Throughout Archive.next Handled (Archive.initial d) runs :=
  Transition.throughout_congr
    (P := fun s => held s.disk = s.accepted)
    (fun s r _ hs _ => honest_iff_handled s r hs)
    (fun s r t hs h ht => accepted_of_handled s t r hs h ht) rfl runs

/-- A download that fails without a byte leaves no archive, and succeeds. -/
theorem getFile_loses_archive :
    ¬ Transition.Throughout Archive.next Honest
      (Archive.initial fun n => if n = .file then some ⟨[1, 2, 3], 7⟩ else none)
      [⟨.failEmpty, 8⟩] := by
  intro h
  obtain ⟨hrun, -⟩ := h _ rfl
  exact hrun.2.2 rfl rfl

end Download

end AmigaGcc
