import AmigaGcc.Sdk.Shape

/-!
# Payload lines

A payload line lists a file of the unpacked tree, and the extension of the file says where
its copy belongs: `asked` is the `cp` that the line is about. The script hands the line to
`basename` and `dirname` without quotes, so what it runs, `handed`, is about the words of
the line. The two are the same for a line that is a single word, and `Copied` says when
they are.
-/

namespace AmigaGcc

namespace Sdk

open Library Shell Shell.Prog

/-- The first words of the lines that are no payload. -/
def keywords : List String :=
  ["Short", "Version", "Author", "Uploader", "Type", "Replaces", "Architecture", "Url", "fd2sfd",
    "clib", "sfdc", "stubs", "lib", "liba", "libc", "redirinc", "sed", "symlink", "stdargs",
    "patch"]

section Copies

variable (name pre : String)

/-- The copy of the file `path` in the directory `dir`, under the name `file`. -/
def copyOf (path file dir : String) : Option Cmd :=
  let copy outdir := some (Cmd.cp s!"build/{name}/{path}" s!"{pre}/m68k-amigaos/{outdir}/{file}")
  if hasExtension file ".h" || hasExtension file ".i" then copy s!"include/{lower dir}"
  else if hasExtension file ".guide" then copy "guide"
  else if hasExtension file ".doc" then copy "doc"
  else if hasExtension file ".sfd" then copy "lib/sfd"
  else if hasExtension file ".fd" then copy "lib/fd"
  else if hasExtension file ".a" then copy "lib"
  else none

variable (glob : Glob)

/-- The copy of a line, when `base` and `dir` cut paths. -/
def lineCopy (base dir : String → String) (line : String) : Option Cmd :=
  let a := tokens glob line
  if keywords.contains (a.getD 0 "") || line == "" then none
  else if a.getD 1 "" = "=" then
    copyOf name pre (a.getD 0 "") (a.getD 2 "") (dir (a.getD 0 ""))
  else copyOf name pre line (base line) (dir line)

/-- The copy that the line is about. -/
def asked (line : String) : Option Cmd :=
  lineCopy name pre glob lastComponent (fun p => lastComponent (directory p)) line

/-- The copy that the words of the line make. -/
def handed (line : String) : Option Cmd :=
  lineCopy name pre glob (fun p => basename (expand glob p))
    (fun p => basename ((dirname (expand glob p)).flatMap (expand glob))) line

/-- The file that the line lists, if its extension is handled, is the one that is copied. -/
def Copied (line : String) : Prop := ∀ c ∈ asked name pre glob line, c ∈ handed name pre glob line

end Copies

/-! ## One word -/

theorem basename_word {w : String} (h : isOption w = false) : basename [w] = lastComponent w := by
  rw [basename, List.any_cons, h]
  rfl

theorem dirname_word {w : String} (h : isOption w = false) : dirname [w] = [directory w] := by
  rw [dirname, List.any_cons, h]
  rfl

/-- A word that no file matches is left alone. -/
def Whole (glob : Glob) (w : String) : Prop := expand glob w = [w] ∧ isOption w = false

theorem copied_of_whole {name pre : String} {glob : Glob} {line : String}
    (hrename : (tokens glob line).getD 1 "" ≠ "=") (hline : Whole glob line)
    (hdir : Whole glob (directory line)) : Copied name pre glob line := by
  have hbase : basename (expand glob line) = lastComponent line := by
    rw [hline.1, basename_word hline.2]
  have houtdir : basename ((dirname (expand glob line)).flatMap (expand glob)) =
      lastComponent (directory line) := by
    rw [hline.1, dirname_word hline.2, List.flatMap_singleton, hdir.1, basename_word hdir.2]
  intro c hc
  rw [asked, lineCopy, if_neg hrename] at hc
  rw [handed, lineCopy, if_neg hrename, hbase, houtdir]
  exact hc

/-! ## What is run -/

section Run

variable (name pre : String) (glob : Glob)

def Cmd.Copies : Cmd → Prop
  | cp _ _ => True
  | _ => False

theorem Cmd.Copies.matters {c : Cmd} (h : c.Copies) : c.Matters := by
  cases c with
  | cp src dst => trivial
  | _ => exact h.elim

/-- The copies in a directive are on its way, whatever the tests say. -/
theorem copies_directive (b : Test → Bool) (line : String) :
    (directive name pre glob line).All fun c =>
      c.Copies → c ∈ commands b (directive name pre glob line) := by
  by_cases hurl : IsUrl glob line
  · rw [directive_url name pre glob hurl]
    refine (fetches_url name glob _).mono fun c hc h => ?_
    cases c with
    | cp src dst => exact hc.elim
    | _ => exact h.elim
  · refine ((linear_directive name pre glob hurl).all_mem_commands b).mono fun c hc hcopy => ?_
    exact hc

theorem mem_commands_installFile {b : Test → Bool} {path file : String} {c : Cmd}
    (hc : c.Copies) :
    c ∈ commands b (chain (installFile name pre glob path file)) ↔
      c ∈ copyOf name pre path file
        (basename ((dirname (expand glob path)).flatMap (expand glob))) := by
  have hcopy : ∀ dir, c ∈ commands b (chain (copyTo name pre path file dir)) ↔
      c ∈ some (Cmd.cp s!"build/{name}/{path}" s!"{pre}/m68k-amigaos/{dir}/{file}") := by
    intro dir
    cases c with
    | cp src dst => simp [copyTo, commands, eq_comm]
    | _ => exact hc.elim
  have hmkdir : ∀ dir, c ∈ commands b (chain (mkdirCopyTo name pre path file dir)) ↔
      c ∈ some (Cmd.cp s!"build/{name}/{path}" s!"{pre}/m68k-amigaos/{dir}/{file}") := by
    intro dir
    rw [← hcopy dir]
    cases c with
    | cp src dst => simp [mkdirCopyTo, copyTo, commands]
    | _ => exact hc.elim
  rw [installFile, copyOf]
  dsimp only
  split_ifs
  exacts [hmkdir _, hmkdir _, hmkdir _, hmkdir _, hmkdir _, hcopy _, by simp [commands]]

theorem directive_payload {line : String} (h : (tokens glob line).getD 0 "" ∉ keywords) :
    directive name pre glob line = payload name pre glob line (tokens glob line) := by
  unfold directive
  dsimp only
  split
  case h_21 => rfl
  all_goals
    next heq =>
      rw [heq] at h
      exact absurd (by decide) h

theorem mem_commands_payload {b : Test → Bool} {line : String} {c : Cmd} (hc : c.Copies)
    (h : (tokens glob line).getD 0 "" ∉ keywords) :
    c ∈ commands b (directive name pre glob line) ↔ c ∈ handed name pre glob line := by
  have hrename : ∀ src dst, c ∉ commands b (cmd (.rename src dst) : Prog Cmd Test) := by
    intro src dst hmem
    obtain rfl := List.mem_singleton.mp hmem
    exact hc
  rw [directive_payload name pre glob h, payload, handed, lineCopy]
  by_cases hline : line = ""
  · simp [hline, commands]
  · have hkey : (keywords.contains ((tokens glob line).getD 0 "") || line == "") = false := by
      simpa [hline] using h
    rw [if_neg hline, hkey, if_neg Bool.false_ne_true]
    split
    · rw [← mem_commands_installFile name pre glob (b := b) hc]
      dsimp only
      rw [commands_chain_cons, List.mem_append, or_iff_right (hrename _ _)]
    · exact mem_commands_installFile name pre glob hc

theorem asked_eq_none {line : String} (h : (tokens glob line).getD 0 "" ∈ keywords) :
    asked name pre glob line = none := by
  have hkey : keywords.contains ((tokens glob line).getD 0 "") = true := by simpa using h
  rw [asked, lineCopy, hkey]
  rfl

theorem copies_of_asked {line : String} {c : Cmd} (hc : c ∈ asked name pre glob line) :
    c.Copies := by
  have hcopy : ∀ path file dir, c ∈ copyOf name pre path file dir → c.Copies := by
    intro path file dir h
    rw [copyOf] at h
    dsimp only at h
    split_ifs at h <;> cases h <;> trivial
  rw [asked, lineCopy] at hc
  split_ifs at hc
  · cases hc
  · exact hcopy _ _ _ hc
  · exact hcopy _ _ _ hc

/-- The copy that a line is about is run, if and only if it is the one of its words. -/
theorem copied_iff (b : Test → Bool) (line : String) :
    Copied name pre glob line ↔
      ∀ c ∈ asked name pre glob line, c ∈ commands b (directive name pre glob line) := by
  refine forall₂_congr fun c hc => ?_
  by_cases hkey : (tokens glob line).getD 0 "" ∈ keywords
  · rw [asked_eq_none name pre glob hkey] at hc
    cases hc
  · exact (mem_commands_payload name pre glob (copies_of_asked name pre glob hc) hkey).symm

end Run

end Sdk

end AmigaGcc
