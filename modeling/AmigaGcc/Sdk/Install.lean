import Mathlib.Data.List.DropRight
import AmigaGcc.Library.Shell.Basic

/-!
# `sdk/install`

`sdk/install install NAME PREFIX` reads `sdk/NAME.sdk` line by line. A line is a
directive, a payload file to be copied from the unpacked tree to `PREFIX`, or
blank. Here a script is the list of its lines, `directive` is what one turn of
the loop makes of a line, and `loop` chains the turns.

The commands are simple commands of the shell, and what they do is left open.
`NAME` and `PREFIX` are words.
-/

namespace AmigaGcc

namespace Sdk

open Library Shell Shell.Prog

/-! ## Words and file names -/

/-- Split at blanks, as the shell does with an unquoted expansion. -/
def words (s : String) : List String :=
  ((s.toList.splitOnP fun c => c = ' ' ∨ c = '\t' ∨ c = '\n').filter fun w => w ≠ []).map
    String.ofList

def dropSlashes (p : List Char) : List Char := p.rdropWhile (· = '/')

def lastComponent (p : String) : String :=
  let q := dropSlashes p.toList
  if p ≠ "" ∧ q = [] then "/" else String.ofList (q.rtakeWhile (· ≠ '/'))

/-- A word that `basename` and `dirname` do not take for an operand. -/
def isOption (w : String) : Bool := w.toList.head? = some '-' && w != "-"

/-- `$(basename ..)` with the given operands; a second one is a suffix to be
removed. -/
def basename (ps : List String) : String :=
  if ps.any isOption then ""
  else match ps with
    | [p] => lastComponent p
    | [p, suffix] =>
        let f := (lastComponent p).toList
        if suffix.toList <:+ f ∧ suffix.toList ≠ f then
          String.ofList (f.take (f.length - suffix.length))
        else String.ofList f
    | _ => ""

def directory (p : String) : String :=
  let q := dropSlashes p.toList
  if q = [] then if p = "" then "." else "/"
  else if '/' ∉ q then "."
  else
    let d := dropSlashes (q.rdropWhile (· ≠ '/'))
    if d = [] then "/" else String.ofList d

/-- `$(dirname ..)`, one line for each operand. -/
def dirname (ps : List String) : List String :=
  if ps.any isOption then [] else ps.map directory

/-- `${s%?..?}` with `n` question marks. -/
def cutEnd (n : ℕ) (s : String) : String :=
  if n ≤ s.length then String.ofList (s.toList.take (s.length - n)) else s

/-- `[[ $file == *.ext ]]` -/
def hasExtension (file ext : String) : Bool := ext.toList.isSuffixOf file.toList

/-- `tr '[:upper:]' '[:lower:]'` -/
def lower (s : String) : String := String.ofList (s.toList.map Char.toLower)

/-- `${x##\"}` and `${x%%\"}`: one quote at each end is dropped. -/
def unquote (s : String) : String :=
  let l := if s.toList.head? = some '"' then s.toList.tail else s.toList
  String.ofList (if l.getLast? = some '"' then l.dropLast else l)

/-- The file names an unquoted word is expanded to: those that match it, or the
word itself. -/
abbrev Glob := String → List String

/-- What an unquoted text becomes. -/
def expand (glob : Glob) (s : String) : List String := (words s).flatMap glob

/-- `a=(${line//:/ })` -/
def tokens (glob : Glob) (line : String) : List String :=
  expand glob (String.ofList (line.toList.map fun c => if c = ':' then ' ' else c))

/-! ## Commands -/

inductive Cmd where
  | echo (text : String)
  /-- `echo text >file` -/
  | echoTo (text file : String)
  | pushd (dir : String)
  | popd
  | gitClone (url : String)
  | gitPull
  /-- `rsync src dst`, neither recursive nor with any other option -/
  | rsync (src dst : String)
  /-- `wget url -O file` -/
  | wget (url file : String)
  /-- `mkdir -p` -/
  | mkdir (dir : String)
  /-- `lha x archive` -/
  | lha (archive : String)
  /-- `find . -type d -exec chmod +x {} \;` -/
  | chmodDirs
  | rm (files : List String)
  /-- `rm -f` -/
  | rmForce (file : String)
  /-- `rm -rf` -/
  | rmTree (path : String)
  | fd2sfd (out fd proto : String)
  | sfdc (mode target out sfd : String)
  /-- `sed -i.bak` -/
  | sed (exprs : List String) (file : String)
  /-- `gcc -Os -noixemul -fomit-frame-pointer src -c -o out` -/
  | gcc (src out : String)
  /-- `flock -x 200` -/
  | flock
  /-- `ar r` -/
  | ar (archive object : String)
  /-- `ln -s` -/
  | ln (target link : String)
  /-- `patch -N -p0 -r - -d dir < file` -/
  | patch (dir file : String)
  /-- the `cp` inside the unpacked tree, for a payload line `file = name` -/
  | rename (src dst : String)
  | cp (src dst : String)
  deriving DecidableEq, Repr

inductive Test where
  /-- `[ ! -e path ]` -/
  | missing (path : String)
  /-- `[ "$(ls -l path)" == "total 0" ]` -/
  | empty (path : String)
  deriving DecidableEq, Repr

/-- `c || exit 1` -/
def orExit (c : Cmd) : Prog Cmd Test := .or (cmd c) (exit 1)

/-! ## Directives

`url` and `directive` are irreducible: the words of an unknown line decide
nothing, and unfolding the tests on them is slow. -/

section Directives

variable (name pre : String) (glob : Glob)

@[irreducible] def url (a : List String) : Prog Cmd Test :=
  let scheme := a.getD 1 ""
  let path := a.getD 2 ""
  let file := basename (expand glob path)
  if scheme = "git" then
    chain [
      .cond (.missing s!"projects/{file}")
        (chain [
          cmd (.pushd "projects"),
          .or (cmd (.gitClone s!"https:{path}")) (sub (chain [cmd (.rmTree file), exit 1])),
          cmd .popd])
        skip,
      cmd (.pushd s!"projects/{file}"),
      cmd .gitPull,
      cmd .popd,
      cmd (.rsync s!"projects/{file}/*" s!"build/{name}/")]
  else
    let unpack := chain [
      cmd (.mkdir s!"build/{name}"),
      cmd (.pushd s!"build/{name}"),
      cmd (.lha s!"../../download/{file}"),
      cmd .chmodDirs,
      cmd .popd]
    chain [
      .cond (.missing s!"download/{file}")
        (chain [
          cmd (.echo s!"wget {scheme}:{path} -O download/{file}"),
          .or (cmd (.wget s!"{scheme}:{path}" s!"download/{file}"))
            (sub (chain [cmd (.rm [s!"download/{file}"]), exit 1]))])
        skip,
      .cond (.missing s!"build/{name}") unpack (.cond (.empty s!"build/{name}") unpack skip)]

def fd2sfd (a : List String) : Prog Cmd Test :=
  let fd := a.getD 1 ""
  let proto := a.getD 2 ""
  let base := cutEnd 3 (basename (expand glob fd))
  chain [
    cmd (.mkdir s!"{pre}/m68k-amigaos/lib/sfd/"),
    orExit (.fd2sfd s!"{pre}/m68k-amigaos/lib/sfd/{base}.sfd" s!"{pre}/m68k-amigaos/lib/fd/{fd}"
      s!"{pre}/m68k-amigaos/include/{proto}")]

/-- `name` of the directives whose operand is an `.sfd` file. -/
def sfdName (a : List String) : String := cutEnd 4 (basename (expand glob (a.getD 1 "")))

def clib (a : List String) : Prog Cmd Test :=
  let sfd := a.getD 1 ""
  let base := sfdName glob a
  chain [
    cmd (.mkdir s!"{pre}/m68k-amigaos/include/clib/"),
    orExit (.sfdc "clib" "m68k-amigaos" s!"{pre}/m68k-amigaos/include/clib/{base}_protos.h"
      s!"{pre}/m68k-amigaos/lib/sfd/{sfd}")]

def sfdc (a : List String) : Prog Cmd Test :=
  let file := a.getD 1 ""
  let old := a.getD 2 ""
  let new := a.getD 3 ""
  let base := sfdName glob a
  let sfd := s!"{pre}/m68k-amigaos/lib/sfd/{file}"
  let proto := s!"{pre}/m68k-amigaos/include/proto/{base}.h"
  let macros := s!"{pre}/m68k-amigaos/include/inline/{base}.h"
  let protos := s!"{pre}/m68k-amigaos/include/inline/{base}_protos.h"
  let lvo := s!"{pre}/m68k-amigaos/include/lvo/{base}.i"
  let fixup := [s!"s/{old}/{new}/"]
  chain ([
    cmd (.mkdir s!"{pre}/m68k-amigaos/include/proto/"),
    cmd (.rm [proto]),
    orExit (.sfdc "proto" "m68k-amigaos" proto sfd),
    cmd (.sed ["s/\\(<clib\\/.*>\\)/\\L\\1/", "s/\\(<defines\\/.*>\\)/\\L\\1/",
      "s/\\(<inline\\/.*>\\)/\\L\\1/", "s/\\(<pragmas\\/.*>\\)/\\L\\1/"] proto),
    cmd (.rm [s!"{proto}.bak"]),
    cmd (.mkdir s!"{pre}/m68k-amigaos/include/inline/"),
    orExit (.sfdc "macros" "m68k-amigaos" macros sfd),
    orExit (.sfdc "macros" "m68kvbcc-amigaos" protos sfd),
    cmd (.mkdir s!"{pre}/m68k-amigaos/include/lvo/"),
    orExit (.sfdc "lvo" "m68k-amigaos" lvo sfd)] ++
    if old ≠ "" ∧ new ≠ "" then [
      cmd (.echo s!"fixup names from {old} to {new}"),
      cmd (.echo s!"sed -i.bak -e s/{old}/{new}/ {proto}"),
      cmd (.sed fixup proto),
      cmd (.sed fixup lvo),
      cmd (.sed fixup macros),
      cmd (.sed fixup protos),
      cmd (.rm [s!"{proto}.bak", s!"{lvo}.bak", s!"{macros}.bak", s!"{protos}.bak"])]
    else [skip])

/-- Generate the source `src`, as `stubs`, `lib` and `liba` do. -/
def generate (mode src sfd : String) : List (Prog Cmd Test) := [
  orExit (.sfdc mode "m68k-amigaos" src s!"{pre}/m68k-amigaos/lib/sfd/{sfd}.sfd"),
  orExit (.sed ["s/__inline//g", "s/: \\\"d0\\\",/:/g"] src),
  cmd (.rm [s!"{src}.bak"])]

/-- Compile `stem.c`, as `stubs`, `lib` and `libc` do. -/
def compile (stem : String) : List (Prog Cmd Test) := [
  cmd (.echo s!"{pre}/bin/m68k-amigaos-gcc -Os -noixemul -fomit-frame-pointer {stem}.c -c"),
  orExit (.gcc s!"{stem}.c" s!"{stem}.o")]

def echoAr (archive object : String) : Prog Cmd Test :=
  cmd (.echo s!"{pre}/bin/m68k-amigaos-ar r {archive} {object}")

def stubs (a : List String) : Prog Cmd Test :=
  let base := sfdName glob a
  let stem := s!"build/{name}/{base}"
  let archive := s!"{pre}/m68k-amigaos/lib/libstubs.a"
  chain (generate pre "autoopen" s!"{stem}.c" base ++ compile pre stem ++ [
    echoAr pre archive s!"{stem}.o",
    sub (chain [cmd .flock, orExit (.ar archive s!"{stem}.o")]),
    cmd (.rmForce "/tmp/amiga-gcc-libstubs-lock")])

def libaSteps (a : List String) : List (Prog Cmd Test) :=
  generate pre "stubs" s!"build/{name}/lib{name}.c" (sfdName glob a)

def libcSteps : List (Prog Cmd Test) :=
  let stem := s!"build/{name}/lib{name}"
  let archive := s!"{pre}/m68k-amigaos/lib/lib{name}.a"
  compile pre stem ++ [echoAr pre archive s!"{stem}.o", orExit (.ar archive s!"{stem}.o")]

def lib (a : List String) : Prog Cmd Test :=
  chain (libaSteps name pre glob a ++ libcSteps name pre)

def redirinc (a : List String) : Prog Cmd Test :=
  let header := a.getD 1 ""
  let included := a.getD 2 ""
  let file := s!"{pre}/m68k-amigaos/include/{header}"
  chain [
    cmd (.echo s!"creating redirecting header {file}"),
    cmd (.echoTo s!"#include \"{included}\"" file)]

def sed (a : List String) : Prog Cmd Test :=
  let x := unquote (" ".intercalate (a.drop 2))
  let path := a.getD 1 ""
  let file := s!"{pre}/{path}"
  chain [
    cmd (.echo s!"applying: sed -i.bak -E \"{x}\" {file}"),
    cmd (.sed [x] file),
    cmd (.rm [s!"{file}.bak"])]

def symlink (a : List String) : Prog Cmd Test :=
  let old := a.getD 1 ""
  let new := a.getD 2 ""
  let target := s!"{pre}/m68k-amigaos/{old}"
  let link := s!"{pre}/m68k-amigaos/{new}"
  chain [
    cmd (.echo s!"creating symlink from {link} to {target}"),
    cmd (.rmTree link),
    cmd (.ln target link)]

/-- `stdargs`. The first `sed` takes `__stdargs` out of a line, the second puts it
in front of the function name. -/
def stdargs (a : List String) : Prog Cmd Test :=
  let path := a.getD 1 ""
  let file := s!"build/{name}/{path}"
  chain [
    cmd (.echo s!"adding __stdargs to {file}"),
    cmd (.sed ["s/(.*)__stdargs (.*)/\\1\\2/g"] file),
    cmd (.sed ["s/([a-zA-Z0-9_]*[[:blank:]]*.*[[:blank:]]+\\*?[[:blank:]]*)([a-zA-Z0-9_]+)"
      ++ "[[:blank:]]*\\(/__stdargs \\1\\2(/g"] file),
    cmd (.rm [s!"{file}.bak"])]

def patch (a : List String) : Prog Cmd Test :=
  let diff := a.getD 1 ""
  let file := s!"patches/{name}/{diff}"
  chain [
    cmd (.echo s!"applying patch {file} to build/{name}"),
    cmd (.patch s!"build/{name}" file)]

/-- Copy the payload file `line` under the name `file` to the directory `dir` of
`PREFIX`. -/
def copyTo (line file dir : String) : List (Prog Cmd Test) := [
  cmd (.echo s!"cp build/{name}/{line} {pre}/m68k-amigaos/{dir}/{file}"),
  cmd (.cp s!"build/{name}/{line}" s!"{pre}/m68k-amigaos/{dir}/{file}")]

/-- `copyTo` behind a `mkdir -p`. -/
def mkdirCopyTo (line file dir : String) : List (Prog Cmd Test) :=
  cmd (.mkdir s!"{pre}/m68k-amigaos/{dir}") :: copyTo name pre line file dir

/-- Where a payload file goes depends on its extension. -/
def installFile (line file : String) : List (Prog Cmd Test) :=
  let outdir := lower (basename ((dirname (expand glob line)).flatMap (expand glob)))
  if hasExtension file ".h" || hasExtension file ".i" then
    mkdirCopyTo name pre line file s!"include/{outdir}"
  else if hasExtension file ".guide" then mkdirCopyTo name pre line file "guide"
  else if hasExtension file ".doc" then mkdirCopyTo name pre line file "doc"
  else if hasExtension file ".sfd" then mkdirCopyTo name pre line file "lib/sfd"
  else if hasExtension file ".fd" then mkdirCopyTo name pre line file "lib/fd"
  else if hasExtension file ".a" then copyTo name pre line file "lib"
  else [skip]

/-- A payload line, `path` or `path = file`. -/
def payload (line : String) (a : List String) : Prog Cmd Test :=
  if line = "" then skip
  else if a.getD 1 "" = "=" then
    let file := a.getD 2 ""
    let path := a.getD 0 ""
    let dir := " ".intercalate (dirname (expand glob path))
    chain (cmd (.rename s!"build/{name}/{path}" s!"build/{name}/{dir}/{file}") ::
      installFile name pre glob path file)
  else chain (installFile name pre glob line (basename (expand glob line)))

@[irreducible] def directive (line : String) : Prog Cmd Test :=
  let a := tokens glob line
  match a.getD 0 "" with
  | "Short" | "Version" | "Author" | "Uploader" | "Type" | "Replaces" | "Architecture" =>
      cmd (.echo line)
  | "Url" => url name glob a
  | "fd2sfd" => fd2sfd pre glob a
  | "clib" => clib pre glob a
  | "sfdc" => sfdc pre glob a
  | "stubs" => stubs name pre glob a
  | "lib" => lib name pre glob a
  | "liba" => chain (libaSteps name pre glob a)
  | "libc" => chain (libcSteps name pre)
  | "redirinc" => redirinc pre a
  | "sed" => sed pre a
  | "symlink" => symlink pre a
  | "stdargs" => stdargs name a
  | "patch" => patch name a
  | _ => payload name pre glob line a

end Directives

/-! ## The script -/

/-- The first operand of `sdk/install`. -/
inductive Mode where
  | install
  | clean
  | other
  deriving DecidableEq, Repr

/-- A command and a test with the number of the line they stand in, which is 0
outside of the loop. -/
abbrev Script := Prog (ℕ × Cmd) (ℕ × Test)

/-- The turn of the loop for the line `l.1` with the number `l.2`. -/
def turn (glob : Glob) (name pre : String) (l : String × ℕ) : Script :=
  (directive name pre glob l.1).map (l.2, ·) (l.2, ·)

/-- `while read -r line; do ..; done < sdk/NAME.sdk` -/
def loop (glob : Glob) (name pre : String) (lines : List String) : Script :=
  forEach (lines.zipIdx 1) (turn glob name pre)

/-- `sdk/install mode NAME PREFIX`, where `sdk` has the lines of `sdk/NAME.sdk` if
this file exists. -/
def main (glob : Glob) (mode : Mode) (name pre : String) (sdk : Option (List String)) :
    Script :=
  match sdk with
  | none => chain [cmd (0, .echo s!"sdk/{name}.sdk not found"), exit 1]
  | some lines =>
      match mode with
      | .install => loop glob name pre lines
      | .clean => cmd (0, .rmTree s!"build/{name}")
      | .other => skip

end Sdk

end AmigaGcc
