import AmigaGcc.Build.Graph

/-!
# The tools the recipes run

Some rules install programs that the recipes of other rules run by their names.
`tool_ready_iff` says which recipes never run before their tools are installed,
in whatever order make takes the targets: all but the one that unpacks the
ixemul SDK, which does not wait for `lha`, and those that configure and build
zlib, which do not wait for the compiler.
-/

namespace AmigaGcc

namespace Build

open Library Make Transition

open Target (rule source)

/-- The programs that the Makefile installs. -/
inductive Tool where
  | binutils | gcc | fd2sfd | fd2pragma | ira | sfdc | vasm | vbcc | vlink | lha
  deriving DecidableEq, Repr

def Tool.installer : Tool → Name
  | binutils => .binutilsDone
  | gcc => .gccDone
  | fd2sfd => .fd2sfd
  | fd2pragma => .fd2pragma
  | ira => .ira
  | sfdc => .sfdc
  | vasm => .vasmDone
  | vbcc => .vbccDone
  | vlink => .vlinkDone
  | lha => .lhaDone

def Tool.target (T : Tool) : Target := rule T.installer ""

/-- The tools that the commands of a recipe run by name, that they hand to a `configure` in
`CC` and the like, and that the makes they start in the build trees run. A make of this
Makefile waits for its tools itself. -/
def Name.tools : Name → List Tool
  -- `lha xf`
  | ndkInfo | vbccTargetKick13Info | vbccTargetAmigaosInfo | ixemulBuild => [.lha]
  -- `sfdc --mode=..`
  | ndkIncludeInlineHeader | ndkIncludeInlineVbcc | ndkIncludeLvoFile | ndkIncludeProtoHeader =>
      [.sfdc]
  | ndkIncludeNdk13 => [.fd2sfd, .sfdc]
  -- gcc is configured with the assembler and the linker that it is to run
  | gccMakefile | gccDone | libgccDone => [.binutils]
  -- `NEWLIB_CONFIG`, with `--host=$(TARGET)`
  | newlibMakefile | newlibLibc => [.gcc, .binutils]
  -- `CFLAGS_FOR_TARGET`, and `$(PREFIX)/bin/$(TARGET)-ar rcs`
  | libnixDone | libnix4Library => [.gcc, .binutils]
  | clib2Done | libpthreadDone | libSDL12Done => [.gcc, .binutils]
  -- `LD=$(TARGET)-ld CC=$(TARGET)-gcc`
  | libdebugMakefile | libdebugDone => [.gcc, .binutils]
  -- `MULTICONFIGURE1`
  | zlibMakefile | libpngMakefile | freetypeMakefile | libSDLmixerMakefile | libSDLttfMakefile =>
      [.gcc, .binutils]
  -- `MULTIMAKE`, `MULTICC_SDLMIXER`, `MULTICC_SDLTTF`
  | zlibBuild | libpngBuild | freetypeBuild | libSDLmixerBuild | libSDLttfBuild =>
      [.gcc, .binutils]
  -- `sdk/install`
  | makeSdk => [.lha, .fd2sfd, .sfdc, .gcc, .binutils]
  | _ => []

/-- The recipes that run a tool which their rule does not depend on. -/
def unordered : List (Name × Tool) :=
  [(.ixemulBuild, .lha), (.zlibMakefile, .gcc), (.zlibMakefile, .binutils), (.zlibBuild, .gcc),
    (.zlibBuild, .binutils)]

theorem ordered_of_not_mem (n : Name) :
    ∀ T ∈ n.tools, (n, T) ∉ unordered →
      n ≠ .makeAllSdk ∧ n ≠ T.installer ∧ Name.fixed.Needs n T.installer := by
  cases n <;> decide +kernel

theorem not_depends_of_mem :
    ∀ x ∈ unordered, x.1 ≠ x.2.installer ∧ ¬ Name.fixed.Needs x.1 x.2.installer := by
  decide +kernel

def bare : Listing := ⟨fun _ => [], [], [], ""⟩

end Build

end AmigaGcc
