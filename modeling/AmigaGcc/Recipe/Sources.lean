import AmigaGcc.Recipe.Makefile

/-!
# The recipes without a step

The rules that fetch the sources and copy them: the clones, the archives, the
trees that are built in a copy, and `libamiga.a`. With `logged` and `stamped`
these are all rules of the Makefile whose target is a file.
-/

namespace AmigaGcc

namespace Recipe

open Library Shell Shell.Prog

/-- `@cd $(PROJECTS) && git clone ..` -/
def gitClone (module args dir : String) : Line :=
  .plain (inDir "$(PROJECTS)" ("git clone -b $(" ++ module ++ "_BRANCH) " ++ args ++
    "$(" ++ module ++ "_URL)" ++ dir))

@[simp] theorem guarded_gitClone (module args dir : String) : (gitClone module args dir).Guarded :=
  guarded_inDir _ _

/-- A clone of a module; the target is a file of the clone. -/
def clone (module args dir target : String) : Rule where
  target := "$(PROJECTS)/" ++ target
  lines _ := [gitClone module args dir]

def binutilsConfigure : Rule := clone "binutils" "--depth 16 " " binutils" "binutils/configure"

def gccConfigure : Rule := clone "gcc" "--depth 16 " "" "gcc/configure"

def fd2sfdConfigure : Rule where
  target := "$(PROJECTS)/fd2sfd/configure"
  lines n := [
    gitClone "fd2sfd" "--depth 4 " "",
    .plain (eachFound n "find patches/fd2sfd/ -type f" fun run test =>
      cond (test "[[ \"$i\" == *.diff ]]")
        (chain [skip, run "patch -N \"$(PROJECTS)/$\x7bj%.diff\x7d\" \"$i\""]) skip)]

def fd2pragmaMakefile : Rule := clone "fd2pragma" "--depth 4 " "" "fd2pragma/makefile"

def iraMakefile : Rule := clone "ira" "--depth 4 " "" "ira/Makefile"

def sfdcConfigure : Rule := clone "sfdc" "--depth 4 " "" "sfdc/configure"

def vasmProject : Rule := clone "vasm" "--depth 4 " "" "vasm/Makefile"

def vbccProject : Rule := clone "vbcc" "--depth 4 " "" "vbcc/Makefile"

def vlinkProject : Rule := clone "vlink" "--depth 4 " "" "vlink/Makefile"

def netincludeReadme : Rule :=
  clone "amiga-netinclude" "--depth 4 " "" "amiga-netinclude/README.md"

def libnixMakefile : Rule := clone "libnix" "--depth 4 " "" "libnix/Makefile.gcc6"

def clib2License : Rule := clone "clib2" "--depth 4 " "" "clib2/LICENSE"

def libdebugConfigure : Rule where
  target := "$(PROJECTS)/libdebug/configure"
  lines _ := [
    gitClone "libdebug" "--depth 4 " "",
    line "touch -t 0001010000 $(PROJECTS)/libdebug/configure.ac"]

def arosStuffMakefile : Rule :=
  clone "aros-stuff" "--depth 4 " "" "aros-stuff/pthreads/Makefile"

def newlibConfigure : Rule :=
  clone "newlib-cygwin" "--depth 4  " "" "newlib-cygwin/newlib/configure"

def ixemulConfigure : Rule := clone "ixemul" "" "" "ixemul/configure"

def libSDL12Project : Rule := clone "libSDL12" "--depth 4 " "" "libSDL12/Makefile"

/-! ## Copies of a tree -/

/-- `@rsync -a --no-group $(PROJECTS)/P $(BUILD)/ --exclude .git` -/
def rsyncProject (project : String) : Line :=
  line ("rsync -a --no-group $(PROJECTS)/" ++ project ++ " $(BUILD)/ --exclude .git")

@[simp] theorem guarded_rsyncProject (project : String) : (rsyncProject project).Guarded := trivial

def vasmMakefile : Rule where
  target := "$(BUILD)/vasm/Makefile"
  lines _ := [rsyncProject "vasm", line "touch $(BUILD)/vasm/Makefile"]

def vbccMakefile : Rule where
  target := "$(BUILD)/vbcc/Makefile"
  lines _ := [
    rsyncProject "vbcc",
    line "mkdir -p $(BUILD)/vbcc/bin",
    line "touch $(BUILD)/vbcc/Makefile"]

/-- The only copy without a `touch`: its `Makefile` has the time of the original. -/
def vlinkMakefile : Rule where
  target := "$(BUILD)/vlink/Makefile"
  lines _ := [rsyncProject "vlink"]

def libpthreadMakefile : Rule where
  target := "$(BUILD)/libpthread/Makefile"
  lines _ := [
    line "mkdir -p $(BUILD)/libpthread",
    line "rsync -a --no-group $(PROJECTS)/aros-stuff/pthreads/* $(BUILD)/libpthread",
    line "touch $(BUILD)/libpthread/Makefile"]

def libSDL12Makefile : Rule where
  target := "$(BUILD)/libSDL12/Makefile"
  lines _ := [
    line "mkdir -p $(BUILD)/libSDL12",
    line "rsync -a --no-group $(PROJECTS)/libSDL12/* $(BUILD)/libSDL12",
    line "touch $(BUILD)/libSDL12/Makefile"]

/-- `$(LIBAMIGA)`; the second line of its recipe is a comment of the shell. -/
def libamiga : Rule where
  target := "$(PREFIX)/$(TARGET)/lib/libamiga.a"
  lines _ := [line "mkdir -p $(@D)", .plain skip, line "cp lib/libamiga.a $@"]

/-- `$(LIBBAMIGA)` -/
def libbamiga : Rule where
  target := "$(PREFIX)/$(TARGET)/lib/libb/libamiga.a"
  lines _ := [line "mkdir -p $(@D)", line "cp lib/libb/libamiga.a $@"]

def untar (name archive : String) : Rule where
  target := "$(PROJECTS)/" ++ name ++ "/configure"
  lines _ := [line ("tar -C $(PROJECTS) -xf $(DOWNLOAD)/" ++ name ++ archive), line "touch $@"]

def zlibConfigure : Rule := untar "$(ZLIB)" ".tar.xz"

def libpngConfigure : Rule := untar "$(LIBPNG)" ".tar.xz"

def freetypeConfigure : Rule := untar "$(LIBFREETYPE)" ".tar.xz"

def libSDLmixerConfigure : Rule := untar "$(LIBSDLMIXER)" ".tar.gz"

def libSDLttfConfigure : Rule := untar "$(LIBSDLTTF)" ".tar.gz"

/-! ## Goals -/

def goal (name : String) : Rule where
  target := name
  lines _ := []

/-- `libamiga: $(LIBAMIGA) $(LIBBAMIGA)` -/
def libamigaGoal : Rule where
  target := "libamiga"
  lines _ := [line "echo \"built $(LIBAMIGA) and $(LIBBAMIGA)\""]

/-- `$(SDKS): libnix lha` -/
def sdks : Rule where
  target := "$(SDKS)"
  lines _ := [line "$(MAKE) sdk=$@"]

end Recipe

end AmigaGcc
