import AmigaGcc.Download.GetFile
import AmigaGcc.Recipe.Basic

/-!
# The recipes of the Makefile

All recipes with a logged step or with the line `echo "done" >$@`, in the order
of the Makefile. The texts are those the shell gets, with the variables of make
left in place. `stamped` lists the recipes that write their own stamp, and
`logged` those with a step.
-/

namespace AmigaGcc

namespace Recipe

open Library Shell Shell.Prog

/-- A simple command, known by its text. -/
def run (text : String) : Prog Cmd Test := cmd (.run text)

/-- `a; b; ..` -/
def commandList (texts : List String) : Prog Cmd Test := chain (texts.map run)

/-- `cd dir && text` -/
def inDir (dir text : String) : Prog Cmd Test := and (run ("cd " ++ dir)) (run text)

/-- `@text` -/
def line (text : String) : Line := .plain (run text)

/-- `$(L0)name$(L1) text $(L2)` -/
def step (name text : String) : Line := .step name (run text)

/-- `for x in loop; do .. done`, or a `while read` loop over the file `loop`. The
commands and tests of a round are known by their text and its number. -/
def each (n : Rounds) (loop : String)
    (body : (String → Prog Cmd Test) → (String → Test) → Prog Cmd Test) : Prog Cmd Test :=
  forEach (List.range (n loop)) fun i =>
    body (fun text => cmd (.round loop text i)) fun text => .inRound loop text i

/-- A command with substitutions `$(..)` among its words. Their statuses are lost. -/
def withSubsts (substs : List (Prog Cmd Test)) (p : Prog Cmd Test) : Prog Cmd Test :=
  chain (substs.map sub ++ [p])

/-- `for x in $(find); do .. done` -/
def eachFound (n : Rounds) (find : String)
    (body : (String → Prog Cmd Test) → (String → Test) → Prog Cmd Test) : Prog Cmd Test :=
  withSubsts [run find] (each n find body)

/-- `p=$(echo $p|tr -d '\n')` -/
def trimmed (run : String → Prog Cmd Test) : Prog Cmd Test :=
  pipe (run "echo $p") (run "tr -d '\\n'")

/-- The shell text of a command of `get-file`, for the URL and the file name. -/
def getFileText (url file : String) : Download.Cmd → String
  | .cdDownload => "cd $(DOWNLOAD)"
  | .mv a b => "mv " ++ nameText a ++ " " ++ nameText b
  | .wget => "wget " ++ url ++ " -O " ++ file ++ ".neu"
  | .rm a => "rm " ++ nameText a
  | .rmForce a => "rm -f " ++ nameText a
  | .cdUp => "cd .."
where
  nameText : Download.Name → String
    | .file => file
    | .bak => file ++ ".bak"
    | .neu => file ++ ".neu"

def getFileTest (file : String) : Download.Test → String
  | .nonempty a => "[ -s " ++ getFileText.nameText file a ++ " ]"
  | .same a b =>
      "[ \"$(cmp --silent " ++ getFileText.nameText file a ++ " " ++
        getFileText.nameText file b ++ "); echo $?\" == 0 ]"

/-- `$(call get-file,name,url,file)` -/
def getFile (name url file : String) : Line :=
  .step ("downloading " ++ name)
    (Download.getFile.map (fun c => .run (getFileText url file c))
      fun t => .holds (getFileTest file t))

/-! Everything these definitions build is guarded, and none of it is a stamp. -/

section Simp

variable {n : Rounds} {loop : String}

@[simp] theorem guarded_run (text : String) :
    Prog.Guarded (fun _ => True) (run text) := trivial

@[simp] theorem guarded_inDir (dir text : String) :
    Prog.Guarded (fun _ => True) (inDir dir text) := ⟨trivial, trivial, trivial, trivial⟩

@[simp] theorem guarded_commandList (texts : List String) :
    Prog.Guarded (fun _ => True) (commandList texts) := guarded_forEach fun _ => trivial

@[simp] theorem guarded_each
    {body : (String → Prog Cmd Test) → (String → Test) → Prog Cmd Test}
    (h : ∀ i, Prog.Guarded (fun _ => True)
      (body (fun text => cmd (.round loop text i)) fun text => .inRound loop text i)) :
    Prog.Guarded (fun _ => True) (each n loop body) := guarded_forEach h

@[simp] theorem guarded_withSubsts (substs : List (Prog Cmd Test)) (p : Prog Cmd Test) :
    Prog.Guarded (fun _ => True) (withSubsts substs p) ↔
      (∀ q ∈ substs, Prog.Guarded (fun _ => True) q) ∧ Prog.Guarded (fun _ => True) p := by
  induction substs with
  | nil => simp [withSubsts]
  | cons q substs ih =>
      obtain ⟨r, l, hl⟩ : ∃ r l, substs.map sub ++ [p] = r :: l := by
        cases substs <;> simp
      have hcons : withSubsts (q :: substs) p = seq (sub q) (withSubsts substs p) := by
        simp [withSubsts, hl]
      rw [hcons, List.forall_mem_cons, and_assoc, ← ih]
      rfl

@[simp] theorem guarded_eachFound
    {body : (String → Prog Cmd Test) → (String → Test) → Prog Cmd Test}
    (h : ∀ i, Prog.Guarded (fun _ => True)
      (body (fun text => cmd (.round loop text i)) fun text => .inRound loop text i)) :
    Prog.Guarded (fun _ => True) (eachFound n loop body) := by
  simpa [eachFound] using guarded_each h

@[simp] theorem guarded_trimmed (f : String → Cmd) :
    Prog.Guarded (fun _ => True) (trimmed fun text => cmd (f text)) := ⟨trivial, trivial⟩

@[simp] theorem guarded_plain_iff (p : Prog Cmd Test) :
    (Line.plain p).Guarded ↔ Prog.Guarded (fun _ => True) p := Iff.rfl

@[simp] theorem guarded_step_iff (name : String) (p : Prog Cmd Test) :
    (Line.step name p).Guarded ↔ Prog.Guarded (fun _ => True) p := Iff.rfl

@[simp] theorem guarded_cond_line (t : Test) (p q : Line) :
    (Line.cond t p q).Guarded ↔ p.Guarded ∧ q.Guarded := Iff.rfl

@[simp] theorem guarded_line (text : String) : (line text).Guarded := trivial

@[simp] theorem guarded_step (name text : String) : (step name text).Guarded := trivial

@[simp] theorem guarded_getFile (name url file : String) : (getFile name url file).Guarded :=
  (guarded_map _ _ _ _).mpr ⟨trivial, trivial, trivial, ⟨⟨⟨trivial, trivial⟩, trivial, trivial⟩,
    trivial⟩, trivial⟩

@[simp] theorem unstamped_plain (p : Prog Cmd Test) : (Line.plain p).Unstamped := trivial

@[simp] theorem unstamped_step (name : String) (p : Prog Cmd Test) :
    (Line.step name p).Unstamped := trivial

@[simp] theorem unstamped_line (text : String) : (line text).Unstamped := trivial

@[simp] theorem unstamped_logged (name text : String) : (step name text).Unstamped := trivial

end Simp

def download (name url file : String) : Rule where
  target := "$(DOWNLOAD)/" ++ file
  lines _ := [getFile name url file]

/-! ## Programs -/

def binutilsDone : Stamped where
  target := "$(BUILD)/binutils/_done"
  before _ := [
    line "touch -t 0001010000 $(PROJECTS)/binutils/binutils/arparse.y",
    line "touch -t 0001010000 $(PROJECTS)/binutils/binutils/arlex.l",
    line "touch -t 0001010000 $(PROJECTS)/binutils/ld/ldgram.y",
    line "touch -t 0001010000 $(PROJECTS)/binutils/intl/plural.y",
    step "make binutils bfd" "$(MAKE) -C $(BUILD)/binutils all-bfd",
    step "make binutils gas" "$(MAKE) -C $(BUILD)/binutils all-gas",
    step "make binutils binutils" "$(MAKE) -C $(BUILD)/binutils all-binutils",
    step "make binutils ld" "$(MAKE) -C $(BUILD)/binutils all-ld",
    step "install binutils"
      "$(MAKE) -C $(BUILD)/binutils install-gas install-binutils install-ld"]

def binutilsMakefile : Rule where
  target := "$(BUILD)/binutils/Makefile"
  lines _ := [
    line "mkdir -p $(BUILD)/binutils",
    .step "configure binutils"
      (inDir "$(BUILD)/binutils" "$(E) $(PROJECTS)/binutils/configure $(CONFIG_BINUTILS)")]

def binutilsGdb : Stamped where
  target := "$(BUILD)/binutils/_gdb"
  before _ := [
    step "make binutils configure gdb" "$(MAKE) -C $(BUILD)/binutils configure-gdb",
    step "make binutils gdb libs" "$(MAKE) -C $(BUILD)/binutils/gdb all-lib",
    step "make binutils gdb" "$(MAKE) -C $(BUILD)/binutils $(ALL_GDB)",
    step "install binutils gdb"
      "$(MAKE) -C $(BUILD)/binutils install-gas install-binutils install-ld $(INSTALL_GDB)"]

def binutilsGprof : Stamped where
  target := "$(BUILD)/binutils/_gprof"
  before _ := [
    step "make gprof" "$(MAKE) -C $(BUILD)/binutils/gprof all",
    step "install gprof" "$(MAKE) -C $(BUILD)/binutils/gprof install"]

def gprofMakefile : Rule where
  target := "$(BUILD)/binutils/gprof/Makefile"
  lines _ := [
    line "mkdir -p $(BUILD)/binutils/gprof",
    .step "configure gprof"
      (inDir "$(BUILD)/binutils/gprof" "$(E) $(PROJECTS)/binutils/gprof/configure $(CONFIG_GRPOF)")]

def gccDone : Stamped where
  target := "$(BUILD)/gcc/_done"
  before _ := [
    step "make gcc" "$(MAKE) -C $(BUILD)/gcc all-gcc",
    step "install gcc" "$(MAKE) -C $(BUILD)/gcc install-gcc"]

/-- The lines for `OWNGMP` are there when it is set. -/
def gccMakefile (owngmp : Bool) : Rule where
  target := "$(BUILD)/gcc/Makefile"
  lines _ :=
    line "mkdir -p $(BUILD)/gcc" ::
    (if owngmp then [
      line "mkdir -p $(PROJECTS)/gcc/gmp",
      line "mkdir -p $(PROJECTS)/gcc/mpc",
      line "mkdir -p $(PROJECTS)/gcc/mpfr",
      line "rsync -a --no-group $(PROJECTS)/$(GMP)/* $(PROJECTS)/gcc/gmp",
      line "rsync -a --no-group $(PROJECTS)/$(MPC)/* $(PROJECTS)/gcc/mpc",
      line "rsync -a --no-group $(PROJECTS)/$(MPFR)/* $(PROJECTS)/gcc/mpfr"]
    else []) ++ [
    .step "configure gcc"
      (inDir "$(BUILD)/gcc" "$(E) $(PROJECTS)/gcc/configure $(CONFIG_GCC)")]
  guarded _ := by cases owngmp <;> simp

def fd2sfdDone : Stamped where
  target := "$(BUILD)/fd2sfd/_done"
  before _ := []

def fd2sfd : Rule where
  target := "$(PREFIX)/bin/fd2sfd"
  lines _ := [
    step "make fd2sfd" "$(MAKE) -C $(BUILD)/fd2sfd all",
    line "mkdir -p $(PREFIX)/bin/",
    step "install fd2sfd" "$(MAKE) -C $(BUILD)/fd2sfd install"]

def fd2sfdMakefile : Rule where
  target := "$(BUILD)/fd2sfd/Makefile"
  lines _ := [
    line "mkdir -p $(BUILD)/fd2sfd",
    .step "configure fd2sfd"
      (inDir "$(BUILD)/fd2sfd" "$(E) $(PROJECTS)/fd2sfd/configure $(CONFIG_FD2SFD)")]

def fd2pragmaDone : Stamped where
  target := "$(BUILD)/fd2pragma/_done"
  before _ := []

def fd2pragma : Rule where
  target := "$(PREFIX)/bin/fd2pragma"
  lines _ := [
    line "mkdir -p $(PREFIX)/bin/",
    step "install fd2sfd" "install $(BUILD)/fd2pragma/fd2pragma $(PREFIX)/bin/"]

def fd2pragmaBuild : Rule where
  target := "$(BUILD)/fd2pragma/fd2pragma"
  lines _ := [
    line "mkdir -p $(BUILD)/fd2pragma",
    .step "make fd2sfd"
      (inDir "$(PROJECTS)/fd2pragma" "$(CC) -o $@ $(CFLAGS) fd2pragma.c")]

def iraDone : Stamped where
  target := "$(BUILD)/ira/_done"
  before _ := []

def ira : Rule where
  target := "$(PREFIX)/bin/ira"
  lines _ := [
    line "mkdir -p $(PREFIX)/bin/",
    step "install ira" "install $(BUILD)/ira/ira $(PREFIX)/bin/"]

def iraBuild : Rule where
  target := "$(BUILD)/ira/ira"
  lines _ := [
    line "mkdir -p $(BUILD)/ira",
    .step "make ira" (inDir "$(PROJECTS)/ira" "$(CC) -o $@ $(CFLAGS) *.c -std=c99")]

def sfdcDone : Stamped where
  target := "$(BUILD)/sfdc/_done"
  before _ := []

def sfdc : Rule where
  target := "$(PREFIX)/bin/sfdc"
  lines _ := [
    step "make sfdc" "$(MAKE) -C $(BUILD)/sfdc sfdc",
    line "mkdir -p $(PREFIX)/bin/",
    step "install sfdc" "install $(BUILD)/sfdc/sfdc $(PREFIX)/bin"]

def sfdcMakefile : Rule where
  target := "$(BUILD)/sfdc/Makefile"
  lines _ := [
    line "rsync -a --no-group $(PROJECTS)/sfdc $(BUILD)/ --exclude .git",
    .step "configure sfdc"
      (inDir "$(BUILD)/sfdc" "$(E) $(BUILD)/sfdc/configure $(CONFIG_SFDC)")]

def vasmDone : Stamped where
  target := "$(BUILD)/vasm/_done"
  before _ := [
    step "make vasm" "$(MAKE) -C $(BUILD)/vasm CPU=m68k SYNTAX=mot",
    line "mkdir -p $(PREFIX)/bin/",
    .step "install vasm" (commandList [
      "install $(BUILD)/vasm/vasmm68k_mot $(PREFIX)/bin/",
      "install $(BUILD)/vasm/vobjdump $(PREFIX)/bin/"])]

def vbccDone : Stamped where
  target := "$(BUILD)/vbcc/_done"
  before _ := [
    step "make vbcc dtgen" "TARGET=m68k $(MAKE) -C $(BUILD)/vbcc bin/dtgen",
    .plain (inDir "$(BUILD)/vbcc" ("echo -e \"y\\\\ny\\\\nsigned char\\\\ny\\\\n" ++
      "unsigned char\\\\nn\\\\ny\\\\nsigned short\\\\nn\\\\ny\\\\n" ++
      "unsigned short\\\\nn\\\\ny\\\\n" ++
      "signed int\\\\nn\\\\ny\\\\nunsigned int\\\\nn\\\\ny\\\\nsigned long long\\\\nn\\\\ny\\\\n" ++
      "unsigned long long\\\\nn\\\\ny\\\\nfloat\\\\nn\\\\ny\\\\ndouble\\\\n\" >c.txt")),
    .step "run vbcc dtgen" (inDir "$(BUILD)/vbcc"
      "bin/dtgen machines/m68k/machine.dt machines/m68k/dt.h machines/m68k/dt.c <c.txt"),
    step "make vbcc" "TARGET=m68k $(MAKE) -C $(BUILD)/vbcc",
    line "mkdir -p $(PREFIX)/bin/",
    line "rm -rf $(BUILD)/vbcc/bin/*.dSYM",
    step "install vbcc" "install $(BUILD)/vbcc/bin/v* $(PREFIX)/bin/"]

def vlinkDone : Stamped where
  target := "$(BUILD)/vlink/_done"
  before _ := [
    .step "make vlink" (inDir "$(BUILD)/vlink" "TARGET=m68k $(MAKE)"),
    line "mkdir -p $(PREFIX)/bin/",
    step "install vlink" "install $(BUILD)/vlink/vlink $(PREFIX)/bin/"]

/-- `[ ! -e "$(which lha 2>/dev/null)" ]` -/
def lhaMissing : Test := .holds "[ ! -e \"$(which lha 2>/dev/null)\" ]"

def cloneLha : Cmd := .run "git clone -b $(lha_BRANCH) $(lha_URL)"

def configureLha : Cmd := .run "./configure"

def makeLha : Cmd := .run "make all"

/-- The steps of `_lha_done` before the last one. -/
def buildLha : Line :=
  .chain [
    .plain (inDir "$(BUILD)" "rm -rf lha"),
    .step "clone lha" (cmd cloneLha),
    line "cd lha",
    .step "configure lha"
      (chain [run "aclocal", run "autoheader", run "automake -a", run "autoconf",
        cmd configureLha]),
    .step "make lha" (cmd makeLha)]

def mkdirLha : Cmd := .run "mkdir -p $(PREFIX)/bin/"

def installLha : Line :=
  .step "install lha"
    (chain [cmd mkdirLha, run "install src/lha$(EXEEXT) $(PREFIX)/bin/lha$(EXEEXT)"])

/-- The one shell of `_lha_done`, with its four steps. -/
def lhaLine : Line := .cond lhaMissing (.seq buildLha installLha) (.plain skip)

def lhaDone : Stamped where
  target := "$(BUILD)/_lha_done"
  before _ := [lhaLine]
  guarded _ := by simp [lhaLine, buildLha, installLha, Line.chain, Line.Guarded]
  unstamped _ := by simp [lhaLine, buildLha, installLha, Line.chain, Line.Unstamped]

/-- The recipes of both targets of vbcc: after the stamp they write `config`. -/
def vbccTargetDone (name stepName source config : String) : Stamped where
  target := "$(BUILD)/vbcc_target_" ++ name ++ "/_done"
  before _ := [
    line ("mkdir -p $(PREFIX)/" ++ name ++ "/vbcc/include"),
    step "copying vbcc headers" ("rsync --no-group $(BUILD)/vbcc_target_" ++ name ++
      "/targets/" ++ name ++ "/include/* $(PREFIX)/" ++ name ++ "/vbcc/include"),
    line ("mkdir -p $(PREFIX)/" ++ name ++ "/vbcc/lib"),
    step "copying vbcc headers" ("rsync --no-group $(BUILD)/vbcc_target_" ++ name ++
      "/targets/" ++ name ++ "/lib/* $(PREFIX)/" ++ name ++ "/vbcc/lib")]
  after _ := [
    .step stepName (commandList [
      "$(SED) -e \"s|PREFIX|$(PREFIX)|g\" patches/" ++ source ++
        " >$(BUILD)/vasm/" ++ config,
      "install $(BUILD)/vasm/" ++ config ++ " $(PREFIX)/bin/"])]

def vbccTargetKick13Done : Stamped :=
  vbccTargetDone "m68k-kick13" "creating vbcc kick13 config" "kick13.config" "kick13.config"

def vbccTargetAmigaosDone : Stamped :=
  vbccTargetDone "m68k-amigaos" "creating vbcc config" "vc.config" "vc.config"

def vbccTargetInfo (name : String) : Rule where
  target := "$(BUILD)/vbcc_target_" ++ name ++ ".info"
  lines _ := [
    .step ("unpack vbcc_target_" ++ name)
      (inDir "$(BUILD)" ("lha xf $(DOWNLOAD)/vbcc_target_" ++ name ++ ".lha")),
    line ("touch $(BUILD)/vbcc_target_" ++ name ++ ".info")]

def vbccTargetKick13Lha : Rule :=
  download "vbcc_target13" "http://aminet.net/dev/c/vbcc_target_m68k-kick13.lha"
    "vbcc_target_m68k-kick13.lha"

def vbccTargetAmigaosLha : Rule :=
  download "vbcc_target" "http://aminet.net/dev/c/vbcc_target_m68k-amiga.lha"
    "vbcc_target_m68k-amigaos.lha"

/-! ## NDK -/

def ndkIncludeNdk : Stamped where
  target := "$(BUILD)/ndk-include_ndk"
  before _ := [
    line "$(MAKE) ndk_inc=1 ndk-proto ndk-lvo ndk-inline ndk-inline-vbcc",
    line "mkdir -p $(BUILD)/ndk-include/"]

/-- The `sed` that adds `__stdargs` in a loop over headers. -/
def stdargsSed : String :=
  "LC_CTYPE=C $(SED) -i.bak -E " ++
    "'s/([a-zA-Z0-9 _]*)([[:blank:]]+|\\*)([a-zA-Z0-9_]+)\\(/\\1\\2 __stdargs \\3(/g' $i"

/-- The body of both steps that add `__stdargs`. -/
def stdargs (n : Rounds) (loop : String) : Prog Cmd Test :=
  eachFound n loop fun run _ => chain [run "echo $i", run stdargsSed, run "rm $i.bak"]

@[simp] theorem guarded_stdargs (n : Rounds) (loop : String) :
    Prog.Guarded (fun _ => True) (stdargs n loop) := by
  simp [stdargs]

def ndkIncludeNdk0 : Stamped where
  target := "$(BUILD)/ndk-include_ndk0"
  before n := [
    line "mkdir -p $(PREFIX)/$(TARGET)/ndk-include",
    line ("rsync -a --no-group $(PROJECTS)/$(NDK_FOLDER_NAME_H)/* " ++
      "$(PREFIX)/$(TARGET)/ndk-include --exclude proto --exclude inline"),
    .step "STDARGing ndk"
      (stdargs n "find $(PREFIX)/$(TARGET)/ndk-include/clib/*protos.h -type f"),
    line ("rsync -a --no-group $(PROJECTS)/$(NDK_FOLDER_NAME_I)/* " ++
      "$(PREFIX)/$(TARGET)/ndk-include"),
    line "mkdir -p $(PREFIX)/$(TARGET)/ndk/lib/fd",
    line "mkdir -p $(PREFIX)/$(TARGET)/ndk/lib/sfd",
    line "mkdir -p $(PREFIX)/$(TARGET)/ndk/lib/libs",
    line ("rsync -a --no-group $(PROJECTS)/$(NDK_FOLDER_NAME_FD)/* " ++
      "$(PREFIX)/$(TARGET)/ndk/lib/fd"),
    line ("rsync -a --no-group $(PROJECTS)/$(NDK_FOLDER_NAME_SFD)/* " ++
      "$(PREFIX)/$(TARGET)/ndk/lib/sfd"),
    line ("rsync -a --no-group $(PROJECTS)/$(NDK_FOLDER_NAME_LIBS)/* " ++
      "$(PREFIX)/$(TARGET)/ndk/lib/libs"),
    line "mkdir -p $(PREFIX)/$(TARGET)/ndk-include/proto",
    line ("cp -p $(PROJECTS)/$(NDK_FOLDER_NAME_H)/proto/alib.h " ++
      "$(PREFIX)/$(TARGET)/ndk-include/proto"),
    line ("cp -p $(PROJECTS)/$(NDK_FOLDER_NAME_H)/proto/cardres.h " ++
      "$(PREFIX)/$(TARGET)/ndk-include/proto"),
    line "mkdir -p $(PREFIX)/$(TARGET)/ndk-include/inline",
    line ("cp -p $(PROJECTS)/fd2sfd/cross/share/m68k-amigaos/alib.h " ++
      "$(PREFIX)/$(TARGET)/ndk-include/inline"),
    line ("cp -p $(PROJECTS)/fd2pragma/Include/inline/stubs.h " ++
      "$(PREFIX)/$(TARGET)/ndk-include/inline"),
    line ("cp -p $(PROJECTS)/fd2pragma/Include/inline/macros.h " ++
      "$(PREFIX)/$(TARGET)/ndk-include/inline"),
    line "mkdir -p $(BUILD)/ndk-include/"]

/-- The rules of one header or include file that `sfdc` makes from a `.sfd` file:
the target, its step and the options. -/
def sfdcRule (target stepName machine mode sfd : String) : Rule where
  target := target
  lines _ := [
    step stepName ("sfdc --target=" ++ machine ++ " --mode=" ++ mode ++ " --output=$@ " ++ sfd)]

def ndkIncludeInlineHeader : Rule :=
  sfdcRule "$(NDK_INCLUDE_INLINE)" "sfdc inline $(@F)" "m68k-amigaos" "macros"
    ("$(patsubst $(PREFIX)/$(TARGET)/ndk-include/inline/%.h," ++
      "$(PROJECTS)/$(NDK_FOLDER_NAME_SFD)/%_lib.sfd,$@)")

def ndkIncludeInlineVbcc : Rule :=
  sfdcRule "$(NDK_INCLUDE_INLINE_VBCC)" "sfdc inline vbcc $(@F)" "m68kvbcc-amigaos" "macros"
    ("$(patsubst $(PREFIX)/$(TARGET)/ndk-include/inline/%_protos.h," ++
      "$(PROJECTS)/$(NDK_FOLDER_NAME_SFD)/%_lib.sfd,$@)")

def ndkIncludeLvoFile : Rule :=
  sfdcRule "$(NDK_INCLUDE_LVO)" "sfdc lvo $(@F)" "m68k-amigaos" "lvo"
    ("$(patsubst $(PREFIX)/$(TARGET)/ndk-include/lvo/%_lib.i," ++
      "$(PROJECTS)/$(NDK_FOLDER_NAME_SFD)/%_lib.sfd,$@)")

def ndkIncludeProtoHeader : Rule :=
  sfdcRule "$(NDK_INCLUDE_PROTO)" "sfdc proto $(@F)" "m68k-amigaos" "proto"
    ("$(patsubst $(PREFIX)/$(TARGET)/ndk-include/proto/%.h," ++
      "$(PROJECTS)/$(NDK_FOLDER_NAME_SFD)/%_lib.sfd,$@)")

def ndkIncludeInline : Stamped where
  target := "$(BUILD)/ndk-include_inline"
  before _ := [
    line "mkdir -p $(PREFIX)/$(TARGET)/ndk-include/inline",
    line "mkdir -p $(BUILD)/ndk-include/"]

def ndkIncludeLvo : Stamped where
  target := "$(BUILD)/ndk-include_lvo"
  before _ := [
    line "mkdir -p $(PREFIX)/$(TARGET)/ndk-include/lvo",
    line "mkdir -p $(PREFIX)/$(TARGET)/ndk13-include/lvo",
    line "mkdir -p $(BUILD)/ndk-include/"]

def ndkIncludeProto : Stamped where
  target := "$(BUILD)/ndk-include_proto"
  before _ := [
    line "mkdir -p $(PREFIX)/$(TARGET)/ndk-include/proto",
    line "mkdir -p $(PREFIX)/$(TARGET)/ndk13-include/proto",
    line "mkdir -p $(BUILD)/ndk-include/"]

def ndkInfo : Rule where
  target := "$(PROJECTS)/$(NDK_FOLDER_NAME).info"
  lines n := [
    .step "unpack ndk" (chain [
      and (run "cd $(PROJECTS)")
        (cond (.holds "[[ $(NDK_ARC_NAME) == \"NDK3.2\" ]]")
          (commandList ["mkdir NDK3.2", "cd NDK3.2"]) skip),
      run "lha xf $(DOWNLOAD)/$(NDK_ARC_NAME).lha"]),
    line "touch -t 0001010000 $(DOWNLOAD)/$(NDK_ARC_NAME).lha",
    .step "patch ndk" (eachFound n "find patches/$(NDK_FOLDER_NAME)/ -type f" fun run test =>
      cond (test "[[ \"$i\" == *.diff ]]")
        (chain [skip, run "patch -N \"$(PROJECTS)/$\x7bj%.diff\x7d\" \"$i\""])
        (run "cp -pv \"$i\" \"$(PROJECTS)/$\x7bi:8\x7d\"")),
    line "touch $(PROJECTS)/$(NDK_FOLDER_NAME).info"]
  guarded _ := by simp [commandList, run, Prog.Straight, Prog.All]

def ndkLha : Rule := download "$(NDK_ARC_NAME)" "$(NDK_URL)" "$(NDK_ARC_NAME).lha"

def ndkIncludeNdk13 : Stamped where
  target := "$(BUILD)/ndk-include_ndk13"
  before n := [
    .plain (each n "patches/ndk13/hfiles" fun run _ => chain [
      trimmed run,
      withSubsts [run "dirname $p"]
        (run "mkdir -p $(PREFIX)/$(TARGET)/ndk13-include/$(dirname $p)"),
      run ("cp $(PREFIX)/$(TARGET)/ndk-include/$p " ++
        "$(PREFIX)/$(TARGET)/ndk13-include/$p")]),
    .step "extract ndk13" (each n "patches/ndk13/chfiles" fun run test => chain [
      trimmed run,
      withSubsts [run "dirname $p"]
        (run "mkdir -p $(PREFIX)/$(TARGET)/ndk13-include/$(dirname $p)"),
      cond (test "grep V36 $(PREFIX)/$(TARGET)/ndk-include/$p")
        (chain [
          pipe
            (run ("LC_CTYPE=C $(SED) -n -e '/#ifndef[[:space:]]*CLIB/,/V36/p' " ++
              "$(PREFIX)/$(TARGET)/ndk-include/$p"))
            (run ("$(SED) -e 's/__stdargs//g' " ++
              ">$(PREFIX)/$(TARGET)/ndk13-include/$p")),
          run ("echo -e \"#ifdef __cplusplus\\n\x7d\\n#endif /* __cplusplus */\\n#endif\" " ++
            ">>$(PREFIX)/$(TARGET)/ndk13-include/$p")])
        (run ("LC_CTYPE=C $(SED) $(PREFIX)/$(TARGET)/ndk-include/$p " ++
          "-e 's/__stdargs//g' >$(PREFIX)/$(TARGET)/ndk13-include/$p"))]),
    .plain (each n "patches/ndk13/ehfiles" fun run _ => chain [
      trimmed run,
      withSubsts [run "dirname $p"]
        (run "mkdir -p $(PREFIX)/$(TARGET)/ndk13-include/$(dirname $p)"),
      run "echo \"\" >$(PREFIX)/$(TARGET)/ndk13-include/$p"]),
    line "echo '#undef\tEXECNAME' > $(PREFIX)/$(TARGET)/ndk13-include/exec/execname.h",
    line ("echo '#define\tEXECNAME\t\"exec.library\"' >> " ++
      "$(PREFIX)/$(TARGET)/ndk13-include/exec/execname.h"),
    line "mkdir -p $(PREFIX)/$(TARGET)/ndk/lib/fd13",
    .plain (each n "patches/ndk13/fdfiles" fun run _ => chain [
      trimmed run,
      run ("LC_CTYPE=C $(SED) -n -e '/##base/,/V36/P' $(PREFIX)/$(TARGET)/ndk/lib/fd/$p " ++
        ">$(PREFIX)/$(TARGET)/ndk/lib/fd13/$p")]),
    line "mkdir -p $(PREFIX)/$(TARGET)/ndk/lib/sfd13",
    .plain (each n "$(PREFIX)/$(TARGET)/ndk/lib/fd13/*" fun run _ =>
      withSubsts [run "basename $i _lib.fd", run "basename $i .fd"]
        (run ("fd2sfd $i $(PREFIX)/$(TARGET)/ndk13-include/clib/$(basename $i _lib.fd)_protos.h" ++
          " > $(PREFIX)/$(TARGET)/ndk/lib/sfd13/$(basename $i .fd).sfd"))),
    -- both have the same substitution, which is named after the file it is part of
    .step "macros+protos ndk13" (each n "$(PREFIX)/$(TARGET)/ndk/lib/sfd13/*" fun run _ =>
      chain [
        withSubsts [run "inline/$(basename $i _lib.sfd).h"]
          (run ("sfdc --target=m68k-amigaos --mode=macros " ++
            "--output=$(PREFIX)/$(TARGET)/ndk13-include/inline/$(basename $i _lib.sfd).h $i")),
        withSubsts [run "proto/$(basename $i _lib.sfd).h"]
          (run ("sfdc --target=m68k-amigaos --mode=proto " ++
            "--output=$(PREFIX)/$(TARGET)/ndk13-include/proto/$(basename $i _lib.sfd).h $i"))]),
    .step "STDARGing ndk13"
      (stdargs n "find $(PREFIX)/$(TARGET)/ndk13-include/clib/*protos.h -type f")]

/-! ## Libraries -/

def netincludeDone : Stamped where
  target := "$(BUILD)/_netinclude"
  before _ := [
    line "mkdir -p $(PREFIX)/$(TARGET)/ndk-include",
    line ("rsync -a --no-group $(PROJECTS)/amiga-netinclude/include/* " ++
      "$(PREFIX)/$(TARGET)/ndk-include")]

def libnixMake (target : String) : String :=
  "$(MAKE) -C $(BUILD)/libnix -f $(PROJECTS)/libnix/Makefile.gcc6 " ++
    "root=$(PROJECTS)/libnix " ++ target

def libnixDone : Stamped where
  target := "$(BUILD)/libnix/_done"
  before _ := [
    line "mkdir -p $(PREFIX)/$(TARGET)/libnix/lib/libnix",
    line "mkdir -p $(BUILD)/libnix",
    line "mkdir -p $(PREFIX)/lib/gcc/$(TARGET)/$(GCC_VERSION)",
    .plain (cond (.holds "[ ! -e $(PREFIX)/lib/gcc/$(TARGET)/$(GCC_VERSION)/libgcc.a ]")
      (run ("$(PREFIX)/bin/$(TARGET)-ar rcs " ++
        "$(PREFIX)/lib/gcc/$(TARGET)/$(GCC_VERSION)/libgcc.a")) skip),
    step "make libnix" ("CFLAGS=\"$(CFLAGS_FOR_TARGET)\" " ++ libnixMake "all"),
    step "install libnix" (libnixMake "install"),
    line ("rsync --delete -a --no-group $(PROJECTS)/libnix/sources/headers/* " ++
      "$(PREFIX)/$(TARGET)/libnix/include/")]

def libgccDone : Stamped where
  target := "$(BUILD)/gcc/_libgcc_done"
  before _ := [
    step "make libgcc" "$(MAKE) -C $(BUILD)/gcc all-target",
    step "install libgcc" "$(MAKE) -C $(BUILD)/gcc install-target"]

def libnix4Library : Rule where
  target := "$(BUILD)/libnix/libb/libnix4.library"
  lines _ := [
    step "make libnix4.library"
      ("CFLAGS=\"$(CFLAGS_FOR_TARGET)\" " ++ libnixMake "libb/libnix4.library")]

def clib2Done : Stamped where
  target := "$(BUILD)/clib2/_done"
  before _ := [
    line "mkdir -p $(BUILD)/clib2/",
    line "rsync -a --no-group $(PROJECTS)/clib2/library/* $(BUILD)/clib2",
    .plain (inDir "$(BUILD)/clib2" "find * -name lib\\*.a -delete"),
    step "make clib2" "$(MAKE) -C $(BUILD)/clib2 -f GNUmakefile.68k -j1",
    line "mkdir -p $(PREFIX)/$(TARGET)/clib2",
    line "rsync -a --no-group $(BUILD)/clib2/include $(PREFIX)/$(TARGET)/clib2",
    line "rsync -a --no-group $(BUILD)/clib2/lib $(PREFIX)/$(TARGET)/clib2"]

def libdebugDone : Stamped where
  target := "$(BUILD)/libdebug/_done"
  before _ := [
    step "make libdebug" "$(MAKE) -C $(BUILD)/libdebug",
    line "cp $(BUILD)/libdebug/libdebug.a $(PREFIX)/$(TARGET)/lib/"]

def libdebugMakefile : Rule where
  target := "$(BUILD)/libdebug/Makefile"
  lines _ := [
    line "mkdir -p $(BUILD)/libdebug",
    .step "configure libdebug" (inDir "$(BUILD)/libdebug"
      ("LD=$(TARGET)-ld CC=$(TARGET)-gcc CFLAGS=\"$(CFLAGS_FOR_TARGET)\" " ++
        "$(PROJECTS)/libdebug/configure $(CONFIG_LIBDEBUG)"))]

/-- A step that installs one variant of libpthread. -/
def installLibpthread (variant dir : String) : Line :=
  step ("install libpthread " ++ variant)
    ("cp $(BUILD)/libpthread/" ++ variant ++ "/libpthread.a $(PREFIX)/$(TARGET)/" ++ dir)

def libpthreadDone : Stamped where
  target := "$(BUILD)/libpthread/_done"
  before _ := [
    line ("rsync -a --no-group --exclude=debug.h $(BUILD)/libpthread/*.h " ++
      "$(PREFIX)/$(TARGET)/include/"),
    .step "make libpthread" (inDir "$(BUILD)/libpthread" "$(MAKE) -f Makefile.gcc6"),
    installLibpthread "lib" "lib/",
    installLibpthread "libb" "lib/libb/",
    installLibpthread "libm020" "lib/libm020/",
    installLibpthread "libm020bb" "lib/libb/libm020/",
    installLibpthread "libm020bb32" "lib/libb32/libm020/"]
  guarded _ := by simp [installLibpthread]
  unstamped _ := by simp [installLibpthread]

def newlibDone : Stamped where
  target := "$(BUILD)/newlib/_done"
  before _ := []

def newlibLibc : Rule where
  target := "$(BUILD)/newlib/newlib/libc.a"
  lines n := [
    line ("rsync -a --no-group $(PROJECTS)/newlib-cygwin/newlib/libc/include/ " ++
      "$(PREFIX)/$(TARGET)/sys-include"),
    line ("rsync -a --no-group " ++
      "$(PROJECTS)/newlib-cygwin/newlib/libc/sys/amigaos/include/stabs.h " ++
      "$(PREFIX)/$(TARGET)/sys-include"),
    step "make newlib" "$(MAKE) -C $(BUILD)/newlib/newlib",
    step "install newlib" "$(MAKE) -C $(BUILD)/newlib/newlib install",
    .plain (eachFound n "find $(PREFIX)/$(TARGET)/lib/* -name libm.a" fun run _ =>
      run "ln -sf $x $\x7bx%*m.a\x7d__m__.a"),
    line "touch $@"]

/-- The configure step of newlib is one branch of an `if`. -/
def newlibMakefile : Rule where
  target := "$(BUILD)/newlib/newlib/Makefile"
  lines _ := [
    line "mkdir -p $(BUILD)/newlib/newlib",
    .cond (.holds "[ ! -f \"$(BUILD)/newlib/newlib/Makefile\" ]")
      (.step "configure newlib" (inDir "$(BUILD)/newlib/newlib"
        ("$(NEWLIB_CONFIG) CFLAGS=\"$(CFLAGS_FOR_TARGET)\" CC_FOR_BUILD=\"$(CC)\" " ++
          "CXXFLAGS=\"$(CXXFLAGS_FOR_TARGET)\" $(PROJECTS)/newlib-cygwin/newlib/configure " ++
          "--host=$(TARGET) --prefix=$(PREFIX) --enable-newlib-io-long-long " ++
          "--enable-newlib-io-c99-formats --enable-newlib-reent-small --enable-newlib-mb " ++
          "--enable-newlib-long-time_t")))
      (line "touch \"$(BUILD)/newlib/newlib/Makefile\"")]

def ixemul : Rule where
  target := "$(PREFIX)/$(TARGET)/ixemul/lib/libc.a"
  lines _ := [
    line "mkdir -p $(PREFIX)/$(TARGET)/ixemul",
    step "installing ixemul-sdk"
      "rsync -a --no-group $(BUILD)/ixemul/* $(PREFIX)/$(TARGET)/ixemul/"]

def ixemulBuild : Rule where
  target := "$(BUILD)/ixemul/lib/libc.a"
  lines _ := [
    line "mkdir -p $(BUILD)/ixemul",
    .step "unpacking ixemul-sdk.lha"
      (inDir "$(BUILD)/ixemul" "lha xf $(DOWNLOAD)/ixemul-sdk.lha")]

def ixemulLha : Rule :=
  download "ixemul-sdk" "https://aminet.net/util/libs/ixemul-sdk.lha" "ixemul-sdk.lha"

def sdk : Rule where
  target := "sdk"
  lines _ := [step "sdk $(sdk)" "$(PWD)/sdk/install install $(sdk) $(PREFIX)"]

/-! ## Multilib support -/

/-- `MULTI`: the directories below the module's own, and the flags for each, with
`_` for a blank. -/
def multi : List (String × String) :=
  [("/.", ""), ("/libm020", "-m68020"), ("/libm020/libm881", "-m68020_-m68881"),
    ("/libb", "-fbaserel"), ("/libb/libm020", "-fbaserel_-m68020"),
    ("/libb/libm020/libm881", "-fbaserel_-m68020_-m68881"),
    ("/libb32/libm020", "-fbaserel32_-m68020"),
    ("/libb32/libm020/libm881", "-fbaserel32_-m68020_-m68881")]

/-- `$(subst _, ,flags)` -/
def flags (s : String) : String :=
  String.ofList (s.toList.map fun c => if c = '_' then ' ' else c)

/-- `COPY_MULTILIBS` -/
def copyMultilibs (name src dst : String) : Line :=
  .plain (forEach multi fun t =>
    run ("cp $(BUILD)/" ++ name ++ t.1 ++ "/" ++ src ++ " $(BUILD)/" ++ name ++ t.1 ++ "/" ++ dst))

/-- `INSTALL_MULTILIBS` -/
def installMultilibs (name lib : String) : Line :=
  .step ("install " ++ name) (forEach multi fun t =>
    run ("rsync -av --no-group $(BUILD)/" ++ name ++ t.1 ++ "/" ++ lib ++ " $(PREFIX)/lib" ++ t.1))

/-- `MULTIMAKE` -/
def multimake (name : String) : Line :=
  .step ("make " ++ name) (forEach multi fun t => run ("$(MAKE) -C $(BUILD)/" ++ name ++ t.1))

/-- `MULTICONFIGURE` -/
def multiconfigure (name args : String) : Line :=
  .step ("configure " ++ name) (forEach multi fun t =>
    and (and (run ("mkdir -p $(BUILD)/" ++ name ++ t.1)) (run ("cd $(BUILD)/" ++ name ++ t.1)))
      (run ("PKG_CONFIG=/bin/false CC=$(TARGET)-gcc CXX=$(TARGET)-g++ AR=$(TARGET)-ar " ++
        "LD=$(TARGET)-ld CFLAGS=\"" ++ flags t.2 ++
        " -noixemul $(CFLAGS_FOR_TARGET)\" $(PROJECTS)/" ++ name ++ "/configure " ++ args)))

/-- `MULTICC_SDLMIXER` and `MULTICC_SDLTTF`. The text of the last command names the
variant, since `ar` is the same for all. -/
def multicc (name lib : String) : Line :=
  .step ("compiling " ++ name) (forEach multi fun t =>
    and (and (run ("cd $(BUILD)/" ++ name ++ t.1))
        (run ("$(TARGET)-gcc -c $(grep \"CFLAGS  =\" Makefile | cut -d \"=\" -f 2 | " ++
          "sed -e 's|srcdir|$(PROJECTS)/" ++ name ++ t.1 ++ ":" ++ t.2 ++ "|g') " ++
          "$(grep \"EXTRA_CFLAGS =\" Makefile | cut -d \"=\" -f 2) " ++
          "-I $(PREFIX)/include/SDL $(PROJECTS)/" ++ name ++ "/*.c")))
      (run ("$(TARGET)-ar rcs " ++ lib ++ " *.o (" ++ t.1 ++ ")")))

def copyInclude (src : String) : Line :=
  line ("rsync -a --no-group " ++ src ++ " $(PREFIX)/include/")

section Simp

variable (name lib : String)

@[simp] theorem guarded_copyInclude : (copyInclude name).Guarded := trivial

@[simp] theorem guarded_copyMultilibs (src dst : String) :
    (copyMultilibs name src dst).Guarded := guarded_forEach fun _ => trivial

@[simp] theorem guarded_installMultilibs : (installMultilibs name lib).Guarded :=
  guarded_forEach fun _ => trivial

@[simp] theorem guarded_multimake : (multimake name).Guarded :=
  guarded_forEach fun _ => trivial

@[simp] theorem guarded_multiconfigure (args : String) : (multiconfigure name args).Guarded :=
  guarded_forEach fun _ =>
    ⟨⟨trivial, trivial, trivial, trivial⟩, trivial, trivial, trivial, trivial⟩

@[simp] theorem guarded_multicc : (multicc name lib).Guarded :=
  guarded_forEach fun _ =>
    ⟨⟨trivial, trivial, trivial, trivial⟩, trivial, trivial, trivial, trivial⟩

end Simp

def zlibDone : Stamped where
  target := "$(BUILD)/$(ZLIB)/_done"
  before _ := []

def zlib : Rule where
  target := "$(PREFIX)/lib/libz.a"
  lines _ := [
    copyInclude "$(PROJECTS)/$(ZLIB)/zlib.h",
    copyInclude "$(BUILD)/$(ZLIB)/zconf.h",
    installMultilibs "$(ZLIB)" "libz.a",
    line "touch $@"]

def multilib (name lib : String) : Rule where
  target := "$(BUILD)/" ++ name ++ "/" ++ lib
  lines _ := [multimake name, line "touch $@"]

/-- The Makefiles of a module for all variants. -/
def multilibMakefile (name args : String) : Rule where
  target := "$(BUILD)/" ++ name ++ "/Makefile"
  lines _ := [multiconfigure name args, line "touch $@"]

def zlibBuild : Rule := multilib "$(ZLIB)" "libz.a"

def zlibMakefile : Rule := multilibMakefile "$(ZLIB)" ""

def zlibTar : Rule :=
  download "zlib" "https://zlib.net/$(ZLIB).tar.xz" "$(ZLIB).tar.xz"

def libpngDone : Stamped where
  target := "$(BUILD)/$(LIBPNG)/_done"
  before _ := []

def libpng : Rule where
  target := "$(PREFIX)/lib/libpng.a"
  lines _ := [
    copyInclude "$(PROJECTS)/$(LIBPNG)/png.h",
    copyInclude "$(PROJECTS)/$(LIBPNG)/pngconf.h",
    copyInclude "$(BUILD)/$(LIBPNG)/pnglibconf.h",
    copyMultilibs "$(LIBPNG)" ".libs/libpng16.a" "libpng.a",
    installMultilibs "$(LIBPNG)" "libpng.a",
    line "touch $@"]

def libpngBuild : Rule := multilib "$(LIBPNG)" "libpng.a"

def libpngMakefile : Rule := multilibMakefile "$(LIBPNG)" "--host=$(TARGET)"

def libpngTar : Rule :=
  download "libpng16" ("https://sourceforge.net/projects/libpng/files/libpng16/" ++
    "$(subst libpng-,,$(LIBPNG))/$(LIBPNG).tar.xz") "$(LIBPNG).tar.xz"

def freetypeDone : Stamped where
  target := "$(BUILD)/$(LIBFREETYPE)/_done"
  before _ := []

def freetype : Rule where
  target := "$(PREFIX)/lib/libfreetype.a"
  lines _ := [
    copyInclude "$(PROJECTS)/$(LIBFREETYPE)/include/ft2build.h",
    copyInclude "$(PROJECTS)/$(LIBFREETYPE)/include/freetype",
    copyMultilibs "$(LIBFREETYPE)" ".libs/libfreetype.a" "libfreetype.a",
    installMultilibs "$(LIBFREETYPE)" "libfreetype.a",
    line "touch $@"]

def freetypeBuild : Rule := multilib "$(LIBFREETYPE)" "libfreetype.a"

def freetypeMakefile : Rule :=
  multilibMakefile "$(LIBFREETYPE)" "--host=$(TARGET) --disable-shared"

def freetypeTar : Rule :=
  download "$(LIBFREETYPE)"
    "https://download.savannah.gnu.org/releases/freetype/$(LIBFREETYPE).tar.xz"
    "$(LIBFREETYPE).tar.xz"

def libSDL12Done : Stamped where
  target := "$(BUILD)/libSDL12/_done"
  before _ := [
    line "$(MAKE) sdk=ahi",
    line "$(MAKE) sdk=cgx",
    .step "make libSDL12" (inDir "$(BUILD)/libSDL12"
      "CFLAGS=\"$(CFLAGS_FOR_TARGET)\" $(MAKE) -f Makefile $(CONFIG_LIBSDL12)"),
    step "install libSDL12" "cp $(BUILD)/libSDL12/libSDL.a $(PREFIX)/lib/",
    line "mkdir -p $(PREFIX)/include/GL",
    line "mkdir -p $(PREFIX)/include/SDL",
    line "rsync -a --no-group $(BUILD)/libSDL12/include/GL/*.i $(PREFIX)/include/GL/",
    line "rsync -a --no-group $(BUILD)/libSDL12/include/GL/*.h $(PREFIX)/include/GL/",
    line "rsync -a --no-group $(BUILD)/libSDL12/include/SDL/*.h $(PREFIX)/include/SDL/",
    line "echo '#include \"SDL/SDL.h\"' >$(PREFIX)/include/SDL.h",
    line "echo '#include \"SDL/SDL_audio.h\"' >$(PREFIX)/include/SDL_audio.h",
    line "echo '#include \"SDL/SDL_version.h\"' >$(PREFIX)/include/SDL_version.h",
    line ("echo -e 'while test $# -gt 0; do\\n  case \"$1\" in\\n   --cflags)\\n" ++
      "      echo -I$(PREFIX)/include/SDL\\n      ;;\\n  esac\\n  shift\\ndone' " ++
      "> $(PREFIX)/bin/sdl-config"),
    line "chmod 0777 $(PREFIX)/bin/sdl-config"]

def libSDLmixerDone : Stamped where
  target := "$(BUILD)/$(LIBSDLMIXER)/_done"
  before _ := []

def sdlLib (name lib header : String) : Rule where
  target := "$(PREFIX)/lib/" ++ lib
  lines _ := [
    line "mkdir -p $(PREFIX)/include/SDL",
    line ("rsync -a --no-group $(PROJECTS)/" ++ name ++ "/" ++ header ++ " $(PREFIX)/include/SDL"),
    installMultilibs name lib,
    line "touch $@"]

def sdlBuild (name lib : String) : Rule where
  target := "$(BUILD)/" ++ name ++ "/" ++ lib
  lines _ := [multicc name lib, line "touch $@"]

def sdlArgs : String := "--host=$(TARGET) --disable-shared --enable-static --prefix=$(PREFIX)"

def libSDLmixer : Rule := sdlLib "$(LIBSDLMIXER)" "libSDL_mixer.a" "SDL_mixer.h"

def libSDLmixerBuild : Rule := sdlBuild "$(LIBSDLMIXER)" "libSDL_mixer.a"

def libSDLmixerMakefile : Rule := multilibMakefile "$(LIBSDLMIXER)" sdlArgs

def libSDLmixerTar : Rule :=
  download "$(LIBSDLMIXER)" "https://github.com/SDL-mirror/SDL_mixer/archive/SDL-1.2.tar.gz"
    "$(LIBSDLMIXER).tar.gz"

def libSDLttfDone : Stamped where
  target := "$(BUILD)/$(LIBSDLTTF)/_done"
  before _ := []

def libSDLttf : Rule := sdlLib "$(LIBSDLTTF)" "libSDL_ttf.a" "SDL_ttf.h"

def libSDLttfBuild : Rule := sdlBuild "$(LIBSDLTTF)" "libSDL_ttf.a"

def libSDLttfMakefile : Rule := multilibMakefile "$(LIBSDLTTF)" sdlArgs

def libSDLttfTar : Rule :=
  download "$(LIBSDLTTF)" "https://github.com/SDL-mirror/SDL_ttf/archive/SDL-1.2.tar.gz"
    "$(LIBSDLTTF).tar.gz"

/-- The recipes that write their own stamp. -/
def stamped : List Stamped :=
  [binutilsDone, binutilsGdb, binutilsGprof, gccDone, fd2sfdDone, fd2pragmaDone, iraDone,
    sfdcDone, vasmDone, vbccDone, vlinkDone, lhaDone, vbccTargetKick13Done,
    vbccTargetAmigaosDone, ndkIncludeNdk, ndkIncludeNdk0, ndkIncludeInline, ndkIncludeLvo,
    ndkIncludeProto, ndkIncludeNdk13, netincludeDone, libnixDone, libgccDone, clib2Done,
    libdebugDone, libpthreadDone, newlibDone, zlibDone, libpngDone, freetypeDone, libSDL12Done,
    libSDLmixerDone, libSDLttfDone]

/-- The recipes with a logged step, the one for lha left out. -/
def loggedButLha : List Rule :=
  [binutilsDone.rule, binutilsMakefile, binutilsGdb.rule, binutilsGprof.rule, gprofMakefile,
    gccDone.rule, gccMakefile true, gccMakefile false, fd2sfd, fd2sfdMakefile, fd2pragma,
    fd2pragmaBuild, ira, iraBuild, sfdc, sfdcMakefile, vasmDone.rule, vbccDone.rule,
    vlinkDone.rule, vbccTargetKick13Done.rule, vbccTargetAmigaosDone.rule,
    vbccTargetInfo "m68k-kick13", vbccTargetInfo "m68k-amigaos", vbccTargetKick13Lha,
    vbccTargetAmigaosLha, ndkIncludeNdk0.rule, ndkIncludeInlineHeader, ndkIncludeInlineVbcc,
    ndkIncludeLvoFile, ndkIncludeProtoHeader, ndkInfo, ndkLha, ndkIncludeNdk13.rule,
    libnixDone.rule, libgccDone.rule, libnix4Library, clib2Done.rule, libdebugDone.rule,
    libdebugMakefile, libpthreadDone.rule, newlibLibc, newlibMakefile, ixemul, ixemulBuild,
    ixemulLha, sdk, zlib, zlibBuild, zlibMakefile, zlibTar, libpng, libpngBuild, libpngMakefile,
    libpngTar, freetype, freetypeBuild, freetypeMakefile, freetypeTar, libSDL12Done.rule,
    libSDLmixer, libSDLmixerBuild, libSDLmixerMakefile, libSDLmixerTar, libSDLttf,
    libSDLttfBuild, libSDLttfMakefile, libSDLttfTar]

def logged : List Rule := lhaDone.rule :: loggedButLha

end Recipe

end AmigaGcc
