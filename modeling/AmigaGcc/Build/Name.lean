import AmigaGcc.Library.Make.Rules
import AmigaGcc.Recipe.Sources

/-!
# The rules of the Makefile

All rules of the Makefile that build something, by name: the recipe of each
(`rule`), the rules of its prerequisites (`prereqs`) and the lists of files that
`find` adds to them (`finds`). A name stands behind the names it depends on, so
its number in the list is its rank. `TARGET` is `m68k-amigaos`, and `OWNGMP` is
not set.

The goals `vbcc`, `vlink` and `libamiga` are not declared phony, but no file of
their names is ever made; they are taken as phony like the others.
-/

namespace AmigaGcc

namespace Build

open Library Make Recipe

/-- A rule, by the file it makes or by its goal. -/
inductive Name where
  -- programs
  | binutilsConfigure | binutilsMakefile | binutilsDone | binutilsGdb | gprofMakefile
  | binutilsGprof | gccConfigure | gccMakefile | gccDone | fd2sfdConfigure | fd2sfdMakefile
  | fd2sfd | fd2sfdDone | fd2pragmaMakefile | fd2pragmaBuild | fd2pragma | fd2pragmaDone
  | iraMakefile | iraBuild | ira | iraDone | sfdcConfigure | sfdcMakefile | sfdc | sfdcDone
  | vasmProject | vasmMakefile | vasmDone | vbccProject | vbccMakefile | vbccDone | vlinkProject
  | vlinkMakefile | vlinkDone | lhaDone | vbccTargetKick13Lha | vbccTargetKick13Info
  | vbccTargetKick13Done | vbccTargetAmigaosLha | vbccTargetAmigaosInfo | vbccTargetAmigaosDone
  -- NDK
  | ndkLha | ndkInfo | ndkIncludeNdk0 | ndkIncludeInline | ndkIncludeLvo | ndkIncludeProto
  | ndkIncludeInlineHeader | ndkIncludeInlineVbcc | ndkIncludeLvoFile | ndkIncludeProtoHeader
  | ndkIncludeNdk | ndkIncludeNdk13
  -- libraries
  | netincludeReadme | netincludeDone | libamiga | libbamiga | newlibConfigure | newlibMakefile
  | newlibLibc | newlibDone | libnixMakefile | libnixDone | arosStuffMakefile | libpthreadMakefile
  | libpthreadDone | libgccDone | libnix4Library | clib2License | clib2Done | libdebugConfigure
  | libdebugMakefile | libdebugDone | ixemulConfigure | ixemulLha | ixemulBuild | ixemul
  -- modules with variants
  | zlibTar | zlibConfigure | zlibMakefile | zlibBuild | zlib | zlibDone | libpngTar
  | libpngConfigure | libpngMakefile | libpngBuild | libpng | libpngDone | freetypeTar
  | freetypeConfigure | freetypeMakefile | freetypeBuild | freetype | freetypeDone
  | libSDL12Project | libSDL12Makefile | libSDL12Done | libSDLmixerTar | libSDLmixerConfigure
  | libSDLmixerMakefile | libSDLmixerBuild | libSDLmixer | libSDLmixerDone | libSDLttfTar
  | libSDLttfConfigure | libSDLttfMakefile | libSDLttfBuild | libSDLttf | libSDLttfDone
  -- goals
  | makeBinutils | makeGdb | makeGprof | makeGcc | makeFd2sfd | makeFd2pragma | makeIra | makeSfdc
  | makeVasm | makeVbcc | makeVbccTarget | makeVlink | makeLha | makeNdk | makeNdkInline
  | makeNdkInlineVbcc | makeNdkLvo | makeNdkProto | makeNdk13 | makeNetinclude | makeLibamiga
  | makeLibnix | makeLibgcc | makeLibnix4 | makeClib2 | makeLibdebug | makeLibpthread | makeNewlib
  | makeIxemul | makeSdk | makeSdks | makeAllSdk | makeZlib | makeLibpng | makeFreetype
  | makeLibSDL12 | makeLibSDLmixer | makeLibSDLttf | makeAll | makeMin
  deriving DecidableEq, Repr

/-- The lists of files among the prerequisites: what `find` prints, the `.sfd` files
and `patches/vc.config`. -/
inductive Listed where
  | binutils | gprof | gcc | fd2sfd | fd2pragma | ira | sfdc | vasm | vbcc | vlink | vcConfig
  | ndkPatches | ndkInclude | ndkSfd | netinclude | newlib | libnix | libpthread | libgcc | clib2
  | libdebug | libSDL12
  deriving DecidableEq, Repr

namespace Name

/-- The recipe, with the target as the Makefile writes it. -/
def rule : Name → Rule
  | binutilsConfigure => Recipe.binutilsConfigure
  | binutilsMakefile => Recipe.binutilsMakefile
  | binutilsDone => Recipe.binutilsDone.rule
  | binutilsGdb => Recipe.binutilsGdb.rule
  | gprofMakefile => Recipe.gprofMakefile
  | binutilsGprof => Recipe.binutilsGprof.rule
  | gccConfigure => Recipe.gccConfigure
  | gccMakefile => Recipe.gccMakefile false
  | gccDone => Recipe.gccDone.rule
  | fd2sfdConfigure => Recipe.fd2sfdConfigure
  | fd2sfdMakefile => Recipe.fd2sfdMakefile
  | fd2sfd => Recipe.fd2sfd
  | fd2sfdDone => Recipe.fd2sfdDone.rule
  | fd2pragmaMakefile => Recipe.fd2pragmaMakefile
  | fd2pragmaBuild => Recipe.fd2pragmaBuild
  | fd2pragma => Recipe.fd2pragma
  | fd2pragmaDone => Recipe.fd2pragmaDone.rule
  | iraMakefile => Recipe.iraMakefile
  | iraBuild => Recipe.iraBuild
  | ira => Recipe.ira
  | iraDone => Recipe.iraDone.rule
  | sfdcConfigure => Recipe.sfdcConfigure
  | sfdcMakefile => Recipe.sfdcMakefile
  | sfdc => Recipe.sfdc
  | sfdcDone => Recipe.sfdcDone.rule
  | vasmProject => Recipe.vasmProject
  | vasmMakefile => Recipe.vasmMakefile
  | vasmDone => Recipe.vasmDone.rule
  | vbccProject => Recipe.vbccProject
  | vbccMakefile => Recipe.vbccMakefile
  | vbccDone => Recipe.vbccDone.rule
  | vlinkProject => Recipe.vlinkProject
  | vlinkMakefile => Recipe.vlinkMakefile
  | vlinkDone => Recipe.vlinkDone.rule
  | lhaDone => Recipe.lhaDone.rule
  | vbccTargetKick13Lha => Recipe.vbccTargetKick13Lha
  | vbccTargetKick13Info => vbccTargetInfo "m68k-kick13"
  | vbccTargetKick13Done => Recipe.vbccTargetKick13Done.rule
  | vbccTargetAmigaosLha => Recipe.vbccTargetAmigaosLha
  | vbccTargetAmigaosInfo => vbccTargetInfo "m68k-amigaos"
  | vbccTargetAmigaosDone => Recipe.vbccTargetAmigaosDone.rule
  | ndkLha => Recipe.ndkLha
  | ndkInfo => Recipe.ndkInfo
  | ndkIncludeNdk0 => Recipe.ndkIncludeNdk0.rule
  | ndkIncludeInline => Recipe.ndkIncludeInline.rule
  | ndkIncludeLvo => Recipe.ndkIncludeLvo.rule
  | ndkIncludeProto => Recipe.ndkIncludeProto.rule
  | ndkIncludeInlineHeader => Recipe.ndkIncludeInlineHeader
  | ndkIncludeInlineVbcc => Recipe.ndkIncludeInlineVbcc
  | ndkIncludeLvoFile => Recipe.ndkIncludeLvoFile
  | ndkIncludeProtoHeader => Recipe.ndkIncludeProtoHeader
  | ndkIncludeNdk => Recipe.ndkIncludeNdk.rule
  | ndkIncludeNdk13 => Recipe.ndkIncludeNdk13.rule
  | netincludeReadme => Recipe.netincludeReadme
  | netincludeDone => Recipe.netincludeDone.rule
  | libamiga => Recipe.libamiga
  | libbamiga => Recipe.libbamiga
  | newlibConfigure => Recipe.newlibConfigure
  | newlibMakefile => Recipe.newlibMakefile
  | newlibLibc => Recipe.newlibLibc
  | newlibDone => Recipe.newlibDone.rule
  | libnixMakefile => Recipe.libnixMakefile
  | libnixDone => Recipe.libnixDone.rule
  | arosStuffMakefile => Recipe.arosStuffMakefile
  | libpthreadMakefile => Recipe.libpthreadMakefile
  | libpthreadDone => Recipe.libpthreadDone.rule
  | libgccDone => Recipe.libgccDone.rule
  | libnix4Library => Recipe.libnix4Library
  | clib2License => Recipe.clib2License
  | clib2Done => Recipe.clib2Done.rule
  | libdebugConfigure => Recipe.libdebugConfigure
  | libdebugMakefile => Recipe.libdebugMakefile
  | libdebugDone => Recipe.libdebugDone.rule
  | ixemulConfigure => Recipe.ixemulConfigure
  | ixemulLha => Recipe.ixemulLha
  | ixemulBuild => Recipe.ixemulBuild
  | ixemul => Recipe.ixemul
  | zlibTar => Recipe.zlibTar
  | zlibConfigure => Recipe.zlibConfigure
  | zlibMakefile => Recipe.zlibMakefile
  | zlibBuild => Recipe.zlibBuild
  | zlib => Recipe.zlib
  | zlibDone => Recipe.zlibDone.rule
  | libpngTar => Recipe.libpngTar
  | libpngConfigure => Recipe.libpngConfigure
  | libpngMakefile => Recipe.libpngMakefile
  | libpngBuild => Recipe.libpngBuild
  | libpng => Recipe.libpng
  | libpngDone => Recipe.libpngDone.rule
  | freetypeTar => Recipe.freetypeTar
  | freetypeConfigure => Recipe.freetypeConfigure
  | freetypeMakefile => Recipe.freetypeMakefile
  | freetypeBuild => Recipe.freetypeBuild
  | freetype => Recipe.freetype
  | freetypeDone => Recipe.freetypeDone.rule
  | libSDL12Project => Recipe.libSDL12Project
  | libSDL12Makefile => Recipe.libSDL12Makefile
  | libSDL12Done => Recipe.libSDL12Done.rule
  | libSDLmixerTar => Recipe.libSDLmixerTar
  | libSDLmixerConfigure => Recipe.libSDLmixerConfigure
  | libSDLmixerMakefile => Recipe.libSDLmixerMakefile
  | libSDLmixerBuild => Recipe.libSDLmixerBuild
  | libSDLmixer => Recipe.libSDLmixer
  | libSDLmixerDone => Recipe.libSDLmixerDone.rule
  | libSDLttfTar => Recipe.libSDLttfTar
  | libSDLttfConfigure => Recipe.libSDLttfConfigure
  | libSDLttfMakefile => Recipe.libSDLttfMakefile
  | libSDLttfBuild => Recipe.libSDLttfBuild
  | libSDLttf => Recipe.libSDLttf
  | libSDLttfDone => Recipe.libSDLttfDone.rule
  | makeBinutils => goal "binutils"
  | makeGdb => goal "gdb"
  | makeGprof => goal "gprof"
  | makeGcc => goal "gcc"
  | makeFd2sfd => goal "fd2sfd"
  | makeFd2pragma => goal "fd2pragma"
  | makeIra => goal "ira"
  | makeSfdc => goal "sfdc"
  | makeVasm => goal "vasm"
  | makeVbcc => goal "vbcc"
  | makeVbccTarget => goal "vbcc-target"
  | makeVlink => goal "vlink"
  | makeLha => goal "lha"
  | makeNdk => goal "ndk"
  | makeNdkInline => goal "ndk-inline"
  | makeNdkInlineVbcc => goal "ndk-inline-vbcc"
  | makeNdkLvo => goal "ndk-lvo"
  | makeNdkProto => goal "ndk-proto"
  | makeNdk13 => goal "ndk13"
  | makeNetinclude => goal "netinclude"
  | makeLibamiga => libamigaGoal
  | makeLibnix => goal "libnix"
  | makeLibgcc => goal "libgcc"
  | makeLibnix4 => goal "libnix4.library"
  | makeClib2 => goal "clib2"
  | makeLibdebug => goal "libdebug"
  | makeLibpthread => goal "libpthread"
  | makeNewlib => goal "newlib"
  | makeIxemul => goal "ixemul"
  | makeSdk => Recipe.sdk
  | makeSdks => sdks
  | makeAllSdk => goal "all-sdk"
  | makeZlib => goal "zlib"
  | makeLibpng => goal "libpng"
  | makeFreetype => goal "libfreetype2"
  | makeLibSDL12 => goal "libSDL12"
  | makeLibSDLmixer => goal "libsdlmixer"
  | makeLibSDLttf => goal "libsdlttf"
  | makeAll => goal "all"
  | makeMin => goal "min"

def prereqs : Name → List Name
  | binutilsMakefile => [binutilsConfigure]
  | binutilsDone => [binutilsMakefile]
  | binutilsGdb => [binutilsDone]
  | gprofMakefile => [binutilsConfigure, binutilsDone]
  | binutilsGprof => [gprofMakefile]
  | gccMakefile => [gccConfigure, binutilsDone]
  | gccDone => [gccMakefile]
  | fd2sfdMakefile => [fd2sfdConfigure]
  | fd2sfd => [fd2sfdMakefile]
  | fd2sfdDone => [fd2sfd]
  | fd2pragmaBuild => [fd2pragmaMakefile]
  | fd2pragma => [fd2pragmaBuild]
  | fd2pragmaDone => [fd2pragma]
  | iraBuild => [iraMakefile]
  | ira => [iraBuild]
  | iraDone => [ira]
  | sfdcMakefile => [sfdcConfigure]
  | sfdc => [sfdcMakefile]
  | sfdcDone => [sfdc]
  | vasmMakefile => [vasmProject]
  | vasmDone => [vasmMakefile]
  | vbccMakefile => [vbccProject]
  | vbccDone => [vbccMakefile]
  | vlinkMakefile => [vlinkProject]
  | vlinkDone => [vlinkMakefile]
  | vbccTargetKick13Info => [vbccTargetKick13Lha, lhaDone]
  | vbccTargetKick13Done => [vbccTargetKick13Info, vasmDone]
  | vbccTargetAmigaosInfo => [vbccTargetAmigaosLha, lhaDone]
  | vbccTargetAmigaosDone => [vbccTargetAmigaosInfo, vasmDone]
  | ndkInfo => [lhaDone, ndkLha]
  | ndkIncludeNdk0 => [ndkInfo, fd2sfdDone, fd2pragmaDone]
  | ndkIncludeInline => [ndkInfo]
  | ndkIncludeLvo => [ndkInfo]
  | ndkIncludeProto => [ndkInfo]
  | ndkIncludeInlineHeader => [
      sfdc, ndkIncludeInline, ndkIncludeLvo, ndkIncludeProto, ndkIncludeNdk0]
  | ndkIncludeInlineVbcc => [
      sfdc, ndkIncludeInline, ndkIncludeLvo, ndkIncludeProto, ndkIncludeNdk0]
  | ndkIncludeLvoFile => [sfdc, ndkIncludeLvo, ndkIncludeNdk0]
  | ndkIncludeProtoHeader => [sfdc, ndkIncludeProto, ndkIncludeNdk0]
  | ndkIncludeNdk => [
      ndkIncludeNdk0, ndkIncludeInlineHeader, ndkIncludeInlineVbcc, ndkIncludeLvoFile,
      ndkIncludeProtoHeader, fd2sfdConfigure, fd2pragmaMakefile]
  | ndkIncludeNdk13 => [ndkIncludeNdk, fd2sfdDone, sfdcDone]
  | netincludeDone => [netincludeReadme, ndkIncludeNdk]
  | newlibMakefile => [newlibConfigure, ndkIncludeNdk, gccDone]
  | newlibLibc => [newlibMakefile]
  | newlibDone => [newlibLibc]
  | libnixDone => [
      newlibDone, ndkIncludeNdk, ndkIncludeNdk13, netincludeDone, binutilsDone, gccDone,
      libnixMakefile, libamiga]
  | libpthreadMakefile => [libnixDone, arosStuffMakefile]
  | libpthreadDone => [libpthreadMakefile]
  | libgccDone => [libnixDone, libpthreadDone, libamiga]
  | libnix4Library => [libgccDone, libnixDone]
  | clib2Done => [clib2License, libnixDone, libamiga]
  | libdebugMakefile => [libnixDone, libdebugConfigure]
  | libdebugDone => [libdebugMakefile]
  | ixemulBuild => [ixemulLha]
  | ixemul => [ixemulBuild]
  | zlibConfigure => [zlibTar]
  | zlibMakefile => [zlibConfigure]
  | zlibBuild => [zlibMakefile]
  | zlib => [zlibBuild]
  | zlibDone => [zlib]
  | libpngConfigure => [libpngTar, zlibDone, libnixDone]
  | libpngMakefile => [libpngConfigure]
  | libpngBuild => [libpngMakefile]
  | libpng => [libpngBuild]
  | libpngDone => [libpng]
  | freetypeConfigure => [freetypeTar, libnixDone]
  | freetypeMakefile => [freetypeConfigure]
  | freetypeBuild => [freetypeMakefile]
  | freetype => [freetypeBuild]
  | freetypeDone => [freetype]
  | libSDL12Makefile => [libnixDone, libSDL12Project]
  | libSDL12Done => [libSDL12Makefile]
  | libSDLmixerConfigure => [libSDLmixerTar, libSDL12Done, libnixDone]
  | libSDLmixerMakefile => [libSDLmixerConfigure]
  | libSDLmixerBuild => [libSDLmixerMakefile]
  | libSDLmixer => [libSDLmixerBuild]
  | libSDLmixerDone => [libSDLmixer]
  | libSDLttfConfigure => [libSDLttfTar, libSDL12Done, libnixDone]
  | libSDLttfMakefile => [libSDLttfConfigure]
  | libSDLttfBuild => [libSDLttfMakefile]
  | libSDLttf => [libSDLttfBuild]
  | libSDLttfDone => [libSDLttf]
  | makeBinutils => [binutilsDone]
  | makeGdb => [binutilsGdb]
  | makeGprof => [binutilsGprof]
  | makeGcc => [gccDone]
  | makeFd2sfd => [fd2sfdDone]
  | makeFd2pragma => [fd2pragmaDone]
  | makeIra => [iraDone]
  | makeSfdc => [sfdcDone]
  | makeVasm => [vasmDone]
  | makeVbcc => [vbccDone]
  | makeVbccTarget => [vbccTargetAmigaosDone, vbccTargetKick13Done]
  | makeVlink => [vlinkDone, makeVbccTarget]
  | makeLha => [lhaDone]
  | makeNdk => [ndkIncludeNdk]
  | makeNdkInline => [ndkIncludeInlineHeader, makeSfdc, ndkIncludeInline]
  | makeNdkInlineVbcc => [ndkIncludeInlineVbcc, makeSfdc, ndkIncludeInline]
  | makeNdkLvo => [ndkIncludeLvoFile, makeSfdc]
  | makeNdkProto => [ndkIncludeProtoHeader, makeSfdc]
  | makeNdk13 => [ndkIncludeNdk13]
  | makeNetinclude => [netincludeDone]
  | makeLibamiga => [libamiga, libbamiga]
  | makeLibnix => [libnixDone]
  | makeLibgcc => [libgccDone]
  | makeLibnix4 => [libnix4Library]
  | makeClib2 => [clib2Done]
  | makeLibdebug => [libdebugDone]
  | makeLibpthread => [libpthreadDone]
  | makeNewlib => [newlibDone]
  | makeIxemul => [ixemul]
  | makeSdk => [makeLibnix, lhaDone]
  | makeSdks => [makeLibnix, makeLha]
  | makeAllSdk => [makeSdks]
  | makeZlib => [zlibDone]
  | makeLibpng => [libpngDone]
  | makeFreetype => [freetypeDone]
  | makeLibSDL12 => [libSDL12Done]
  | makeLibSDLmixer => [libSDLmixerDone]
  | makeLibSDLttf => [libSDLttfDone]
  | makeAll => [
      makeGcc, makeBinutils, makeGdb, makeGprof, makeFd2sfd, makeFd2pragma, makeIra, makeSfdc,
      makeVasm, makeLibnix, makeIxemul, makeLibgcc, makeClib2, makeLibdebug, makeLibpthread,
      makeNdk, makeNdk13, makeLibSDL12, makeLibnix4]
  | makeMin => [makeBinutils, makeGcc, makeGprof, makeLibnix, makeLibgcc, makeLibnix4]
  | _ => []

def finds : Name → List Listed
  | binutilsDone => [.binutils]
  | binutilsGprof => [.gprof]
  | gccDone => [.gcc]
  | fd2sfd => [.fd2sfd]
  | fd2pragmaBuild => [.fd2pragma]
  | iraBuild => [.ira]
  | sfdcMakefile => [.sfdc]
  | vasmMakefile => [.vasm]
  | vbccMakefile => [.vbcc]
  | vlinkDone => [.vlink]
  | vbccTargetKick13Done => [.vcConfig]
  | ndkInfo => [.ndkPatches]
  | ndkIncludeNdk0 => [.ndkInclude]
  | ndkIncludeInlineHeader => [.ndkSfd]
  | ndkIncludeInlineVbcc => [.ndkSfd]
  | ndkIncludeLvoFile => [.ndkSfd]
  | ndkIncludeProtoHeader => [.ndkSfd]
  | netincludeDone => [.netinclude]
  | newlibLibc => [.newlib]
  | libnixDone => [.libnix]
  | libpthreadMakefile => [.libpthread]
  | libgccDone => [.libgcc]
  | clib2Done => [.clib2]
  | libdebugMakefile => [.libdebug]
  | libSDL12Makefile => [.libSDL12]
  | _ => []

/-- The goals, which make no file, stand behind the files. -/
def phony (n : Name) : Bool := makeBinutils.ctorIdx ≤ n.ctorIdx

/-- The names, each behind those it depends on. -/
def all : List Name := (List.range 150).map Name.ofNat

theorem mem_all (n : Name) : n ∈ all := by
  refine List.mem_map.mpr ⟨n.ctorIdx, ?_, Name.ofNat_ctorIdx n⟩
  cases n <;> decide

theorem prereqs_lt (n : Name) : ∀ p ∈ n.prereqs, p.ctorIdx < n.ctorIdx := by
  cases n <;> decide

/-- The rules, each with all its targets taken as one. -/
def rules : Rules Name where
  prereqs := prereqs
  phony := phony
  made := fun _ => true
  rank := Name.ctorIdx
  rank_lt := prereqs_lt

end Name

end Build

end AmigaGcc
