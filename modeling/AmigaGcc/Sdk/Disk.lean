import AmigaGcc.Library.Shell.Footprint
import AmigaGcc.Sdk.Shape

/-!
# Scripts on a small disk

The files that parts of `pccard.sdk` and `sdi.sdk` are about, and what the
commands do to them. The runs of these scripts are the examples for the
statements about all scripts.
-/

namespace AmigaGcc

namespace Sdk

open Library Shell Shell.Prog

abbrev Disk := String → Option String

/-- Commands and tests for these scripts. `mkdir` and `rsync` are what matters: the
first creates `build`, the second needs it. -/
def disk : Footprint (ℕ × Cmd) (ℕ × Test) String (Option String) :=
  .ofFun
    (fun c =>
      match c.2 with
      | .lha _ => ["download/pccard.lha"]
      | .rsync _ _ => ["build", "projects/SDI"]
      | .cp src _ => [src]
      | .patch _ _ => ["build/pccard/pccard.h"]
      | _ => [])
    (fun c =>
      match c.2 with
      | .gitClone _ => ["projects/SDI"]
      | .wget _ _ => ["download/pccard.lha"]
      | .mkdir "build/pccard" => ["build", "build/pccard"]
      | .lha _ => ["build/pccard/pccard.h"]
      | .rsync _ "build/sdi/" => ["build/sdi/SDI_lib.h"]
      | .rsync _ "build/sdi2/" => ["build/sdi2/SDI_misc.h"]
      | .cp _ dst => [dst]
      | .patch _ _ => ["build/pccard/pccard.h"]
      | _ => [])
    (fun c x =>
      match c.2 with
      | .gitClone _ => (0, fun _ => some "SDI")
      | .wget _ _ => (0, fun _ => some "archive")
      | .mkdir _ => (0, fun _ => some "directory")
      | .lha _ => if x "download/pccard.lha" = none then (1, fun _ => none) else
          (0, fun _ => some "header")
      | .rsync _ _ =>
          if x "build" = none then (3, fun _ => none) else
            (0, fun _ => x "projects/SDI")
      | .cp src _ => if x src = none then (1, fun _ => none) else (0, fun _ => x src)
      -- what is patched already is left as it is
      | .patch _ _ =>
          if x "build/pccard/pccard.h" = some "header" then (0, fun _ => some "patched")
          else (1, x)
      | _ => (0, x))
    (fun t =>
      match t.2 with
      | .missing path => [path]
      | .empty _ => ["build/pccard/pccard.h"])
    (fun t x =>
      match t.2 with
      | .missing path => x path = none
      | .empty _ => x "build/pccard/pccard.h" = none)

instance (c : ℕ × Cmd) : DecidablePred (· ∈ disk.writes c) := by
  unfold disk
  infer_instance

/-- Words are no patterns. -/
def literal : Glob := fun w => [w]

def pccard : List String := ["Url: http://aminet.net/pccard.lha", "pccard.h"]

/-- With a patch for the header, as `mui.sdk` has one. -/
def pccardPatched : List String :=
  ["Url: http://aminet.net/pccard.lha", "patch: pccard.diff", "pccard.h"]

def sdi : List String := ["Url: git://github.com/bebbo/SDI", "SDI_lib.h"]

/-- A tree without `projects/SDI`, archives and `build`. -/
def cleanDisk : Disk := fun _ => none

theorem directive_pccard_url :
    directive "pccard" "/opt/amiga" literal "Url: http://aminet.net/pccard.lha" =
      chain [
        .cond (.missing "download/pccard.lha")
          (chain [
            cmd (.echo "wget http://aminet.net/pccard.lha -O download/pccard.lha"),
            .or (cmd (.wget "http://aminet.net/pccard.lha" "download/pccard.lha"))
              (sub (chain [cmd (.rm ["download/pccard.lha"]), exit 1]))])
          skip,
        .cond (.missing "build/pccard")
          (chain [cmd (.mkdir "build/pccard"), cmd (.pushd "build/pccard"),
            cmd (.lha "../../download/pccard.lha"), cmd .chmodDirs, cmd .popd])
          (.cond (.empty "build/pccard")
            (chain [cmd (.mkdir "build/pccard"), cmd (.pushd "build/pccard"),
              cmd (.lha "../../download/pccard.lha"), cmd .chmodDirs, cmd .popd])
            skip)] := by
  have hurl : IsUrl literal "Url: http://aminet.net/pccard.lha" := by decide
  rw [directive_url _ _ _ hurl]
  unfold url
  rfl

theorem directive_sdi_url (name dst : String) (hdst : s!"build/{name}/" = dst) :
    directive name "/opt/amiga" literal "Url: git://github.com/bebbo/SDI" =
      chain [
        .cond (.missing "projects/SDI")
          (chain [
            cmd (.pushd "projects"),
            .or (cmd (.gitClone "https://github.com/bebbo/SDI"))
              (sub (chain [cmd (.rmTree "SDI"), exit 1])),
            cmd .popd])
          skip,
        cmd (.pushd "projects/SDI"),
        cmd .gitPull,
        cmd .popd,
        cmd (.rsync "projects/SDI/*" dst)] := by
  subst hdst
  have hurl : IsUrl literal "Url: git://github.com/bebbo/SDI" := by decide
  rw [directive_url _ _ _ hurl]
  unfold url
  rfl

theorem directive_pccard_header :
    directive "pccard" "/opt/amiga" literal "pccard.h" =
      chain [
        cmd (.mkdir "/opt/amiga/m68k-amigaos/include/."),
        cmd (.echo "cp build/pccard/pccard.h /opt/amiga/m68k-amigaos/include/./pccard.h"),
        cmd (.cp "build/pccard/pccard.h" "/opt/amiga/m68k-amigaos/include/./pccard.h")] := by
  unfold directive
  rfl

theorem directive_pccard_patch :
    directive "pccard" "/opt/amiga" literal "patch: pccard.diff" =
      chain [
        cmd (.echo "applying patch patches/pccard/pccard.diff to build/pccard"),
        cmd (.patch "build/pccard" "patches/pccard/pccard.diff")] := by
  unfold directive
  rfl

theorem directive_sdi_header :
    directive "sdi" "/opt/amiga" literal "SDI_lib.h" =
      chain [
        cmd (.mkdir "/opt/amiga/m68k-amigaos/include/."),
        cmd (.echo "cp build/sdi/SDI_lib.h /opt/amiga/m68k-amigaos/include/./SDI_lib.h"),
        cmd (.cp "build/sdi/SDI_lib.h" "/opt/amiga/m68k-amigaos/include/./SDI_lib.h")] := by
  unfold directive
  rfl

end Sdk

end AmigaGcc
