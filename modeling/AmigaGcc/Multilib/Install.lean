import AmigaGcc.Library.FileTree
import AmigaGcc.Library.Text.Fields
import AmigaGcc.Recipe.Makefile

/-!
# Multilib libraries

A library is configured, built and installed once for each directory of `MULTI`,
by chains `a; b; ..` of commands in which only the last status counts. The
directories below `PREFIX/lib` are made by nobody here: `rsync` makes the library
a file of the name of the directory where that is missing.
-/

namespace AmigaGcc

namespace Multilib

open Library Shell Shell.Prog FileTree
open Library.Mtime (File)
open Library.Text (Chars)

/-- A word of `MULTI`: the directory below that of the module, and the flags. -/
abbrev Variant := String × String

abbrev Content := List UInt8

/-- The names along a path below `PREFIX/lib`. -/
def dir (T : Variant) : List Chars :=
  (T.1.toList.splitOn '/').filter fun n => n ≠ [] ∧ n ≠ ['.']

example : dir ("/libb/libm020", "") = ["libb".toList, "libm020".toList] := by decide

/-- The first word, which stands for the directory of the module itself. -/
def root : Variant := ("/.", "")

theorem nodup_dir : (Recipe.multi.map dir).Nodup := by decide

theorem root_mem_multi : root ∈ Recipe.multi := List.mem_cons_self

/-! ## The commands -/

inductive Cmd where
  | mkdir (T : Variant)
  /-- the `cd` in front of `configure` -/
  | enter (T : Variant)
  | configure (T : Variant)
  | touchMakefile
  | make (T : Variant)
  /-- the `cd` in front of `gcc` -/
  | cd (T : Variant)
  | gcc (T : Variant)
  | ar (T : Variant)
  | touchBuild
  /-- a command for the headers -/
  | header (text : String)
  | cp (T : Variant)
  | rsync (T : Variant)
  | touchLib

/-- `MULTICONFIGURE1` -/
def multiconfigure1 (T : Variant) : Prog Cmd Empty :=
  and (and (cmd (.mkdir T)) (cmd (.enter T))) (cmd (.configure T))

/-- `MULTICONFIGURE` -/
def multiconfigure : Prog Cmd Empty := forEach Recipe.multi multiconfigure1

/-- `MULTIMAKE` -/
def multimake : Prog Cmd Empty := forEach Recipe.multi fun T => cmd (.make T)

def cc (T : Variant) : Prog Cmd Empty :=
  and (and (cmd (.cd T)) (cmd (.gcc T))) (cmd (.ar T))

/-- `MULTICC_SDLMIXER` and `MULTICC_SDLTTF` -/
def multicc : Prog Cmd Empty := forEach Recipe.multi cc

/-- `COPY_MULTILIBS` -/
def copyMultilibs : Prog Cmd Empty := forEach Recipe.multi fun T => cmd (.cp T)

/-- `INSTALL_MULTILIBS` -/
def installMultilibs : Prog Cmd Empty := forEach Recipe.multi fun T => cmd (.rsync T)

def script : Recipe.Line → Prog Recipe.Cmd Recipe.Test
  | .plain p | .step _ p => p
  | .seq a b => .seq (script a) (script b)
  | .cond t a b => .cond t (script a) (script b)
  | .stamp => .skip

structure Module where
  /-- the variable that names it -/
  name : String
  lib : String
  /-- the archive that is copied before it is installed -/
  copied : Option String
  /-- `MULTICC` is used in place of `MULTIMAKE` -/
  compiled : Bool
  args : String
  headers : List String
  not_mem_dir : ∀ T ∈ Recipe.multi, lib.toList ∉ dir T

/-- `$(BUILD)/M/Makefile` -/
def makefile : List (Prog Cmd Empty) := [multiconfigure, cmd .touchMakefile]

namespace Module

variable (M : Module)

/-- `$(BUILD)/M/libX.a` -/
def build : List (Prog Cmd Empty) :=
  [if M.compiled then multicc else multimake, cmd .touchBuild]

/-- `$(PREFIX)/lib/libX.a` -/
def install : List (Prog Cmd Empty) :=
  M.headers.map (fun text => cmd (.header text)) ++
    ((if M.copied.isSome then [copyMultilibs] else []) ++ [installMultilibs, cmd .touchLib])

def lines : List (Prog Cmd Empty) := makefile ++ (M.build ++ M.install)

def text : Cmd → Recipe.Cmd
  | .mkdir T => .run ("mkdir -p $(BUILD)/" ++ M.name ++ T.1)
  | .enter T | .cd T => .run ("cd $(BUILD)/" ++ M.name ++ T.1)
  | .configure T =>
      .run ("PKG_CONFIG=/bin/false CC=$(TARGET)-gcc CXX=$(TARGET)-g++ AR=$(TARGET)-ar " ++
        "LD=$(TARGET)-ld CFLAGS=\"" ++ Recipe.flags T.2 ++
        " -noixemul $(CFLAGS_FOR_TARGET)\" $(PROJECTS)/" ++ M.name ++ "/configure " ++ M.args)
  | .touchMakefile | .touchBuild | .touchLib => .run "touch $@"
  | .make T => .run ("$(MAKE) -C $(BUILD)/" ++ M.name ++ T.1)
  | .gcc T =>
      .run ("$(TARGET)-gcc -c $(grep \"CFLAGS  =\" Makefile | cut -d \"=\" -f 2 | " ++
        "sed -e 's|srcdir|$(PROJECTS)/" ++ M.name ++ T.1 ++ ":" ++ T.2 ++ "|g') " ++
        "$(grep \"EXTRA_CFLAGS =\" Makefile | cut -d \"=\" -f 2) " ++
        "-I $(PREFIX)/include/SDL $(PROJECTS)/" ++ M.name ++ "/*.c")
  | .ar T => .run ("$(TARGET)-ar rcs " ++ M.lib ++ " *.o (" ++ T.1 ++ ")")
  | .header text => .run text
  | .cp T =>
      .run ("cp $(BUILD)/" ++ M.name ++ T.1 ++ "/" ++ M.copied.getD "" ++ " $(BUILD)/" ++ M.name ++
        T.1 ++ "/" ++ M.lib)
  | .rsync T =>
      .run ("rsync -av --no-group $(BUILD)/" ++ M.name ++ T.1 ++ "/" ++ M.lib ++
        " $(PREFIX)/lib" ++ T.1)

def Follows (rules : List Recipe.Rule) : Prop :=
  ∀ n, (rules.flatMap fun r => r.lines n).map script = M.lines.map (Prog.map M.text Empty.elim)

end Module

/-! ## The modules -/

def zlib : Module where
  name := "$(ZLIB)"
  lib := "libz.a"
  copied := none
  compiled := false
  args := ""
  headers := ["rsync -a --no-group $(PROJECTS)/$(ZLIB)/zlib.h $(PREFIX)/include/",
    "rsync -a --no-group $(BUILD)/$(ZLIB)/zconf.h $(PREFIX)/include/"]
  not_mem_dir := by decide

def libpng : Module where
  name := "$(LIBPNG)"
  lib := "libpng.a"
  copied := some ".libs/libpng16.a"
  compiled := false
  args := "--host=$(TARGET)"
  headers := ["rsync -a --no-group $(PROJECTS)/$(LIBPNG)/png.h $(PREFIX)/include/",
    "rsync -a --no-group $(PROJECTS)/$(LIBPNG)/pngconf.h $(PREFIX)/include/",
    "rsync -a --no-group $(BUILD)/$(LIBPNG)/pnglibconf.h $(PREFIX)/include/"]
  not_mem_dir := by decide

def freetype : Module where
  name := "$(LIBFREETYPE)"
  lib := "libfreetype.a"
  copied := some ".libs/libfreetype.a"
  compiled := false
  args := "--host=$(TARGET) --disable-shared"
  headers := [
    "rsync -a --no-group $(PROJECTS)/$(LIBFREETYPE)/include/ft2build.h $(PREFIX)/include/",
    "rsync -a --no-group $(PROJECTS)/$(LIBFREETYPE)/include/freetype $(PREFIX)/include/"]
  not_mem_dir := by decide

def libSDLmixer : Module where
  name := "$(LIBSDLMIXER)"
  lib := "libSDL_mixer.a"
  copied := none
  compiled := true
  args := Recipe.sdlArgs
  headers := ["mkdir -p $(PREFIX)/include/SDL",
    "rsync -a --no-group $(PROJECTS)/$(LIBSDLMIXER)/SDL_mixer.h $(PREFIX)/include/SDL"]
  not_mem_dir := by decide

def libSDLttf : Module where
  name := "$(LIBSDLTTF)"
  lib := "libSDL_ttf.a"
  copied := none
  compiled := true
  args := Recipe.sdlArgs
  headers := ["mkdir -p $(PREFIX)/include/SDL",
    "rsync -a --no-group $(PROJECTS)/$(LIBSDLTTF)/SDL_ttf.h $(PREFIX)/include/SDL"]
  not_mem_dir := by decide

theorem follows_zlib : zlib.Follows [Recipe.zlibMakefile, Recipe.zlibBuild, Recipe.zlib] :=
  fun _ => rfl

theorem follows_libpng :
    libpng.Follows [Recipe.libpngMakefile, Recipe.libpngBuild, Recipe.libpng] := fun _ => rfl

theorem follows_freetype :
    freetype.Follows [Recipe.freetypeMakefile, Recipe.freetypeBuild, Recipe.freetype] :=
  fun _ => rfl

theorem follows_libSDLmixer : libSDLmixer.Follows
    [Recipe.libSDLmixerMakefile, Recipe.libSDLmixerBuild, Recipe.libSDLmixer] := fun _ => rfl

theorem follows_libSDLttf : libSDLttf.Follows
    [Recipe.libSDLttfMakefile, Recipe.libSDLttfBuild, Recipe.libSDLttf] := fun _ => rfl

/-! ## A run -/

/-- What the commands do: the status of each, the archive that `make` or `ar` leaves,
the copy that a failing `cp` leaves, whether a failing `rsync` has put the file in
place, and the times of writing. -/
structure Outcome where
  status : Cmd → ℕ
  left : Variant → Option (File Content)
  leftCopy : Variant → Option (File Content)
  moved : Variant → Bool
  now : Cmd → ℕ

structure Store where
  /-- the archives where they are built -/
  own : Variant → Option (File Content)
  /-- the copies of a module that has its archives copied -/
  copy : Variant → Option (File Content)
  /-- what is below `PREFIX/lib` -/
  tree : Tree Chars Content

/-- `touch` of a file -/
def touchFile (now : ℕ) (x : Option (File Content)) : File Content :=
  ⟨(x.map File.content).getD [], now⟩

section Run

variable (M : Module) (o : Outcome)

/-- `$(BUILD)/M/T/libX.a` -/
def Module.archive (s : Store) (T : Variant) : Option (File Content) :=
  if M.copied.isSome then s.copy T else s.own T

def exec (c : Cmd) (s : Store) : ℕ × Store :=
  match c with
  | .make T | .ar T => (o.status c, { s with own := Function.update s.own T (o.left T) })
  | .touchBuild =>
      if o.status c = 0 then
        if M.copied.isSome then
          let x := touchFile (o.now c) (s.copy root)
          (0, { s with copy := Function.update s.copy root (some x) })
        else
          let x := touchFile (o.now c) (s.own root)
          (0, { s with own := Function.update s.own root (some x) })
      else (o.status c, s)
  | .cp T =>
      if o.status c = 0 then
        match s.own T with
        | none => (1, s)
        | some x =>
            (0, { s with copy := Function.update s.copy T (some ⟨x.content, o.now c⟩) })
      else (o.status c, { s with copy := Function.update s.copy T (o.leftCopy T) })
  | .rsync T =>
      let r := s.tree.rsync List.length M.lib.toList (M.archive s T) (dir T)
      if o.status c = 0 then (r.1, { s with tree := r.2 })
      else (o.status c, if o.moved T then { s with tree := r.2 } else s)
  | .touchLib =>
      if o.status c = 0 then
        let r := s.tree.touch [] (o.now c) [] M.lib.toList
        (r.1, { s with tree := r.2 })
      else (o.status c, s)
  | _ => (o.status c, s)

def machine : Machine Cmd Empty Store := ⟨exec M o, fun t _ => t.elim⟩

/-- make stops at the first line that fails. -/
def runLines : List (Prog Cmd Empty) → Store → ℕ × Store
  | [], s => (0, s)
  | p :: ps, s =>
      let t := start (machine M o) p s
      if t.status = 0 then runLines ps t.store else (t.status, t.store)

def builds (T : Variant) : Bool :=
  if M.compiled then
    o.status (.cd T) == 0 && o.status (.gcc T) == 0 && o.status (.ar T) == 0
  else o.status (.make T) == 0

/-- The archive of the variant that is built in the run. An empty file is none. -/
def built (T : Variant) : Option (File Content) :=
  if builds M o T then (o.left T).filter fun x => x.content ≠ [] else none

/-- Every variant has its archive below `PREFIX/lib`. -/
def Complete (t : Tree Chars Content) : Prop :=
  ∀ T ∈ Recipe.multi, ∃ x ∈ built M o T, ∃ y,
    t.entry (dir T ++ [M.lib.toList]) = some (.file y) ∧ y.content = x.content

end Run

/-! ## A variant by itself -/

/-- What the recipes see of a variant. -/
structure Standing where
  own : Option (File Content)
  copy : Option (File Content)
  slot : Slot Content

def view (M : Module) (T : Variant) (s : Store) : Standing :=
  ⟨s.own T, s.copy T, s.tree.slot (dir T) M.lib.toList⟩

namespace Standing

variable (M : Module) (o : Outcome) (T : Variant)

def make (v : Standing) : Standing := { v with own := o.left T }

/-- `ar` is run if `cd` and `gcc` succeed. -/
def compile (v : Standing) : Standing :=
  if o.status (.cd T) = 0 ∧ o.status (.gcc T) = 0 then make o T v else v

def made (v : Standing) : Standing := if M.compiled then compile o T v else make o T v

def touched (v : Standing) : Standing :=
  if T = root ∧ o.status .touchBuild = 0 then
    if M.copied.isSome then { v with copy := some (touchFile (o.now .touchBuild) v.copy) }
    else { v with own := some (touchFile (o.now .touchBuild) v.own) }
  else v

def copied (v : Standing) : Standing :=
  if o.status (.cp T) = 0 then
    match v.own with
    | none => v
    | some x => { v with copy := some ⟨x.content, o.now (.cp T)⟩ }
  else { v with copy := o.leftCopy T }

def packed (v : Standing) : Standing := if M.copied.isSome then copied o T v else v

def archive (v : Standing) : Option (File Content) :=
  if M.copied.isSome then v.copy else v.own

def received (v : Standing) : Standing :=
  if o.status (.rsync T) = 0 ∨ o.moved T then
    match archive M v with
    | none => v
    | some x => { v with slot := v.slot.receive List.length x }
  else v

def touchedLib (v : Standing) : Standing :=
  if T = root ∧ o.status .touchLib = 0 then
    { v with slot := v.slot.touch [] (o.now .touchLib) }
  else v

def installed (v : Standing) : Standing :=
  touchedLib o T (received M o T (packed M o T (touched M o T (made M o T v))))

end Standing

/-! ## The variants do not interfere -/

theorem dir_injOn {T U : Variant} (hT : T ∈ Recipe.multi) (hU : U ∈ Recipe.multi)
    (h : dir T = dir U) : T = U :=
  List.inj_on_of_nodup_map nodup_dir hT hU h

theorem dir_root : dir root = [] := by decide

def Cmd.Apart (T : Variant) : Cmd → Prop
  | make U | ar U | cp U => U ≠ T
  | rsync U => U ∈ Recipe.multi ∧ U ≠ T
  | touchBuild | touchLib => T ≠ root
  | mkdir _ | enter _ | configure _ | touchMakefile | cd _ | gcc _ | header _ => True

section View

variable {M : Module} {o : Outcome} {T : Variant}

theorem view_exec_of_apart (hT : T ∈ Recipe.multi) {c : Cmd} (hc : c.Apart T) (s : Store) :
    view M T (exec M o c s).2 = view M T s := by
  cases c with
  | mkdir | enter | configure | touchMakefile | cd | gcc | header => rfl
  | make U | ar U =>
      have hown : Function.update s.own U (o.left U) T = s.own T :=
        Function.update_of_ne (Ne.symm hc) (o.left U) s.own
      simp only [exec, view, hown]
  | touchBuild =>
      simp only [exec]
      split
      · split
        · simp only [view, Function.update_of_ne hc]
        · simp only [view, Function.update_of_ne hc]
      · rfl
  | cp U =>
      have hne : T ≠ U := Ne.symm hc
      simp only [exec]
      split
      · split
        · rfl
        · simp only [view, Function.update_of_ne hne]
      · simp only [view, Function.update_of_ne hne]
  | rsync U =>
      have hdir : dir T ≠ dir U := fun h => hc.2 (dir_injOn hT hc.1 h).symm
      have hslot := Tree.slot_rsync_of_ne (t := s.tree) List.length (M.archive s U)
        (M.not_mem_dir T hT) (M.not_mem_dir U hc.1) hdir
      simp only [exec]
      split
      · simp only [view, hslot]
      · split
        · simp only [view, hslot]
        · rfl
  | touchLib =>
      have hdir : dir T ≠ [] := fun h => hc (dir_injOn hT root_mem_multi (h.trans dir_root.symm))
      have hslot := Tree.slot_touch_of_ne (t := s.tree) [] (o.now .touchLib) (M.not_mem_dir T hT)
        List.not_mem_nil hdir
      simp only [exec]
      split
      · simp only [view, hslot]
      · rfl

theorem view_make (s : Store) :
    view M T (exec M o (.make T) s).2 = Standing.make o T (view M T s) := by
  simp only [exec, view, Standing.make, Function.update_self]

theorem view_ar (s : Store) :
    view M T (exec M o (.ar T) s).2 = Standing.make o T (view M T s) := view_make s

theorem view_cp (s : Store) :
    view M T (exec M o (.cp T) s).2 = Standing.copied o T (view M T s) := by
  simp only [exec, Standing.copied]
  split
  · cases hown : s.own T with
    | none => simp only [view, hown]
    | some x => simp only [view, hown, Function.update_self]
  · simp only [view, Function.update_self]

theorem view_rsync (s : Store) :
    view M T (exec M o (.rsync T) s).2 = Standing.received M o T (view M T s) := by
  have harchive : Standing.archive M (view M T s) = M.archive s T := rfl
  have hslot : view M T { s with tree :=
      (s.tree.rsync List.length M.lib.toList (M.archive s T) (dir T)).2 } =
      match M.archive s T with
      | none => view M T s
      | some x => { view M T s with slot := (view M T s).slot.receive List.length x } := by
    cases M.archive s T with
    | none => rfl
    | some x => simp only [view, Tree.slot_rsync_self]
  rw [Standing.received, harchive]
  simp only [exec]
  by_cases hstatus : o.status (.rsync T) = 0
  · rw [if_pos hstatus, if_pos (Or.inl hstatus)]
    exact hslot
  · rw [if_neg hstatus]
    by_cases hmoved : o.moved T = true
    · simp only [hmoved, if_true, or_true]
      exact hslot
    · simp only [hmoved, hstatus]
      rfl

theorem view_touchBuild (hT : T ∈ Recipe.multi) (s : Store) :
    view M T (exec M o .touchBuild s).2 = Standing.touched M o T (view M T s) := by
  by_cases hroot : T = root
  · subst hroot
    simp only [exec, Standing.touched, true_and]
    split
    · split
      · simp only [view, Function.update_self]
      · simp only [view, Function.update_self]
    · rfl
  · rw [Standing.touched, if_neg fun h => hroot h.1]
    exact view_exec_of_apart hT (c := .touchBuild) hroot s

theorem view_touchLib (hT : T ∈ Recipe.multi) (s : Store) :
    view M T (exec M o .touchLib s).2 = Standing.touchedLib o T (view M T s) := by
  by_cases hroot : T = root
  · subst hroot
    have hslot :=
      Tree.slot_touch_self (t := s.tree) (d := []) (n := M.lib.toList) [] (o.now .touchLib)
    simp only [exec, Standing.touchedLib, true_and]
    split
    · simp only [view, dir_root, hslot]
    · rfl
  · rw [Standing.touchedLib, if_neg fun h => hroot h.1]
    exact view_exec_of_apart hT (c := .touchLib) hroot s

/-! ## The lines -/

theorem view_eval_of_apart (hT : T ∈ Recipe.multi) {p : Prog Cmd Empty}
    (hp : p.All fun c => c.Apart T) (s : State Store) :
    view M T (eval (machine M o) p s).store = view M T s.store :=
  eval_invariant (machine M o) (I := fun x => view M T x = view M T s.store)
    (fun _ x hc hx => (view_exec_of_apart hT hc x).trans hx) hp rfl

theorem view_multiconfigure (hT : T ∈ Recipe.multi) (s : Store) :
    view M T (start (machine M o) multiconfigure s).store = view M T s := by
  refine view_eval_of_apart hT (all_chain fun p hp => ?_) { store := s }
  obtain ⟨U, -, rfl⟩ := List.mem_map.mp hp
  exact ⟨⟨trivial, trivial⟩, trivial⟩

/-- A loop of one command for each variant, of which one is that of `T`. -/
theorem view_forEach_cmd (hT : T ∈ Recipe.multi) {f : Variant → Cmd}
    {act : Standing → Standing} (hact : ∀ s, view M T (exec M o (f T) s).2 = act (view M T s))
    (hapart : ∀ U ∈ Recipe.multi, U ≠ T → (f U).Apart T) (s : Store) :
    view M T (start (machine M o) (forEach Recipe.multi fun U => cmd (f U)) s).store =
      act (view M T s) :=
  eval_forEach_part (machine M o) (List.Nodup.of_map dir nodup_dir) hT
    (fun _ => straight_cmd _) (fun t _ => hact t.store)
    (fun U hU hne t => view_exec_of_apart hT (hapart U hU hne) t.store) rfl

theorem view_copyMultilibs (hT : T ∈ Recipe.multi) (s : Store) :
    view M T (start (machine M o) copyMultilibs s).store = Standing.copied o T (view M T s) :=
  view_forEach_cmd hT view_cp (fun _ _ hne => hne) s

theorem view_installMultilibs (hT : T ∈ Recipe.multi) (s : Store) :
    view M T (start (machine M o) installMultilibs s).store =
      Standing.received M o T (view M T s) :=
  view_forEach_cmd hT view_rsync (fun _ hU hne => ⟨hU, hne⟩) s

theorem view_multimake (hT : T ∈ Recipe.multi) (s : Store) :
    view M T (start (machine M o) multimake s).store = Standing.make o T (view M T s) :=
  view_forEach_cmd hT view_make (fun _ _ hne => hne) s

theorem view_cc (s : State Store) (hs : s.exited = false) :
    view M T (eval (machine M o) (cc T) s).store = Standing.compile o T (view M T s.store) := by
  rw [Standing.compile]
  by_cases hcd : o.status (.cd T) = 0
  · by_cases hgcc : o.status (.gcc T) = 0
    · rw [if_pos ⟨hcd, hgcc⟩, ← view_ar]
      simp [cc, eval, machine, exec, hs, hcd, hgcc]
    · rw [if_neg fun h => hgcc h.2]
      simp [cc, eval, machine, exec, hs, hcd, hgcc]
  · rw [if_neg fun h => hcd h.1]
    simp [cc, eval, machine, exec, hcd]

theorem view_multicc (hT : T ∈ Recipe.multi) (s : Store) :
    view M T (start (machine M o) multicc s).store = Standing.compile o T (view M T s) := by
  have hbody : ∀ U, (cc U).Straight := fun _ => ⟨⟨trivial, trivial⟩, trivial⟩
  have hapart : ∀ U, U ≠ T → (cc U).All fun c => c.Apart T := fun _ hne => ⟨⟨trivial, trivial⟩, hne⟩
  exact eval_forEach_part (machine M o) (List.Nodup.of_map dir nodup_dir) hT hbody view_cc
    (fun U _ hne t => view_eval_of_apart hT (hapart U hne) t) rfl

theorem view_build (hT : T ∈ Recipe.multi) (s : Store) :
    view M T (start (machine M o) (if M.compiled then multicc else multimake) s).store =
      Standing.made M o T (view M T s) := by
  rw [Standing.made]
  split
  · exact view_multicc hT s
  · exact view_multimake hT s

/-- The lines one after the other, whatever their statuses. -/
def runAll (M : Module) (o : Outcome) (ps : List (Prog Cmd Empty)) (s : Store) : Store :=
  ps.foldl (fun x p => (start (machine M o) p x).store) s

theorem view_headers (hT : T ∈ Recipe.multi) (texts : List String) (s : Store) :
    view M T (runAll M o (texts.map fun text => cmd (.header text)) s) = view M T s := by
  induction texts generalizing s with
  | nil => rfl
  | cons text texts ih =>
      have hhead := view_exec_of_apart (M := M) (o := o) hT (c := .header text) trivial s
      exact (ih _).trans hhead

theorem view_built (hT : T ∈ Recipe.multi) (s : Store) :
    view M T (runAll M o (makefile ++ M.build) s) =
      Standing.touched M o T (Standing.made M o T (view M T s)) := by
  rw [← view_multiconfigure (o := o) hT s, ← view_build hT, ← view_touchBuild hT]
  rfl

theorem view_install (hT : T ∈ Recipe.multi) (s : Store) :
    view M T (runAll M o M.install s) =
      Standing.touchedLib o T (Standing.received M o T (Standing.packed M o T (view M T s))) := by
  rw [Standing.packed, Module.install, runAll, List.foldl_append, List.foldl_append, ← runAll,
    ← view_headers (o := o) hT M.headers s]
  split
  · rw [← view_copyMultilibs hT, ← view_installMultilibs hT, ← view_touchLib hT]
    rfl
  · rw [← view_installMultilibs hT, ← view_touchLib hT]
    rfl

/-- The lines make of each variant what they make of it by itself. -/
theorem view_lines (hT : T ∈ Recipe.multi) (s : Store) :
    view M T (runAll M o M.lines s) = Standing.installed M o T (view M T s) := by
  rw [Module.lines, ← List.append_assoc, runAll, List.foldl_append, ← runAll, ← runAll,
    view_install hT, view_built hT]
  rfl

theorem runLines_store {ps : List (Prog Cmd Empty)} {s : Store}
    (h : (runLines M o ps s).1 = 0) : (runLines M o ps s).2 = runAll M o ps s := by
  induction ps generalizing s with
  | nil => rfl
  | cons p ps ih =>
      rw [runLines] at h ⊢
      split
      · next hstatus =>
          rw [if_pos hstatus] at h
          exact ih h
      · next hstatus =>
          rw [if_neg hstatus] at h
          exact absurd h hstatus

end View

/-! ## When the installation is complete -/

section Ready

variable (M : Module) (o : Outcome) (T : Variant)

/-- What stands in place of the archive `x` when it is installed. -/
def sent (x : File Content) : Option (File Content) :=
  if M.copied.isSome then
    if o.status (.cp T) = 0 then some ⟨x.content, o.now (.cp T)⟩ else o.leftCopy T
  else if T = root ∧ o.status .touchBuild = 0 then some ⟨x.content, o.now .touchBuild⟩
  else some x

/-- What `rsync` puts in place. -/
def delivered (x : File Content) : Option (File Content) :=
  if o.status (.rsync T) = 0 ∨ o.moved T then sent M o T x else none

/-- The archive of the variant is built, and `rsync` gets it into the slot, or leaves a
file of its content there. -/
def Ready (v : Slot Content) : Prop :=
  ∃ x ∈ built M o T,
    (delivered M o T x).elim (v.Has x.content) fun y => v.Takes List.length y x.content

variable {M o T}

theorem made_of_builds (h : builds M o T = true) (v : Standing) :
    Standing.made M o T v = Standing.make o T v := by
  rw [Standing.made]
  split
  · next hcompiled =>
      rw [builds, if_pos hcompiled, Bool.and_eq_true, Bool.and_eq_true] at h
      exact if_pos ⟨beq_iff_eq.mp h.1.1, beq_iff_eq.mp h.1.2⟩
  · rfl

theorem made_of_mem_built {x : File Content} (hx : x ∈ built M o T) (v : Standing) :
    Standing.made M o T v = { v with own := some x } ∧ x.content ≠ [] := by
  rw [built] at hx
  split at hx
  · next hbuilds =>
      obtain ⟨hleft, hcontent⟩ := Option.mem_filter_iff.mp hx
      refine ⟨?_, of_decide_eq_true hcontent⟩
      rw [made_of_builds hbuilds, Standing.make, Option.mem_def.mp hleft]
  · cases hx

theorem slot_touched (v : Standing) : (Standing.touched M o T v).slot = v.slot := by
  rw [Standing.touched]
  split
  · split <;> rfl
  · rfl

theorem slot_packed (v : Standing) : (Standing.packed M o T v).slot = v.slot := by
  rw [Standing.packed, Standing.copied]
  split
  · split
    · split <;> rfl
    · rfl
  · rfl

/-- The archive is touched, or copied, on its way. -/
theorem archive_eq_sent (x : File Content) (v : Standing) :
    Standing.archive M (Standing.packed M o T (Standing.touched M o T { v with own := some x })) =
      sent M o T x := by
  by_cases hcopied : M.copied.isSome = true
  · have hown : (Standing.touched M o T { v with own := some x }).own = some x := by
      simp only [Standing.touched, if_pos hcopied]
      split <;> rfl
    rw [Standing.archive, sent, Standing.packed, if_pos hcopied, if_pos hcopied, if_pos hcopied,
      Standing.copied, hown]
    split <;> rfl
  · simp only [Standing.archive, Standing.packed, Standing.touched, sent, if_neg hcopied]
    split <;> rfl

theorem has_received (w : Standing) (c : Content) :
    (Standing.received M o T w).slot.Has c ↔
      (if o.status (.rsync T) = 0 ∨ o.moved T then Standing.archive M w else none).elim
        (w.slot.Has c) fun y => w.slot.Takes List.length y c := by
  rw [Standing.received]
  split
  · cases Standing.archive M w with
    | none => exact Iff.rfl
    | some y => exact Slot.has_receive_iff List.length y c w.slot
  · exact Iff.rfl

theorem has_installed {x : File Content} (hx : x ∈ built M o T) (v : Standing) :
    (Standing.installed M o T v).slot.Has x.content ↔
      (delivered M o T x).elim (v.slot.Has x.content)
        fun y => v.slot.Takes List.length y x.content := by
  obtain ⟨hmade, hne⟩ := made_of_mem_built hx v
  have hlib : ∀ w : Standing, (Standing.touchedLib o T w).slot.Has x.content ↔
      w.slot.Has x.content := by
    intro w
    rw [Standing.touchedLib]
    split
    · exact Slot.has_touch_iff hne (o.now .touchLib) w.slot
    · exact Iff.rfl
  rw [Standing.installed, hmade, hlib, has_received, archive_eq_sent, slot_packed, slot_touched,
    delivered]

/-- The archive of a variant is there after a run that succeeds if the variant was ready
for it. -/
theorem mem_run_iff_ready (hT : T ∈ Recipe.multi) {s : Store}
    (h : (runLines M o M.lines s).1 = 0) :
    (∃ x ∈ built M o T, ∃ y, (runLines M o M.lines s).2.tree.entry (dir T ++ [M.lib.toList]) =
        some (.file y) ∧ y.content = x.content) ↔
      Ready M o T (s.tree.slot (dir T) M.lib.toList) := by
  rw [runLines_store h]
  refine exists_congr fun x => and_congr_right fun hx => ?_
  have hslot := congrArg Standing.slot (view_lines (M := M) (o := o) hT s)
  have hready := has_installed hx (view M T s)
  rw [← hslot] at hready
  rw [← Tree.has_slot_iff]
  exact hready

theorem not_ready_missing : ¬ Ready M o T .missing := by
  rintro ⟨x, -, hx⟩
  cases hdelivered : delivered M o T x with
  | none => exact absurd hx (by rw [hdelivered]; exact id)
  | some y => exact absurd hx (by rw [hdelivered]; exact id)

end Ready

/-- If the recipes succeed, the installation is complete if and only if every variant is
ready for it. -/
theorem install_complete_iff (M : Module) (o : Outcome) (s : Store)
    (h : (runLines M o M.lines s).1 = 0) :
    Complete M o (runLines M o M.lines s).2.tree ↔
      ∀ T ∈ Recipe.multi, Ready M o T (s.tree.slot (dir T) M.lib.toList) :=
  forall₂_congr fun _ hT => mem_run_iff_ready hT h

def prepared : Tree Chars Content where
  entries := List.toAList ((([] : List Chars) :: ["libb32".toList] ::
    (Recipe.multi.map dir).tail).map fun p => ⟨p, .dir⟩)
  closed := by decide

/-- The directory of one variant, and that in which the last one has its own. -/
def unprepared : Tree Chars Content where
  entries := List.toAList (([[], ["libb32".toList], ["libb32".toList, "libm020".toList]] :
    List (List Chars)).map fun p => ⟨p, .dir⟩)
  closed := by decide

def smooth : Outcome where
  status _ := 0
  left _ := some ⟨[33], 5⟩
  leftCopy _ := none
  moved _ := false
  now _ := 7

def clean (t : Tree Chars Content) : Store := ⟨fun _ => none, fun _ => none, t⟩

theorem install_complete_prepared :
    Complete zlib smooth (runLines zlib smooth zlib.lines (clean prepared)).2.tree := by
  refine (install_complete_iff zlib smooth (clean prepared) (by decide +kernel)).mpr ?_
  intro T hT
  have hslot : ∀ T ∈ Recipe.multi, prepared.slot (dir T) zlib.lib.toList = .free := by
    decide +kernel
  refine ⟨⟨[33], 5⟩, rfl, ?_⟩
  have hfree : (clean prepared).tree.slot (dir T) zlib.lib.toList = .free := hslot T hT
  rw [hfree]
  by_cases hroot : T = root
  · subst hroot
    rfl
  · have hstatus : smooth.status (.rsync T) = 0 := rfl
    have hdelivered : delivered zlib smooth T ⟨[33], 5⟩ = some ⟨[33], 5⟩ := by
      rw [delivered, if_pos (Or.inl hstatus), sent, if_neg (by decide),
        if_neg fun h => hroot h.1]
    rw [hdelivered]
    rfl

/-- `rsync` makes `libz.a` a file of the name `libm020`, and so on, and the recipe
succeeds. -/
theorem install_incomplete :
    (runLines zlib smooth zlib.lines (clean unprepared)).1 = 0 ∧
      ¬ Complete zlib smooth (runLines zlib smooth zlib.lines (clean unprepared)).2.tree := by
  have hstatus : (runLines zlib smooth zlib.lines (clean unprepared)).1 = 0 := by decide +kernel
  have hmem : ("/libm020", "-m68020") ∈ Recipe.multi := by decide
  have hslot : (clean unprepared).tree.slot (dir ("/libm020", "-m68020")) zlib.lib.toList =
      .missing := by decide +kernel
  refine ⟨hstatus, fun h => ?_⟩
  have hready := (mem_run_iff_ready hmem hstatus).mp (h _ hmem)
  rw [hslot] at hready
  exact not_ready_missing hready

end Multilib

end AmigaGcc
