import AmigaGcc.Sdk.Disk

/-!
# Installing two SDKs

Two scripts can be installed in either order when neither changes what the other
one needs (`Apart`). The scripts share `projects`, `download`, `build` and `PREFIX`; the
`Url` line of a script with an archive creates `build`, and that of a script with
a git repository needs it, so that the second waits for the first (`Waits`).

What the commands do is left open. Each member of `libstubs.a` is a location of its
own, so two `ar r` of different objects write different locations.
-/

namespace AmigaGcc

namespace Sdk

open Library Shell Shell.Prog Footprint

structure SdkFile where
  name : String
  lines : List String

/-- What a `Url` line asks first. -/
@[irreducible] def fetchTest (glob : Glob) (a : List String) : Test :=
  let file := basename (expand glob (a.getD 2 ""))
  if a.getD 1 "" = "git" then .missing s!"projects/{file}" else .missing s!"download/{file}"

/-- What it does when the file is missing. -/
@[irreducible] def fetch (glob : Glob) (a : List String) : Prog Cmd Test :=
  let scheme := a.getD 1 ""
  let path := a.getD 2 ""
  let file := basename (expand glob path)
  if scheme = "git" then
    chain [
      cmd (.pushd "projects"),
      .or (cmd (.gitClone s!"https:{path}")) (sub (chain [cmd (.rmTree file), exit 1])),
      cmd .popd]
  else
    chain [
      cmd (.echo s!"wget {scheme}:{path} -O download/{file}"),
      .or (cmd (.wget s!"{scheme}:{path}" s!"download/{file}"))
        (sub (chain [cmd (.rm [s!"download/{file}"]), exit 1]))]

theorem exists_url_eq (name : String) (glob : Glob) (a : List String) :
    ∃ rest, url name glob a = .seq (.cond (fetchTest glob a) (fetch glob a) skip) rest := by
  unfold url fetchTest fetch
  dsimp only
  split <;> exact ⟨_, rfl⟩

theorem straight_fetch (glob : Glob) (a : List String) : (fetch glob a).Straight := by
  unfold fetch
  dsimp only
  split <;> simp [Straight]

/-- For a git repository, all that a `Url` line does before it copies the clone. -/
def pulled (glob : Glob) (a : List String) : Prog Cmd Test :=
  let file := basename (expand glob (a.getD 2 ""))
  chain [.cond (fetchTest glob a) (fetch glob a) skip, cmd (.pushd s!"projects/{file}"),
    cmd .gitPull, cmd .popd]

/-- The copy into `build`, which it does not create. -/
def copyClone (name : String) (glob : Glob) (a : List String) : Cmd :=
  let file := basename (expand glob (a.getD 2 ""))
  .rsync s!"projects/{file}/*" s!"build/{name}/"

theorem straight_url (name : String) (glob : Glob) (a : List String) :
    (url name glob a).Straight := by
  unfold url
  dsimp only
  split <;> simp [Straight]

theorem store_turn_git {σ : Type*} (m : Machine (ℕ × Cmd) (ℕ × Test) σ) (name pre : String)
    (glob : Glob) {l : String × ℕ} (hurl : IsUrl glob l.1)
    (hgit : (tokens glob l.1).getD 1 "" = "git") (y : σ) :
    (start m (turn glob name pre l) y).store =
      (m.exec (l.2, copyClone name glob (tokens glob l.1))
        (start m ((pulled glob (tokens glob l.1)).map (l.2, ·) (l.2, ·)) y).store).2 := by
  let a := tokens glob l.1
  let file := basename (expand glob (a.getD 2 ""))
  let first : Script := (Prog.cond (fetchTest glob a) (fetch glob a) skip).map (l.2, ·) (l.2, ·)
  have hfirst : first.Straight :=
    (straight_map _ _ _).mpr ⟨straight_fetch glob a, trivial⟩
  have hturn : turn glob name pre l = chain ([first, cmd (l.2, .pushd s!"projects/{file}"),
      cmd (l.2, .gitPull), cmd (l.2, .popd)] ++ [cmd (l.2, copyClone name glob a)]) := by
    rw [turn, directive_url name pre glob hurl]
    unfold first url fetchTest fetch
    dsimp only
    rw [if_pos hgit, if_pos hgit, if_pos hgit]
    rfl
  rw [hturn, start, eval_chain_concat_store m (by simp [hfirst]) _ rfl]
  rfl

section Order

variable {ι V : Type*} (T : SdkFile → Footprint (ℕ × Cmd) (ℕ × Test) ι V) (glob : Glob)
  (pre : String)

/-- `sdk/install install NAME PREFIX` -/
def SdkFile.install (A : SdkFile) : Script := main glob .install A.name pre (some A.lines)

def SdkFile.run (A : SdkFile) (x : ι → V) : Shell.State (ι → V) :=
  start (T A).toMachine (A.install glob pre) x

/-- What the script `A`, installed over `x`, reads before it writes it. -/
def SdkFile.needs (A : SdkFile) (x : ι → V) : Set ι :=
  (T A).needs (A.install glob pre) { store := x }

/-- What the script `A` writes when it is installed over `x`. -/
def SdkFile.written (A : SdkFile) (x : ι → V) : Set ι :=
  (T A).written (A.install glob pre) { store := x }

/-- `l` is the first line of the script behind messages, and it is a `Url` line. -/
structure SdkFile.Opens (A : SdkFile) (l : String × ℕ) (tail : List (String × ℕ)) : Prop where
  url : IsUrl glob l.1
  lines_eq : ∃ heads, A.lines.zipIdx 1 = heads ++ l :: tail ∧
    ∀ k ∈ heads, ∃ text, directive A.name pre glob k.1 = cmd (.echo text) ∧
      (T A).writes (k.2, .echo text) = ∅

/-- The files with which the script `A` begins over `x`: those of `x`, or those that its
first `Url` line has fetched if they were missing. -/
inductive SdkFile.Begins (A : SdkFile) (x : ι → V) : (ι → V) → Prop
  | here : A.Begins x x
  | fetched {l : String × ℕ} {tail : List (String × ℕ)} (hopens : A.Opens T glob pre l tail)
      (hmissing : (T A).test (l.2, fetchTest glob (tokens glob l.1)) x = true)
      (hthere : (T A).test (l.2, fetchTest glob (tokens glob l.1))
        (start (T A).toMachine ((fetch glob (tokens glob l.1)).map (l.2, ·) (l.2, ·)) x).store =
          false) :
      A.Begins x
        (start (T A).toMachine ((fetch glob (tokens glob l.1)).map (l.2, ·) (l.2, ·)) x).store

/-- Installing `A` then `B` and `B` then `A` leave the same files, and each script
ends with the same status. -/
def SdkFile.Independent (A B : SdkFile) (x : ι → V) : Prop :=
  (B.run T glob pre (A.run T glob pre x).store).store =
      (A.run T glob pre (B.run T glob pre x).store).store ∧
    (B.run T glob pre (A.run T glob pre x).store).status = (B.run T glob pre x).status ∧
    (A.run T glob pre (B.run T glob pre x).store).status = (A.run T glob pre x).status

/-- Over the files `x`, neither script changes what the other one needs, and both leave the
same where both write. -/
structure SdkFile.Apart (A B : SdkFile) (x : ι → V) : Prop where
  left : ∃ S, A.needs T glob pre x ⊆ S ∧ (T B).Spares (B.install glob pre) x S
  right : ∃ S, B.needs T glob pre x ⊆ S ∧ (T A).Spares (A.install glob pre) x S
  both : ∀ i ∈ A.written T glob pre x ∩ B.written T glob pre x, ∃ v,
    (T A).Leaves (A.install glob pre) x i v ∧ (T B).Leaves (B.install glob pre) x i v

/-- The script `A` opens with a git repository, from which nothing is copied to `i` as long
as `build` is as in `x`. What `B` leaves is copied to, and nothing else changes `i`. -/
inductive SdkFile.Waits (A B : SdkFile) (x : ι → V) : Prop
  | intro {l : String × ℕ} {tail : List (String × ℕ)} (build i : ι)
      (hopens : A.Opens T glob pre l tail)
      (hgit : (tokens glob l.1).getD 1 "" = "git")
      (hnothing : ∀ y, y build = x build → y i = x i →
        ((T A).exec (l.2, copyClone A.name glob (tokens glob l.1)) y).2 i = x i)
      (hcopied : ((T A).exec (l.2, copyClone A.name glob (tokens glob l.1))
        (start (T A).toMachine ((pulled glob (tokens glob l.1)).map (l.2, ·) (l.2, ·))
          (B.run T glob pre x).store).store).2 i ≠ x i)
      (hfirst : (turn glob A.name pre l).All fun c => build ∉ (T A).writes c ∧
        (c ≠ (l.2, copyClone A.name glob (tokens glob l.1)) → i ∉ (T A).writes c))
      (htail : ∀ k ∈ tail, (turn glob A.name pre k).All fun c => i ∉ (T A).writes c)
      (hother : (B.install glob pre).All fun c => i ∉ (T B).writes c)

variable {T glob pre} {A B : SdkFile} {x : ι → V}

theorem SdkFile.Independent.symm (h : A.Independent T glob pre B x) :
    B.Independent T glob pre A x := ⟨h.1.symm, h.2.2, h.2.1⟩

/-- Over what it has fetched, the `Url` line goes on as if it had fetched it now. -/
theorem alike_turn {f : Footprint (ℕ × Cmd) (ℕ × Test) ι V} {name : String} {l : String × ℕ}
    (hurl : IsUrl glob l.1)
    (hmissing : f.test (l.2, fetchTest glob (tokens glob l.1)) x = true)
    (hthere : f.test (l.2, fetchTest glob (tokens glob l.1))
      (start f.toMachine ((fetch glob (tokens glob l.1)).map (l.2, ·) (l.2, ·)) x).store = false)
    {s t : Shell.State (ι → V)} (hs : s.exited = false) (ht : t.exited = false)
    (hsx : s.store = x)
    (htx : t.store =
      (start f.toMachine ((fetch glob (tokens glob l.1)).map (l.2, ·) (l.2, ·)) x).store) :
    Alike (eval f.toMachine (turn glob name pre l) s)
      (eval f.toMachine (turn glob name pre l) t) := by
  obtain ⟨rest, heq⟩ := exists_url_eq name glob (tokens glob l.1)
  have hsaveless := saveless_url name glob (tokens glob l.1)
  rw [heq] at hsaveless
  let first : Script := (fetch glob (tokens glob l.1)).map (l.2, ·) (l.2, ·)
  have hturn : turn glob name pre l =
      .seq (.cond (l.2, fetchTest glob (tokens glob l.1)) first skip)
        (rest.map (l.2, ·) (l.2, ·)) := by
    rw [turn, directive_url name pre glob hurl, heq]
    rfl
  have hstraight : first.Straight := (straight_map _ _ _).mpr (straight_fetch glob _)
  have hfetch : Alike (eval f.toMachine first s) (start f.toMachine first x) :=
    eval_alike (saveless_map _ _ hsaveless.1.1) hsx hs
  have hfirst : (Prog.cond (l.2, fetchTest glob (tokens glob l.1)) first skip).Straight :=
    ⟨hstraight, trivial⟩
  rw [hturn, eval_seq _ hfirst _ hs, eval_seq _ hfirst _ ht]
  refine eval_alike (saveless_map _ _ hsaveless.2) ?_ ?_
  · have hdone : eval f.toMachine
        (Prog.cond (l.2, fetchTest glob (tokens glob l.1)) first skip) s =
          eval f.toMachine first s := if_pos (hsx.symm ▸ hmissing)
    have hskip : eval f.toMachine
        (Prog.cond (l.2, fetchTest glob (tokens glob l.1)) first skip) t =
          { t with status := 0 } := if_neg (by rw [htx, hthere]; exact Bool.false_ne_true)
    rw [hdone, hskip]
    exact hfetch.store.trans htx.symm
  · rw [(eval_straight _ hfirst s).1, (eval_straight _ hfirst t).1, hs, ht]

/-- Messages change nothing. -/
theorem SdkFile.Opens.exists_run_eq {l : String × ℕ} {tail : List (String × ℕ)}
    (h : A.Opens T glob pre l tail) (y : ι → V) :
    ∃ u : Shell.State (ι → V), u.exited = false ∧ u.store = y ∧ A.run T glob pre y =
      eval (T A).toMachine (forEach (l :: tail) (turn glob A.name pre)) u := by
  obtain ⟨heads, hlines, hheads⟩ := h.lines_eq
  have hrun : A.run T glob pre y = eval (T A).toMachine
      (forEach (heads ++ l :: tail) (turn glob A.name pre)) { store := y } := by
    rw [← hlines]
    rfl
  have hall : ∀ s : Shell.State (ι → V), s.exited = false → s.store = y →
      ∃ u : Shell.State (ι → V), u.exited = false ∧ u.store = y ∧
        eval (T A).toMachine (forEach (heads ++ l :: tail) (turn glob A.name pre)) s =
          eval (T A).toMachine (forEach (l :: tail) (turn glob A.name pre)) u := by
    clear hlines hrun
    induction heads with
    | nil => exact fun s hs hy => ⟨s, hs, hy, rfl⟩
    | cons k heads ih =>
        intro s hs hy
        obtain ⟨⟨text, hecho, hwrites⟩, hheads⟩ := List.forall_mem_cons.mp hheads
        have hturn : turn glob A.name pre k = cmd (k.2, .echo text) := by
          rw [turn, hecho]
          rfl
        have hstay : ((T A).exec (k.2, .echo text) s.store).2 = y :=
          (funext fun i => (T A).frame _ s.store i (by simp [hwrites])).trans hy
        obtain ⟨q, qs, hqs⟩ := List.exists_cons_of_ne_nil
          (l := (heads ++ l :: tail).map (turn glob A.name pre)) (by simp)
        obtain ⟨u, hu, huy, heval⟩ :=
          ih hheads (eval (T A).toMachine (cmd (k.2, .echo text)) s) hs hstay
        refine ⟨u, hu, huy, Eq.trans ?_ heval⟩
        rw [forEach, forEach, List.cons_append, List.map_cons, hqs, chain_cons_cons, hturn,
          eval_seq _ (straight_cmd _) _ hs]
  obtain ⟨u, hu, huy, heval⟩ := hall { store := y } rfl rfl
  exact ⟨u, hu, huy, hrun.trans heval⟩

/-- A script ends the same, whether it has to fetch its file or finds it. -/
theorem run_of_begins {x' : ι → V} (h : A.Begins T glob pre x x') :
    Alike (A.run T glob pre x) (A.run T glob pre x') := by
  cases h with
  | here => exact ⟨rfl, rfl, rfl⟩
  | fetched hopens hmissing hthere =>
      obtain ⟨s, hs, hsx, hrun⟩ := hopens.exists_run_eq x
      obtain ⟨t, ht, htx, hrun'⟩ := hopens.exists_run_eq (start (T A).toMachine _ x).store
      rw [hrun, hrun']
      refine Alike.chain (alike_turn hopens.url hmissing hthere hs ht hsx htx) fun q hq => ?_
      obtain ⟨k, -, rfl⟩ := List.mem_map.mp hq
      exact saveless_turn A.name pre glob k

theorem SdkFile.Apart.independent {x' : ι → V} (hA : A.Begins T glob pre x x')
    (hB : B.Begins T glob pre x x') (h : A.Apart T glob pre B x') :
    A.Independent T glob pre B x := by
  obtain ⟨S, hneedsA, hsparesB⟩ := h.left
  obtain ⟨S', hneedsB, hsparesA⟩ := h.right
  obtain ⟨hstore, hstatusB, hstatusA⟩ :=
    start_comm hneedsA hsparesB hneedsB hsparesA h.both
  have hrunA := run_of_begins hA
  have hrunB := run_of_begins hB
  rw [SdkFile.Independent, hrunA.store, hrunB.store, hrunA.status, hrunB.status]
  exact ⟨hstore, hstatusB, hstatusA⟩

theorem SdkFile.Waits.not_independent (h : A.Waits T glob pre B x) :
    ¬ A.Independent T glob pre B x := by
  obtain @⟨l, tail, build, i, hopens, hgit, hnothing, hcopied, hfirst, htail, hother⟩ := h
  have hstraight : (turn glob A.name pre l).Straight := by
    rw [turn, directive_url A.name pre glob hopens.url]
    exact (straight_map _ _ _).mpr (straight_url A.name glob _)
  -- what stands in `i` comes from the `Url` line of `A`
  have hrun : ∀ y, (A.run T glob pre y).store i =
      (start (T A).toMachine (turn glob A.name pre l) y).store i := fun y => by
    obtain ⟨u, hu, huy, hrun⟩ := hopens.exists_run_eq y
    have hlive : (eval (T A).toMachine (turn glob A.name pre l) u).exited = false :=
      (eval_straight _ hstraight u).1.trans hu
    have hstore : (eval (T A).toMachine (turn glob A.name pre l) u).store =
        (start (T A).toMachine (turn glob A.name pre l) y).store :=
      (eval_alike (saveless_turn A.name pre glob l) huy hu).store
    have hlater : (chain (tail.map (turn glob A.name pre))).All fun c => i ∉ (T A).writes c :=
      all_chain (List.forall_mem_map.mpr htail)
    rw [hrun, forEach, List.map_cons, eval_chain_cons_store _ _ _ hlive, ← hstore]
    exact eval_unwritten hlater _
  have hAB : (B.run T glob pre (A.run T glob pre x).store).store i = x i := by
    have hturn : (start (T A).toMachine (turn glob A.name pre l) x).store build = x build ∧
        (start (T A).toMachine (turn glob A.name pre l) x).store i = x i := by
      refine eval_invariant (T A).toMachine (I := fun z => z build = x build ∧ z i = x i)
        (fun c z hc hz => ⟨((T A).frame c z build hc.1).trans hz.1, ?_⟩) hfirst ⟨rfl, rfl⟩
      by_cases hcopy : c = (l.2, copyClone A.name glob (tokens glob l.1))
      · exact hcopy ▸ hnothing z hz.1 hz.2
      · exact ((T A).frame c z i (hc.2 hcopy)).trans hz.2
    have hkept : (B.run T glob pre (A.run T glob pre x).store).store i =
        (A.run T glob pre x).store i := eval_unwritten hother _
    exact hkept.trans ((hrun x).trans hturn.2)
  have hBA : (A.run T glob pre (B.run T glob pre x).store).store i ≠ x i := by
    rw [hrun, store_turn_git _ A.name pre glob hopens.url hgit]
    exact hcopied
  exact fun h => hBA ((congrFun h.1 i).symm.trans hAB)

variable (T glob pre)

end Order

/-! ### Scripts on a small disk -/

def shared : SdkFile → Footprint (ℕ × Cmd) (ℕ × Test) String (Option String) := fun _ => disk

/-- The disk with the files of other installs: `build` is there. -/
def builtDisk : Disk := fun i => if i = "build" then some "directory" else none

/-- `sdi.sdk` is cut in two. -/
def sdiLib : SdkFile := ⟨"sdi", sdi⟩

def sdiMisc : SdkFile := ⟨"sdi2", ["Url: git://github.com/bebbo/SDI", "SDI_misc.h"]⟩

def pccardFile : SdkFile := ⟨"pccard", pccard⟩

/-- Both begin with the same clone. -/
def clonedDisk : Disk := fun i => if i = "projects/SDI" then some "SDI" else builtDisk i

theorem fetch_sdi : fetch literal (tokens literal "Url: git://github.com/bebbo/SDI") =
    chain [
      cmd (.pushd "projects"),
      .or (cmd (.gitClone "https://github.com/bebbo/SDI"))
        (sub (chain [cmd (.rmTree "SDI"), exit 1])),
      cmd .popd] := by
  unfold fetch
  rfl

theorem fetchTest_sdi : fetchTest literal (tokens literal "Url: git://github.com/bebbo/SDI") =
    .missing "projects/SDI" := by
  unfold fetchTest
  rfl

theorem fetched_sdi :
    (start disk.toMachine
      ((fetch literal (tokens literal "Url: git://github.com/bebbo/SDI")).map (1, ·) (1, ·))
        builtDisk).store = clonedDisk := by
  rw [fetch_sdi]
  funext i
  simp [start, eval, disk, Footprint.ofFun, Prog.map, builtDisk, clonedDisk]

theorem opens_sdi {A : SdkFile} {payload : String}
    (hlines : A.lines = ["Url: git://github.com/bebbo/SDI", payload]) :
    A.Opens shared literal "/opt/amiga" ("Url: git://github.com/bebbo/SDI", 1)
      [(payload, 2)] where
  url := by decide
  lines_eq := ⟨[], by rw [hlines]; rfl, by simp⟩

theorem begins_sdi {A : SdkFile} {payload : String}
    (hlines : A.lines = ["Url: git://github.com/bebbo/SDI", payload]) :
    A.Begins shared literal "/opt/amiga" builtDisk clonedDisk := by
  rw [← fetched_sdi]
  refine .fetched (opens_sdi hlines) ?_ ?_
  · rw [fetchTest_sdi]
    rfl
  · rw [fetchTest_sdi]
    change disk.test _ (start disk.toMachine _ _).store = false
    rw [fetched_sdi]
    rfl

theorem install_pccard :
    pccardFile.install literal "/opt/amiga" =
      chain [
        (directive "pccard" "/opt/amiga" literal "Url: http://aminet.net/pccard.lha").map
          (1, ·) (1, ·),
        (directive "pccard" "/opt/amiga" literal "pccard.h").map (2, ·) (2, ·)] := rfl

theorem directive_misc_header :
    directive "sdi2" "/opt/amiga" literal "SDI_misc.h" =
      chain [
        cmd (.mkdir "/opt/amiga/m68k-amigaos/include/."),
        cmd (.echo "cp build/sdi2/SDI_misc.h /opt/amiga/m68k-amigaos/include/./SDI_misc.h"),
        cmd (.cp "build/sdi2/SDI_misc.h" "/opt/amiga/m68k-amigaos/include/./SDI_misc.h")] := by
  unfold directive
  rfl

theorem install_lib :
    sdiLib.install literal "/opt/amiga" =
      chain [
        (directive "sdi" "/opt/amiga" literal "Url: git://github.com/bebbo/SDI").map
          (1, ·) (1, ·),
        (directive "sdi" "/opt/amiga" literal "SDI_lib.h").map (2, ·) (2, ·)] := rfl

theorem install_misc :
    sdiMisc.install literal "/opt/amiga" =
      chain [
        (directive "sdi2" "/opt/amiga" literal "Url: git://github.com/bebbo/SDI").map
          (1, ·) (1, ·),
        (directive "sdi2" "/opt/amiga" literal "SDI_misc.h").map (2, ·) (2, ·)] := rfl

def common : Set String := {i | i = "projects/SDI" ∨ i = "build"}

theorem spares_lib :
    disk.Spares (sdiLib.install literal "/opt/amiga") clonedDisk common := by
  refine spares_of_all ?_
  rw [install_lib, directive_sdi_url "sdi" "build/sdi/" rfl, directive_sdi_header]
  simp [All, disk, Footprint.ofFun, clonedDisk, builtDisk, Prog.map, common]

theorem spares_misc :
    disk.Spares (sdiMisc.install literal "/opt/amiga") clonedDisk common := by
  refine spares_of_all ?_
  rw [install_misc, directive_sdi_url "sdi2" "build/sdi2/" rfl, directive_misc_header]
  simp [All, disk, Footprint.ofFun, clonedDisk, builtDisk, Prog.map, common]

theorem needs_lib :
    sdiLib.needs shared literal "/opt/amiga" clonedDisk ⊆ common := by
  intro i hi
  rw [SdkFile.needs, install_lib, directive_sdi_url "sdi" "build/sdi/" rfl,
    directive_sdi_header] at hi
  simp [Footprint.needs, Footprint.written, eval, shared, disk, Footprint.ofFun, restrict,
    clonedDisk, builtDisk, Prog.map] at hi
  rcases hi with hi | hi | hi
  · exact Or.inl hi
  · exact Or.inr hi
  · exact Or.inl hi

theorem needs_misc :
    sdiMisc.needs shared literal "/opt/amiga" clonedDisk ⊆ common := by
  intro i hi
  rw [SdkFile.needs, install_misc, directive_sdi_url "sdi2" "build/sdi2/" rfl,
    directive_misc_header] at hi
  simp [Footprint.needs, Footprint.written, eval, shared, disk, Footprint.ofFun, restrict,
    clonedDisk, builtDisk, Prog.map] at hi
  rcases hi with hi | hi | hi
  · exact Or.inl hi
  · exact Or.inr hi
  · exact Or.inl hi

theorem written_lib {i : String}
    (hi : i ∈ sdiLib.written shared literal "/opt/amiga" clonedDisk) :
    i = "build/sdi/SDI_lib.h" ∨ i = "/opt/amiga/m68k-amigaos/include/./SDI_lib.h" := by
  rw [SdkFile.written, install_lib, directive_sdi_url "sdi" "build/sdi/" rfl,
    directive_sdi_header] at hi
  simpa [Footprint.written, eval, shared, disk, Footprint.ofFun, restrict,
    clonedDisk, builtDisk, Prog.map] using hi

theorem written_misc {i : String}
    (hi : i ∈ sdiMisc.written shared literal "/opt/amiga" clonedDisk) :
    i = "build/sdi2/SDI_misc.h" ∨ i = "/opt/amiga/m68k-amigaos/include/./SDI_misc.h" := by
  rw [SdkFile.written, install_misc, directive_sdi_url "sdi2" "build/sdi2/" rfl,
    directive_misc_header] at hi
  simpa [Footprint.written, eval, shared, disk, Footprint.ofFun, restrict,
    clonedDisk, builtDisk, Prog.map] using hi

theorem apart_sdi : sdiLib.Apart shared literal "/opt/amiga" sdiMisc clonedDisk where
  left := ⟨common, needs_lib, spares_misc⟩
  right := ⟨common, needs_misc, spares_lib⟩
  both := by
    rintro i ⟨hlib, hmisc⟩
    rcases written_lib hlib with rfl | rfl <;> rcases written_misc hmisc with h | h <;>
      exact absurd h (by decide)

theorem copyClone_sdi :
    copyClone "sdi" literal (tokens literal "Url: git://github.com/bebbo/SDI") =
      .rsync "projects/SDI/*" "build/sdi/" := by
  decide

theorem waits_sdi : sdiLib.Waits shared literal "/opt/amiga" pccardFile cleanDisk := by
  refine .intro "build" "build/sdi/SDI_lib.h" (opens_sdi rfl) (by decide) ?_ ?_ ?_ ?_ ?_
  · intro y hbuild hi
    change (disk.exec (1, copyClone "sdi" literal _) y).2 _ = _
    rw [copyClone_sdi]
    simp_all [disk, Footprint.ofFun, restrict, cleanDisk]
  · change (disk.exec (1, copyClone "sdi" literal _) _).2 _ ≠ _
    rw [copyClone_sdi]
    unfold pulled
    simp only [SdkFile.run, install_pccard, directive_pccard_url, directive_pccard_header,
      fetch_sdi, fetchTest_sdi]
    simp [start, eval, shared, disk, Footprint.ofFun, restrict, cleanDisk, Prog.map]
  · change (turn literal "sdi" "/opt/amiga" _).All fun c => _ ∉ disk.writes c ∧
      (c ≠ (1, copyClone "sdi" literal _) → _ ∉ disk.writes c)
    rw [copyClone_sdi, turn, directive_sdi_url "sdi" "build/sdi/" rfl]
    simp [All, disk, Footprint.ofFun, Prog.map]
  · intro k hk
    obtain rfl := List.mem_singleton.mp hk
    change (turn literal "sdi" "/opt/amiga" _).All fun c => _ ∉ disk.writes c
    rw [turn, directive_sdi_header]
    simp [All, disk, Footprint.ofFun, Prog.map]
  · rw [install_pccard, directive_pccard_url, directive_pccard_header]
    simp [All, shared, disk, Footprint.ofFun, Prog.map]

end Sdk

end AmigaGcc
