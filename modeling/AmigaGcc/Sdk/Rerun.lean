import AmigaGcc.Library.Shell.Footprint
import AmigaGcc.Sdk.Disk
import AmigaGcc.Sdk.Status

/-!
# Installing again

`sdk/install` keeps `projects`, `download` and `build` from one run to the next.
A `Url` line fetches and unpacks only what is missing, while the other lines read,
and some of them edit, what is there. So a later run installs the same files as a
run on a clean tree as long as its lines find what they found there: `Refinds`.

What the commands do is left open. `Tools` says which locations they depend on
and which they change, and that no file in `PREFIX` is one that a command writes below
`projects`, `download` or `build`.
-/

namespace AmigaGcc

namespace Sdk

open Library Shell Shell.Prog

/-- The commands and tests of the script, as functions of the files they read. -/
structure Tools (ι V : Type*) extends Footprint (ℕ × Cmd) (ℕ × Test) ι V where
  /-- the files in `PREFIX` -/
  installed : Set ι
  /-- what is fetched lies in `projects`, `download` and `build` -/
  fetches_outside : ∀ (n : ℕ) (c : Cmd), c.Fetches → ∀ i ∈ installed, i ∉ writes (n, c)

namespace Tools

variable {ι V : Type*} (T : Tools ι V) (glob : Glob) (name pre : String)

/-- What a `Url` line makes of the files `x`. -/
def prepared (l : String × ℕ) (x : ι → V) : ι → V :=
  (start T.toMachine (turn glob name pre l) x).store

/-- Over the files `x`, the line has nothing to do with `D`. -/
def Untouched (l : String × ℕ) (D : Set ι) (x : ι → V) : Prop :=
  ∀ i ∈ D, i ∉ T.needs (turn glob name pre l) { store := x } ∧
    i ∉ T.written (turn glob name pre l) { store := x }

/-- The commands of another line. -/
def laid (l : String × ℕ) : List (ℕ × Cmd) := commands (fun _ => false) (turn glob name pre l)

/-- Two trees with the files `x` and `y`, and with the same in `D`, are made the same: each
command of a line that is no `Url` line makes the same of the files of both, once the `Url`
lines are carried out. -/
def Refinds : (ι → V) → (ι → V) → Set ι → List (String × ℕ) → Prop
  | _, _, _, [] => True
  | x, y, D, l :: ls =>
      if IsUrl glob l.1 then
        (T.Untouched glob name pre l D x ∧ T.Untouched glob name pre l D y) ∧
          Refinds (T.prepared glob name pre l x) (T.prepared glob name pre l y) D ls
      else
        T.SettlesAll x y D (laid glob name pre l) ∧
          Refinds x y (D ∪ T.outputs (laid glob name pre l)) ls

/-- No command that is run tells a failure. -/
def Unfailing (p : Script) (s : Shell.State (ι → V)) : Prop :=
  Along T.toMachine (fun c x => Tells c → (T.exec c x).1 = 0) p s

/-- The location `i` is written by a line that is no `Url` line. -/
def Touched (ls : List (String × ℕ)) (i : ι) : Prop :=
  ∃ l ∈ ls, ¬ IsUrl glob l.1 ∧ i ∈ T.outputs (laid glob name pre l)

section Turn

variable {T glob name pre} {l : String × ℕ}

theorem linear_turn (h : ¬ IsUrl glob l.1) : Linear (turn glob name pre l) :=
  (linear_map _ _ _).mpr (linear_directive name pre glob h)

theorem all_turn_url (h : IsUrl glob l.1) {i : ι} (hi : i ∈ T.installed) :
    (turn glob name pre l).All fun c => i ∉ T.writes c := by
  rw [turn, directive_url name pre glob h, all_map]
  exact (fetches_url name glob (tokens glob l.1)).mono fun c hc => T.fetches_outside l.2 c hc i hi

theorem prepared_eqOn (h : IsUrl glob l.1) (x : ι → V) :
    Set.EqOn (T.prepared glob name pre l x) x T.installed := fun _ hi =>
  Footprint.eval_unwritten (all_turn_url h hi) _

theorem all_turn_of_laid (h : ¬ IsUrl glob l.1) {i : ι}
    (hi : i ∉ T.outputs (laid glob name pre l)) :
    (turn glob name pre l).All fun c => i ∉ T.writes c :=
  ((linear_turn h).all_mem_commands fun _ => false).mono fun c hc hw => hi ⟨c, hc, hw⟩

end Turn

/-- Side by side, the lines leave the same where lines other than `Url` lines write, and
nowhere else they change what is installed. -/
theorem eqOn_lines {ls : List (String × ℕ)} {s t : Shell.State (ι → V)} {x y : ι → V}
    {D : Set ι} (hs : s.exited = false) (ht : t.exited = false)
    (hsK : T.Unfailing (forEach ls (turn glob name pre)) s)
    (htK : T.Unfailing (forEach ls (turn glob name pre)) t)
    (h : T.Refinds glob name pre x y D ls) (hst : Determined D x y s.store t.store) {i : ι}
    (hi : i ∈ T.installed) (heq : x i = y i ∨ i ∈ D ∨ T.Touched glob name pre ls i) :
    (eval T.toMachine (forEach ls (turn glob name pre)) s).store i =
      (eval T.toMachine (forEach ls (turn glob name pre)) t).store i := by
  induction ls generalizing s t x y D with
  | nil =>
      have hnone : ¬ T.Touched glob name pre [] i := by simp [Touched]
      by_cases hD : i ∈ D
      · exact hst.inside hD
      · have hxy : x i = y i := heq.resolve_right (by simp [hD, hnone])
        exact (hst.left hD).trans (hxy.trans (hst.right hD).symm)
  | cons l ls ih =>
      obtain ⟨hsl, hsls⟩ := (along_chain_cons _ _ _ _ _).mp hsK
      obtain ⟨htl, htls⟩ := (along_chain_cons _ _ _ _ _).mp htK
      have hsx := (eval_of_along (guarded_turn glob name pre l) hs hsl).1
      have htx := (eval_of_along (guarded_turn glob name pre l) ht htl).1
      have hstore : ∀ u : Shell.State (ι → V),
          (eval T.toMachine (turn glob name pre l) u).exited = false →
          (eval T.toMachine (forEach (l :: ls) (turn glob name pre)) u).store =
            (eval T.toMachine (forEach ls (turn glob name pre))
              (eval T.toMachine (turn glob name pre l) u)).store :=
        fun u hu => eval_chain_cons_store T.toMachine _ _ hu
      rw [hstore s hsx, hstore t htx]
      rw [Refinds] at h
      by_cases hurl : IsUrl glob l.1
      · rw [if_pos hurl] at h
        have hnext := Footprint.eval_beside (saveless_turn name pre glob l) hs ht h.1.1 h.1.2 hst
        refine ih hsx htx (hsls hsx) (htls htx) h.2 hnext ?_
        have hx : T.prepared glob name pre l x i = x i := prepared_eqOn hurl x hi
        have hy : T.prepared glob name pre l y i = y i := prepared_eqOn hurl y hi
        refine heq.imp (fun heq => hx.trans (heq.trans hy.symm)) fun hor => hor.imp_right ?_
        rintro ⟨k, hk, hother, hmem⟩
        rcases List.mem_cons.mp hk with rfl | hk
        · exact absurd hurl hother
        · exact ⟨k, hk, hother, hmem⟩
      · rw [if_neg hurl] at h
        have hnext := Footprint.eval_determined (guarded_turn glob name pre l) (linear_turn hurl)
          (fun _ => false) hs ht hsl htl h.1 hst
        refine ih hsx htx (hsls hsx) (htls htx) h.2 hnext (heq.imp_right ?_)
        rintro (hD | ⟨k, hk, hother, hmem⟩)
        · exact Or.inl (Or.inl hD)
        · rcases List.mem_cons.mp hk with rfl | hk
          · exact Or.inl (Or.inr hmem)
          · exact Or.inr ⟨k, hk, hother, hmem⟩

variable (lines : List String)

/-- `sdk/install install NAME PREFIX` over the files `x`. -/
def run (x : ι → V) : Shell.State (ι → V) :=
  start T.toMachine (main glob .install name pre (some lines)) x

/-- The files after a run over `x` with the given faults. -/
def earlier [∀ c, DecidablePred (· ∈ T.writes c)] (x : ι → V) (faults : List (Fault ι V)) :
    ι → V :=
  (start T.faulty (main glob .install name pre (some lines))
    { disk := x, faults := faults }).store.disk

/-- An earlier run changes no other installed files than the lines write. -/
theorem earlier_eq_or_touched [∀ c, DecidablePred (· ∈ T.writes c)] (x : ι → V)
    (faults : List (Fault ι V)) {i : ι} (hi : i ∈ T.installed) :
    x i = T.earlier glob name pre lines x faults i ∨
      T.Touched glob name pre (lines.zipIdx 1) i := by
  by_cases htouched : T.Touched glob name pre (lines.zipIdx 1) i
  · exact Or.inr htouched
  · refine Or.inl (Eq.symm (T.eval_faulty_frame (all_chain fun p hp => ?_) _))
    obtain ⟨l, hl, rfl⟩ := List.mem_map.mp hp
    by_cases hurl : IsUrl glob l.1
    · exact all_turn_url hurl hi
    · exact all_turn_of_laid hurl fun hmem => htouched ⟨l, hl, hurl, hmem⟩

theorem disk_writes_outside {c : ℕ × Cmd} (hc : ∀ src dst, c.2 ≠ .cp src dst) :
    ∀ i : String, i.toList.head? = some '/' → i ∉ disk.writes c := by
  rintro i hi hmem
  simp only [disk, Footprint.ofFun, Set.mem_ofPred_eq] at hmem
  split at hmem
  case h_7 heq => exact hc _ _ heq
  all_goals
    simp only [List.mem_cons, List.not_mem_nil, or_false] at hmem
    try rcases hmem with rfl | rfl <;> revert hi <;> decide

def diskTools : Tools String (Option String) where
  toFootprint := disk
  installed := {i | i.toList.head? = some '/'}
  fetches_outside n c hc := disk_writes_outside (c := (n, c)) (by rintro src dst rfl; exact hc)

instance (c : ℕ × Cmd) : DecidablePred (· ∈ diskTools.writes c) :=
  inferInstanceAs (DecidablePred (· ∈ disk.writes c))

theorem main_pccard :
    main literal .install "pccard" "/opt/amiga" (some pccard) =
      chain [
        (directive "pccard" "/opt/amiga" literal "Url: http://aminet.net/pccard.lha").map
          (1, ·) (1, ·),
        (directive "pccard" "/opt/amiga" literal "pccard.h").map (2, ·) (2, ·)] := rfl

/-- The disk with the header `header` in the unpacked tree and `copy` in `PREFIX`. -/
def unpackedDisk (header : String) (copy : Option String) : Disk := fun i =>
  if i = "/opt/amiga/m68k-amigaos/include/./pccard.h" then copy
  else if i = "build/pccard/pccard.h" then some header
  else if i = "build" ∨ i = "build/pccard" then some "directory"
  else if i = "download/pccard.lha" then some "archive"
  else none

/-- The first run is killed in `lha`, with half of the header written. -/
theorem earlier_killed_in_lha :
    diskTools.earlier literal "pccard" "/opt/amiga" pccard cleanDisk
      [.none, .none, .none, .none, .kill fun _ => some "hea"] = unpackedDisk "hea" none := by
  funext i
  rw [earlier, main_pccard, directive_pccard_url, directive_pccard_header]
  by_cases hi : i = "/opt/amiga/m68k-amigaos/include/./pccard.h"
  · simp [start, eval, Footprint.faulty, overwrite, diskTools, disk, Footprint.ofFun, restrict,
      cleanDisk, Prog.map, unpackedDisk, hi]
  · simp [start, eval, Footprint.faulty, overwrite, diskTools, disk, Footprint.ofFun, restrict,
      cleanDisk, Prog.map, unpackedDisk, hi]

theorem main_patched :
    main literal .install "pccard" "/opt/amiga" (some pccardPatched) =
      chain [
        (directive "pccard" "/opt/amiga" literal "Url: http://aminet.net/pccard.lha").map
          (1, ·) (1, ·),
        (directive "pccard" "/opt/amiga" literal "patch: pccard.diff").map (2, ·) (2, ·),
        (directive "pccard" "/opt/amiga" literal "pccard.h").map (3, ·) (3, ·)] := rfl

/-- The first run is killed in `cp`, with half of the header written. -/
theorem earlier_killed_in_cp :
    diskTools.earlier literal "pccard" "/opt/amiga" pccardPatched cleanDisk
      [.none, .none, .none, .none, .none, .none, .none, .none, .none, .none, .none,
        .kill fun _ => some "hea"] = unpackedDisk "patched" (some "hea") := by
  funext i
  rw [earlier, main_patched, directive_pccard_url, directive_pccard_patch,
    directive_pccard_header]
  by_cases hi : i = "build/pccard/pccard.h"
  · simp [start, eval, Footprint.faulty, overwrite, diskTools, disk, Footprint.ofFun, restrict,
      cleanDisk, Prog.map, unpackedDisk, hi]
  · simp [start, eval, Footprint.faulty, overwrite, diskTools, disk, Footprint.ofFun, restrict,
      cleanDisk, Prog.map, unpackedDisk, hi]

theorem unfailing_clean :
    diskTools.Unfailing (main literal .install "pccard" "/opt/amiga" (some pccard))
      { store := cleanDisk } := by
  rw [main_pccard, directive_pccard_url, directive_pccard_header]
  simp [Unfailing, Along, eval, diskTools, disk, Footprint.ofFun, restrict, cleanDisk, Prog.map,
    Tells]

theorem unfailing_unpacked (header : String) (copy : Option String) :
    diskTools.Unfailing (main literal .install "pccard" "/opt/amiga" (some pccard))
      { store := unpackedDisk header copy } := by
  rw [main_pccard, directive_pccard_url, directive_pccard_header]
  simp [Unfailing, Along, eval, diskTools, disk, Footprint.ofFun, restrict, unpackedDisk, Prog.map,
    Tells]

theorem unfailing_patched {x : Disk}
    (hx : x = cleanDisk ∨ x = unpackedDisk "patched" (some "hea")) :
    diskTools.Unfailing (main literal .install "pccard" "/opt/amiga" (some pccardPatched))
      { store := x } := by
  rw [main_patched, directive_pccard_url, directive_pccard_patch, directive_pccard_header]
  rcases hx with rfl | rfl
  · simp [Unfailing, Along, eval, diskTools, disk, Footprint.ofFun, restrict, cleanDisk, Prog.map,
      Tells]
  · simp [Unfailing, Along, eval, diskTools, disk, Footprint.ofFun, restrict, unpackedDisk,
      Prog.map, Tells]

theorem exec_patch {n : ℕ} {dir file : String} {y : Disk}
    (hy : y "build/pccard/pccard.h" = some "header" ∨ y "build/pccard/pccard.h" = some "patched") :
    (disk.exec (n, .patch dir file) y).2 "build/pccard/pccard.h" = some "patched" := by
  rcases hy with hy | hy <;> simp [disk, Footprint.ofFun, restrict, hy]

/-- A run that follows a run killed in `cp` patches a header that is patched already. -/
theorem refinds_header : diskTools.Refinds literal "pccard" "/opt/amiga" cleanDisk
    (unpackedDisk "patched" (some "hea")) ∅ (pccardPatched.zipIdx 1) := by
  have hurl : IsUrl literal "Url: http://aminet.net/pccard.lha" := by decide
  have hpatch : ¬ IsUrl literal "patch: pccard.diff" := by decide
  have hheader : ¬ IsUrl literal "pccard.h" := by decide
  have hlaidPatch : laid literal "pccard" "/opt/amiga" ("patch: pccard.diff", 2) = [
      (2, .echo "applying patch patches/pccard/pccard.diff to build/pccard"),
      (2, .patch "build/pccard" "patches/pccard/pccard.diff")] := by
    rw [laid, turn, directive_pccard_patch]
    rfl
  have hlaid : laid literal "pccard" "/opt/amiga" ("pccard.h", 3) = [
      (3, .mkdir "/opt/amiga/m68k-amigaos/include/."),
      (3, .echo "cp build/pccard/pccard.h /opt/amiga/m68k-amigaos/include/./pccard.h"),
      (3, .cp "build/pccard/pccard.h" "/opt/amiga/m68k-amigaos/include/./pccard.h")] := by
    rw [laid, turn, directive_pccard_header]
    rfl
  have hclean : diskTools.prepared literal "pccard" "/opt/amiga"
      ("Url: http://aminet.net/pccard.lha", 1) cleanDisk "build/pccard/pccard.h" =
        some "header" := by
    simp [prepared, turn, directive_pccard_url, start, eval, diskTools, disk, Footprint.ofFun,
      restrict, cleanDisk, Prog.map]
  have hkept : diskTools.prepared literal "pccard" "/opt/amiga"
      ("Url: http://aminet.net/pccard.lha", 1) (unpackedDisk "patched" (some "hea"))
        "build/pccard/pccard.h" = some "patched" := by
    simp [prepared, turn, directive_pccard_url, start, eval, diskTools, disk, Footprint.ofFun,
      restrict, unpackedDisk, Prog.map]
  refine (if_pos hurl).mpr ⟨⟨fun _ hi => hi.elim, fun _ hi => hi.elim⟩,
    (if_neg hpatch).mpr ⟨?_, (if_neg hheader).mpr ⟨?_, trivial⟩⟩⟩
  · rw [hlaidPatch]
    refine ⟨Footprint.settles_of_reads fun s _ i hi => (by cases hi), ?_, trivial⟩
    refine Footprint.settles_of_exec (fun i _ h => ?_) (fun i _ h => ?_) fun i hi => ?_
    · rcases h with h | h <;> cases h
    · rcases h with h | h <;> cases h
    obtain rfl := List.mem_singleton.mp hi
    exact (exec_patch (Or.inl hclean)).trans (exec_patch (Or.inr hkept)).symm
  · rw [hlaid, hlaidPatch]
    refine ⟨?_, ?_, ?_, trivial⟩ <;> refine Footprint.settles_of_reads fun s _ i hi => Or.inl ?_
    · cases hi
    · cases hi
    · obtain rfl := List.mem_singleton.mp hi
      exact Or.inl (Or.inl (Or.inr ⟨_, List.mem_cons_of_mem _ List.mem_cons_self,
        List.mem_singleton.mpr rfl⟩))

end Tools

end Sdk

end AmigaGcc
