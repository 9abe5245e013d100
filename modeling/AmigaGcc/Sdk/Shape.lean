import AmigaGcc.Library.Shell.Status
import AmigaGcc.Sdk.Install

/-!
# The shape of a directive

All directives but `Url` are chains of parts of four kinds, and `parts_directive`
is all that the proofs about them use. `Url` is treated on its own where it
matters.
-/

namespace AmigaGcc

namespace Sdk

open Library Shell Shell.Prog

/-- wget, git, lha, rsync, cp, sed, fd2sfd, sfdc, gcc, ar and ln, the external commands that
tell a failure: `patch -N` ends with 1 also when it skips what is applied already. -/
@[simp] def Cmd.Tells : Cmd → Prop
  | gitClone _ | gitPull | rsync _ _ | wget _ _ | lha _ | fd2sfd _ _ _ | sfdc _ _ _ _
  | sed _ _ | gcc _ _ | ar _ _ | ln _ _ | rename _ _ | cp _ _ => True
  | echo _ | echoTo _ _ | pushd _ | popd | mkdir _ | chmodDirs | rm _ | rmForce _ | rmTree _
  | flock | patch _ _ => False

/-- All but messages, locks and the removal of files. -/
@[simp] def Cmd.Matters : Cmd → Prop
  | echo _ | flock | rm _ | rmForce _ => False
  | _ => True

/-- The commands in front of an `|| exit 1`: fd2sfd, sfdc, sed, gcc and ar. -/
@[simp] def Cmd.Checked : Cmd → Prop
  | fd2sfd _ _ _ | sfdc _ _ _ _ | sed _ _ | gcc _ _ | ar _ _ => True
  | _ => False

/-- A path below a directory. -/
def Below (dir path : String) : Prop := dir.toList <+: path.toList

@[simp] theorem below_append (dir rest : String) : Below dir (toString dir ++ rest) :=
  ⟨rest.toList, (String.toList_append ..).symm⟩

/-- Writes below `projects`, `download` and `build`; a clone is removed from `projects`. -/
def Cmd.Fetches : Cmd → Prop
  | echo _ | pushd _ | popd | gitClone _ | gitPull | rmTree _ | lha _ | chmodDirs => True
  | rsync _ dst => Below "build/" dst
  | wget _ file => Below "download/" file
  | rm files => ∀ file ∈ files, Below "download/" file
  | mkdir dir => Below "build/" dir
  | _ => False

theorem Cmd.Checked.tells {c : Cmd} (h : c.Checked) : c.Tells := by
  cases c <;> simp_all

inductive Part : Prog Cmd Test → Prop
  | skip : Part skip
  | cmd (c : Cmd) : Part (cmd c)
  | orExit (c : Cmd) (h : c.Checked) : Part (orExit c)
  /-- `ar` under the lock: here `exit 1` leaves the subshell only -/
  | locked (archive object : String) : Part (sub (chain [cmd .flock, orExit (.ar archive object)]))

def Parted (p : Prog Cmd Test) : Prop := ∃ l, p = chain l ∧ ∀ q ∈ l, Part q

attribute [simp] Part.skip Part.cmd

@[simp] theorem part_orExit_iff (c : Cmd) : Part (orExit c) ↔ c.Checked := by
  refine ⟨fun h => ?_, Part.orExit c⟩
  cases h with
  | orExit _ h => exact h

@[simp] theorem part_locked (archive object : String) :
    Part (sub (seq (cmd .flock) (orExit (.ar archive object)))) := .locked archive object

def IsUrl (glob : Glob) (line : String) : Prop := (tokens glob line).getD 0 "" = "Url"

instance (glob : Glob) (line : String) : Decidable (IsUrl glob line) :=
  inferInstanceAs (Decidable (_ = _))

section Parts

variable (name pre : String) (glob : Glob)

theorem parted_skip : Parted skip := ⟨[skip], rfl, by simp⟩

theorem parted_cmd (c : Cmd) : Parted (cmd c) := ⟨[cmd c], rfl, by simp⟩

theorem parted_chain {l : List (Prog Cmd Test)} (h : ∀ q ∈ l, Part q) : Parted (chain l) :=
  ⟨l, rfl, h⟩

theorem parted_sfdc (a : List String) : Parted (sfdc pre glob a) := by
  unfold sfdc
  dsimp only
  split <;> exact parted_chain (by simp)

theorem part_generate (mode src sfd : String) : ∀ p ∈ generate pre mode src sfd, Part p := by
  simp [generate]

theorem part_compile (stem : String) : ∀ p ∈ compile pre stem, Part p := by
  simp [compile]

theorem part_libcSteps : ∀ p ∈ libcSteps name pre, Part p :=
  List.forall_mem_append.mpr ⟨part_compile pre _, by simp [echoAr]⟩

theorem parted_stubs (a : List String) : Parted (stubs name pre glob a) := by
  refine parted_chain (List.forall_mem_append.mpr ⟨List.forall_mem_append.mpr ⟨?_, ?_⟩, ?_⟩)
  · exact part_generate pre _ _ _
  · exact part_compile pre _
  · simp [echoAr]

theorem parted_lib (a : List String) : Parted (lib name pre glob a) :=
  parted_chain (List.forall_mem_append.mpr
    ⟨part_generate pre _ _ _, part_libcSteps name pre⟩)

theorem part_installFile (line file : String) :
    ∀ p ∈ installFile name pre glob line file, Part p := by
  unfold installFile
  repeat' split
  all_goals simp [mkdirCopyTo, copyTo]

theorem parted_payload (line : String) (a : List String) :
    Parted (payload name pre glob line a) := by
  unfold payload
  split
  · exact parted_skip
  · split
    · exact parted_chain (List.forall_mem_cons.mpr
        ⟨.cmd _, part_installFile name pre glob _ _⟩)
    · exact parted_chain (part_installFile name pre glob _ _)

/-- A directive other than `Url` is a chain of parts. -/
theorem parted_directive {line : String} (h : ¬ IsUrl glob line) :
    Parted (directive name pre glob line) := by
  unfold directive
  dsimp only
  split
  case h_8 heq => exact absurd heq h
  case h_11 => exact parted_sfdc pre glob _
  case h_12 => exact parted_stubs name pre glob _
  case h_13 => exact parted_lib name pre glob _
  case h_14 => exact parted_chain (part_generate pre _ _ _)
  case h_15 => exact parted_chain (part_libcSteps name pre)
  case h_21 => exact parted_payload name pre glob line _
  all_goals first
    | exact parted_cmd _
    | exact parted_chain (by simp)

theorem linear_directive {line : String} (h : ¬ IsUrl glob line) :
    Linear (directive name pre glob line) := by
  obtain ⟨ps, heq, hparts⟩ := parted_directive name pre glob h
  rw [heq]
  apply linear_chain
  intro p hp
  cases hparts p hp with
  | skip | cmd => trivial
  | orExit => exact ⟨trivial, trivial⟩
  | locked => exact ⟨trivial, trivial, trivial⟩

theorem directive_url {line : String} (h : IsUrl glob line) :
    directive name pre glob line = url name glob (tokens glob line) := by
  rw [IsUrl] at h
  unfold directive
  dsimp only
  rw [h]
  rfl

theorem fetches_url (a : List String) : (url name glob a).All Cmd.Fetches := by
  unfold url
  dsimp only
  split <;> simp [All, Cmd.Fetches, String.append_assoc]

theorem saveless_url (a : List String) : (url name glob a).Saveless := by
  unfold url
  dsimp only
  split <;> simp [Saveless]

theorem saveless_directive (line : String) : (directive name pre glob line).Saveless := by
  by_cases hurl : IsUrl glob line
  · rw [directive_url name pre glob hurl]
    exact saveless_url name glob _
  · obtain ⟨ps, heq, hparts⟩ := parted_directive name pre glob hurl
    rw [heq]
    refine saveless_chain fun p hp => ?_
    cases hparts p hp with
    | skip | cmd => trivial
    | orExit => exact ⟨trivial, trivial⟩
    | locked => exact ⟨trivial, trivial, trivial⟩

theorem saveless_turn (l : String × ℕ) : (turn glob name pre l).Saveless :=
  saveless_map _ _ (saveless_directive name pre glob l.1)

end Parts

end Sdk

end AmigaGcc
