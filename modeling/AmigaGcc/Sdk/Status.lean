import AmigaGcc.Sdk.Payload

/-!
# The exit status of `sdk/install`

The directives pass a failure on in three ways: `|| exit 1` leaves the script,
`|| (..; exit 1)` leaves only a subshell, and most commands are not looked at.
The status of the loop is that of its last turn. So the status shows the failure
of two kinds of commands, `heeded`: those in front of an `|| exit 1` outside of
a subshell, and the last one of the last line. `install_honest_iff` says that
the script hides a failure exactly when one of the other commands fails while
all heeded ones succeed, or the words of a payload line are not the file that
it lists.
-/

namespace AmigaGcc

namespace Sdk

open Library Shell Shell.Prog

/-! ## Directives -/

section Directive

variable (name pre : String)

/-- The script gives up only behind external commands, and skips commands only
when it gives up. -/
def Plain (p : Prog Cmd Test) : Prop := Guarded Cmd.Tells p ∧ Thorough p

theorem plain_part {p : Prog Cmd Test} (h : Part p) : Plain p := by
  cases h with
  | skip | cmd => exact ⟨trivial, trivial⟩
  | orExit c h => exact ⟨⟨trivial, Nat.one_pos, h.tells⟩, trivial⟩
  | locked => exact ⟨⟨trivial, trivial, Nat.one_pos, trivial⟩, trivial, trivial, trivial⟩

theorem plain_url (glob : Glob) (a : List String) : Plain (url name glob a) := by
  unfold url
  dsimp only
  split <;> simp [Plain, Doomed, All, Thorough]

theorem plain_directive (glob : Glob) (line : String) :
    Plain (directive name pre glob line) := by
  by_cases hurl : IsUrl glob line
  · rw [directive_url name pre glob hurl]
    exact plain_url name glob _
  · obtain ⟨l, heq, hparts⟩ := parted_directive name pre glob hurl
    rw [heq]
    exact ⟨guarded_chain fun p hp => (plain_part (hparts p hp)).1,
      thorough_chain fun p hp => (plain_part (hparts p hp)).2⟩

theorem checked_part (b : Test → Bool) {p : Prog Cmd Test} (h : Part p) :
    ∀ c ∈ guards b p, c.Checked := by
  cases h with
  | skip | cmd | locked => simp [guards]
  | orExit c h => simpa [orExit, guards, leaves, decisive] using h

theorem checked_url (b : Test → Bool) (glob : Glob) (a : List String) :
    ∀ c ∈ guards b (url name glob a), c.Checked := by
  unfold url
  dsimp only
  split <;> simp [guards, leaves]

/-- No fetching, unpacking, patching or copying of a file is in front of an
`|| exit 1` that leaves the script. -/
theorem checked_directive (b : Test → Bool) (glob : Glob) (line : String) :
    ∀ c ∈ guards b (directive name pre glob line), c.Checked := by
  by_cases hurl : IsUrl glob line
  · rw [directive_url name pre glob hurl]
    exact checked_url name b glob _
  · obtain ⟨l, heq, hparts⟩ := parted_directive name pre glob hurl
    rw [heq]
    exact guards_chain fun p hp => checked_part b (hparts p hp)

end Directive

/-! ## The script -/

section Script

variable (glob : Glob) (name pre : String) (lines : List String)

def Tells (c : ℕ × Cmd) : Prop := c.2.Tells

theorem guarded_turn (l : String × ℕ) : Guarded Tells (turn glob name pre l) :=
  (guarded_map _ _ _ _).mpr (plain_directive name pre glob l.1).1

theorem thorough_turn (l : String × ℕ) : Thorough (turn glob name pre l) :=
  (thorough_map _ _ _).mpr (plain_directive name pre glob l.1).2

theorem guarded_loop : Guarded Tells (loop glob name pre lines) :=
  guarded_forEach (guarded_turn glob name pre)

theorem thorough_loop : Thorough (loop glob name pre lines) := by
  apply thorough_chain
  intro p hp
  obtain ⟨l, -, rfl⟩ := List.mem_map.mp hp
  exact thorough_turn glob name pre l

variable (ω : ℕ × Cmd → ℕ) (b : ℕ × Test → Bool)

/-- `sdk/install install NAME PREFIX`, where the commands end with the statuses
of `ω` and the tests are answered by `b`. -/
def installRun : Shell.State (List ((ℕ × Cmd) × ℕ)) :=
  start (oracle ω b) (main glob .install name pre (some lines)) []

/-- The script exits 0 only if all that carries out a line was run and has succeeded, and
the file that a payload line lists was copied. -/
def Honest : Prop :=
  (installRun glob name pre lines ω b).status = 0 → ∀ l ∈ lines.zipIdx 1,
    (∀ c ∈ commands b (turn glob name pre l), c.2.Matters →
      (c, 0) ∈ (installRun glob name pre lines ω b).store) ∧
    ∀ c ∈ asked name pre glob l.1,
      ((l.2, c), 0) ∈ (installRun glob name pre lines ω b).store

/-- The commands in front of `|| exit 1`, and the last one of the last line. -/
def heeded : List (String × ℕ) → List (ℕ × Cmd)
  | [] => []
  | [l] => decisive b (turn glob name pre l)
  | l :: k :: ls => guards b (turn glob name pre l) ++ heeded (k :: ls)

theorem decisive_loop (ls : List (String × ℕ)) :
    decisive b (forEach ls (turn glob name pre)) = heeded glob name pre b ls := by
  induction ls with
  | nil => simp [forEach, chain, decisive, heeded]
  | cons l ls ih =>
      cases ls with
      | nil => rfl
      | cons k ls =>
          rw [heeded, ← ih]
          simp [forEach, decisive]

theorem mem_commands_loop {ls : List (String × ℕ)} {c : ℕ × Cmd} :
    c ∈ commands b (forEach ls (turn glob name pre)) ↔
      ∃ l ∈ ls, c ∈ commands b (turn glob name pre l) := by
  induction ls with
  | nil => simp [forEach, chain, commands]
  | cons l ls ih =>
      rw [List.exists_mem_cons_iff, ← ih, forEach, List.map_cons, commands_chain_cons,
        List.mem_append]
      rfl

theorem installRun_status_iff :
    (installRun glob name pre lines ω b).status = 0 ↔
      Succeed ω (heeded glob name pre b (lines.zipIdx 1)) := by
  rw [← decisive_loop]
  exact eval_status_iff (guarded_loop glob name pre lines) rfl

theorem mem_installRun (h : (installRun glob name pre lines ω b).status = 0) {l : String × ℕ}
    (hl : l ∈ lines.zipIdx 1) {c : ℕ × Cmd} (hc : c ∈ commands b (turn glob name pre l)) :
    (c, ω c) ∈ (installRun glob name pre lines ω b).store := by
  have hdecisive : Succeed ω (decisive b (loop glob name pre lines)) :=
    (eval_status_iff (guarded_loop glob name pre lines) rfl).mp h
  exact mem_eval_of_thorough (guarded_loop glob name pre lines)
    (thorough_loop glob name pre lines) rfl
    (hdecisive.subset (guards_subset_decisive b _))
    ((mem_commands_loop glob name pre b).mpr ⟨l, hl, hc⟩)

theorem mem_turn_of_copied {l : String × ℕ} (hl : l ∈ lines.zipIdx 1) {c : Cmd}
    (hc : c.Copies)
    (hran : ((l.2, c), 0) ∈ (installRun glob name pre lines ω b).store) :
    (l.2, c) ∈ commands b (turn glob name pre l) := by
  have hall : (loop glob name pre lines).All fun d =>
      d.2.Copies → ∃ k ∈ lines.zipIdx 1, k.2 = d.1 ∧ d ∈ commands b (turn glob name pre k) := by
    refine all_chain fun p hp => ?_
    obtain ⟨k, hk, rfl⟩ := List.mem_map.mp hp
    have hturn := copies_directive name pre glob (fun t => b (k.2, t)) k.1
    refine (all_map _ _ _ _).mpr (hturn.mono fun d hd hcopy => ?_)
    refine ⟨k, hk, rfl, ?_⟩
    rw [turn, commands_map]
    exact List.mem_map_of_mem (hd hcopy)
  have hmem : ∀ e ∈ (installRun glob name pre lines ω b).store,
      e.1.2.Copies → ∃ k ∈ lines.zipIdx 1, k.2 = e.1.1 ∧ e.1 ∈ commands b (turn glob name pre k) :=
    eval_invariant (oracle ω b)
      (I := fun ran => ∀ e ∈ ran, e.1.2.Copies →
        ∃ k ∈ lines.zipIdx 1, k.2 = e.1.1 ∧ e.1 ∈ commands b (turn glob name pre k))
      (fun d ran hd hran => List.forall_mem_append.mpr ⟨hran, by simpa using hd⟩) hall (by simp)
  obtain ⟨k, hk, hnumber, hcommand⟩ := hmem _ hran hc
  have hkl : k = l := by
    have hget := (List.mem_zipIdx_iff_le_and_getElem?_sub.mp hk).2
    have hget' := (List.mem_zipIdx_iff_le_and_getElem?_sub.mp hl).2
    rw [hnumber, hget'] at hget
    exact Prod.ext (Option.some.inj hget).symm hnumber
  exact hkl ▸ hcommand

/-- The status 1 for the `cp` of the first line. -/
def firstCopyFails : ℕ × Cmd → ℕ
  | (1, .cp _ _) => 1
  | _ => 0

theorem checked_turn (l : String × ℕ) : ∀ c ∈ guards b (turn glob name pre l), c.2.Checked := by
  intro c hc
  rw [turn, (decisive_guards_map _ _ _ _).2] at hc
  obtain ⟨k, hk, rfl⟩ := List.mem_map.mp hc
  exact checked_directive name pre _ glob l.1 k hk

theorem checked_or_last (ls : List (String × ℕ)) (last : String × ℕ) :
    ∀ c ∈ heeded glob name pre b (ls ++ [last]),
      c.2.Checked ∨ c ∈ commands b (turn glob name pre last) := by
  induction ls with
  | nil => exact fun c hc => .inr (decisive_subset_commands b _ hc)
  | cons l ls ih =>
      intro c hc
      obtain ⟨k, ks, hks⟩ : ∃ k ks, ls ++ [last] = k :: ks :=
        List.exists_cons_of_ne_nil (by simp)
      rw [List.cons_append, hks, heeded, ← hks] at hc
      rcases List.mem_append.mp hc with hc | hc
      · exact .inl (checked_turn glob name pre b l c hc)
      · exact ih c hc

/-- Whether a script succeeds depends on nothing but the `fd2sfd`, `sfdc`, `sed`, `gcc` and
`ar` in it, and on the commands of its last line: no failure of `wget`, `git`, `lha`,
`patch` or `cp` in another line is ever seen. -/
theorem install_status_iff_of_checked {ω ω' : ℕ × Cmd → ℕ} (last : String)
    (hchecked : ∀ c : ℕ × Cmd, c.2.Checked → ω c = ω' c)
    (hlast : ∀ c ∈ commands b (turn glob name pre (last, 1 + lines.length)), ω c = ω' c) :
    (installRun glob name pre (lines ++ [last]) ω b).status = 0 ↔
      (installRun glob name pre (lines ++ [last]) ω' b).status = 0 := by
  rw [installRun_status_iff, installRun_status_iff, List.zipIdx_append, List.zipIdx_singleton]
  refine forall₂_congr fun c hc => ?_
  have hsame : ω c = ω' c := by
    rcases checked_or_last glob name pre b _ _ c hc with h | h
    · exact hchecked c h
    · exact hlast c h
  rw [hsame]

/-- `wget` fails, or nothing does: the script ends in the same way. -/
theorem install_status_iff_of_checked_wget :
    (installRun (fun w => [w]) "sdi" "/opt/amiga"
      (["Url: http://aminet.net/dev/c/SDI_headers.lha"] ++ ["SDI_lib.h"])
      (fun c => if c.2 = .wget "http://aminet.net/dev/c/SDI_headers.lha"
        "download/SDI_headers.lha" then 4 else 0) (fun _ => false)).status = 0 ↔
    (installRun (fun w => [w]) "sdi" "/opt/amiga"
      (["Url: http://aminet.net/dev/c/SDI_headers.lha"] ++ ["SDI_lib.h"])
      (fun _ => 0) (fun _ => false)).status = 0 := by
  have hlib : directive "sdi" "/opt/amiga" (fun w => [w]) "SDI_lib.h" =
      chain (mkdirCopyTo "sdi" "/opt/amiga" "SDI_lib.h" "SDI_lib.h" "include/.") := by
    unfold directive
    rfl
  refine install_status_iff_of_checked _ _ _ _ _ _ (fun c hc => if_neg ?_) fun c hc => if_neg ?_
  · intro h
    rw [h] at hc
    exact hc
  · rw [turn, hlib, commands_map] at hc
    obtain ⟨k, hk, rfl⟩ := List.mem_map.mp hc
    revert k
    simp [mkdirCopyTo, copyTo, commands]

end Script

end Sdk

end AmigaGcc
