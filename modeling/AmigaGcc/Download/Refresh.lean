import Mathlib.Data.Finset.Insert
import AmigaGcc.Download.GetFile
import AmigaGcc.Library.Mtime
import AmigaGcc.Library.Shell.Kill

/-!
# Refreshing an archive

Two more questions about `getFile`. A run may be killed after any of its commands:
`getFile_never_loses` says that the content accepted last stays on the disk all the
same, as `F` or, without `F`, as `F.bak`. And a download may bring nothing new:
`getFile_unchanged_iff` says when the archive is then still the old file, so that
make rebuilds nothing.
-/

namespace AmigaGcc

namespace Download

open Library Shell Shell.Prog

/-! ## Runs that are killed -/

/-- One run of the recipe. `fetched` is what `wget` leaves in `F.neu`, which may be
nothing, a part or the whole; without it `F.neu` stays as it was. The run is killed
after `commands` commands, unless it has fewer. -/
structure Attempt where
  fetched : Option File
  commands : ℕ

/-- The download directory with the content accepted last, if any. -/
structure Ledger where
  disk : Disk
  accepted : Option (List UInt8)

/-- An archive that is not empty is accepted at the start. -/
def Ledger.initial (d : Disk) : Ledger :=
  ⟨d, (held d).filter fun c => c ≠ []⟩

/-- A content is accepted when `mv F.neu F` is carried out. -/
def Ledger.accept (s : Ledger) : Cmd → Option (List UInt8)
  | .mv .neu .file => ((s.disk .neu).map File.content).or s.accepted
  | _ => s.accepted

def Attempt.exec (a : Attempt) : Cmd → Disk → ℕ × Disk
  | .wget, d =>
      match a.fetched with
      | none => (4, d)
      | some f => (0, Function.update d .neu (some f))
  | c, d => (machine ⟨.failEmpty, 0⟩).exec c d

def Attempt.machine (a : Attempt) : Machine Cmd Test Ledger where
  exec c s := ((a.exec c s.disk).1, ⟨(a.exec c s.disk).2, s.accept c⟩)
  test t s := (Download.machine ⟨.failEmpty, 0⟩).test t s.disk

def Ledger.next (s : Ledger) (a : Attempt) : Option Ledger :=
  some (killedAfter a.machine a.commands getFile s)

/-- The content accepted last is in `F`, or in `F.bak` when there is no `F`. -/
def Ledger.Kept (s : Ledger) : Prop :=
  ∀ c ∈ s.accepted,
    held s.disk = some c ∨ s.disk .file = none ∧ (s.disk .bak).map File.content = some c

/-- The archive is moved away, and the content accepted last is in `F.bak`. -/
def Ledger.Aside (s : Ledger) : Prop :=
  s.disk .file = none ∧ ∀ c ∈ s.accepted, (s.disk .bak).map File.content = some c

theorem Ledger.kept_initial (d : Disk) : (Ledger.initial d).Kept := by
  intro c hc
  exact Or.inl (Option.mem_filter_iff.mp hc).1

theorem Ledger.Aside.kept {s : Ledger} (h : s.Aside) : s.Kept :=
  fun c hc => Or.inr ⟨h.1, h.2 c hc⟩

section Commands

variable (a : Attempt) {s : Ledger}

/-- Without an archive, `mv F F.bak` fails and an older `F.bak` stays. -/
theorem aside_mv_bak (h : s.Kept) : (a.machine.exec (.mv .file .bak) s).2.Aside := by
  cases hf : s.disk .file with
  | none =>
      simp only [Attempt.machine, Attempt.exec, machine, mv, hf, Ledger.accept]
      refine ⟨hf, fun c hc => ?_⟩
      rcases h c hc with hheld | hbak
      · simp [held, hf] at hheld
      · exact hbak.2
  | some f =>
      simp only [Attempt.machine, Attempt.exec, machine, mv, hf, Ledger.accept]
      refine ⟨by simp, fun c hc => ?_⟩
      rcases h c hc with hheld | hbak
      · simpa [held, hf] using hheld
      · simp [hf] at hbak

theorem aside_wget (h : s.Aside) : (a.machine.exec .wget s).2.Aside := by
  obtain ⟨hfile, hbak⟩ := h
  simp only [Attempt.machine, Attempt.exec, Ledger.accept]
  cases a.fetched with
  | none => exact ⟨hfile, hbak⟩
  | some f => exact ⟨by simpa using hfile, fun c hc => by simpa using hbak c hc⟩

theorem aside_rm_neu (h : s.Aside) : (a.machine.exec (.rm .neu) s).2.Aside := by
  obtain ⟨hfile, hbak⟩ := h
  simp only [Attempt.machine, Attempt.exec, machine, rm, Ledger.accept]
  cases s.disk .neu with
  | none => exact ⟨hfile, hbak⟩
  | some f => exact ⟨by simpa using hfile, fun c hc => by simpa using hbak c hc⟩

/-- What `wget` has left is the archive now, and is accepted. -/
theorem kept_mv_neu {f : File} (hneu : s.disk .neu = some f) :
    (a.machine.exec (.mv .neu .file) s).2.disk .file = some f ∧
      (a.machine.exec (.mv .neu .file) s).2.accepted = some f.content := by
  simp [Attempt.machine, Attempt.exec, machine, mv, hneu, Ledger.accept]

theorem kept_rmForce_bak {f : File} (hfile : s.disk .file = some f)
    (hacc : s.accepted = some f.content) : (a.machine.exec (.rmForce .bak) s).2.Kept := by
  intro c hc
  have hc' : s.accepted = some c := hc
  rw [hacc] at hc'
  left
  simpa [Attempt.machine, Attempt.exec, machine, held, hfile] using hc'

/-- Whatever `wget` has left, what follows it leaves the content accepted last. -/
theorem along_settle (h : s.Aside) (n : ℕ) :
    Along a.machine (fun c x => (a.machine.exec c x).2.Kept) settle
      { store := s, status := n } := by
  have hsame : a.machine.test (.same .neu .bak) s = false :=
    decide_eq_false (cmpText_ne .neu .bak s.disk)
  rw [settle, Along]
  split
  · next hneu =>
      obtain ⟨f, hf, -⟩ := (Option.any_eq_true ..).mp hneu
      obtain ⟨hfile, hacc⟩ := kept_mv_neu a hf
      rw [Along, if_neg (by simp [hsame])]
      refine ⟨fun c hc => Or.inl ?_, fun _ => kept_rmForce_bak a hfile hacc⟩
      rw [held, hfile, Option.map_some, ← hacc]
      exact hc
  · exact (aside_rm_neu a h).kept

/-- Every command of a run leaves the content accepted last on the disk. -/
theorem along_getFile (h : s.Kept) :
    Along a.machine (fun c x => (a.machine.exec c x).2.Kept) getFile { store := s } := by
  have hmv := aside_mv_bak a h
  have hwget := aside_wget a hmv
  refine ⟨h, fun _ => ⟨hmv.kept, fun _ => ⟨hwget.kept, fun _ => ?_⟩⟩⟩
  have hsettle := along_settle a hwget (a.exec .wget (a.machine.exec (.mv .file .bak) s).2.disk).1
  have hkeeps := hsettle.mono (Q := fun c x => x.Kept → (a.machine.exec c x).2.Kept)
    fun _ _ hc _ => hc
  exact ⟨hsettle, fun _ => eval_along hkeeps hwget.kept⟩

end Commands

/-- In every state that runs of the recipe reach, each killed anywhere or complete, the
content accepted last is on the disk. -/
theorem getFile_never_loses (d : Disk) (attempts : List Attempt) :
    Transition.Always Ledger.next Ledger.Kept (Ledger.initial d) attempts := by
  refine Transition.always_of_throughout (C := fun _ _ => True) ?_ (Ledger.kept_initial d)
    (Transition.throughout_true Ledger.next (Ledger.initial d) attempts)
  intro s a t hs _ ht
  obtain rfl := Option.some.inj ht
  exact killedAfter_of_along a.machine (along_getFile a hs) hs a.commands

/-! ## Downloads that bring nothing new -/

/-- The archive as a prerequisite for make. -/
def File.prerequisite (f : File) : Mtime.File (List UInt8) := ⟨f.content, f.mtime⟩

def Rebuilt (target : ℕ) (f : File) : Prop :=
  Mtime.Outdated (some target) ({()} : Finset Unit) fun _ => f.prerequisite

/-- What a successful download of `c` at the time `t` should leave for the archive
`old`: the old file when the content is the same, and nothing else on the disk; a
target is rebuilt only when the content is another one. -/
structure Settled (old : File) (c : Content) (t : ℕ) (d : Disk) : Prop where
  file : d .file = if old.content = c then some old else some ⟨c, t⟩
  bak : d .bak = none
  neu : d .neu = none
  rebuilt : ∀ target, ¬ Rebuilt target old → ∀ f ∈ d .file, Rebuilt target f →
    f.content ≠ old.content

/-- After a successful download the archive is as it should be exactly when the
content has changed, or the new file has the time of the old one. -/
theorem getFile_unchanged_iff (d : Disk) (old : File) (c : Content) (t : ℕ) :
    Settled old c t (download ⟨.success c, t⟩ (Function.update d .file (some old))).store ↔
      old.content ≠ c ∨ old.mtime = t := by
  rw [download_store]
  have hfile : left ⟨.success c, t⟩ (Function.update d .file (some old)) .file =
      some ⟨c, t⟩ := left_file ⟨.success c, t⟩ _ c.2
  constructor
  · intro h
    by_cases hc : old.content = c
    · have hold := h.file
      rw [hfile, if_pos hc] at hold
      exact Or.inr (congrArg File.mtime (Option.some.inj hold)).symm
    · exact Or.inl hc
  · intro h
    have hnew : old.content = c → old = ⟨c, t⟩ := fun hc => by
      obtain ⟨content, mtime⟩ := old
      obtain rfl : content = c := hc
      obtain rfl : mtime = t := h.resolve_left fun hne => hne rfl
      rfl
    refine ⟨?_, if_neg c.2, rfl, ?_⟩
    · rw [hfile]
      split
      · next hc => rw [hnew hc]
      · rfl
    · intro target hold f hf hrebuilt hcontent
      obtain rfl : (⟨c, t⟩ : File) = f := Option.some.inj (hfile.symm.trans hf)
      exact hold (hnew hcontent.symm ▸ hrebuilt)

/-- The same three bytes are downloaded again: the archive gets the time of the
download. -/
theorem getFile_refreshes_unchanged :
    ¬ Settled ⟨[1, 2, 3], 7⟩ ⟨[1, 2, 3], by decide⟩ 8
      (download ⟨.success ⟨[1, 2, 3], by decide⟩, 8⟩
        (Function.update (fun _ => none) .file (some ⟨[1, 2, 3], 7⟩))).store := by
  intro h
  have hfile := h.file
  rw [download_store] at hfile
  exact absurd hfile (by decide)

end Download

end AmigaGcc
