import Mathlib.Data.List.Infix

/-!
# Runs of a guarded step function

A system is a step function `step : σ → ε → Option σ`: `step s e` is the state
after the event `e`, or `none` when `e` is not enabled in `s`. `run` replays a
list of events. `Always step P s es` says that `P` holds in every state of the
run, and `Throughout step C s es` that every step taken meets the condition `C`
in the state before it. The two are tied by `always_iff_throughout`: when one
step keeps `P` exactly under `C`, a run keeps `P` exactly when all its steps
meet `C`.
-/

namespace Library

namespace Transition

variable {σ ε : Type*}

/-- The state after the events `es`, and `none` as soon as one of them is not
enabled. -/
def run (step : σ → ε → Option σ) : σ → List ε → Option σ
  | s, [] => some s
  | s, e :: es => (step s e).bind fun t => run step t es

@[simp] theorem run_nil (step : σ → ε → Option σ) (s : σ) :
    run step s [] = some s := rfl

theorem run_cons (step : σ → ε → Option σ) (s : σ) (e : ε) (es : List ε) :
    run step s (e :: es) = (step s e).bind fun t => run step t es := rfl

theorem run_append (step : σ → ε → Option σ) (s : σ) (es fs : List ε) :
    run step s (es ++ fs) = (run step s es).bind fun t => run step t fs := by
  induction es generalizing s with
  | nil => rfl
  | cons e es ih =>
      rw [List.cons_append, run_cons, run_cons, Option.bind_assoc]
      congr 1
      funext t
      exact ih t

/-- `P` holds in every state of the run over `es`, the first included. -/
def Always (step : σ → ε → Option σ) (P : σ → Prop) : σ → List ε → Prop
  | s, [] => P s
  | s, e :: es => P s ∧ ∀ t, step s e = some t → Always step P t es

/-- Every step the run takes meets `C` in the state before it. -/
def Throughout (step : σ → ε → Option σ) (C : σ → ε → Prop) : σ → List ε → Prop
  | _, [] => True
  | s, e :: es => ∀ t, step s e = some t → C s e ∧ Throughout step C t es

@[simp] theorem always_nil (step : σ → ε → Option σ) (P : σ → Prop) (s : σ) :
    Always step P s [] ↔ P s := Iff.rfl

theorem always_cons (step : σ → ε → Option σ) (P : σ → Prop) (s : σ) (e : ε)
    (es : List ε) :
    Always step P s (e :: es) ↔ P s ∧ ∀ t, step s e = some t → Always step P t es :=
  Iff.rfl

@[simp] theorem throughout_nil (step : σ → ε → Option σ) (C : σ → ε → Prop) (s : σ) :
    Throughout step C s [] := trivial

theorem throughout_cons (step : σ → ε → Option σ) (C : σ → ε → Prop) (s : σ) (e : ε)
    (es : List ε) :
    Throughout step C s (e :: es) ↔
      ∀ t, step s e = some t → C s e ∧ Throughout step C t es :=
  Iff.rfl

theorem throughout_cons_some {step : σ → ε → Option σ} {s t : σ} {e : ε}
    (ht : step s e = some t) (C : σ → ε → Prop) (es : List ε) :
    Throughout step C s (e :: es) ↔ C s e ∧ Throughout step C t es := by
  rw [throughout_cons, ht]
  exact ⟨fun h => h t rfl, fun h u hu => Option.some.inj hu ▸ h⟩

theorem throughout_true (step : σ → ε → Option σ) (s : σ) (es : List ε) :
    Throughout step (fun _ _ => True) s es := by
  induction es generalizing s with
  | nil => trivial
  | cons e es ih => exact fun t _ => ⟨trivial, ih t⟩

theorem throughout_of_forall {step : σ → ε → Option σ} {C : ε → Prop} {es : List ε}
    (h : ∀ e ∈ es, C e) (s : σ) : Throughout step (fun _ e => C e) s es := by
  induction es generalizing s with
  | nil => trivial
  | cons e es ih =>
      obtain ⟨he, hes⟩ := List.forall_mem_cons.mp h
      exact fun t _ => ⟨he, ih hes t⟩

theorem Always.head {step : σ → ε → Option σ} {P : σ → Prop} {s : σ} {es : List ε}
    (h : Always step P s es) : P s := by
  cases es with
  | nil => exact h
  | cons e es => exact h.1

theorem always_iff_forall_prefix (step : σ → ε → Option σ) (P : σ → Prop) (s : σ)
    (es : List ε) :
    Always step P s es ↔
      ∀ pre t, pre <+: es → run step s pre = some t → P t := by
  induction es generalizing s with
  | nil =>
      constructor
      · intro h pre t hpre ht
        rw [List.prefix_nil.mp hpre, run_nil] at ht
        exact Option.some.inj ht ▸ h
      · intro h
        exact h [] s (List.prefix_refl _) rfl
  | cons e es ih =>
      rw [always_cons]
      constructor
      · rintro ⟨hs, h⟩ pre t hpre ht
        cases pre with
        | nil => exact Option.some.inj ht ▸ hs
        | cons e' pre =>
            obtain ⟨rfl, hpre'⟩ := List.cons_prefix_cons.mp hpre
            obtain ⟨u, hu, ht⟩ := Option.bind_eq_some_iff.mp ht
            exact (ih u).mp (h u hu) pre t hpre' ht
      · intro h
        refine ⟨h [] s (List.nil_prefix) rfl, fun u hu => (ih u).mpr ?_⟩
        intro pre t hpre ht
        apply h (e :: pre) t (List.cons_prefix_cons.mpr ⟨rfl, hpre⟩)
        rw [run_cons, hu, Option.bind_some, ht]

/-- An invariant that steps under `C` keep holds in every state of a run whose
steps all meet `C`. -/
theorem always_of_throughout {step : σ → ε → Option σ} {I : σ → Prop}
    {C : σ → ε → Prop} (hstep : ∀ s e t, I s → C s e → step s e = some t → I t)
    {s : σ} {es : List ε} (hs : I s) (h : Throughout step C s es) :
    Always step I s es := by
  induction es generalizing s with
  | nil => exact hs
  | cons e es ih =>
      refine ⟨hs, fun t ht => ?_⟩
      obtain ⟨hc, hrest⟩ := h t ht
      exact ih (hstep s e t hs hc ht) hrest

/-- An invariant that every step keeps holds after a run. -/
theorem run_invariant {step : σ → ε → Option σ} {I : σ → Prop}
    (hstep : ∀ s e t, I s → step s e = some t → I t) {s t : σ} {es : List ε} (hs : I s)
    (h : run step s es = some t) : I t := by
  induction es generalizing s with
  | nil => exact Option.some.inj h ▸ hs
  | cons e es ih =>
      obtain ⟨u, hu, h⟩ := Option.bind_eq_some_iff.mp h
      exact ih (hstep s e u hs hu) h

theorem Throughout.of_append {step : σ → ε → Option σ} {C : σ → ε → Prop} {s t : σ}
    {es fs : List ε} (h : Throughout step C s (es ++ fs)) (ht : run step s es = some t) :
    Throughout step C s es ∧ Throughout step C t fs := by
  induction es generalizing s with
  | nil => exact ⟨trivial, Option.some.inj ht ▸ h⟩
  | cons e es ih =>
      obtain ⟨u, hu, ht⟩ := Option.bind_eq_some_iff.mp ht
      obtain ⟨hc, hrest⟩ := (throughout_cons_some hu C (es ++ fs)).mp h
      obtain ⟨hes, hfs⟩ := ih hrest ht
      exact ⟨(throughout_cons_some hu C es).mpr ⟨hc, hes⟩, hfs⟩

theorem Throughout.mono {step : σ → ε → Option σ} {C D : σ → ε → Prop}
    (hCD : ∀ s e, C s e → D s e) {s : σ} {es : List ε} (h : Throughout step C s es) :
    Throughout step D s es := by
  induction es generalizing s with
  | nil => trivial
  | cons e es ih =>
      intro t ht
      obtain ⟨hc, hrest⟩ := h t ht
      exact ⟨hCD s e hc, ih hrest⟩

theorem Throughout.and {step : σ → ε → Option σ} {C D : σ → ε → Prop} {s : σ} {es : List ε}
    (hC : Throughout step C s es) (hD : Throughout step D s es) :
    Throughout step (fun s e => C s e ∧ D s e) s es := by
  induction es generalizing s with
  | nil => trivial
  | cons e es ih =>
      intro t ht
      obtain ⟨hc, hcs⟩ := hC t ht
      obtain ⟨hd, hds⟩ := hD t ht
      exact ⟨⟨hc, hd⟩, ih hcs hds⟩

theorem Throughout.append {step : σ → ε → Option σ} {C : σ → ε → Prop} {s t : σ} {es fs : List ε}
    (hes : Throughout step C s es) (ht : run step s es = some t) (hfs : Throughout step C t fs) :
    Throughout step C s (es ++ fs) := by
  induction es generalizing s with
  | nil => exact Option.some.inj ht ▸ hfs
  | cons e es ih =>
      obtain ⟨u, hu, ht⟩ := Option.bind_eq_some_iff.mp ht
      obtain ⟨hc, hes⟩ := (throughout_cons_some hu C es).mp hes
      exact (throughout_cons_some hu C (es ++ fs)).mpr ⟨hc, ih hes ht⟩

theorem exists_step_of_mem {step : σ → ε → Option σ} {s t : σ} {e : ε} {es : List ε}
    (h : run step s es = some t) (he : e ∈ es) :
    ∃ pre post u v, es = pre ++ e :: post ∧ run step s pre = some u ∧ step u e = some v := by
  obtain ⟨pre, post, rfl⟩ := List.mem_iff_append.mp he
  rw [run_append] at h
  obtain ⟨u, hu, h⟩ := Option.bind_eq_some_iff.mp h
  obtain ⟨v, hv, -⟩ := Option.bind_eq_some_iff.mp h
  exact ⟨pre, post, u, v, rfl, hu, hv⟩

theorem run_invariant_of_throughout {step : σ → ε → Option σ} {I : σ → Prop}
    {C : σ → ε → Prop} (hstep : ∀ s e t, I s → C s e → step s e = some t → I t)
    {s t : σ} {es : List ε} (hs : I s) (hc : Throughout step C s es)
    (h : run step s es = some t) : I t := by
  have hall := always_of_throughout hstep hs hc
  rw [ always_iff_forall_prefix] at hall
  exact hall es t (List.prefix_refl es) h

theorem Always.mono {step : σ → ε → Option σ} {P Q : σ → Prop}
    (hPQ : ∀ s, P s → Q s) {s : σ} {es : List ε} (h : Always step P s es) :
    Always step Q s es := by
  induction es generalizing s with
  | nil => exact hPQ s h
  | cons e es ih => exact ⟨hPQ s h.1, fun t ht => ih (h.2 t ht)⟩

/-- When one step from a state with `I` and `P` leads to `P` exactly under `C`,
a run stays in `P` exactly when all its steps meet `C`. -/
theorem always_iff_throughout {step : σ → ε → Option σ} {I P : σ → Prop}
    {C : σ → ε → Prop} (hI : ∀ s e t, I s → step s e = some t → I t)
    (hC : ∀ s e t, I s → P s → step s e = some t → (P t ↔ C s e))
    {s : σ} (hs : I s) (hP : P s) (es : List ε) :
    Always step P s es ↔ Throughout step C s es := by
  induction es generalizing s with
  | nil => exact ⟨fun _ => trivial, fun _ => hP⟩
  | cons e es ih =>
      constructor
      · rintro ⟨-, h⟩ t ht
        have hPt : P t := (h t ht).head
        exact ⟨(hC s e t hs hP ht).mp hPt, (ih (hI s e t hs ht) hPt).mp (h t ht)⟩
      · intro h
        refine ⟨hP, fun t ht => ?_⟩
        obtain ⟨hc, hrest⟩ := h t ht
        have hPt : P t := (hC s e t hs hP ht).mpr hc
        exact (ih (hI s e t hs ht) hPt).mpr hrest

/-- Two conditions on steps that agree as long as `P` holds, with `P` kept by
the steps that meet the second, are met throughout the same runs. -/
theorem throughout_congr {step : σ → ε → Option σ} {P : σ → Prop}
    {H C : σ → ε → Prop} (hiff : ∀ s e t, P s → step s e = some t → (H s e ↔ C s e))
    (hkeep : ∀ s e t, P s → C s e → step s e = some t → P t)
    {s : σ} (hs : P s) (es : List ε) :
    Throughout step H s es ↔ Throughout step C s es := by
  induction es generalizing s with
  | nil => exact Iff.rfl
  | cons e es ih =>
      rw [throughout_cons, throughout_cons]
      apply forall₂_congr
      intro t ht
      rw [hiff s e t hs ht]
      exact and_congr_right fun hc => ih (hkeep s e t hs hc ht)

end Transition

end Library
