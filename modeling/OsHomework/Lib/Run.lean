import Mathlib.Data.List.Forall2

/-!
# Runs of a labelled transition relation

* `Run step s ls t`: from `s`, the steps labelled `ls` lead to `t`;
* **`Run.invariant`**: what the steps preserve holds in every state reached;
* **`Run.simulates`**: a simulation of the steps is one of the runs.
-/

set_option autoImplicit false

namespace OsHomework

variable {S L : Type} {step : S → L → S → Prop}

/-- From `s`, the steps labelled `ls` lead to `t`. -/
inductive Run (step : S → L → S → Prop) : S → List L → S → Prop
  | nil (s : S) : Run step s [] s
  | snoc {s t u : S} {ls : List L} {l : L} : Run step s ls t → step t l u → Run step s (ls ++ [l]) u

theorem Run.eq_of_nil {s t : S} (h : Run step s [] t) : s = t := by
  generalize hls : [] = ls at h
  cases h with
  | nil => rfl
  | snoc => simp at hls

theorem Run.cons {s t u : S} {l : L} {ls : List L} (hl : step s l t) (h : Run step t ls u) :
    Run step s (l :: ls) u := by
  induction h with
  | nil => exact .snoc (.nil s) hl
  | snoc _ hl' ih => exact .snoc ih hl'

theorem Run.uncons {s u : S} {l : L} {ls : List L} (h : Run step s (l :: ls) u) :
    ∃ t, step s l t ∧ Run step t ls u := by
  generalize hls : l :: ls = ls' at h
  induction h generalizing ls with
  | nil => cases hls
  | @snoc _ _ ls' l' h hl ih =>
    cases ls' with
    | nil =>
      obtain ⟨rfl, rfl⟩ := List.cons.inj hls
      cases h.eq_of_nil
      exact ⟨_, hl, .nil _⟩
    | cons k ks =>
      obtain ⟨rfl, rfl⟩ := List.cons.inj hls
      obtain ⟨t, hk, hrun⟩ := ih rfl
      exact ⟨t, hk, .snoc hrun hl⟩

theorem Run.single {s t : S} {l : L} (h : Run step s [l] t) : step s l t := by
  obtain ⟨u, hl, h⟩ := h.uncons
  obtain rfl := h.eq_of_nil
  exact hl

theorem Run.append {s t u : S} {ls ls' : List L} (h : Run step s ls t) (h' : Run step t ls' u) :
    Run step s (ls ++ ls') u := by
  induction h' with
  | nil => simpa using h
  | snoc _ hl ih =>
    rw [← List.append_assoc]
    exact .snoc ih hl

/-- **The invariant rule.** -/
theorem Run.invariant {I : S → Prop} {s t : S} {ls : List L} (h : Run step s ls t) (hs : I s)
    (hstep : ∀ t l u, I t → step t l u → I u) : I t := by
  induction h with
  | nil => exact hs
  | snoc _ hl ih => exact hstep _ _ _ ih hl

theorem Run.mono {step' : S → L → S → Prop} {s t : S} {ls : List L} (h : Run step s ls t)
    (hle : ∀ t l u, step t l u → step' t l u) : Run step' s ls t := by
  induction h with
  | nil => exact .nil _
  | snoc _ hl ih => exact .snoc ih (hle _ _ _ hl)

/-- **The simulation rule**: if every step is, through `f`, a step of the abstract system with a label that goes with
it, then so is every run. -/
theorem Run.simulates {S' L' : Type} {step' : S' → L' → S' → Prop} {I : S → Prop} {f : S → S'} {R : L → L' → Prop}
    {s t : S} {ls : List L} (h : Run step s ls t) (hs : I s)
    (hstep : ∀ t l u, I t → step t l u → I u ∧ ∃ l', R l l' ∧ step' (f t) l' (f u)) :
    I t ∧ ∃ ls', Run step' (f s) ls' (f t) ∧ List.Forall₂ R ls ls' := by
  induction h with
  | nil => exact ⟨hs, [], .nil _, .nil⟩
  | snoc _ hl ih =>
    obtain ⟨hi, ls', hrun, hR⟩ := ih
    obtain ⟨hi', l', hl', hl''⟩ := hstep _ _ _ hi hl
    exact ⟨hi', ls' ++ [l'], .snoc hrun hl'', List.rel_append hR (.cons hl' .nil)⟩

/-- Carry out the steps `ls` of a system that computes its steps. -/
def exec (f : S → L → Option S) : S → List L → Option S
  | s, [] => some s
  | s, l :: ls => (f s l).bind fun t => exec f t ls

theorem Run.of_exec {f : S → L → Option S} {ls : List L} {s t : S} (h : exec f s ls = some t) :
    Run (fun s l t => f s l = some t) s ls t := by
  induction ls generalizing s with
  | nil =>
    obtain rfl := Option.some.inj h
    exact .nil s
  | cons l ls ih =>
    obtain ⟨u, hl, hls⟩ := Option.bind_eq_some_iff.mp h
    exact .cons hl (ih hls)

/-- Carry out steps that must all pass a test. -/
def execWhen (g : S → L → Bool) (f : S → L → Option S) : S → List L → Option S :=
  exec fun s l => if g s l then f s l else none

theorem Run.of_execWhen {g : S → L → Bool} {f : S → L → Option S} {ls : List L} {s t : S}
    (h : execWhen g f s ls = some t) : Run (fun s l t => f s l = some t ∧ g s l) s ls t := by
  apply (Run.of_exec h).mono
  intro t l u hl
  split at hl
  next hg => exact ⟨hl, hg⟩
  next => cases hl

end OsHomework
