import Mathlib.Logic.Relation

/-!
# Runs of labelled transition systems

A system is a partial step function over labels; nondeterminism lives in the
choice of label.  `Reaches step ok start` collects the states of all runs from
`start` whose every step meets the side condition `ok`.
-/

namespace CntPeer.Foundation

variable {σ τ α β : Type*}

/-- Execute a schedule from the left; `none` when a step is not enabled. -/
def run (step : σ → α → Option σ) : σ → List α → Option σ
  | s, [] => some s
  | s, a :: as => (step s a).bind fun s' => run step s' as

/-- States of runs from `start` all of whose steps meet `ok`. -/
inductive Reaches (step : σ → α → Option σ) (ok : σ → α → Prop)
    (start : σ) : σ → Prop
  | start : Reaches step ok start start
  | tail {s s' : σ} {a : α} (run : Reaches step ok start s) (meets : ok s a)
      (next : step s a = some s') : Reaches step ok start s'

def anyStep : σ → α → Prop := fun _ _ => True

abbrev Reachable (step : σ → α → Option σ) (start : σ) : σ → Prop :=
  Reaches step anyStep start

variable {step : σ → α → Option σ} {ok ok' : σ → α → Prop} {start s s' : σ}

theorem run_append {as bs : List α} :
    run step s (as ++ bs) = (run step s as).bind fun s' => run step s' bs := by
  induction as generalizing s with
  | nil => rfl
  | cons a as ih =>
      rw [List.cons_append, run, run, Option.bind_assoc]
      exact congrArg _ (funext fun s' => ih)

theorem Reaches.mono (h : Reaches step ok start s)
    (hok : ∀ s a, ok s a → ok' s a) : Reaches step ok' start s := by
  induction h with
  | start => exact .start
  | tail _ meets next ih => exact .tail ih (hok _ _ meets) next

theorem Reaches.reachable (h : Reaches step ok start s) :
    Reachable step start s :=
  h.mono fun _ _ _ => trivial

theorem Reaches.trans {s t : σ} (h : Reaches step ok start s)
    (h' : Reaches step ok s t) : Reaches step ok start t := by
  induction h' with
  | start => exact h
  | tail _ meets next ih => exact .tail ih meets next

/-- The invariant rule; the run so far may be used in the step case. -/
theorem Reaches.invariant {I : σ → Prop} (h : Reaches step ok start s)
    (base : I start)
    (preserved : ∀ s a s', Reaches step ok start s → I s → ok s a →
      step s a = some s' → I s') : I s := by
  induction h with
  | start => exact base
  | tail run meets next ih => exact preserved _ _ _ run ih meets next

theorem reaches_of_run {checked : σ → α → Option σ}
    (hchecked : ∀ s a s', checked s a = some s' →
      ok s a ∧ step s a = some s') {as : List α} :
    ∀ {s : σ}, run checked s as = some s' → Reaches step ok s s' := by
  induction as with
  | nil =>
      intro s h
      cases h
      exact .start
  | cons a as ih =>
      intro s h
      obtain ⟨t, ht, hrun⟩ := Option.bind_eq_some_iff.mp h
      obtain ⟨hok, hstep⟩ := hchecked s a t ht
      exact (Reaches.tail .start hok hstep).trans (ih hrun)

theorem reachable_of_run {as : List α} (h : run step s as = some s') :
    Reachable step s s' :=
  reaches_of_run (fun _ _ _ hstep => ⟨trivial, hstep⟩) h

theorem reachable_get {as : List α} (h : (run step s as).isSome = true) :
    Reachable step s ((run step s as).get h) :=
  reachable_of_run (Option.some_get h).symm

def checkedStep (step : σ → α → Option σ) (ok : σ → α → Prop)
    [∀ s a, Decidable (ok s a)] (s : σ) (a : α) : Option σ :=
  if ok s a then step s a else none

/-- What keeps one label back keeps back a label that is allowed and enabled only
with it. -/
theorem checkedStep_none [∀ s a, Decidable (ok s a)] {a b : α} (hok : ok s b → ok s a)
    (hstep : step s a = none → step s b = none) (h : checkedStep step ok s a = none) :
    checkedStep step ok s b = none := by
  unfold checkedStep at h ⊢
  split
  · rename_i hmeets
    rw [if_pos (hok hmeets)] at h
    exact hstep h
  · rfl

theorem reaches_of_checkedRun [∀ s a, Decidable (ok s a)] {as : List α}
    (h : run (checkedStep step ok) s as = some s') :
    Reaches step ok s s' := by
  refine reaches_of_run (fun s a s' hstep => ?_) h
  unfold checkedStep at hstep
  split at hstep
  · exact ⟨‹_›, hstep⟩
  · contradiction

theorem reaches_get [∀ s a, Decidable (ok s a)] {as : List α}
    (h : (run (checkedStep step ok) s as).isSome = true) :
    Reaches step ok s ((run (checkedStep step ok) s as).get h) :=
  reaches_of_checkedRun (Option.some_get h).symm

theorem Reaches.checked [∀ s a, Decidable (ok' s a)] (h : Reaches step ok start s)
    (hok : ∀ s a, ok s a → ok' s a) : Reaches (checkedStep step ok') ok start s := by
  induction h with
  | start => exact .start
  | tail _ meets next ih =>
      exact .tail ih meets ((if_pos (hok _ _ meets)).trans next)

/--
Forward simulation.  Every step of the lower system from related states is
matched by one step of the upper system or leaves the upper state related; the
upper run may be used to exclude states the upper system never visits.
-/
theorem Reaches.simulates {lower : τ → β → Option τ} {low : τ → β → Prop}
    {t₀ t : τ} {R : τ → σ → Prop} (h : Reaches lower low t₀ t)
    (base : R t₀ start)
    (matched : ∀ t b t' s, Reaches step ok start s → R t s → low t b →
      lower t b = some t' →
      R t' s ∨ ∃ a s', ok s a ∧ step s a = some s' ∧ R t' s') :
    ∃ s, Reaches step ok start s ∧ R t s := by
  induction h with
  | start => exact ⟨start, .start, base⟩
  | tail _ meets next ih =>
      obtain ⟨s, hs, hR⟩ := ih
      obtain hR' | ⟨a, s', hok, hstep, hR'⟩ := matched _ _ _ s hs hR meets next
      · exact ⟨s, hs, hR'⟩
      · exact ⟨s', .tail hs hok hstep, hR'⟩

end CntPeer.Foundation
