import Mathlib.Algebra.BigOperators.Group.List.Basic
import Mathlib.Algebra.GroupWithZero.Nat
import CntPeer.Foundation.Transition

/-!
# Rankings of labelled transition systems

A rank is paid down by what the steps of a system gain and paid up by what they
cost.  So the gain of a run is bounded by the rank of its first state and the
cost of its labels, and a system whose free steps gain something comes to rest.
-/

namespace CntPeer.Foundation

variable {σ α : Type*}

theorem checkedStep_eq_some {step : σ → α → Option σ} {ok : σ → α → Prop}
    [∀ s a, Decidable (ok s a)] {s s' : σ} {a : α} :
    checkedStep step ok s a = some s' ↔ ok s a ∧ step s a = some s' := by
  unfold checkedStep
  split <;> simp_all

theorem run_of_checkedRun {step : σ → α → Option σ} {ok : σ → α → Prop}
    [∀ s a, Decidable (ok s a)] {s s' : σ} {as : List α}
    (h : run (checkedStep step ok) s as = some s') : run step s as = some s' := by
  induction as generalizing s with
  | nil => exact h
  | cons a as ih =>
      obtain ⟨t, ht, hrun⟩ := Option.bind_eq_some_iff.mp h
      rw [run, (checkedStep_eq_some.mp ht).2]
      exact ih hrun

/-- The invariant rule for a run whose labels are restricted. -/
theorem run_invariant {step : σ → α → Option σ} {P : α → Prop} {I : σ → Prop}
    {s s' : σ} {as : List α}
    (preserved : ∀ s a s', I s → P a → step s a = some s' → I s') (hs : I s)
    (hmay : ∀ a ∈ as, P a) (hrun : run step s as = some s') : I s' := by
  induction as generalizing s with
  | nil =>
      cases hrun
      exact hs
  | cons a as ih =>
      obtain ⟨t, ht, hrun⟩ := Option.bind_eq_some_iff.mp hrun
      exact ih (preserved s a t hs (hmay a List.mem_cons_self) ht)
        (fun b hb => hmay b (List.mem_cons_of_mem _ hb)) hrun

/-- When the runs of some labels are bounded, one of them ends where there are no
more of these steps. -/
theorem exists_rest {step : σ → α → Option σ} {P : α → Prop} {n : Nat} {s : σ}
    (h : ∀ as s', (∀ a ∈ as, P a) → run step s as = some s' → as.length ≤ n) :
    ∃ as s', (∀ a ∈ as, P a) ∧ run step s as = some s' ∧
      ∀ a, P a → step s' a = none := by
  induction n generalizing s with
  | zero =>
      refine ⟨[], s, by simp, rfl, fun a ha => ?_⟩
      rw [Option.eq_none_iff_forall_ne_some]
      intro t ht
      have hle := h [a] t (by simpa using ha) (by rw [run, ht]; rfl)
      exact absurd hle (by simp)
  | succ n ih =>
      by_cases hrest : ∀ a, P a → step s a = none
      · exact ⟨[], s, by simp, rfl, hrest⟩
      · simp only [not_forall] at hrest
        obtain ⟨a, ha, hstep⟩ := hrest
        obtain ⟨t, ht⟩ := Option.ne_none_iff_exists'.mp hstep
        have hcons : ∀ {as s'}, run step t as = some s' →
            run step s (a :: as) = some s' := by
          intro as s' hrun
          rw [run, ht, Option.bind_some, hrun]
        obtain ⟨as, s', has, hrun, hend⟩ := ih fun as s' has hrun =>
          Nat.le_of_succ_le_succ
            (h (a :: as) s' (List.forall_mem_cons.mpr ⟨ha, has⟩) (hcons hrun))
        exact ⟨a :: as, s', List.forall_mem_cons.mpr ⟨ha, has⟩, hcons hrun, hend⟩

/-- On the states in `I`, steps with labels in `may` keep to the budget. -/
structure Ranked (step : σ → α → Option σ) (may : α → Prop) (I : σ → Prop)
    (gain cost : α → Nat) (rank : σ → Nat) : Prop where
  keeps : ∀ {s s' : σ} {a : α}, I s → may a → step s a = some s' → I s'
  pays : ∀ {s s' : σ} {a : α}, I s → may a → step s a = some s' →
    rank s' + gain a ≤ rank s + cost a

namespace Ranked

variable {step : σ → α → Option σ} {may free : α → Prop} {I : σ → Prop}
  {gain cost : α → Nat} {rank : σ → Nat} {s s' : σ} {as : List α}

theorem run_pays (h : Ranked step may I gain cost rank) (hs : I s)
    (hmay : ∀ a ∈ as, may a) (hrun : run step s as = some s') :
    rank s' + (as.map gain).sum ≤ rank s + (as.map cost).sum := by
  induction as generalizing s with
  | nil =>
      cases hrun
      simp
  | cons a as ih =>
      obtain ⟨t, ht, hrun⟩ := Option.bind_eq_some_iff.mp hrun
      have ha := hmay a List.mem_cons_self
      have hfirst := h.pays hs ha ht
      have hrest := ih (h.keeps hs ha ht)
        (fun b hb => hmay b (List.mem_cons_of_mem _ hb)) hrun
      simp only [List.map_cons, List.sum_cons]
      omega

theorem checked {ok : σ → α → Prop} [∀ s a, Decidable (ok s a)]
    (h : Ranked step may I gain cost rank) :
    Ranked (checkedStep step ok) may I gain cost rank where
  keeps hs ha hstep := h.keeps hs ha (checkedStep_eq_some.mp hstep).2
  pays hs ha hstep := h.pays hs ha (checkedStep_eq_some.mp hstep).2

/-- A run of steps that cost nothing and gain something is no longer than the
rank it starts with. -/
theorem free_bounded (h : Ranked step may I gain cost rank)
    (hfree : ∀ a, free a → may a ∧ cost a = 0 ∧ 0 < gain a) (hs : I s)
    (has : ∀ a ∈ as, free a) (hrun : run step s as = some s') :
    as.length ≤ rank s := by
  induction as generalizing s with
  | nil => exact Nat.zero_le _
  | cons a as ih =>
      obtain ⟨t, ht, hrun⟩ := Option.bind_eq_some_iff.mp hrun
      obtain ⟨hmay, hcost, hgain⟩ := hfree a (has a List.mem_cons_self)
      have hpays := h.pays hs hmay ht
      have hrest := ih (h.keeps hs hmay ht)
        (fun b hb => has b (List.mem_cons_of_mem _ hb)) hrun
      rw [List.length_cons]
      omega

end Ranked

end CntPeer.Foundation
