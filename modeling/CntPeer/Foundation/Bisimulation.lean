import Mathlib.Data.List.Forall2
import CntPeer.Foundation.Ranking

/-!
# Systems that match each other step for step

Two levels of one design whose runs have the same length and differ only in how
a state is written down.  What one level can reach, and where it can go no
further, is then the same for the other.
-/

namespace CntPeer.Foundation

variable {σ τ α β : Type*}

/-- Related states have the same steps, up to `same` labels, while the upper state
meets `I`. -/
structure Bisimulates (lower : τ → β → Option τ) (upper : σ → α → Option σ)
    (I : σ → Prop) (R : τ → σ → Prop) (same : β → α → Prop) : Prop where
  keeps : ∀ {s a s'}, I s → upper s a = some s' → I s'
  up : ∀ {t s b t'}, I s → R t s → lower t b = some t' →
    ∃ a s', same b a ∧ upper s a = some s' ∧ R t' s'
  down : ∀ {t s a s'}, I s → R t s → upper s a = some s' →
    ∃ b t', same b a ∧ lower t b = some t' ∧ R t' s'

variable {lower : τ → β → Option τ} {upper : σ → α → Option σ} {I : σ → Prop}
  {R : τ → σ → Prop} {same : β → α → Prop} {t t' : τ} {s s' : σ}

theorem Bisimulates.reachable_up (h : Bisimulates lower upper I R same) (hI : I s)
    (hR : R t s) (hreach : Reachable lower t t') :
    ∃ s', Reachable upper s s' ∧ R t' s' := by
  refine hreach.simulates hR ?_
  intro t b t' u hu hR _ hstep
  have hIu : I u := hu.invariant hI fun _ _ _ _ hs _ hnext => h.keeps hs hnext
  obtain ⟨a, u', -, hnext, hR'⟩ := h.up hIu hR hstep
  exact .inr ⟨a, u', trivial, hnext, hR'⟩

theorem Bisimulates.reachable_down (h : Bisimulates lower upper I R same) (hI : I s)
    (hR : R t s) (hreach : Reachable upper s s') :
    ∃ t', Reachable lower t t' ∧ R t' s' := by
  have hboth : I s' ∧ ∃ t', Reachable lower t t' ∧ R t' s' := by
    refine hreach.invariant (I := fun s => I s ∧ ∃ t', Reachable lower t t' ∧ R t' s)
      ⟨hI, t, .start, hR⟩ ?_
    rintro s a s' - ⟨hs, t', ht', hR'⟩ - hstep
    obtain ⟨b, t'', -, hnext, hR''⟩ := h.down hs hR' hstep
    exact ⟨h.keeps hs hstep, t'', .tail ht' trivial hnext, hR''⟩
  exact hboth.2

theorem Bisimulates.run_up (h : Bisimulates lower upper I R same) {bs : List β}
    (hI : I s) (hR : R t s) (hrun : run lower t bs = some t') :
    ∃ as s', List.Forall₂ same bs as ∧ run upper s as = some s' ∧ I s' ∧ R t' s' := by
  induction bs generalizing t s with
  | nil =>
      cases hrun
      exact ⟨[], s, .nil, rfl, hI, hR⟩
  | cons b bs ih =>
      obtain ⟨u, hstep, hrun⟩ := Option.bind_eq_some_iff.mp hrun
      obtain ⟨a, v, hsame, hnext, hR'⟩ := h.up hI hR hstep
      obtain ⟨as, s', hall, hrun', hI', hend⟩ := ih (h.keeps hI hnext) hR' hrun
      refine ⟨a :: as, s', .cons hsame hall, ?_, hI', hend⟩
      rw [run, hnext]
      exact hrun'

theorem Bisimulates.checked {low : τ → β → Prop} {ok : σ → α → Prop}
    [∀ t b, Decidable (low t b)] [∀ s a, Decidable (ok s a)]
    (h : Bisimulates lower upper I R same)
    (hok : ∀ {t s b a}, R t s → same b a → (low t b ↔ ok s a)) :
    Bisimulates (checkedStep lower low) (checkedStep upper ok) I R same where
  keeps hI hstep := h.keeps hI (checkedStep_eq_some.mp hstep).2
  up := by
    intro t s b t' hI hR hstep
    obtain ⟨hlow, hnext⟩ := checkedStep_eq_some.mp hstep
    obtain ⟨a, s', hsame, hup, hR'⟩ := h.up hI hR hnext
    exact ⟨a, s', hsame, checkedStep_eq_some.mpr ⟨(hok hR hsame).mp hlow, hup⟩, hR'⟩
  down := by
    intro t s a s' hI hR hstep
    obtain ⟨hup, hnext⟩ := checkedStep_eq_some.mp hstep
    obtain ⟨b, t', hsame, hlow, hR'⟩ := h.down hI hR hnext
    exact ⟨b, t', hsame, checkedStep_eq_some.mpr ⟨(hok hR hsame).mpr hup, hlow⟩, hR'⟩

/-- Where the lower system can go no further, neither can the upper one. -/
theorem Bisimulates.stuck (h : Bisimulates lower upper I R same) {p : β → Prop}
    {q : α → Prop} (hpq : ∀ {b a}, same b a → q a → p b) (hI : I s) (hR : R t s)
    (hstuck : ∀ b, p b → lower t b = none) {a : α} (ha : q a) : upper s a = none := by
  rw [Option.eq_none_iff_forall_ne_some]
  intro s' hstep
  obtain ⟨b, t', hsame, hnext, -⟩ := h.down hI hR hstep
  rw [hstuck b (hpq hsame ha)] at hnext
  cases hnext

end CntPeer.Foundation
