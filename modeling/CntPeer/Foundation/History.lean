import Mathlib.Data.List.Count
import Mathlib.Data.List.Induction
import CntPeer.Foundation.Transition

/-!
# Histories of runs

A history variable collects what an observer notes at each step.  The run
itself is not affected, so what is proved of the history holds of every run.
-/

namespace CntPeer.Foundation

variable {σ α ω : Type*}

def recorded (step : σ → α → Option σ) (obs : σ → α → List ω) (q : σ × List ω)
    (a : α) : Option (σ × List ω) :=
  (step q.1 a).map fun s => (s, q.2 ++ obs q.1 a)

abbrev Records (step : σ → α → Option σ) (obs : σ → α → List ω)
    (ok : σ → α → Prop) (start : σ) : σ × List ω → Prop :=
  Reaches (recorded step obs) (fun q a => ok q.1 a) (start, [])

variable {step : σ → α → Option σ} {obs : σ → α → List ω}
  {ok : σ → α → Prop} {start s : σ} {q q' : σ × List ω} {a : α}

theorem recorded_eq_some :
    recorded step obs q a = some q' ↔
      step q.1 a = some q'.1 ∧ q'.2 = q.2 ++ obs q.1 a := by
  obtain ⟨t, l⟩ := q'
  simp only [recorded, Option.map_eq_some_iff, Prod.mk.injEq]
  constructor
  · rintro ⟨s, hstep, rfl, rfl⟩
    exact ⟨hstep, rfl⟩
  · rintro ⟨hstep, rfl⟩
    exact ⟨t, hstep, rfl, rfl⟩

theorem Reaches.of_records (h : Records step obs ok start q) :
    Reaches step ok start q.1 := by
  induction h with
  | start => exact .start
  | tail _ meets next ih => exact .tail ih meets (recorded_eq_some.mp next).1

theorem Reaches.records (h : Reaches step ok start s) :
    ∃ l, Records step obs ok start (s, l) := by
  induction h with
  | start => exact ⟨[], .start⟩
  | tail _ meets next ih =>
      obtain ⟨l, hl⟩ := ih
      exact ⟨_, .tail hl meets (recorded_eq_some.mpr ⟨next, rfl⟩)⟩

/-- The invariant rule for a state and its history. -/
theorem Reaches.history {I : σ → List ω → Prop}
    (h : Records step obs ok start q) (base : I start [])
    (preserved : ∀ s l a s', Reaches step ok start s → I s l → ok s a →
      step s a = some s' → I s' (l ++ obs s a)) : I q.1 q.2 := by
  refine h.invariant (I := fun q => I q.1 q.2) base ?_
  intro q a q' hr ih hok hstep
  obtain ⟨hnext, hq⟩ := recorded_eq_some.mp hstep
  rw [hq]
  exact preserved _ _ _ _ (.of_records hr) ih hok hnext

/-- The rule for what happens once: when `x` is observed, it was possible and
is no longer, and it never becomes possible again. -/
theorem Reaches.at_most_once [DecidableEq ω] {x : ω} {M : σ → Prop}
    (h : Records step obs ok start q)
    (closed : ∀ s a s', Reaches step ok start s → ok s a →
      step s a = some s' → M s' → M s)
    (spent : ∀ s a s', Reaches step ok start s → ok s a →
      step s a = some s' → x ∈ obs s a →
        M s ∧ ¬M s' ∧ (obs s a).count x = 1) :
    q.2.count x ≤ 1 ∧ (M q.1 → q.2.count x = 0) := by
  refine h.history (I := fun s l => l.count x ≤ 1 ∧ (M s → l.count x = 0))
    ⟨by simp, fun _ => rfl⟩ ?_
  rintro s l a s' hr ⟨hle, hmay⟩ hok hstep
  rw [List.count_append]
  by_cases hx : x ∈ obs s a
  · obtain ⟨hbefore, hafter, hcount⟩ := spent s a s' hr hok hstep hx
    have hzero := hmay hbefore
    exact ⟨by omega, fun hm => absurd hm hafter⟩
  · have hcount := List.count_eq_zero.mpr hx
    exact ⟨by omega, fun hm => by
      rw [hmay (closed s a s' hr hok hstep hm), hcount]⟩

section Concat

variable {l pre post : List ω} {x y : ω}

theorem concat_eq_split :
    l ++ [y] = pre ++ x :: post ↔
      (l = pre ∧ y = x ∧ post = []) ∨
        ∃ rest, post = rest ++ [y] ∧ l = pre ++ x :: rest := by
  constructor
  · intro h
    cases post using List.reverseRecOn with
    | nil =>
        obtain ⟨rfl, hlast⟩ := List.append_inj' h rfl
        exact .inl ⟨rfl, List.head_eq_of_cons_eq hlast, rfl⟩
    | append_singleton rest z =>
        rw [← List.cons_append, ← List.append_assoc] at h
        obtain ⟨rfl, hlast⟩ := List.append_inj' h rfl
        cases hlast
        exact .inr ⟨rest, rfl, rfl⟩
  · rintro (⟨rfl, rfl, rfl⟩ | ⟨rest, rfl, rfl⟩)
    · rfl
    · simp

theorem eq_of_first (h : x ∉ l) (hsplit : l ++ [x] = pre ++ x :: post) :
    l = pre := by
  rcases concat_eq_split.mp hsplit with ⟨hl, -⟩ | ⟨rest, -, rfl⟩
  · exact hl
  · exact absurd (by simp) h

end Concat

section Last

variable {γ : Type*} {P : γ → Bool} {l k : List γ} {x : γ}

theorem last_append_nil (h : k.filter P = []) :
    ((l ++ k).filter P).getLast? = (l.filter P).getLast? := by
  rw [List.filter_append, h, List.append_nil]

theorem last_append_one (h : k.filter P = [x]) :
    ((l ++ k).filter P).getLast? = some x := by
  rw [List.filter_append, h, List.getLast?_concat]

end Last

end CntPeer.Foundation
