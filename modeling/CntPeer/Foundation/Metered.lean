import Mathlib.Logic.Function.Basic
import CntPeer.Foundation.Bisimulation

/-!
# Systems that draw on a store

Before a step is taken a store is asked for what it needs.  The store serves the
step, refuses the manner in which it is asked, or breaks and takes a part of the
system with it.  A run in which nothing has broken is a run of the system that
has no store.
-/

namespace CntPeer.Foundation

variable {σ κ α ω γ : Type*}

theorem forall_of_map_eq {f : α → γ} {g : κ → γ} {as : List α} {bs : List κ}
    (h : as.map f = bs.map g) {P : γ → Prop} (hall : ∀ b ∈ bs, P (g b)) :
    ∀ a ∈ as, P (f a) := by
  have hmap : ∀ c ∈ as.map f, P c := by
    rw [h]
    exact List.forall_mem_map.mpr hall
  exact List.forall_mem_map.mp hmap

theorem countP_of_map_eq {f : α → γ} {g : κ → γ} {as : List α} {bs : List κ}
    (h : as.map f = bs.map g) (p : γ → Bool) :
    as.countP (fun a => p (f a)) = bs.countP fun b => p (g b) := by
  have hmap := congrArg (List.countP p) h
  rwa [List.countP_map, List.countP_map] at hmap

inductive Service (α κ : Type*) where
  | refused
  | broken
  | served (a : α) (left : κ)

/-- A store of `κ` for the labels `α` of a system; `ω` are the manners in which
it can be asked. -/
structure Meter (σ κ α ω : Type*) where
  ask : σ → κ → α → ω → Service α κ
  broken : σ → α → σ

namespace Meter

def step (M : Meter σ κ α ω) (base : σ → α → Option σ) (x : σ × κ)
    (l : α × ω) : Option (σ × κ) :=
  match M.ask x.1 x.2 l.1 l.2 with
  | .refused => none
  | .broken => (base x.1 l.1).map fun _ => (M.broken x.1 l.1, x.2)
  | .served a left => (base x.1 a).map fun s => (s, left)

/-- The label is served as it is, whatever is left. -/
def Free (M : Meter σ κ α ω) (s : σ) (a : α) : Prop :=
  ∃ o, ∀ k, M.ask s k a o = .served a k

/-- A label is served as one of the same kind that is enabled with it, and can
always be asked for in some manner. -/
structure Lawful (M : Meter σ κ α ω) (base : σ → α → Option σ) (kind : α → γ) :
    Prop where
  same : ∀ {s k a o a' k'}, M.ask s k a o = .served a' k' → kind a' = kind a
  enabled : ∀ {s k a o a' k'}, M.ask s k a o = .served a' k' →
    base s a' = none → base s a = none
  manner : ∀ s k a, ∃ o, M.ask s k a o ≠ .refused

variable {M : Meter σ κ α ω} {base base' : σ → α → Option σ}
  {kind : α → γ} {x x' : σ × κ} {l : α × ω} {ls : List (α × ω)}

theorem step_cases (h : M.step base x l = some x') :
    (M.ask x.1 x.2 l.1 l.2 = .broken ∧ x' = (M.broken x.1 l.1, x.2)) ∨
      ∃ a, M.ask x.1 x.2 l.1 l.2 = .served a x'.2 ∧ base x.1 a = some x'.1 := by
  unfold step at h
  split at h
  · cases h
  · obtain ⟨s, -, rfl⟩ := Option.map_eq_some_iff.mp h
    exact .inl ⟨‹_›, rfl⟩
  · obtain ⟨s, hs, rfl⟩ := Option.map_eq_some_iff.mp h
    exact .inr ⟨_, ‹_›, hs⟩

theorem step_served {a : α} {k : κ} {s : σ}
    (hask : M.ask x.1 x.2 l.1 l.2 = .served a k) (hs : base x.1 a = some s) :
    M.step base x l = some (s, k) := by
  rw [step, hask]
  exact congrArg (Option.map fun s => (s, k)) hs

theorem step_mono (hbase : ∀ s a s', base s a = some s' → base' s a = some s')
    (h : M.step base x l = some x') : M.step base' x l = some x' := by
  unfold step at h ⊢
  split at h
  · cases h
  · obtain ⟨s, hs, rfl⟩ := Option.map_eq_some_iff.mp h
    rw [hbase _ _ _ hs]
    rfl
  · obtain ⟨s, hs, rfl⟩ := Option.map_eq_some_iff.mp h
    rw [hbase _ _ _ hs]
    rfl

theorem reachable_mono (hbase : ∀ s a s', base s a = some s' → base' s a = some s')
    (h : Reachable (M.step base) x x') : Reachable (M.step base') x x' := by
  induction h with
  | start => exact .start
  | tail _ _ next ih => exact .tail ih trivial (step_mono hbase next)

theorem reachable_free {s s' : σ} (k : κ) (h : Reaches base M.Free s s') :
    Reachable (M.step base) (s, k) (s', k) := by
  induction h with
  | start => exact .start
  | tail _ hfree next ih =>
      obtain ⟨o, ho⟩ := hfree
      exact .tail (a := (_, o)) ih trivial (step_served (ho k) next)

/-- What served steps keep holds along a run up to the first request that breaks
the store. -/
theorem run_or_broken {I : σ → Prop} {P : α → Prop}
    (keeps : ∀ {s k a o a' k' s'}, I s → P a → M.ask s k a o = .served a' k' →
      base s a' = some s' → I s')
    (hI : I x.1) (hP : ∀ l ∈ ls, P l.1) (hrun : run (M.step base) x ls = some x') :
    I x'.1 ∨ ∃ as l bs y, ls = as ++ l :: bs ∧ run (M.step base) x as = some y ∧
      I y.1 ∧ M.ask y.1 y.2 l.1 l.2 = .broken := by
  induction ls generalizing x with
  | nil =>
      cases hrun
      exact .inl hI
  | cons l ls ih =>
      obtain ⟨y, hy, hrun⟩ := Option.bind_eq_some_iff.mp hrun
      rcases step_cases hy with ⟨hask, -⟩ | ⟨a, hask, hstep⟩
      · exact .inr ⟨[], l, ls, x, rfl, rfl, hI, hask⟩
      · have hIy := keeps hI (hP l List.mem_cons_self) hask hstep
        refine (ih hIy (fun b hb => hP b (List.mem_cons_of_mem l hb)) hrun).imp_right ?_
        rintro ⟨as, b, bs, z, rfl, hz, hend⟩
        refine ⟨l :: as, b, bs, z, rfl, ?_, hend⟩
        rw [run, hy]
        exact hz

/-- Where the store keeps every step of a kind from going on, the system does. -/
theorem Lawful.stuck (hM : M.Lawful base kind) {a : α}
    (h : ∀ o, M.step base x (a, o) = none) : base x.1 a = none := by
  obtain ⟨o, ho⟩ := hM.manner x.1 x.2 a
  have hnone := h o
  unfold step at hnone
  split at hnone
  · exact absurd ‹_› ho
  · exact Option.map_eq_none_iff.mp hnone
  · exact hM.enabled ‹_› (Option.map_eq_none_iff.mp hnone)

theorem Lawful.goes_or_stuck (hM : M.Lawful base kind) (P : α → Prop) :
    (∃ l, P l.1 ∧ M.step base x l ≠ none) ∨ ∀ a, P a → base x.1 a = none := by
  refine or_iff_not_imp_left.mpr fun hnot a ha => hM.stuck fun o => ?_
  by_contra hgo
  exact hnot ⟨(a, o), ha, hgo⟩

section Up

variable {U : σ → Prop}
  (hbroken : ∀ s k a o, M.ask s k a o = .broken → ¬U (M.broken s a))
  (hback : ∀ s a s', base s a = some s' → U s' → U s)

include hbroken hback

theorem served_of_up (h : M.step base x l = some x') (hup : U x'.1) :
    U x.1 ∧ ∃ a, M.ask x.1 x.2 l.1 l.2 = .served a x'.2 ∧ base x.1 a = some x'.1 := by
  rcases step_cases h with ⟨hask, rfl⟩ | ⟨a, hask, hstep⟩
  · exact absurd hup (hbroken _ _ _ _ hask)
  · exact ⟨hback _ _ _ hstep hup, a, hask, hstep⟩

theorem reachable_base (h : Reachable (M.step base) x x') (hup : U x'.1) :
    Reachable base x.1 x'.1 := by
  induction h with
  | start => exact .start
  | tail _ _ next ih =>
      obtain ⟨hbefore, a, -, hstep⟩ := served_of_up hbroken hback next hup
      exact .tail (ih hbefore) trivial hstep

/-- A run at whose end the system is up is one of the system without the store. -/
theorem Lawful.run_base (hM : M.Lawful base kind)
    (hrun : run (M.step base) x ls = some x') (hup : U x'.1) :
    U x.1 ∧ ∃ as, as.map kind = ls.map (fun l => kind l.1) ∧
      run base x.1 as = some x'.1 := by
  induction ls generalizing x with
  | nil =>
      cases hrun
      exact ⟨hup, [], rfl, rfl⟩
  | cons l ls ih =>
      obtain ⟨y, hy, hrun⟩ := Option.bind_eq_some_iff.mp hrun
      obtain ⟨hupy, as, hsame, hbase⟩ := ih hrun
      obtain ⟨hupx, a, hask, hstep⟩ := served_of_up hbroken hback hy hupy
      refine ⟨hupx, a :: as, ?_, ?_⟩
      · rw [List.map_cons, List.map_cons, hM.same hask, hsame]
      · rw [run, hstep]
        exact hbase

/-- Where the lower of two systems asks its store for what the upper one does, it
reaches what the upper one reaches. -/
theorem reachable_down {τ β : Type*} {lower : τ → β → Option τ} {L : Meter τ κ β ω}
    {I : σ → Prop} {R : τ → σ → Prop} {same : β → α → Prop} {t : τ}
    (h : Bisimulates lower base I R same)
    (hask : ∀ {t s k a o a' k' b'}, R t s → M.ask s k a o = .served a' k' →
      same b' a' → ∃ b o', L.ask t k b o' = .served b' k')
    (hI : I x.1) (hR : R t x.1) (hreach : Reachable (M.step base) x x')
    (hup : U x'.1) :
    I x'.1 ∧ ∃ t', Reachable (L.step lower) (t, x.2) (t', x'.2) ∧ R t' x'.1 := by
  induction hreach with
  | start => exact ⟨hI, t, .start, hR⟩
  | @tail y l x' _ _ next ih =>
      obtain ⟨hbefore, a, hserved, hstep⟩ := served_of_up hbroken hback next hup
      obtain ⟨hIy, u, hu, hRu⟩ := ih hbefore
      obtain ⟨b, u', hsame, hlow, hRu'⟩ := h.down hIy hRu hstep
      obtain ⟨b', o', hserve⟩ := hask hRu hserved hsame
      exact ⟨h.keeps hIy hstep, u', .tail (a := (b', o')) hu trivial
        (step_served hserve hlow), hRu'⟩

end Up

end Meter

/-! ### A store for each part of a system -/

/-- How a system is made of parts: `act?` is the step of a part that a label asks
the store for, and `label` turns one back. -/
structure Parts (S P σ β α : Type*) where
  part : S → P → σ
  put : S → P → σ → S
  act? : β → Option α
  label : α → β

variable {S P β : Type*} [DecidableEq P]

namespace Meter

def pool (M : Meter σ κ α ω) (D : Parts S P σ β α) :
    Meter S (P → κ) (P × β) ω where
  ask s k l o :=
    match D.act? l.2 with
    | none => .served l k
    | some a =>
        match M.ask (D.part s l.1) (k l.1) a o with
        | .refused => .refused
        | .broken => .broken
        | .served a' left => .served (l.1, D.label a') (Function.update k l.1 left)
  broken s l :=
    match D.act? l.2 with
    | none => s
    | some a => D.put s l.1 (M.broken (D.part s l.1) a)

variable {M : Meter σ κ α ω} {D : Parts S P σ β α} {s : S} {k k' : P → κ}
  {l l' : P × β} {o : ω}

theorem pool_broken (h : (M.pool D).ask s k l o = .broken) :
    ∃ a, D.act? l.2 = some a ∧ M.ask (D.part s l.1) (k l.1) a o = .broken := by
  simp only [pool] at h
  split at h
  · cases h
  · split at h
    · cases h
    · exact ⟨_, ‹_›, ‹_›⟩
    · cases h

theorem pool_served (h : (M.pool D).ask s k l o = .served l' k') :
    (D.act? l.2 = none ∧ l' = l ∧ k' = k) ∨
      ∃ a a' left, D.act? l.2 = some a ∧
        M.ask (D.part s l.1) (k l.1) a o = .served a' left ∧
        l' = (l.1, D.label a') ∧ k' = Function.update k l.1 left := by
  simp only [pool] at h
  split at h
  · cases h
    exact .inl ⟨‹_›, rfl, rfl⟩
  · split at h
    · cases h
    · cases h
    · cases h
      exact .inr ⟨_, _, _, ‹_›, ‹_›, rfl, rfl⟩

theorem pool_manner (hmanner : ∀ s k a, ∃ o, M.ask s k a o ≠ .refused) [Nonempty ω]
    (s : S) (k : P → κ) (l : P × β) : ∃ o, (M.pool D).ask s k l o ≠ .refused := by
  cases hact : D.act? l.2 with
  | none =>
      refine ⟨Classical.arbitrary ω, ?_⟩
      simp [pool, hact]
  | some a =>
      obtain ⟨o, ho⟩ := hmanner (D.part s l.1) (k l.1) a
      refine ⟨o, ?_⟩
      simp only [pool, hact]
      split
      · exact absurd ‹_› ho
      · exact nofun
      · exact nofun

theorem pool_same {kind : β → γ}
    (hsame : ∀ {p k a o a' k' b}, M.ask p k a o = .served a' k' → D.act? b = some a →
      kind (D.label a') = kind b)
    (h : (M.pool D).ask s k l o = .served l' k') : kind l'.2 = kind l.2 := by
  rcases pool_served h with ⟨-, rfl, -⟩ | ⟨a, a', left, hact, hserved, rfl, -⟩
  · rfl
  · exact hsame hserved hact

theorem pool_lawful {base : S → P × β → Option S} {kind : β → γ}
    (hmanner : ∀ s k a, ∃ o, M.ask s k a o ≠ .refused) [Nonempty ω]
    (hsame : ∀ {p k a o a' k' b}, M.ask p k a o = .served a' k' → D.act? b = some a →
      kind (D.label a') = kind b)
    (henabled : ∀ {s q k a o a' k' b}, M.ask (D.part s q) k a o = .served a' k' →
      D.act? b = some a → base s (q, D.label a') = none → base s (q, b) = none) :
    (M.pool D).Lawful base (fun l => kind l.2) where
  same hask := pool_same hsame hask
  enabled hask hnone := by
    rcases pool_served hask with ⟨-, rfl, -⟩ | ⟨a, a', left, hact, hserved, rfl, -⟩
    · exact hnone
    · exact henabled hserved hact hnone
  manner := pool_manner hmanner

theorem pool_not_up {U : σ → Prop}
    (hput : ∀ s q p, D.part (D.put s q p) = Function.update (D.part s) q p)
    (hbroken : ∀ p k a o, M.ask p k a o = .broken → ¬U (M.broken p a))
    (h : (M.pool D).ask s k l o = .broken) :
    ¬∀ q, U (D.part ((M.pool D).broken s l) q) := by
  obtain ⟨a, hact, hpart⟩ := pool_broken h
  intro hups
  have hup := hups l.1
  simp only [pool, hact, hput, Function.update_self] at hup
  exact hbroken _ _ _ _ hpart hup

theorem pool_free [Nonempty ω]
    (h : ∀ a, D.act? l.2 = some a → M.Free (D.part s l.1) a ∧ D.label a = l.2) :
    (M.pool D).Free s l := by
  cases hact : D.act? l.2 with
  | none =>
      refine ⟨Classical.arbitrary ω, fun k => ?_⟩
      simp [pool, hact]
  | some a =>
      obtain ⟨⟨o, ho⟩, hlabel⟩ := h a hact
      refine ⟨o, fun k => ?_⟩
      simp [pool, hact, ho, hlabel]

end Meter

/-- The parts take the steps of a system of their own, one at a time. -/
structure Parts.Step (D : Parts S P σ β α) (M : Meter σ κ α ω)
    (base : S → P × β → Option S) (step : σ → α → Option σ) : Prop where
  part_put : ∀ s q p, D.part (D.put s q p) = Function.update (D.part s) q p
  act?_label : ∀ a, D.act? (D.label a) = some a
  acts : ∀ {s q b a s'}, D.act? b = some a → base s (q, b) = some s' →
    step (D.part s q) a = some (D.part s' q)
  silent : ∀ {s q b s'}, D.act? b = none → base s (q, b) = some s' →
    ∃ a, M.Free (D.part s q) a ∧ step (D.part s q) a = some (D.part s' q)
  others : ∀ {s q b s' r}, base s (q, b) = some s' → r ≠ q → D.part s' r = D.part s r

namespace Parts.Step

variable {D : Parts S P σ β α} {M : Meter σ κ α ω} {base : S → P × β → Option S}
  {step : σ → α → Option σ} {x x' : S × (P → κ)} {l : (P × β) × ω} {q : P}

theorem step_part (h : D.Step M base step) (hstep : (M.pool D).step base x l = some x')
    (q : P) :
    (D.part x'.1 q, x'.2 q) = (D.part x.1 q, x.2 q) ∨
      ∃ m, M.step step (D.part x.1 q, x.2 q) m = some (D.part x'.1 q, x'.2 q) := by
  obtain ⟨⟨r, b⟩, o⟩ := l
  have hcases := Meter.step_cases hstep
  by_cases hq : q = r
  · subst hq
    right
    rcases hcases with ⟨hask, rfl⟩ | ⟨l', hask, hbase⟩
    · obtain ⟨a, hact, hbroken⟩ := Meter.pool_broken hask
      rw [Meter.step, hask] at hstep
      obtain ⟨s', hs', -⟩ := Option.map_eq_some_iff.mp hstep
      refine ⟨(a, o), ?_⟩
      rw [Meter.step, hbroken]
      simp [Meter.pool, hact, h.acts hact hs', h.part_put]
    · rcases Meter.pool_served hask with
        ⟨hact, rfl, hk⟩ | ⟨a, a', left, hact, hserved, rfl, hk⟩
      · obtain ⟨a, ⟨o', hfree⟩, hnext⟩ := h.silent hact hbase
        exact ⟨(a, o'), hk ▸ Meter.step_served (hfree _) hnext⟩
      · refine ⟨(a, o), ?_⟩
        rw [hk, Function.update_self]
        exact Meter.step_served hserved (h.acts (h.act?_label a') hbase)
  · left
    rcases hcases with ⟨hask, rfl⟩ | ⟨l', hask, hbase⟩
    · obtain ⟨a, hact, -⟩ := Meter.pool_broken hask
      simp only [Meter.pool, hact, h.part_put, Function.update_of_ne hq]
    · rcases Meter.pool_served hask with
        ⟨-, rfl, hk⟩ | ⟨a, a', left, -, -, rfl, hk⟩
      · rw [hk, h.others hbase hq]
      · rw [hk, Function.update_of_ne hq, h.others hbase hq]

/-- Each part and its store go through a run of their own. -/
theorem reachable_part (h : D.Step M base step)
    (hreach : Reachable ((M.pool D).step base) x x') (q : P) :
    Reachable (M.step step) (D.part x.1 q, x.2 q) (D.part x'.1 q, x'.2 q) := by
  induction hreach with
  | start => exact .start
  | tail _ _ next ih =>
      rcases h.step_part next q with hsame | ⟨m, hnext⟩
      · rw [hsame]
        exact ih
      · exact .tail ih trivial hnext

end Parts.Step

end CntPeer.Foundation
