import Mathlib.Data.List.Induction
import CntPeer.Foundation.History
import CntPeer.Foundation.SortedSet
import CntPeer.Session.Collection

/-!
# `SnRefSet` as a finite set

A run edits any number of named `SnRefSet` values.  `contents` reads from the
history of the run alone which addresses each value should hold.
-/

namespace CntPeer

open CntPeer.Foundation

/-- The operations that make or change a value; the names are of type `ι`. -/
inductive SetOp (ι : Type*) where
  | make (x : ι)
  | add (x : ι) (e : Sn)
  | remove (x : ι) (e : Sn)
  | minus (x a b : ι)
  | move (x a : ι)

abbrev SetValues (ι : Type*) := ι → Option SnRefSet

namespace SetOp

variable {ι : Type*} [DecidableEq ι]

def noValues : SetValues ι := fun _ => none

def step (vs : SetValues ι) : SetOp ι → Option (SetValues ι)
  | make x => some (Function.update vs x (some SortedVec.empty))
  | add x e => (vs x).map fun v => Function.update vs x (some (v.add e))
  | remove x e => (vs x).map fun v => Function.update vs x (some (v.remove e))
  | minus x a b =>
      match vs a, vs b with
      | some v, some w => some (Function.update vs x (some (v.difference w)))
      | _, _ => none
  | move x a =>
      -- the standard leaves the contents of `a` unspecified
      (vs a).map fun v =>
        Function.update (Function.update vs x (some v)) a none

/-- The callers add only what is not contained and remove only what is. -/
def Guarded (vs : SetValues ι) : SetOp ι → Prop
  | add x e => ∀ v, vs x = some v → v.contains e = false
  | remove x e => ∀ v, vs x = some v → v.contains e = true
  | _ => True

instance (vs : SetValues ι) (op : SetOp ι) : Decidable (Guarded vs op) :=
  match op with
  | add x e => inferInstanceAs
      (Decidable (∀ v, v ∈ vs x → v.contains e = false))
  | remove x e => inferInstanceAs
      (Decidable (∀ v, v ∈ vs x → v.contains e = true))
  | make _ | minus _ _ _ | move _ _ => inferInstanceAs (Decidable True)

abbrev Performs : SetValues ι × List (SetOp ι) → Prop :=
  Records step (fun _ op => [op]) Guarded noValues

def onSets (c : ι → Finset Nat) : SetOp ι → ι → Finset Nat
  | make x => Function.update c x ∅
  | add x e => Function.update c x (insert e.addr (c x))
  | remove x e => Function.update c x ((c x).erase e.addr)
  | minus x a b => Function.update c x (c a \ c b)
  | move x a => Function.update (Function.update c x (c a)) a ∅

def contents (l : List (SetOp ι)) : ι → Finset Nat :=
  l.foldl onSets fun _ => ∅

/-- The operation puts the address `k` into `x`; `c` holds before it. -/
def Brings (c : ι → Finset Nat) (x : ι) (k : Nat) : SetOp ι → Prop
  | make _ => False
  | add y e => x = y ∧ k = e.addr
  | remove _ _ => False
  | minus y a b => x = y ∧ k ∈ c a ∧ k ∉ c b
  | move y a => x = y ∧ x ≠ a ∧ k ∈ c a

def Drops (x : ι) (k : Nat) : SetOp ι → Prop
  | make y => x = y
  | add _ _ => False
  | remove y e => x = y ∧ k = e.addr
  | minus y _ _ => x = y
  | move y a => x = y ∨ x = a

def KeptSince (l : List (SetOp ι)) (x : ι) (k : Nat) : Prop :=
  ∃ before op after, l = before ++ op :: after ∧
    Brings (contents before) x k op ∧ ∀ o ∈ after, ¬Drops x k o

variable {vs vs' : SetValues ι} {c : ι → Finset Nat} {op : SetOp ι}
  {l : List (SetOp ι)} {x y : ι} {v w : SnRefSet} {e : Sn} {k : Nat}

theorem contents_concat : contents (l ++ [op]) = onSets (contents l) op := by
  simp [contents]

theorem mem_onSets :
    k ∈ onSets c op x ↔ Brings c x k op ∨ k ∈ c x ∧ ¬Drops x k op := by
  cases op with
  | make y =>
      by_cases hxy : x = y
      · subst hxy
        simp [onSets, Brings, Drops]
      · simp [onSets, Brings, Drops, hxy]
  | add y e =>
      by_cases hxy : x = y
      · subst hxy
        simp [onSets, Brings, Drops]
      · simp [onSets, Brings, Drops, hxy]
  | remove y e =>
      by_cases hxy : x = y
      · subst hxy
        simp [onSets, Brings, Drops, and_comm]
      · simp [onSets, Brings, Drops, hxy]
  | minus y a b =>
      by_cases hxy : x = y
      · subst hxy
        simp [onSets, Brings, Drops]
      · simp [onSets, Brings, Drops, hxy]
  | move y a =>
      by_cases hxa : x = a
      · subst hxa
        simp [onSets, Brings, Drops]
      · by_cases hxy : x = y
        · subst hxy
          simp [onSets, Brings, Drops, hxa]
        · simp [onSets, Brings, Drops, hxa, hxy]

theorem keptSince_concat :
    KeptSince (l ++ [op]) x k ↔
      Brings (contents l) x k op ∨ KeptSince l x k ∧ ¬Drops x k op := by
  constructor
  · rintro ⟨before, o, after, hl, hbrings, hafter⟩
    rcases concat_eq_split.mp hl with ⟨rfl, rfl, rfl⟩ | ⟨rest, rfl, rfl⟩
    · exact .inl hbrings
    · refine .inr ⟨⟨before, o, rest, rfl, hbrings, fun o ho => ?_⟩, ?_⟩
      · exact hafter o (List.mem_append_left _ ho)
      · exact hafter op (by simp)
  · rintro (hbrings | ⟨⟨before, o, after, rfl, hbrings, hafter⟩, hdrops⟩)
    · exact ⟨l, op, [], rfl, hbrings, by simp⟩
    · refine ⟨before, o, after ++ [op], by simp, hbrings, fun o ho => ?_⟩
      rcases List.mem_append.mp ho with ho | ho
      · exact hafter o ho
      · rw [List.mem_singleton.mp ho]
        exact hdrops

theorem mem_contents_iff : k ∈ contents l x ↔ KeptSince l x k := by
  induction l using List.reverseRecOn generalizing x k with
  | nil => simp [contents, KeptSince]
  | append_singleton l op ih =>
      rw [contents_concat, mem_onSets, keptSince_concat, ih]

def Agrees (vs : SetValues ι) (c : ι → Finset Nat) : Prop :=
  ∀ x v, vs x = some v → v.Strict ∧ v.keys = c x

theorem Agrees.update (h : Agrees vs c) (hv : v.Strict) :
    Agrees (Function.update vs x (some v)) (Function.update c x v.keys) := by
  intro y w hw
  by_cases hyx : y = x
  · subst hyx
    rw [Function.update_self] at hw ⊢
    cases hw
    exact ⟨hv, rfl⟩
  · rw [Function.update_of_ne hyx] at hw ⊢
    exact h y w hw

theorem Agrees.forget (h : Agrees vs c) (s : Finset Nat) :
    Agrees (Function.update vs x none) (Function.update c x s) := by
  intro y w hw
  by_cases hyx : y = x
  · subst hyx
    rw [Function.update_self] at hw
    cases hw
  · rw [Function.update_of_ne hyx] at hw ⊢
    exact h y w hw

theorem Agrees.step (h : Agrees vs c) (hok : Guarded vs op)
    (hstep : step vs op = some vs') : Agrees vs' (onSets c op) := by
  cases op with
  | make x =>
      cases hstep
      have hnew := h.update (x := x) (v := SortedVec.empty) SortedVec.strict_empty
      rwa [SortedVec.keys_empty] at hnew
  | add x e =>
      obtain ⟨v, hv, rfl⟩ := Option.map_eq_some_iff.mp hstep
      obtain ⟨hstrict, hkeys⟩ := h x v hv
      have hnew := h.update (x := x) (hstrict.add (hok v hv))
      rwa [SortedVec.keys_add, hkeys] at hnew
  | remove x e =>
      obtain ⟨v, hv, rfl⟩ := Option.map_eq_some_iff.mp hstep
      obtain ⟨hstrict, hkeys⟩ := h x v hv
      have hnew := h.update (x := x) (hstrict.remove e)
      rwa [hstrict.keys_remove (hok v hv), hkeys] at hnew
  | minus x a b =>
      simp only [SetOp.step] at hstep
      split at hstep
      · rename_i v w hv hw
        cases hstep
        obtain ⟨hstrict, hkeys⟩ := h a v hv
        have hnew := h.update (x := x) (hstrict.difference (w := w))
        rwa [hstrict.keys_difference, hkeys, (h b w hw).2] at hnew
      · cases hstep
  | move x a =>
      obtain ⟨v, hv, rfl⟩ := Option.map_eq_some_iff.mp hstep
      obtain ⟨hstrict, hkeys⟩ := h a v hv
      have hnew := (h.update (x := x) hstrict).forget (x := a) ∅
      rwa [hkeys] at hnew

theorem Performs.agrees (h : Performs (vs, l)) : Agrees vs (contents l) := by
  refine Reaches.history (I := fun vs l => Agrees vs (contents l)) h ?_ ?_
  · intro x v hv
    cases hv
  · intro vs l op vs' _ ih hok hstep
    rw [contents_concat]
    exact ih.step hok hstep

/-- Every value of a guarded run is a strictly increasing vector that
represents the set of its contents. -/
theorem refines_finset (h : Performs (vs, l)) (hx : vs x = some v) :
    (v.items.Pairwise fun a b => a.addr < b.addr) ∧
      (∀ e, v.contains e = true ↔ KeptSince l x e.addr) ∧
      (∀ e, v.contains e = true ↔ e.addr ∈ contents l x) ∧
      v.size = (contents l x).card ∧
      ∀ y w, vs y = some w → ∀ e,
        e ∈ (v.difference w).items ↔ e ∈ v.items ∧ w.contains e = false := by
  obtain ⟨hstrict, hkeys⟩ := h.agrees x v hx
  have hcontains : ∀ e, v.contains e = true ↔ e.addr ∈ contents l x := by
    intro e
    rw [← hkeys]
    exact SortedVec.contains_iff_mem_keys
  refine ⟨hstrict, fun e => ?_, hcontains, ?_, fun y w _ e => ?_⟩
  · rw [hcontains, mem_contents_iff]
  · rw [← hkeys, hstrict.card_keys]
  · rw [hstrict.mem_difference, SortedVec.contains_eq_false_iff,
      SortedVec.mem_keys]
    simp

/-- `pn_set` (0) holds two sessions, `new_pn_set` (1) the later one and one that
is removed again; `supplanted` is 2. -/
def supplanting : SetValues Nat × List (SetOp Nat) :=
  (run (checkedStep (recorded step fun _ op => [op]) fun q a => Guarded q.1 a)
    (noValues, [])
    [.make 0, .add 0 ⟨0, 80⟩, .add 0 ⟨1, 16⟩, .make 1, .add 1 ⟨1, 16⟩,
      .add 1 ⟨2, 48⟩, .remove 1 ⟨2, 48⟩, .minus 2 0 1, .move 0 1]).get
    (by decide)

theorem refines_finset_supplanting :
    ∃ v, supplanting.1 2 = some v ∧ v.items = [⟨0, 80⟩] ∧
      (∀ e, v.contains e = true ↔ KeptSince supplanting.2 2 e.addr) ∧
      v.size = (contents supplanting.2 2).card := by
  have hrun : Performs supplanting := reaches_get _
  have hv : supplanting.1 2 = some ⟨[⟨0, 80⟩], by simp⟩ := rfl
  have h := refines_finset
    (show Performs (supplanting.1, supplanting.2) from hrun) hv
  exact ⟨_, hv, rfl, h.2.1, h.2.2.2.1⟩

end SetOp

end CntPeer
