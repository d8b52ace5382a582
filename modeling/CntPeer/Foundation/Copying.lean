import Mathlib.Data.Set.Basic
import CntPeer.Foundation.Transition

/-!
# Copying over links

Agents hold items, and an agent comes by an item only by copying it from one
that is linked to it.  Whatever the order of the copies, every item has a way
back to an agent that held it at the start.
-/

namespace CntPeer.Foundation

variable {Agent Item : Type*}

abbrev Holdings (Agent Item : Type*) := Agent → Set Item

structure Copy (Agent Item : Type*) where
  source : Agent
  target : Agent
  item : Item

def Holdings.add (h : Holdings Agent Item) (c : Copy Agent Item) :
    Holdings Agent Item :=
  fun a => { x | x ∈ h a ∨ a = c.target ∧ x = c.item }

open Classical in
noncomputable def copyStep (link : Agent → Agent → Prop)
    (h : Holdings Agent Item) (c : Copy Agent Item) :
    Option (Holdings Agent Item) :=
  if link c.source c.target ∧ c.item ∈ h c.source then some (h.add c) else none

def Passed (link : Agent → Agent → Prop) (h : Holdings Agent Item) (x : Item)
    (a b : Agent) : Prop :=
  link a b ∧ x ∈ h a ∧ x ∈ h b

variable {link : Agent → Agent → Prop} {start h h' : Holdings Agent Item}
  {c : Copy Agent Item} {x : Item} {a b : Agent}

theorem mem_add : x ∈ h.add c a ↔ x ∈ h a ∨ a = c.target ∧ x = c.item := .rfl

theorem copyStep_eq_some :
    copyStep link h c = some h' ↔
      (link c.source c.target ∧ c.item ∈ h c.source) ∧ h.add c = h' := by
  unfold copyStep
  split
  · rename_i hen
    simp [hen]
  · rename_i hen
    simp [hen]

theorem Passed.add (hway : Relation.ReflTransGen (Passed link h x) a b) :
    Relation.ReflTransGen (Passed link (h.add c) x) a b :=
  Relation.ReflTransGen.mono (fun _ _ hp => ⟨hp.1, .inl hp.2.1, .inl hp.2.2⟩) _ _
    hway

/-- Every item that is held has come, over agents that all hold it, from one
that held it at the start. -/
theorem traced_back (hrun : Reachable (copyStep link) start h) (hx : x ∈ h a) :
    ∃ o, x ∈ start o ∧ Relation.ReflTransGen (Passed link h x) o a := by
  induction hrun generalizing x a with
  | start => exact ⟨a, hx, .refl⟩
  | @tail h h' c hrun _ next ih =>
      obtain ⟨⟨hlink, hheld⟩, rfl⟩ := copyStep_eq_some.mp next
      rcases hx with hx | ⟨rfl, rfl⟩
      · obtain ⟨o, ho, hway⟩ := ih hx
        exact ⟨o, ho, Passed.add hway⟩
      · obtain ⟨o, ho, hway⟩ := ih hheld
        refine ⟨o, ho, .tail (Passed.add hway) ?_⟩
        exact ⟨hlink, .inl hheld, .inr ⟨rfl, rfl⟩⟩

end CntPeer.Foundation
