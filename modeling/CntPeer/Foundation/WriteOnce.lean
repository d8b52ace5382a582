import Mathlib.Logic.Function.Basic
import CntPeer.Foundation.Transition

/-!
# Cells that are written once

The sequential meaning of a store: a cell is empty until a value is put there,
and a cell that holds a value gives it to every reader.  A concurrent store is
linearizable when the returns of its calls, in their order, are a run of these
cells.
-/

namespace CntPeer.Foundation

variable {ι V : Type*}

inductive CellEvent (ι V : Type*) where
  | put (i : ι) (v : V)
  | get (i : ι) (v : V)
  deriving DecidableEq

variable [DecidableEq ι] [DecidableEq V]

def cellStep (m : ι → Option V) : CellEvent ι V → Option (ι → Option V)
  | .put i v => if m i = none then some (Function.update m i (some v)) else none
  | .get i v => if m i = some v then some m else none

variable {m m' : ι → Option V} {i j : ι} {v : V} {l : List (CellEvent ι V)}

theorem cellStep_put (h : m i = none) :
    cellStep m (.put i v) = some (Function.update m i (some v)) :=
  if_pos h

theorem cellStep_get (h : m i = some v) : cellStep m (.get i v) = some m :=
  if_pos h

theorem held_cellStep {e : CellEvent ι V} (h : m i = some v)
    (hstep : cellStep m e = some m') : m' i = some v := by
  cases e with
  | put j u =>
      simp only [cellStep] at hstep
      split at hstep
      · rename_i hj
        cases hstep
        rw [Function.update_of_ne, h]
        rintro rfl
        rw [h] at hj
        cases hj
      · contradiction
  | get j u =>
      simp only [cellStep] at hstep
      split at hstep
      · cases hstep
        exact h
      · contradiction

end CntPeer.Foundation
