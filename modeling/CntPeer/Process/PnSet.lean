import CntPeer.Process.Seats
import CntPeer.Session.Preferred
import CntPeer.Session.SnRefSet

/-!
# `pn_set` and the byte counts in the program

`tryPreempt`, `relinquish` and `pnAlgorithm` edit `pn_set` by guarded
operations, so a guarded run accounts for the `pn_set` of every reachable state.
What `pnAlgorithm` compares is what arrived since the timer last ticked.
-/

namespace CntPeer

open CntPeer.Foundation

inductive SetVar where
  | pnSet
  | newPnSet
  | supplanted
  deriving DecidableEq

namespace SetOp

variable {ι : Type*} [DecidableEq ι] {vs vs' : SetValues ι}
  {l : List (SetOp ι)} {op : SetOp ι} {x : ι} {v : SnRefSet}

theorem Performs.concat (h : Performs (vs, l)) (hok : Guarded vs op)
    (hstep : step vs op = some vs') : Performs (vs', l ++ [op]) :=
  .tail h hok (recorded_eq_some.mpr ⟨hstep, rfl⟩)

theorem Performs.make (h : Performs (vs, l)) (x : ι) :
    Performs (Function.update vs x (some SortedVec.empty), l ++ [.make x]) :=
  h.concat trivial rfl

theorem Performs.add (h : Performs (vs, l)) (hx : vs x = some v) {e : Sn}
    (hout : v.contains e = false) :
    Performs (Function.update vs x (some (v.add e)), l ++ [.add x e]) := by
  refine h.concat ?_ (by simp [step, hx])
  intro w hw
  rw [hx] at hw
  cases hw
  exact hout

theorem Performs.remove (h : Performs (vs, l)) (hx : vs x = some v) {e : Sn}
    (hin : v.contains e = true) :
    Performs (Function.update vs x (some (v.remove e)), l ++ [.remove x e]) := by
  refine h.concat ?_ (by simp [step, hx])
  intro w hw
  rw [hx] at hw
  cases hw
  exact hin

theorem Performs.minus (h : Performs (vs, l)) {a b : ι} {w : SnRefSet}
    (ha : vs a = some v) (hb : vs b = some w) (x : ι) :
    Performs (Function.update vs x (some (v.difference w)),
      l ++ [.minus x a b]) :=
  h.concat trivial (by simp [step, ha, hb])

theorem Performs.move (h : Performs (vs, l)) {a : ι} (ha : vs a = some v)
    (x : ι) :
    Performs (Function.update (Function.update vs x (some v)) a none,
      l ++ [.move x a]) :=
  h.concat trivial (by simp [step, ha])

theorem Performs.addAll {es : List Sn} (hdistinct : (es.map Sn.addr).Nodup) :
    ∀ {vs : SetValues ι} {l : List (SetOp ι)} {v : SnRefSet},
      Performs (vs, l) → vs x = some v → (∀ e ∈ es, v.contains e = false) →
        ∃ l', Performs (Function.update vs x (some (v.addAll es)), l') := by
  induction es with
  | nil =>
      intro vs l v h hx _
      refine ⟨l, ?_⟩
      have hsame : Function.update vs x (some (v.addAll [])) = vs := by
        rw [SortedVec.addAll, List.foldl_nil, ← hx]
        exact Function.update_eq_self x vs
      rwa [hsame]
  | cons e es ih =>
      intro vs l v h hx hout
      obtain ⟨hnew, hdistinct⟩ := List.nodup_cons.mp hdistinct
      have hadd := h.add hx (hout e List.mem_cons_self)
      have hrest : ∀ e' ∈ es, (v.add e).contains e' = false := by
        intro e' he'
        have hold := hout e' (List.mem_cons_of_mem e he')
        rw [SortedVec.contains_eq_false_iff] at hold ⊢
        rw [SortedVec.keys_add, Finset.mem_insert]
        rintro (haddr | hmem)
        · exact hnew (haddr ▸ List.mem_map_of_mem he')
        · exact hold hmem
      obtain ⟨l', hl'⟩ := ih hdistinct hadd (Function.update_self ..) hrest
      rw [Function.update_idem] at hl'
      exact ⟨l', hl'⟩

end SetOp

namespace Proc

open SessionCollection SetOp

variable {p p' : Proc} {cfg : Config} {s : Sid}

def Guardable (v : SnRefSet) : Prop :=
  ∃ vs l, Performs (ι := SetVar) (vs, l) ∧ vs .pnSet = some v

theorem guardable_empty : Guardable SortedVec.empty :=
  ⟨_, _, Performs.make .start .pnSet, Function.update_self ..⟩

theorem guardable_preempts {sc sc' : SessionCollection} {v : Sid → Session}
    {e : Sn} {posts : Posts} (h : Guardable sc.pnSet)
    (htaken : Preempts sc v e sc' posts) : Guardable sc'.pnSet := by
  cases htaken with
  | keeps => exact h
  | opts out notOpt free => exact h
  | prefers out notOpt room =>
      obtain ⟨vs, l, hrun, hvs⟩ := h
      exact ⟨_, _, hrun.add hvs out, Function.update_self ..⟩

theorem guardable_relinquishes {sc sc' : SessionCollection}
    {v : Sid → Session} {e : Sn} {posts : Posts} (h : Guardable sc.pnSet)
    (hgiven : Relinquishes sc v e sc' posts) : Guardable sc'.pnSet := by
  cases hgiven with
  | keeps out notOpt => exact h
  | leavesOpt out isOpt => exact h
  | leavesPn inside =>
      obtain ⟨vs, l, hrun, hvs⟩ := h
      exact ⟨_, _, hrun.remove hvs inside, Function.update_self ..⟩

/-- `pnAlgorithm` fills `new_pn_set`, takes the difference and moves
`new_pn_set` to `pn_set`. -/
theorem guardable_newPnSet {sc : SessionCollection} {v : Sid → Session}
    {order : List Sn} (h : Guardable sc.pnSet)
    (haddrs : (order.map Sn.addr).Nodup) : Guardable (sc.newPnSet v order) := by
  obtain ⟨vs, l, hrun, hvs⟩ := h
  have hdistinct : ((sc.selected v order).map Sn.addr).Nodup :=
    haddrs.sublist
      ((List.filter_sublist.trans (List.take_sublist _ _)).map _)
  obtain ⟨l', hnew⟩ := Performs.addAll hdistinct (hrun.make .newPnSet)
    (Function.update_self ..) fun e _ => rfl
  rw [Function.update_idem] at hnew
  have hold : Function.update vs SetVar.newPnSet
      (some (sc.newPnSet v order)) .pnSet = some sc.pnSet := by
    rw [Function.update_of_ne (by decide)]
    exact hvs
  have hminus := hnew.minus hold (Function.update_self ..) .supplanted
  have hmoved := hminus.move (a := .newPnSet) (v := sc.newPnSet v order)
    rfl .pnSet
  exact ⟨_, _, hmoved, rfl⟩

theorem Lifecycle.guardable {a : Act} (h : Guardable p.sh.sc.pnSet)
    (hlife : Lifecycle p) (hstep : p.step a = some p') :
    Guardable p'.sh.sc.pnSet := by
  rcases slotBack_of_step hstep with ⟨s, act, rfl, hen, rfl⟩ | hb
  · have hslot := slotStep_sessionEffect hlife hen
    rw [commit_sh]
    generalize p.sessionEffect s act = e at hslot ⊢
    cases hslot with
    | still pnSet =>
        rw [pnSet]
        exact h
    | preempts stands goes taken => exact guardable_preempts h taken
    | relinquishes stands given => exact guardable_relinquishes h given
  · cases hb with
    | pnTick order perm live pnSet =>
        rw [pnSet]
        exact guardable_newPnSet h ((perm.map Sn.addr).nodup_iff.mpr hlife.addrs)
    | optTick rnd e drawn live pnSet =>
        rw [pnSet]
        exact h
    | still pnSet =>
        rw [pnSet]
        exact h

/-- In every reachable state `pn_set` is what a guarded run leaves there. -/
theorem pnSet_guardable (h : Reachable cfg p) : Guardable p.sh.sc.pnSet := by
  refine h.invariant (I := fun p => Guardable p.sh.sc.pnSet) guardable_empty ?_
  intro p a p' hr ih _ hstep
  exact (lifecycle_reachable hr).guardable ih hstep

section ByteCounts

theorem neo_withCollection {sh : Shared} {x : Session} {pc : Pc}
    {out : List Msg} {r : Except Panic (SessionCollection × Posts)}
    (h : ∀ sc posts, r = .ok (sc, posts) → sc.neo = sh.sc.neo) :
    (withCollection sh x r pc out).sh.sc.neo = sh.sc.neo := by
  unfold withCollection
  split
  · rfl
  · exact h _ _ rfl

theorem neo_protocol {c : Choice} :
    (protocol p s c).sh.sc.neo = p.sh.sc.neo := by
  cases hpc : (p.sess s).pc with
  | handle e =>
      simp only [protocol, hpc]
      cases e
      all_goals
        simp only [handle]
        repeat' split
      all_goals rfl
  | preempt =>
      simp only [protocol, hpc]
      refine neo_withCollection fun sc posts h => ?_
      unfold tryPreempt at h
      repeat' split at h
      all_goals cases h
      all_goals rfl
  | relinquish | finalRelinquish =>
      simp only [protocol, hpc]
      refine neo_withCollection fun sc posts h => ?_
      unfold SessionCollection.relinquish at h
      repeat' split at h
      all_goals cases h
      all_goals rfl
  | bcastNext i rest =>
      obtain ⟨m, pc, -, hstep⟩ := protocol_bcastNext (c := c) hpc
      rw [hstep]
  | _ =>
      simp only [protocol, hpc, withDifference, drainStep, awaitStep]
      repeat' split
      all_goals rfl

theorem neo_sessionEffect {a : SessionAct} :
    (p.sessionEffect s a).sh.sc.neo = p.sh.sc.neo := by
  cases a with
  | thread c => exact neo_protocol
  | _ =>
      simp only [sessionEffect]
      repeat' split
      all_goals rfl

theorem neo_step {a : Act} (ha : ∀ order, a ≠ .pnTick order)
    (hstep : p.step a = some p') : p'.sh.sc.neo = p.sh.sc.neo := by
  obtain ⟨-, rfl⟩ := step_eq_some.mp hstep
  cases a with
  | session s act => exact neo_sessionEffect
  | pnTick order => exact absurd rfl (ha order)
  | optTick rnd =>
      simp only [next]
      cases h : p.sh.sc.optAlgorithm p.sess rnd with
      | none => rfl
      | some r =>
          unfold optAlgorithm at h
          repeat' split at h
          all_goals cases h
          all_goals rfl
  | cleanUp =>
      simp only [next]
      cases h : p.sh.sc.cleanUp with
      | error reason => rfl
      | ok sc =>
          unfold SessionCollection.cleanUp at h
          repeat' split at h
          all_goals cases h
          all_goals rfl
  | exit => rfl

theorem counts_pnTick {order : List Sn} (hrun : p'.sh.halt = none)
    (hstep : p.step (.pnTick order) = some p') :
    p'.sh.sc.neo = (p.sh.sc.updateByteCounts p.sess).neo ∧
      p'.sh.sc.old = (p.sh.sc.updateByteCounts p.sess).old := by
  obtain ⟨-, rfl⟩ := step_eq_some.mp hstep
  simp only [next] at hrun ⊢
  cases h : p.sh.sc.pnAlgorithm p.sess order with
  | none =>
      rw [h] at hrun
      cases hrun
  | some r =>
      unfold pnAlgorithm at h
      split at h
      · cases h
        exact ⟨rfl, rfl⟩
      · cases h

/-- Between two ticks, what a session is ranked by is what it received. -/
theorem delta_between_ticks {p₁ p₂ p₃ : Proc} {order order' : List Sn} {e : Sn}
    (hfirst : p.step (.pnTick order) = some p₁)
    (hbetween : Reaches step (fun _ a => ∀ order, a ≠ .pnTick order) p₁ p₂)
    (hsecond : p₂.step (.pnTick order') = some p₃) (hrun : p₃.sh.halt = none)
    (he : e ∈ p.sh.sc.ss) (he₂ : e ∈ p₂.sh.sc.ss) :
    p₃.sh.sc.delta e =
      ((p₂.sess e.s).recvBcnt : Int) - (p.sess e.s).recvBcnt := by
  have hneo₂ : p₂.sh.sc.neo = p₁.sh.sc.neo :=
    hbetween.invariant (I := fun q => q.sh.sc.neo = p₁.sh.sc.neo) rfl
      fun _ _ _ _ ih ha hstep => (neo_step ha hstep).trans ih
  have hrun₁ : p₁.sh.halt = none := by
    rcases hbetween.invariant (I := fun q => q = p₁ ∨ p₁.sh.halt = none)
      (.inl rfl) (fun q _ _ _ ih _ hstep =>
        .inr (ih.elim (fun heq => heq ▸ (step_cases hstep).1) id)) with rfl | h
    · exact (step_cases hsecond).1
    · exact h
  obtain ⟨hneo₁, -⟩ := counts_pnTick hrun₁ hfirst
  obtain ⟨hneo₃, hold₃⟩ := counts_pnTick hrun hsecond
  have hlive := List.mem_map_of_mem (f := Sn.s) he
  have hlive₂ := List.mem_map_of_mem (f := Sn.s) he₂
  rw [delta, hneo₃, hold₃]
  simp only [updateByteCounts, if_pos hlive₂, hneo₂, hneo₁, if_pos hlive]

end ByteCounts

end Proc

end CntPeer
