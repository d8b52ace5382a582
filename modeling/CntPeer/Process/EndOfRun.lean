import CntPeer.Process.CleanUp

/-!
# The end of a run

`wait` tests the counter under `m_end`, which no other thread takes; `cleanUp`
decrements it and notifies under `m`.  A notification that falls between the test
and the start of blocking finds nobody.
-/

namespace CntPeer

open CntPeer.Foundation

/-- Where `main` stands in `wait`. -/
inductive WaitPc where
  | outside
  | test
  /-- holds `m_end`; the test has found sessions that are not finished -/
  | block
  | blocked
  /-- notified, or awake for no reason -/
  | woken
  | returned
  deriving DecidableEq

/-- Where the `cleanUp` thread stands; it holds `m` in the two middle places. -/
inductive CleanUpPc where
  | loop
  | notify
  | leave
  | left
  deriving DecidableEq

structure EndOfRun where
  proc : Proc
  main : WaitPc
  gc : CleanUpPc

inductive EndAct where
  /-- a step of the other threads, or a turn of `cleanUp` up to `notify_all` -/
  | proc (a : Act)
  | notifyAll
  | leave
  | enter
  | test
  | block
  | wake
  | relock

namespace EndOfRun

def start (cfg : Config) : EndOfRun := ⟨Proc.init cfg, .outside, .loop⟩

/-- The process as threads see it that want `m` while `cleanUp` has it. -/
def locked (p : Proc) : Proc :=
  { p with sh := { p.sh with sc := { p.sh.sc with m := some 0 } } }

def procStep (x : EndOfRun) : Act → Option EndOfRun
  | .cleanUp =>
      if x.gc = .loop then
        (x.proc.step .cleanUp).map fun p =>
          { x with proc := p, gc := if p.sh.sc.gcDone then .notify else .loop }
      else none
  | .exit => none
  | a =>
      if (x.gc = .notify ∨ x.gc = .leave) ∧ !(locked x.proc).enabled a then none
      else (x.proc.step a).map fun p => { x with proc := p }

def condStep (x : EndOfRun) : EndAct → Option EndOfRun
  | .proc _ => none
  | .notifyAll =>
      if x.gc = .notify then
        some { x with gc := .leave, main := if x.main = .blocked then .woken else x.main }
      else none
  | .leave => if x.gc = .leave then some { x with gc := .left } else none
  | .enter => if x.main = .outside then some { x with main := .test } else none
  | .test =>
      if x.main = .test then
        if x.proc.sh.sc.nUnfinishedSession = 0 then
          (x.proc.step .exit).map fun p => { x with proc := p, main := .returned }
        else some { x with main := .block }
      else none
  | .block => if x.main = .block then some { x with main := .blocked } else none
  | .wake => if x.main = .blocked then some { x with main := .woken } else none
  | .relock => if x.main = .woken then some { x with main := .test } else none

/-- Nothing runs once the process has stopped. -/
def step (x : EndOfRun) : EndAct → Option EndOfRun
  | .proc a => x.procStep a
  | a => if x.proc.sh.halt = none then x.condStep a else none

/-- The last session is cleaned up, and nothing is left that would wake `main`. -/
def Lost (x : EndOfRun) : Prop :=
  x.proc.sh.sc.nUnfinishedSession = 0 ∧ x.gc = .left ∧ x.main = .blocked

/-- `notify_all` does not fall between the test of `main` and its blocking. -/
def Timely (x : EndOfRun) : EndAct → Prop
  | .notifyAll => x.main ≠ .block
  | _ => True

inductive Moves (x : EndOfRun) : EndAct → EndOfRun → Prop
  | proc (b : Act) (p : Proc) (other : b ≠ .cleanUp) (next : x.proc.step b = some p) :
      Moves x (.proc b) { x with proc := p }
  | cleanUp (p : Proc) (stands : x.gc = .loop) (next : x.proc.step .cleanUp = some p) :
      Moves x (.proc .cleanUp)
        { x with proc := p, gc := if p.sh.sc.gcDone then .notify else .loop }
  | notifyAll (stands : x.gc = .notify) :
      Moves x .notifyAll
        { x with gc := .leave, main := if x.main = .blocked then .woken else x.main }
  | leave (stands : x.gc = .leave) : Moves x .leave { x with gc := .left }
  | returns (p : Proc) (next : x.proc.step .exit = some p) :
      Moves x .test { x with proc := p, main := .returned }
  | waits (unfinished : x.proc.sh.sc.nUnfinishedSession ≠ 0) :
      Moves x .test { x with main := .block }
  | blocks (stands : x.main = .block) : Moves x .block { x with main := .blocked }
  | awake (a : EndAct) (main : WaitPc) (goes : main = .test ∨ main = .woken) :
      Moves x a { x with main := main }

variable {cfg : Config} {x x' : EndOfRun} {a : EndAct}

theorem moves_procStep {b : Act} (h : x.procStep b = some x') : Moves x (.proc b) x' := by
  unfold procStep at h
  split at h
  · split at h
    · obtain ⟨p, hp, rfl⟩ := Option.map_eq_some_iff.mp h
      exact .cleanUp p ‹_› hp
    · contradiction
  · contradiction
  · rename_i hcleanUp hexit
    split at h
    · contradiction
    · obtain ⟨p, hp, rfl⟩ := Option.map_eq_some_iff.mp h
      exact .proc b p hcleanUp hp

theorem moves_condStep (h : x.condStep a = some x') : Moves x a x' := by
  cases a with
  | proc b => cases h
  | test =>
      rw [condStep] at h
      split at h
      · split at h
        · obtain ⟨p, hp, rfl⟩ := Option.map_eq_some_iff.mp h
          exact .returns p hp
        · cases h
          exact .waits ‹_›
      · contradiction
  | _ =>
      rw [condStep] at h
      split at h
      · cases h
        first
          | exact .notifyAll ‹_›
          | exact .leave ‹_›
          | exact .blocks ‹_›
          | exact .awake _ _ (.inl rfl)
          | exact .awake _ _ (.inr rfl)
      · contradiction

theorem moves (h : x.step a = some x') : Moves x a x' := by
  unfold step at h
  split at h
  · exact moves_procStep h
  · split at h
    · exact moves_condStep h
    · contradiction

theorem proc_reachable {ok : EndOfRun → EndAct → Prop}
    (h : Reaches step ok (start cfg) x) : Proc.Reachable cfg x.proc := by
  refine h.invariant (I := fun x => Proc.Reachable cfg x.proc) .start ?_
  intro x a x' _ hx _ hstep
  cases moves hstep with
  | proc b p other next => exact hx.tail trivial next
  | cleanUp p stands next => exact hx.tail trivial next
  | returns p next => exact hx.tail trivial next
  | _ => exact hx

theorem unfinished_of_ne {p p' : Proc} {b : Act} (hlife : Proc.Lifecycle p)
    (h : p.step b = some p') (hb : b ≠ .cleanUp) :
    p'.sh.sc.nUnfinishedSession = p.sh.sc.nUnfinishedSession := by
  have hnone : (p.lifeEvents b).countP LifeEvent.isErased = 0 := by
    cases b with
    | cleanUp => exact (hb rfl).elim
    | session s act =>
        cases act with
        | thread c =>
            rw [Proc.lifeEvents]
            split <;> rfl
        | _ => rfl
    | _ => rfl
  rw [(Proc.lifeChange hlife h).totals.1, hnone]
  exact Int.sub_zero _

theorem zero_of_gcDone {p p' : Proc} (h : p.step .cleanUp = some p')
    (hdone : p'.sh.sc.gcDone = true) : p'.sh.sc.nUnfinishedSession = 0 := by
  obtain ⟨hen, rfl⟩ := Proc.step_eq_some.mp h
  simp only [Proc.enabled, Bool.and_eq_true, Bool.not_eq_true'] at hen
  rw [Proc.next, SessionCollection.cleanUp] at hdone ⊢
  split at hdone
  · rename_i hgc
    simp [hgc] at hen
  · split at hdone
    · change p.sh.sc.gcDone = true at hdone
      rw [hen.2.2] at hdone
      cases hdone
    · exact (of_decide_eq_true hdone).2

theorem zero_reaches {ok : EndOfRun → EndAct → Prop}
    (h : Reaches step ok (start cfg) x) :
    x.gc ≠ .loop → x.proc.sh.sc.nUnfinishedSession = 0 := by
  refine h.invariant
    (I := fun x => x.gc ≠ .loop → x.proc.sh.sc.nUnfinishedSession = 0)
    (fun hgc => (hgc rfl).elim) ?_
  intro x a x' hreach hx _ hstep
  have hlife := Proc.lifecycle_reachable (proc_reachable hreach)
  cases moves hstep with
  | proc b p other next =>
      intro hgc
      exact (unfinished_of_ne hlife next other).trans (hx hgc)
  | cleanUp p stands next =>
      intro hgc
      refine zero_of_gcDone next (Bool.of_not_eq_false fun hdone => ?_)
      dsimp only at hgc
      rw [hdone] at hgc
      exact hgc rfl
  | notifyAll stands => exact fun _ => hx (by rw [stands]; decide)
  | leave stands => exact fun _ => hx (by rw [stands]; decide)
  | returns p next =>
      intro hgc
      exact (unfinished_of_ne hlife next nofun).trans (hx hgc)
  | _ => exact hx

theorem awake_reaches (h : Reaches step Timely (start cfg) x) :
    x.gc = .leave ∨ x.gc = .left → x.main ≠ .block ∧ x.main ≠ .blocked := by
  refine h.invariant
    (I := fun x => x.gc = .leave ∨ x.gc = .left → x.main ≠ .block ∧ x.main ≠ .blocked)
    (fun hgc => by rcases hgc with hgc | hgc <;> cases hgc) ?_
  intro x a x' hreach hx hok hstep
  cases moves hstep with
  | proc b p other next => exact hx
  | cleanUp p stands next =>
      intro hgc
      dsimp only at hgc
      split at hgc <;> simp at hgc
  | notifyAll stands =>
      intro _
      dsimp only
      split
      · exact ⟨nofun, nofun⟩
      · exact ⟨hok, ‹_›⟩
  | leave stands => exact fun _ => hx (.inl stands)
  | returns p next => exact fun _ => ⟨nofun, nofun⟩
  | waits unfinished =>
      intro hgc
      refine (unfinished (zero_reaches hreach fun hloop => ?_)).elim
      rw [hloop] at hgc
      rcases hgc with hgc | hgc <;> cases hgc
  | blocks stands => exact fun hgc => ((hx hgc).1 stands).elim
  | awake a main goes =>
      intro _
      rcases goes with rfl | rfl <;> exact ⟨nofun, nofun⟩

theorem lost_of_not_timely (h : Reachable step (start cfg) x)
    (hstep : x.step a = some x') (hearly : ¬ Timely x a) :
    ∃ y, run step x' [.leave, .block] = some y ∧ Lost y := by
  cases a with
  | notifyAll =>
      have hblock : x.main = .block := not_not.mp hearly
      simp only [step] at hstep
      split at hstep
      · rename_i hhalt
        rw [condStep] at hstep
        split at hstep
        · rename_i hnotify
          cases hstep
          rw [hblock, if_neg nofun]
          have hzero := zero_reaches h (by rw [hnotify]; decide)
          refine ⟨{ x with gc := .left, main := .blocked }, ?_, hzero, rfl, rfl⟩
          simp [run, step, condStep, hhalt]
        · contradiction
      · contradiction
  | _ => exact (hearly trivial).elim

/--
In runs whose notifications are timely the wake-up of `main` is not lost, and a
notification that is not timely is lost.
-/
theorem wakeUp_kept (cfg : Config) :
    (∀ x, Reaches step Timely (start cfg) x → ¬ Lost x) ∧
      ∀ x a x', Reachable step (start cfg) x → x.step a = some x' → ¬ Timely x a →
        ∃ y, run step x' [.leave, .block] = some y ∧ Lost y := by
  refine ⟨fun x h hlost => ?_, fun x a x' h hstep hearly =>
    lost_of_not_timely h hstep hearly⟩
  obtain ⟨-, hleft, hblocked⟩ := hlost
  exact (awake_reaches h (.inr hleft)).2 hblocked

instance (x : EndOfRun) : Decidable (Lost x) := inferInstanceAs (Decidable (_ ∧ _ ∧ _))

def lastSession : List EndAct :=
  ((Proc.setupRun 0 [.owned] ++ Proc.threadSteps 0 3 ++
      Proc.receive 0 .tearDownMsg 3).map .proc) ++ [.enter, .test]

example :
    (run step (start Proc.lone) (lastSession ++
      [.block, .proc .cleanUp, .notifyAll, .relock, .test])).map main = some .returned := by
  decide

/-- `main` blocks when `cleanUp` is through. -/
theorem wakeUp_lost : ∃ x, Reachable step (start Proc.lone) x ∧ Lost x := by
  refine ⟨(run step (start Proc.lone) (lastSession ++
    [.proc .cleanUp, .notifyAll, .leave, .block])).get (by decide), reachable_get _, ?_⟩
  decide

end EndOfRun

end CntPeer
