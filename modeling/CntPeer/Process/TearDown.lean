import CntPeer.Process.Announce
import CntPeer.Process.Channel

/-!
# The end of a session

A session is done once both sides own everything, and stays so.  Before it
writes `TearDown` it drains its queue, which catches every announcement that has
been broadcast by then.
-/

namespace CntPeer

open CntPeer.Foundation

theorem OwnStep.owningAll {sh : Shared} {s : Sid} {x : Session}
    {own' : SyncPieceBitfield Sid} {pc' : Pc}
    (h : OwnStep sh.own s x.pc own' pc') (hl : OwnLocal sh s x)
    (hc : sh.own.Counted) (hc' : own'.Counted)
    (hall : sh.own.owningAll = true) : own'.owningAll = true := by
  have hset := hc.owningAll_iff.mp hall
  have hlen := (h.advances hl).length
  refine hc'.owningAll_iff.mpr fun i hi => ?_
  have hi' := hset i (hlen ▸ hi)
  cases h with
  | same stays heq =>
      rw [heq]
      exact hi'
  | requested j stands free heq =>
      -- nothing is absent any more
      simp only [OwnLocal, stands] at hl
      have hj := hset j (List.getElem?_eq_some_iff.mp hl.2).1
      simp only [SyncPieceBitfield.settled, free] at hj
      rw [hj] at hl
      cases hl.2
  | counted j stands goes free hj heq =>
      subst own'
      simp only [SyncPieceBitfield.settled, free] at hi'
      simp only [SyncPieceBitfield.settled, SyncPieceBitfield.countOwned,
        List.getElem?_set]
      split
      · simp
      · exact hi'
  | marked j stands heq =>
      subst own'
      simp only [OwnLocal, stands] at hl
      simp only [SyncPieceBitfield.settled, hl.1] at hi'
      exact hi'

theorem PieceBitfield.owningAll_setOwned {b : PieceBitfield} (i : Nat)
    (h : b.owningAll = true) : (b.setOwned i).owningAll = true := by
  rw [owningAll_iff] at h ⊢
  intro j hj
  rw [length_setOwned] at hj
  simp only [setOwned, List.getElem?_set]
  split
  · simp_all
  · exact h j hj

namespace Proc

variable {p p' : Proc} {s t : Sid}

theorem peerAll_protocol {c : Choice} (h : (p.sess s).peerAll = true) :
    (protocol p s c).after.peerAll = true := by
  unfold Session.peerAll at h ⊢
  rcases peerOwn_protocol (p := p) (s := s) (c := c) with heq | ⟨i, -, -, -, heq⟩
  · rwa [heq]
  · rw [heq]
    cases hb : (p.sess s).peerOwn with
    | none => simp [hb] at h
    | some b =>
        rw [hb] at h
        exact PieceBitfield.owningAll_setOwned i.toNat h

def DoneAgrees (p : Proc) : Prop :=
  ∀ s, (p.sess s).isDone = true →
    p.sh.own.owningAll = true ∧ (p.sess s).peerAll = true

theorem doneAgrees_sessionEffect {a : SessionAct}
    (hd : (p.sess s).isDone = true →
      p.sh.own.owningAll = true ∧ (p.sess s).peerAll = true)
    (h : (p.sessionEffect s a).after.isDone = true) :
    p.sh.own.owningAll = true ∧ (p.sessionEffect s a).after.peerAll = true := by
  cases a with
  | thread c =>
      rcases isDone_protocol h with hold | ⟨hown, hpeer, -⟩
      · exact ⟨(hd hold).1, peerAll_protocol (hd hold).2⟩
      · exact ⟨hown, hpeer⟩
  | recvBitfield m =>
      simp only [sessionEffect] at h ⊢
      cases m with
      | bitfieldMsg sv =>
          simp only [Effect.after, Bool.and_eq_true] at h
          exact ⟨h.2, h.1⟩
      | _ => exact hd h
  | scan m =>
      simp only [sessionEffect] at h ⊢
      split at h
      all_goals exact hd h
  | recvHandshake peerId =>
      have hkeep : (p.sessionEffect s (.recvHandshake peerId)).after.isDone =
          (p.sess s).isDone ∧
          (p.sessionEffect s (.recvHandshake peerId)).after.peerAll =
            (p.sess s).peerAll := by
        simp only [sessionEffect]
        split
        all_goals exact ⟨rfl, rfl⟩
      rw [hkeep.1] at h
      rw [hkeep.2]
      exact hd h
  | _ => exact hd h

theorem DoneAgrees.step {n : Nat} {a : Act} (h : DoneAgrees p)
    (hn : Owning n p) (hn' : Owning n p') (hstep : p.step a = some p') :
    DoneAgrees p' := by
  obtain ⟨-, ⟨s, act, -, hen, rfl⟩ | hb⟩ := step_cases hstep
  · have hown : p.sh.own.owningAll = true →
        (p.sessionEffect s act).sh.own.owningAll = true :=
      (sessionEffect_own hen).owningAll (hn.locals s) hn.counted hn'.counted
    intro t ht
    rw [commit_sh]
    by_cases hts : t = s
    · subst t
      rw [commit_self] at ht ⊢
      obtain ⟨hall, hpeer⟩ := doneAgrees_sessionEffect (h s) ht
      exact ⟨hown hall, hpeer⟩
    · rw [commit_of_ne hts] at ht ⊢
      exact ⟨hown (h t ht).1, (h t ht).2⟩
  · intro t ht
    obtain ⟨es, -, hes⟩ := hb.sess t
    rw [hes] at ht ⊢
    rw [hb.own]
    exact h t ht

theorem doneAgrees_reachable {cfg : Config} (h : Reachable cfg p) :
    DoneAgrees p :=
  h.invariant (fun _ hdone => nomatch hdone) fun _ _ _ hr ih _ hstep =>
    ih.step (owning_reachable hr) ((owning_reachable hr).step hstep) hstep

theorem sendTearDown_from {c : Choice} {received : Bool}
    (h : (protocol p s c).after.pc = .sendTearDown received) :
    (p.sess s).pc = .drain ∧ ((p.sess s).eq = [] ∨
      .actual .tearDownMsg ∈ (protocol p s c).after.handled) := by
  cases hpc : (p.sess s).pc with
  | drain =>
      refine ⟨rfl, ?_⟩
      simp only [protocol, hpc, drainStep] at h ⊢
      repeat' split at h
      · exact .inl ‹_›
      · cases h
      · right
        simp [Effect.after, Session.goto, discard, Event.msg?]
      · simp [Effect.after, discard, hpc] at h
  | handle e =>
      have := stage_handle p.sh (p.sess s) e hpc
      simp only [protocol, hpc] at h
      rw [h] at this
      exact absurd this (by simp [Pc.stage])
  | bcastNext j rest =>
      obtain ⟨m, pc, hturn, hstep⟩ := protocol_bcastNext (c := c) hpc
      rw [hstep] at h
      cases hturn
      all_goals contradiction
  | sendTearDown received =>
      cases received
      all_goals
        simp only [protocol, hpc] at h
        contradiction
  | _ =>
      simp only [protocol, hpc, withDifference, withCollection,
        awaitStep] at h
      repeat' split at h
      all_goals first
        | contradiction
        | simp [Effect.after, panicEffect, discard, hpc] at h

/-- The piece whose `setOwned`, or whose broadcast over session `s`, a thread at
this place has begun and not finished. -/
def settlingPiece (s : Sid) : Pc → Option Nat
  | .markOwned i | .bcastLock i => some i
  | .bcastNext i rest => if s ∈ rest then some i else none
  | .bcastEnq i t rest | .bcastWait i t rest =>
      if s = t ∨ s ∈ rest then some i else none
  | _ => none

theorem settlingPiece_of_passing {pc : Pc} {i : Nat} (h : Passing pc s i) :
    settlingPiece s pc = some i := by
  cases pc <;> simp_all [Passing, settlingPiece]

/-- When the drain loop finds its queue empty, no thread is between the counter
of `setOwned` and the end of its broadcast over the session, for a piece that
the session has not announced. -/
def DrainsSettled (p : Proc) : Act → Prop
  | .session s (.thread _) => (p.sess s).pc = .drain → (p.sess s).eq = [] →
      ∀ e ∈ p.sh.sc.ss, ∀ i ∈ settlingPiece s (p.sess e.s).pc,
        Announced (p.sess s) i
  | _ => True

instance (x : Session) (i : Nat) : Decidable (Announced x i) :=
  decidable_of_iff ((x.bfMsg.any fun sv => decide (sv[i]? = some .owned)) = true ∨
    .actual (.haveMsg i) ∈ x.sent) (by simp [Announced, Option.any_eq_true])

instance (p : Proc) : (a : Act) → Decidable (DrainsSettled p a)
  | .session _ (.thread _) => inferInstanceAs (Decidable (_ → _))
  | .session _ (.create ..) | .session _ (.recvHandshake _)
  | .session _ (.recvBitfield _) | .session _ (.scan _)
  | .session _ (.readFails _) | .session _ (.received _)
  | .pnTick _ | .optTick _ | .cleanUp | .exit => .isTrue trivial

def ToldFirst (n : Nat) (p : Proc) : Prop :=
  ∀ s received, (p.sess s).pc = .sendTearDown received →
    .actual .tearDownMsg ∉ (p.sess s).handled →
    ∀ i, i < n → Announced (p.sess s) i

theorem drained {cfg : Config} {c : Choice} (hr : Reachable cfg p)
    (hlive : (p.sess s).pc = .drain) (heq : (p.sess s).eq = [])
    (hok : DrainsSettled p (.session s (.thread c))) {i : Nat}
    (hi : i < cfg.nPieces) : Announced (p.sess s) i := by
  have hown := owning_reachable hr
  have hph := phased_reachable hr
  have hlife := lifecycle_reachable hr
  have hsettling : ∀ u j, settlingPiece s (p.sess u).pc = some j →
      Announced (p.sess s) j := by
    intro u j hj
    refine hok hlive heq _ (hlife.live u ?_ ?_) j hj
    all_goals
      intro hpc
      rw [hpc] at hj
      cases hj
  have hall := (doneAgrees_reachable hr s
    ((hph s).teardown (by rw [hlive]; decide))).1
  have hset := hown.counted.owningAll_iff.mp hall i (hown.length ▸ hi)
  have howned : p.sh.own.sv[i]? = some .owned ∨ Announced (p.sess s) i := by
    unfold SyncPieceBitfield.settled at hset
    split at hset
    · exact .inl hset
    · rename_i u j hmutex
      by_cases hij : j = i
      · subst j
        refine .inr (hsettling u i ?_)
        rw [hown.mutex u i hmutex]
        rfl
      · rw [List.getElem?_set_ne hij] at hset
        exact .inl hset
  rcases howned with howned | ha
  swap
  · exact ha
  have hsnap := (hph s).bfMsg.mpr (by rw [hlive]; decide)
  rcases covered_reachable hr s hsnap (by rw [hlive]; decide) i howned
    with (ha | hq | hpc) | ⟨u, hu⟩
  · exact ha
  · simp [Session.events, hlive, heq] at hq
  · rw [hlive] at hpc
    contradiction
  · exact hsettling u i (settlingPiece_of_passing hu)

theorem ToldFirst.step {cfg : Config} {a : Act} (hr : Reachable cfg p)
    (h : ToldFirst cfg.nPieces p) (hok : DrainsSettled p a)
    (hstep : p.step a = some p') : ToldFirst cfg.nPieces p' := by
  have hph := phased_reachable hr
  intro s received hpc hnot i hi
  rcases sess_step hstep s with ⟨es, hes⟩ | ⟨act, rfl, hen, hes⟩
  · rw [hes] at hpc hnot ⊢
    exact h s received hpc hnot i hi
  · rw [hes, Session.enqAll_pc] at hpc
    rw [hes, Session.enqAll_handled] at hnot
    rw [hes, announced_enqAll]
    have hact := actCases hen
    generalize p.sessionEffect s act = e at hact hpc hnot
    cases hact with
    | thread c =>
        obtain ⟨hdrain, heq | hmem⟩ := sendTearDown_from hpc
        · exact announced_protocol (hph s) (drained hr hdrain heq hok hi)
        · exact absurd hmem hnot
    | setup stands goes =>
        rw [hpc] at goes
        exact absurd goes (by simp [Pc.stage])
    | idle after =>
        obtain ⟨n, heq⟩ := after
        rw [heq] at hpc hnot ⊢
        exact h s received hpc hnot i hi

theorem toldFirst_reaches {cfg : Config}
    (h : Reaches step DrainsSettled (init cfg) p) : ToldFirst cfg.nPieces p :=
  h.invariant (fun _ _ hpc => nomatch hpc) fun _ _ _ hr ih hok hstep =>
    ih.step hr.reachable hok hstep

def Told (x : Session) (i : Nat) : Prop := ∃ m ∈ x.sent, tells i m = true

theorem told_of_announced {cfg : Config} (hr : Reachable cfg p) {i : Nat}
    (hstage : 4 ≤ (p.sess s).pc.stage) (h : Announced (p.sess s) i) :
    Told (p.sess s) i := by
  rcases h with ⟨sv, hsv, hi⟩ | h
  · obtain ⟨sv', rest, hsv', hsent, -⟩ :=
      ((introduces_reachable hr).opening s).opened hstage
    cases hsv.symm.trans hsv'
    exact ⟨.actual (.bitfieldMsg sv), by rw [hsent]; simp, by simpa [tells]⟩
  · exact ⟨_, h, by simp [tells]⟩

def WritesTearDown (p p' : Proc) (s : Sid) : Prop :=
  .actual .tearDownMsg ∉ (p.sess s).sent ∧
    .actual .tearDownMsg ∈ (p'.sess s).sent

theorem WritesTearDown.stands {a : Act} (h : WritesTearDown p p' s)
    (hstep : p.step a = some p') :
    ∃ received, (p.sess s).pc = .sendTearDown received := by
  obtain ⟨hold, hnew⟩ := h
  rcases sess_step hstep s with ⟨es, hes⟩ | ⟨act, -, hen, hes⟩
  · rw [hes] at hnew
    exact absurd hnew hold
  · rw [hes, Session.enqAll_sent] at hnew
    have hact := actCases hen
    generalize p.sessionEffect s act = e at hact hnew
    cases hact with
    | thread c =>
        rw [sent_protocol] at hnew
        exact mayWrite_protocol _
          ((List.mem_append.mp hnew).resolve_left hold)
    | setup stands goes quiet keeps =>
        rw [keeps.sent] at hnew
        exact absurd hnew hold
    | idle after =>
        obtain ⟨n, heq⟩ := after
        rw [heq] at hnew
        exact absurd hnew hold

/--
In runs whose drains are settled, a session that writes `TearDown` to a peer
that has not sent one has announced every piece before.
-/
theorem tearDown_follows_announcements {cfg : Config} {a : Act}
    (h : Reaches step DrainsSettled (init cfg) p) (hstep : p.step a = some p')
    (hwrite : WritesTearDown p p' s)
    (hpeer : .actual .tearDownMsg ∉ (p.sess s).handled ++ (p.sess s).pending) :
    ∀ i, i < cfg.nPieces → Told (p.sess s) i := by
  intro i hi
  obtain ⟨received, hpc⟩ := hwrite.stands hstep
  have hnot : .actual .tearDownMsg ∉ (p.sess s).handled := fun hmem =>
    hpeer (List.mem_append_left _ hmem)
  exact told_of_announced h.reachable (by rw [hpc]; simp [Pc.stage])
    (toldFirst_reaches h s received hpc hnot i hi)

instance (x : Session) (i : Nat) : Decidable (Told x i) :=
  inferInstanceAs (Decidable (∃ m ∈ x.sent, tells i m = true))

instance (p p' : Proc) (s : Sid) : Decidable (WritesTearDown p p' s) :=
  inferInstanceAs (Decidable (_ ∧ _))

def settledRun : List Act :=
  lastPieceRun ++ threadSteps 0 7 ++ receive 1 (.haveMsg 0) 8

def settled : Proc :=
  (run (checkedStep step DrainsSettled) (init leech) settledRun).get (by decide)

def afterThread (p : Proc) : Proc := p.next (.session 1 (.thread {}))

theorem tearDown_follows_announcements_settled :
    WritesTearDown settled (afterThread settled) 1 ∧
      ∀ i, i < leech.nPieces → Told (settled.sess 1) i :=
  ⟨by decide,
    tearDown_follows_announcements (a := .session 1 (.thread {}))
      (reaches_get _) (step_eq_some.mpr ⟨by decide, rfl⟩) (by decide)
      (by decide)⟩

/-- The peer of session 1 reports the piece while session 0 stands inside
`setOwned`. -/
def overtakingRun : List Act :=
  lastPieceRun ++ receive 1 (.haveMsg 0) 4

def overtaking : Proc :=
  (run step (init leech) overtakingRun).get (by decide)

/-- Without the condition, `TearDown` can overtake an announcement. -/
theorem tearDown_overtakes :
    ¬ ∀ (cfg : Config) (p p' : Proc) (s : Sid) (a : Act), Reachable cfg p →
      p.step a = some p' → WritesTearDown p p' s →
      .actual .tearDownMsg ∉ (p.sess s).handled ++ (p.sess s).pending →
      ∀ i, i < cfg.nPieces → Told (p.sess s) i := by
  intro h
  have htold : Told (overtaking.sess 1) 0 :=
    h leech overtaking (afterThread overtaking) 1 (.session 1 (.thread {}))
      (reachable_get _) (step_eq_some.mpr ⟨by decide, rfl⟩) (by decide)
      (by decide) 0 (by decide)
  exact absurd htold (by decide)

end Proc

end CntPeer
