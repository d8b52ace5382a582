import CntPeer.Foundation.History
import CntPeer.Process.Announce

/-!
# Interest messages

A session does not cache whether it is interested.  A `NotInterested` that it
wrote stays true until it handles another HAVE; an `Interested` may become
stale, and then an announcement is pending that makes the session look again.
-/

namespace CntPeer

open CntPeer.Foundation

def Msg.isInterest : Msg → Bool
  | .actual .interestedMsg | .actual .notInterestedMsg => true
  | _ => false

def interestMsgs (l : List Msg) : List Msg := l.filter Msg.isInterest

def lastInterest (l : List Msg) : Option Msg := (interestMsgs l).getLast?

@[simp] theorem interestMsgs_append (a b : List Msg) :
    interestMsgs (a ++ b) = interestMsgs a ++ interestMsgs b :=
  List.filter_append ..

theorem lastInterest_append_nil {a b : List Msg} (h : interestMsgs b = []) :
    lastInterest (a ++ b) = lastInterest a :=
  last_append_nil h

theorem lastInterest_append_one {a b : List Msg} {m : Msg}
    (h : interestMsgs b = [m]) : lastInterest (a ++ b) = some m :=
  last_append_one h

def Pc.betweenEvents : Pc → Bool
  | .loop | .drain | .sendTearDown _ | .awaitTearDown | .finalRelinquish
  | .notify | .ended => true
  | _ => false

def interestMsg (is : List Nat) : Msg :=
  .actual (if is.isEmpty then .notInterestedMsg else .interestedMsg)

inductive InterestStep (own : SyncPieceBitfield Sid) (x : Session)
    (e : Effect) : Prop
  | kept (out : interestMsgs e.out = []) (peer : e.after.peerSv = x.peerSv)
      (late : 7 ≤ e.after.pc.stage → 7 ≤ x.pc.stage)
      (comes : e.after.pc = .haveInterest ↔ x.pc = .haveInterest)
      (leaves : x.pc = .bcastInterest → e.after.pc = .bcastInterest)
  | looked (is : List Nat)
      (diff : difference x.peerSv own.sv = some is)
      (peer : e.after.peerSv = x.peerSv) (own : e.sh.own = own)
      (goes : e.after.pc ≠ .haveInterest) (late : 7 ≤ e.after.pc.stage)
      (out : interestMsgs e.out = [interestMsg is] ∨
        interestMsgs e.out = [] ∧ (is = [] ↔ x.pc = .haveInterest))
  | heard (i : Nat) (stands : x.pc = .handle (.msgHave i))
      (out : interestMsgs e.out = [])
      (peer : e.after.peerSv = x.peerSv.set i .owned)
      (goes : e.after.pc = .haveInterest ∨ own.owningAll = true)

namespace Proc

variable {p p' : Proc} {s t : Sid}

theorem interestStep_handle {sh : Shared} {x : Session} {e : Event}
    (hpc : x.pc = .handle e) : InterestStep sh.own x (handle sh x e) := by
  cases e with
  | msgHave i =>
      simp only [handle]
      split
      · rename_i hi
        simp only [checkRange, Bool.and_eq_true, decide_eq_true_eq] at hi
        have hcast : ((i.toNat : Nat) : Int) = i := Int.toNat_of_nonneg hi.1
        split
        · rename_i hall
          rw [Bool.and_eq_true] at hall
          exact .heard i.toNat (by rw [hpc, hcast]) rfl
            (peerSv_setOwned rfl) (.inr hall.1)
        · exact .heard i.toNat (by rw [hpc, hcast]) rfl
            (peerSv_setOwned rfl) (.inl rfl)
      · refine .kept rfl rfl ?_ ?_ ?_
        all_goals simp [Effect.after, panicEffect, hpc]
  | _ =>
      simp only [handle]
      repeat' split
      all_goals refine .kept rfl rfl ?_ ?_ ?_
      all_goals simp [Effect.after, panicEffect, Session.goto, hpc, Pc.stage]

theorem interestStep_looking {sh : Shared} {x : Session}
    {k : List Nat → Effect}
    (hk : ∀ is, difference x.peerSv sh.own.sv = some is →
      InterestStep sh.own x (k is)) :
    InterestStep sh.own x (withDifference sh x k) := by
  unfold withDifference
  split
  · exact .kept rfl rfl id Iff.rfl id
  · exact hk _ ‹_›

theorem interestStep_protocol {c : Choice} :
    InterestStep p.sh.own (p.sess s) (protocol p s c) := by
  cases hpc : (p.sess s).pc with
  | handle e =>
      simp only [protocol, hpc]
      exact interestStep_handle hpc
  | sendInterest =>
      simp only [protocol, hpc]
      refine interestStep_looking fun is hdiff => ?_
      refine .looked is hdiff rfl rfl (by simp [Effect.after])
        (by simp [Effect.after, Pc.stage]) (.inl ?_)
      cases is <;> rfl
  | bcastInterest | drainInterest =>
      simp only [protocol, hpc]
      refine interestStep_looking fun is hdiff => ?_
      refine .looked is hdiff rfl rfl
        (by simp [Effect.after, Session.goto])
        (by simp [Effect.after, Session.goto, Pc.stage]) ?_
      cases is with
      | nil => exact .inl rfl
      | cons i is => exact .inr ⟨rfl, by simp [hpc]⟩
  | haveInterest =>
      simp only [protocol, hpc]
      refine interestStep_looking fun is hdiff => ?_
      refine .looked is hdiff rfl rfl
        (by simp [Effect.after, Session.goto])
        (by simp [Effect.after, Session.goto, Pc.stage]) ?_
      cases is with
      | nil => exact .inr ⟨rfl, by simp [hpc]⟩
      | cons i is => exact .inl rfl
  | markReady =>
      simp only [protocol, hpc]
      refine .kept ?_ rfl ?_ ?_ ?_
      · cases (p.sess s).bfMsg <;> rfl
      all_goals simp [Effect.after, hpc, Pc.stage]
  | sendTearDown received =>
      cases received
      all_goals
        simp only [protocol, hpc]
        refine .kept rfl rfl ?_ ?_ ?_
      all_goals simp [Effect.after, Session.goto, hpc, Pc.stage]
  | bcastNext i rest =>
      obtain ⟨m, pc, hturn, hstep⟩ := protocol_bcastNext (c := c) hpc
      rw [hstep]
      cases hturn
      all_goals refine .kept rfl rfl ?_ ?_ ?_
      all_goals simp [Effect.after, Session.goto, hpc, Pc.stage]
  | _ =>
      simp only [protocol, hpc, withDifference, withCollection, drainStep,
        awaitStep, discard]
      repeat' split
      all_goals refine .kept rfl rfl ?_ ?_ ?_
      all_goals simp [Effect.after, panicEffect, Session.goto, hpc, Pc.stage]

end Proc

/-- `NotInterested` is honest: the sizes agree once `setup` has compared them,
and a session that said so has nothing to ask for. -/
structure Honest (own : List PieceStatus) (x : Session) : Prop where
  early : x.pc.stage ≤ 6 → interestMsgs x.sent = []
  size : 7 ≤ x.pc.stage → x.peerSv.length = own.length
  honest : lastInterest x.sent = some (.actual .notInterestedMsg) →
    x.pc ≠ .haveInterest →
    ∀ i : Nat, x.peerSv[i]? = some .owned → own[i]? ≠ some .absent

theorem Honest.mono {own own' : List PieceStatus} {x : Session}
    (h : Honest own x) (hadv : Advances own own') : Honest own' x where
  early := h.early
  size hstage := by rw [h.size hstage, hadv.length]
  honest hlast hpc i hi habs := h.honest hlast hpc i hi (hadv.absent i habs)

theorem Honest.enqAll {own : List PieceStatus} {x : Session}
    (h : Honest own x) (es : List Event) : Honest own (x.enqAll es) :=
  ⟨h.early, h.size, h.honest⟩

theorem Honest.of_eq {own : List PieceStatus} {x y : Session}
    (h : Honest own x) (hpc : y.pc = x.pc) (hsent : y.sent = x.sent)
    (hpeer : y.peerSv = x.peerSv) : Honest own y where
  early := by
    rw [hpc, hsent]
    exact h.early
  size := by
    rw [hpc, hpeer]
    exact h.size
  honest := by
    rw [hpc, hsent, hpeer]
    exact h.honest

theorem Honest.difference {own : List PieceStatus} {x : Session}
    (h : Honest own x) (hstage : 7 ≤ x.pc.stage)
    (hnone : ∀ i : Nat, x.peerSv[i]? = some .owned → own[i]? ≠ some .absent) :
    difference x.peerSv own = some [] := by
  cases hdiff : CntPeer.difference x.peerSv own with
  | none => exact absurd (h.size hstage) (difference_eq_none.mp hdiff)
  | some is =>
      rw [Option.some.injEq, List.eq_nil_iff_forall_not_mem]
      intro i hi
      have hmem := (mem_of_difference hdiff i).mp hi
      exact hnone i hmem.1 hmem.2

namespace Proc

variable {p p' : Proc} {s t : Sid}

theorem Owning.not_absent {n : Nat} (h : Owning n p)
    (hall : p.sh.own.owningAll = true) (i : Nat) :
    p.sh.own.sv[i]? ≠ some .absent := by
  intro habs
  have hlt := (List.getElem?_eq_some_iff.mp habs).1
  have hown := h.counted.owningAll_iff.mp hall i hlt
  unfold SyncPieceBitfield.settled at hown
  split at hown
  · rw [habs] at hown
    cases hown
  · rename_i t j hset
    have hl := h.locals t
    simp only [OwnLocal, h.mutex t j hset] at hl
    by_cases hij : j = i
    · subst j
      rcases hl.2 with ht | ht
      all_goals
        rw [habs] at ht
        cases ht
    · rw [List.getElem?_set_ne hij, habs] at hown
      cases hown

theorem honest_protocol {n : Nat} {c : Choice} (hown : Owning n p)
    (hrun : runnable p s = true) (h : Honest p.sh.own.sv (p.sess s)) :
    Honest (protocol p s c).sh.own.sv (protocol p s c).after := by
  have hadv := (protocol_own (c := c) hrun).advances (hown.locals s)
  have hstage := stage_protocol (p := p) (s := s) (c := c)
  refine Honest.mono ?_ hadv
  cases interestStep_protocol (p := p) (s := s) (c := c) with
  | kept out peer late comes leaves =>
      refine ⟨?_, ?_, ?_⟩
      · intro hlow
        rw [sent_protocol, interestMsgs_append, out, List.append_nil]
        exact h.early (hstage.trans hlow)
      · intro hhigh
        rw [peer]
        exact h.size (late hhigh)
      · intro hlast hpc
        rw [sent_protocol, lastInterest_append_nil out] at hlast
        rw [peer]
        exact h.honest hlast (mt comes.mpr hpc)
  | looked is diff peer own goes late out =>
      have hempty : is = [] → ∀ i : Nat, (p.sess s).peerSv[i]? = some .owned →
          p.sh.own.sv[i]? ≠ some .absent := by
        rintro rfl i hi habs
        cases (mem_of_difference diff i).mpr ⟨hi, habs⟩
      refine ⟨fun hlow => absurd late (by omega), fun _ => ?_, fun hlast _ => ?_⟩
      · rw [peer]
        by_contra hne
        rw [difference_eq_none.mpr hne] at diff
        cases diff
      · rw [peer]
        rcases out with out | ⟨out, hwhen⟩
        · rw [sent_protocol, lastInterest_append_one out] at hlast
          refine hempty ?_
          cases is with
          | nil => rfl
          | cons i is => cases hlast
        · rw [sent_protocol, lastInterest_append_nil out] at hlast
          by_cases hpc : (p.sess s).pc = .haveInterest
          · exact hempty (hwhen.mpr hpc)
          · exact h.honest hlast hpc
  | heard i stands out peer goes =>
      have hlate : (p.sess s).pc.stage = 8 := by rw [stands]; rfl
      refine ⟨fun hlow => absurd (hstage.trans hlow) (by omega), fun _ => ?_,
        fun _ hpc j _ => ?_⟩
      · rw [peer, List.length_set]
        exact h.size (by omega)
      · exact hown.not_absent (goes.resolve_left hpc) j

theorem honest_sessionEffect {n : Nat} {a : SessionAct} (hown : Owning n p)
    (hen : p.sessionEnabled s a = true)
    (h : Honest p.sh.own.sv (p.sess s)) :
    Honest (p.sessionEffect s a).sh.own.sv (p.sessionEffect s a).after := by
  have hact := actCases hen
  generalize p.sessionEffect s a = e at hact
  cases hact with
  | thread c => exact honest_protocol hown hen h
  | setup stands goes quiet keeps taken out posts own =>
      have hsent := h.early (by omega)
      rw [own]
      refine ⟨fun _ => keeps.sent ▸ hsent, fun hlate => by omega, ?_⟩
      intro hlast
      rw [keeps.sent, lastInterest, hsent] at hlast
      cases hlast
  | idle after out posts own =>
      obtain ⟨m, heq⟩ := after
      rw [own, heq]
      exact h.of_eq rfl rfl rfl

def HonestAll (p : Proc) : Prop := ∀ s, Honest p.sh.own.sv (p.sess s)

theorem HonestAll.step {n : Nat} {a : Act} (h : HonestAll p)
    (hown : Owning n p) (hstep : p.step a = some p') : HonestAll p' := by
  have hadv := hown.advances hstep
  intro t
  obtain ⟨-, ⟨s, act, -, hen, rfl⟩ | hb⟩ := step_cases hstep
  · rw [commit_sess]
    refine Honest.enqAll ?_ _
    by_cases hts : t = s
    · subst t
      rw [moved_self]
      exact honest_sessionEffect hown hen (h s)
    · rw [moved_of_ne hts]
      exact (h t).mono hadv
  · obtain ⟨es, -, hes⟩ := hb.sess t
    rw [hes]
    exact ((h t).mono hadv).enqAll es

theorem honest_reachable {cfg : Config} (h : Reachable cfg p) : HonestAll p :=
  h.invariant (I := HonestAll)
    (fun _ => ⟨fun _ => rfl, fun hlate => absurd hlate (Nat.not_succ_le_zero 6),
      nofun⟩)
    fun _ _ _ hr ih _ hstep => ih.step (owning_reachable hr) hstep

/-- What justifies an `Interested`: a piece still to be had, or something that
makes the session look again or end. -/
inductive Justified (p : Proc) (s : Sid) : Prop
  | wanted (i : Nat) (peer : (p.sess s).peerSv[i]? = some .owned)
      (own : p.sh.own.sv[i]? ≠ some .owned)
  | queued (i : Nat) (mem : .bcastHave i ∈ (p.sess s).events)
  | inHand (stands : (p.sess s).pc = .bcastInterest)
  | passing (u : Sid) (i : Nat) (pass : Passing (p.sess u).pc s i)
  | done (isDone : (p.sess s).isDone = true)

/-- An announcement stays in the queue until the session computes its interest
again. -/
theorem queued_protocol {c : Choice} {i : Nat} (hph : Phased (p.sess s))
    (hmem : .bcastHave i ∈ (p.sess s).events) :
    .bcastHave i ∈ (protocol p s c).after.events ∨
      (protocol p s c).after.pc = .bcastInterest ∨
      (protocol p s c).after.isDone = true := by
  cases queueStep_protocol (p := p) (s := s) (c := c) with
  | same events =>
      rw [events]
      exact .inl hmem
  | consumed e events handled stands =>
      rw [events, List.mem_cons] at hmem
      rcases hmem with rfl | hmem
      · rcases stands with hpc | hpc | hpc
        · simp [protocol, hpc, handle, Effect.after, Session.goto]
        all_goals
          refine .inr (.inr (isDone_stays (hph.teardown ?_)))
          rw [hpc]
          decide
      · exact .inl hmem

theorem queued_commit {a : SessionAct} {u : Sid} {i : Nat}
    (hph : Phased (p.sess s)) (hstage : 7 ≤ (p.sess s).pc.stage)
    (hen : p.sessionEnabled u a = true)
    (hmem : .bcastHave i ∈ (p.sess s).events) :
    Justified (p.commit u (p.sessionEffect u a)) s := by
  by_cases hsu : s = u
  · subst u
    have hact := actCases hen
    generalize p.sessionEffect s a = e at hact
    cases hact with
    | thread c =>
        rcases queued_protocol hph hmem with hmem | hpc | hdone
        · refine .queued i ?_
          rw [commit_self, Session.enqAll_events]
          exact List.mem_append_left _ hmem
        · refine .inHand ?_
          rw [commit_pc_self, hpc]
        · refine .done ?_
          rw [commit_self, Session.enqAll_isDone, hdone]
    | setup stands => omega
    | idle after =>
        obtain ⟨n, heq⟩ := after
        refine .queued i ?_
        rw [commit_self, heq, Session.enqAll_events]
        exact List.mem_append_left _ hmem
  · refine .queued i ?_
    rw [commit_of_ne hsu, Session.enqAll_events]
    exact List.mem_append_left _ hmem

theorem isDone_commit {a : SessionAct} {u : Sid}
    (hstage : 7 ≤ (p.sess s).pc.stage) (hen : p.sessionEnabled u a = true)
    (hdone : (p.sess s).isDone = true) :
    ((p.commit u (p.sessionEffect u a)).sess s).isDone = true := by
  by_cases hsu : s = u
  · subst u
    rw [commit_self, Session.enqAll_isDone]
    have hact := actCases hen
    generalize p.sessionEffect s a = e at hact
    cases hact with
    | thread c => exact isDone_stays hdone
    | setup stands => omega
    | idle after =>
        obtain ⟨n, heq⟩ := after
        rw [heq]
        exact hdone
  · rw [commit_of_ne hsu, Session.enqAll_isDone, hdone]

/-- What justifies an `Interested` survives every step in which the session does
not compute its interest. -/
theorem Justified.session {a : SessionAct} {u : Sid} (h : Justified p s)
    (hlife : Lifecycle p) (hph : Phased (p.sess s))
    (hstage : 7 ≤ (p.sess s).pc.stage) (hen : p.sessionEnabled u a = true)
    (hpeer : ∀ i : Nat, (p.sess s).peerSv[i]? = some .owned →
      ((p.commit u (p.sessionEffect u a)).sess s).peerSv[i]? = some .owned)
    (hhand : (p.sess s).pc = .bcastInterest →
      ((p.commit u (p.sessionEffect u a)).sess s).pc = .bcastInterest) :
    Justified (p.commit u (p.sessionEffect u a)) s := by
  cases h with
  | wanted i peer own =>
      by_cases hown : (p.sessionEffect u a).sh.own.sv[i]? = some .owned
      · have hlock := (newly_owned hen hown).resolve_left own
        refine .passing u i ?_
        rw [commit_pc_self, hlock]
        rfl
      · exact .wanted i (hpeer i peer) hown
  | queued i mem => exact queued_commit hph hstage hen mem
  | inHand stands => exact .inHand (hhand stands)
  | passing v i pass =>
      by_cases hvu : v = u
      · subst v
        by_cases hdone : (p.sess s).isDone = true
        · exact .done (isDone_commit hstage hen hdone)
        have hready := hph.ready.mpr (by omega)
        have hlow : ¬9 ≤ (p.sess s).pc.stage := mt hph.teardown hdone
        have hlive : s ∈ p.sh.sc.ss.map Sn.s := by
          refine List.mem_map.mpr ⟨_, hlife.live s ?_ ?_, rfl⟩
          · intro hpc
            rw [hpc] at hstage
            contradiction
          · intro hpc
            rw [hpc] at hlow
            exact hlow (by decide)
        rcases passing_sessionEffect hen hlive (.inl hready) pass with
          hpass | hpost
        · refine .passing u i ?_
          rw [commit_pc_self]
          exact hpass
        · refine .queued i ?_
          rw [commit_sess, Session.enqAll_events]
          exact List.mem_append_right _ (mem_postsTo.mpr hpost)
      · refine .passing v i ?_
        rw [commit_pc_of_ne hvu]
        exact pass
  | done isDone => exact .done (isDone_commit hstage hen isDone)

def JustifiedAll (p : Proc) : Prop :=
  ∀ s, lastInterest (p.sess s).sent = some (.actual .interestedMsg) →
    Justified p s

theorem justified_protocol {c : Choice} (hlife : Lifecycle p)
    (hph : Phased (p.sess s)) (hhonest : Honest p.sh.own.sv (p.sess s))
    (hrun : runnable p s = true)
    (h : lastInterest (p.sess s).sent = some (.actual .interestedMsg) →
      Justified p s)
    (hlast : lastInterest (protocol p s c).after.sent =
      some (.actual .interestedMsg)) :
    Justified (p.commit s (protocol p s c)) s := by
  have hkeep : lastInterest (p.sess s).sent = some (.actual .interestedMsg) →
      (∀ i : Nat, (p.sess s).peerSv[i]? = some .owned →
        (protocol p s c).after.peerSv[i]? = some .owned) →
      ((p.sess s).pc = .bcastInterest →
        (protocol p s c).after.pc = .bcastInterest) →
      Justified (p.commit s (protocol p s c)) s := by
    intro hold hpeer hhand
    have hstage : 7 ≤ (p.sess s).pc.stage := by
      by_contra hlow
      rw [lastInterest, hhonest.early (by omega)] at hold
      cases hold
    refine (h hold).session (a := .thread c) hlife hph hstage hrun ?_ ?_
    all_goals
      rw [commit_self]
      assumption
  cases interestStep_protocol (p := p) (s := s) (c := c) with
  | kept out peer late comes leaves =>
      rw [sent_protocol, lastInterest_append_nil out] at hlast
      exact hkeep hlast (fun i hi => peer ▸ hi) leaves
  | looked is diff peer own goes late out =>
      cases is with
      | cons i is =>
          -- what the peer has and this process lacks is wanted
          have hi := (mem_of_difference diff i).mp List.mem_cons_self
          refine .wanted i ?_ ?_
          · rw [commit_self, Session.enqAll_peerSv, peer]
            exact hi.1
          · rw [commit_sh, own, hi.2]
            decide
      | nil =>
          rcases out with out | ⟨out, hwhen⟩
          · rw [sent_protocol, lastInterest_append_one out] at hlast
            cases hlast
          · rw [sent_protocol, lastInterest_append_nil out] at hlast
            refine hkeep hlast (fun i hi => peer ▸ hi) fun hpc => ?_
            rw [hwhen.mp rfl] at hpc
            cases hpc
  | heard i stands out peer goes =>
      rw [sent_protocol, lastInterest_append_nil out] at hlast
      refine hkeep hlast (fun j hj => ?_) fun hpc => ?_
      · rw [peer, List.getElem?_set]
        have hlt := (List.getElem?_eq_some_iff.mp hj).1
        split
        · subst j
          rw [if_pos hlt]
        · exact hj
      · rw [stands] at hpc
        cases hpc

theorem JustifiedAll.session {a : SessionAct} {u : Sid} (h : JustifiedAll p)
    (hlife : Lifecycle p) (hph : ∀ s, Phased (p.sess s)) (hhonest : HonestAll p)
    (hen : p.sessionEnabled u a = true) :
    JustifiedAll (p.commit u (p.sessionEffect u a)) := by
  intro s hlast
  have hlate : lastInterest (p.sess s).sent = some (.actual .interestedMsg) →
      7 ≤ (p.sess s).pc.stage := by
    intro hold
    by_contra hlow
    rw [lastInterest, (hhonest s).early (by omega)] at hold
    cases hold
  by_cases hsu : s = u
  · subst u
    rw [commit_self, Session.enqAll_sent] at hlast
    have hact := actCases hen
    generalize heff : p.sessionEffect s a = e at hact hlast
    cases hact with
    | thread c => exact justified_protocol hlife (hph s) (hhonest s) hen (h s) hlast
    | setup stands goes quiet keeps =>
        rw [keeps.sent] at hlast
        exact absurd (hlate hlast) (by omega)
    | idle after =>
        obtain ⟨n, heq⟩ := after
        rw [heq] at hlast
        rw [← heff]
        refine (h s hlast).session hlife (hph s) (hlate hlast) hen ?_ ?_
        · rw [commit_self, heff, heq]
          exact fun _ hi => hi
        · rw [commit_self, heff, heq]
          exact id
  · rw [commit_of_ne hsu, Session.enqAll_sent] at hlast
    refine (h s hlast).session hlife (hph s) (hlate hlast) hen ?_ ?_
    · rw [commit_of_ne hsu]
      exact fun _ hi => hi
    · rw [commit_of_ne hsu]
      exact id

theorem JustifiedAll.background (h : JustifiedAll p) (hb : Background p p') :
    JustifiedAll p' := by
  intro s hlast
  obtain ⟨es, -, hes⟩ := hb.sess s
  rw [hes, Session.enqAll_sent] at hlast
  cases h s hlast with
  | wanted i peer own =>
      refine .wanted i ?_ ?_
      · rw [hes]
        exact peer
      · rw [hb.own]
        exact own
  | queued i mem =>
      refine .queued i ?_
      rw [hes, Session.enqAll_events]
      exact List.mem_append_left _ mem
  | inHand stands =>
      refine .inHand ?_
      rw [hes]
      exact stands
  | passing u i pass =>
      obtain ⟨es', -, hes'⟩ := hb.sess u
      refine .passing u i ?_
      rw [hes']
      exact pass
  | done isDone =>
      refine .done ?_
      rw [hes]
      exact isDone

theorem justified_reachable {cfg : Config} (h : Reachable cfg p) :
    JustifiedAll p := by
  refine h.invariant (I := JustifiedAll) ?_ fun p a p' hr ih _ hstep => ?_
  · intro s hlast
    cases hlast
  · obtain ⟨-, ⟨u, act, -, hen, rfl⟩ | hb⟩ := step_cases hstep
    · exact ih.session (lifecycle_reachable hr) (phased_reachable hr)
        (honest_reachable hr) hen
    · exact ih.background hb

def NoHave (s : Sid) (p : Proc) : Act → Prop
  | .session t (.thread _) => t = s → ∀ i, (p.sess s).pc ≠ .handle (.msgHave i)
  | _ => True

theorem peerSv_step {a : Act} (hstage : 7 ≤ (p.sess s).pc.stage)
    (hno : NoHave s p a) (hstep : p.step a = some p') :
    7 ≤ (p'.sess s).pc.stage ∧ (p'.sess s).peerSv = (p.sess s).peerSv := by
  rcases sess_step hstep s with ⟨es, heq⟩ | ⟨act, rfl, hen, heq⟩
  · rw [heq]
    exact ⟨hstage, rfl⟩
  · have hle := stage_sessionEffect hen
    have hact := actCases hen
    rw [heq, Session.enqAll_pc, Session.enqAll_peerSv]
    refine ⟨hstage.trans hle, ?_⟩
    generalize p.sessionEffect s act = e at hact
    cases hact with
    | thread c =>
        cases interestStep_protocol (p := p) (s := s) (c := c) with
        | kept out peer => exact peer
        | looked is diff peer => exact peer
        | heard i stands => exact absurd stands (hno rfl i)
    | setup stands => omega
    | idle after =>
        obtain ⟨n, hafter⟩ := after
        rw [hafter]
        rfl

theorem nothing_wanted {cfg : Config} (h : Reachable cfg p)
    (hstage : 7 ≤ (p.sess s).pc.stage)
    (hnone : ∀ i : Nat, (p.sess s).peerSv[i]? = some .owned →
      p.sh.own.sv[i]? ≠ some .absent)
    {q : Proc} (hq : Reaches step (NoHave s) p q) :
    difference (q.sess s).peerSv q.sh.own.sv = some [] := by
  have hq' := h.trans hq.reachable
  have hkeep : 7 ≤ (q.sess s).pc.stage ∧
      ∀ i : Nat, (q.sess s).peerSv[i]? = some .owned →
        q.sh.own.sv[i]? ≠ some .absent := by
    refine hq.invariant (I := fun q => 7 ≤ (q.sess s).pc.stage ∧
      ∀ i : Nat, (q.sess s).peerSv[i]? = some .owned →
        q.sh.own.sv[i]? ≠ some .absent) ⟨hstage, hnone⟩ ?_
    intro r a r' hr ih hno hstep
    obtain ⟨hstage', hsv⟩ := peerSv_step ih.1 hno hstep
    have hadv := (owning_reachable (h.trans hr.reachable)).advances hstep
    refine ⟨hstage', fun i hi habs => ih.2 i (hsv ▸ hi) (hadv.absent i habs)⟩
  exact (honest_reachable hq' s).difference hkeep.1 hkeep.2

/--
A session between two events: a `NotInterested` that it wrote last is true and
stays so until the session handles its next `MsgHave`; an `Interested` that it
wrote last is stale only while an announcement is on its way to it, or the
session has come to its end.
-/
theorem truthful_interest {cfg : Config} (h : Reachable cfg p)
    (hbetween : (p.sess s).pc.betweenEvents = true) :
    (lastInterest (p.sess s).sent = some (.actual .notInterestedMsg) →
      ∀ q, Reaches step (NoHave s) p q →
        difference (q.sess s).peerSv q.sh.own.sv = some []) ∧
    (lastInterest (p.sess s).sent = some (.actual .interestedMsg) →
      (∀ i : Nat, (p.sess s).peerSv[i]? = some .owned →
        p.sh.own.sv[i]? = some .owned) →
      (∃ i, .bcastHave i ∈ (p.sess s).eq) ∨
        (∃ u i, Passing (p.sess u).pc s i) ∨ (p.sess s).isDone = true) := by
  have hstage : 7 ≤ (p.sess s).pc.stage := by
    revert hbetween
    cases (p.sess s).pc <;> simp [Pc.betweenEvents, Pc.stage]
  refine ⟨fun hlast q hq => ?_, fun hlast hstale => ?_⟩
  · have hhonest := honest_reachable h s
    refine nothing_wanted h hstage ?_ hq
    refine hhonest.honest hlast fun hpc => ?_
    rw [hpc] at hbetween
    cases hbetween
  · cases justified_reachable h s hlast with
    | wanted i peer own => exact absurd (hstale i peer) own
    | queued i mem =>
        left
        refine ⟨i, ?_⟩
        have hev : (p.sess s).events = (p.sess s).eq := by
          revert hbetween
          cases hpc : (p.sess s).pc <;> simp [Pc.betweenEvents, Session.events, hpc]
        exact hev ▸ mem
    | inHand stands =>
        rw [stands] at hbetween
        cases hbetween
    | passing u i pass => exact .inr (.inl ⟨u, i, pass⟩)
    | done isDone => exact .inr (.inr isDone)

def announced : Proc :=
  (run step (init leech) (lastPieceRun ++ threadSteps 0 8)).get (by decide)

theorem truthful_interest_announced :
    lastInterest (announced.sess 1).sent =
        some (.actual .notInterestedMsg) ∧
      difference (announced.sess 1).peerSv announced.sh.own.sv = some [] ∧
      lastInterest (announced.sess 0).sent = some (.actual .interestedMsg) ∧
      ((∃ i, .bcastHave i ∈ (announced.sess 0).eq) ∨
        (∃ u i, Passing (announced.sess u).pc 0 i) ∨
        (announced.sess 0).isDone = true) :=
  ⟨by decide,
    (truthful_interest (s := 1) (reachable_get _) (by decide)).1 (by decide) _
      .start,
    by decide,
    (truthful_interest (s := 0) (reachable_get _) (by decide)).2 (by decide)
      (by
        intro i hi
        have hlt : i < 1 := (List.getElem?_eq_some_iff.mp hi).1
        obtain rfl : i = 0 := by omega
        decide)⟩

end Proc

end CntPeer
