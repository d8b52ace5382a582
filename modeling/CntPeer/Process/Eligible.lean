import CntPeer.Process.Choke
import CntPeer.Process.Interest
import CntPeer.Process.Seats

/-!
# Who the optimistic timer can see

`optAlgorithm` draws among the sessions whose flag is `Choked`.  The flag of a
session is `Unknown` until a timer command sets it, and a session whose first
`Interested` finds no free seat gets no command.
-/

namespace CntPeer

open CntPeer.Foundation

def interestOf : Option Msg → InterestStatus
  | some (.actual .interestedMsg) => .interested
  | some (.actual .notInterestedMsg) => .notInterested
  | _ => .unknown

def timerQueued (eq : List Event) : Bool := eq.any Event.isTimer

/-- A peer that said it is interested and was not told `Unchoke` last. -/
def Waiting (x : Session) : Prop :=
  x.isActive = true ∧ x.peerInterest = .interested ∧
    lastChoke x.sent ≠ some (.actual .unchokeMsg)

/-- Once a message that announces `q` is handled, the flag is set or about to
be. -/
def Noted (q : InterestStatus) (x : Session) : Prop :=
  x.peerInterest = q → x.pc ≠ .preempt →
    x.peerChoke ≠ .unknown ∨ timerQueued x.events = true

theorem timerQueued_append {a b : List Event} :
    timerQueued (a ++ b) = (timerQueued a || timerQueued b) :=
  List.any_append ..

theorem Noted.of_keeps {q : InterestStatus} {x y : Session} (h : Noted q x)
    (hflag : y.peerChoke = x.peerChoke)
    (hint : y.peerInterest = x.peerInterest) (hev : y.events = x.events)
    (hpc : y.pc = .preempt ↔ x.pc = .preempt) : Noted q y := by
  intro hy hne
  rw [hflag, hev]
  exact h (hint ▸ hy) (mt hpc.mpr hne)

theorem Noted.enqAll {q : InterestStatus} {x : Session} (h : Noted q x)
    (es : List Event) : Noted q (x.enqAll es) := by
  intro hint hpc
  rw [Session.enqAll_events, timerQueued_append, Bool.or_eq_true]
  exact (h hint hpc).imp_right .inl

theorem noted_of_queued {q : InterestStatus} {x : Session} {es : List Event}
    (h : timerQueued es = true) : Noted q (x.enqAll es) := by
  intro _ _
  rw [Session.enqAll_events, timerQueued_append, h, Bool.or_true]
  exact .inr rfl

inductive PeerInterestStep (x y : Session) : Prop
  | kept (flag : y.peerInterest = x.peerInterest)
      (heard : x.pc.stage ≤ 8 →
        lastInterest y.handled = lastInterest x.handled)
      (stays : x.pc = .preempt → y.pc = .preempt ∨ y.pc = .loop)
  | heard (m : ActualMsg) (stands : y.pc = .preempt ∨
        x.pc = .handle .msgNotInterest ∧ m = .notInterestedMsg)
      (flag : y.peerInterest = interestOf (some (.actual m)))
      (last : lastInterest y.handled = some (.actual m))

theorem peerInterestStep_handle {sh : Shared} {x : Session} {e : Event}
    (hpc : x.pc = .handle e) : PeerInterestStep x (handle sh x e).after := by
  have hskip : ∀ m, Msg.isInterest (.actual m) = false →
      lastInterest (x.handled ++ [.actual m]) = lastInterest x.handled := by
    intro m hm
    exact lastInterest_append_nil (by simp [interestMsgs, hm])
  cases e with
  | msgInterest =>
      exact .heard .interestedMsg (.inl rfl) rfl
        (lastInterest_append_one rfl)
  | msgNotInterest =>
      simp only [handle]
      split
      all_goals
        exact .heard .notInterestedMsg (.inr ⟨hpc, rfl⟩) rfl
          (lastInterest_append_one rfl)
  | _ =>
      simp only [handle]
      repeat' split
      all_goals first
        | exact .kept rfl (fun _ => rfl) (by simp [hpc])
        | exact .kept rfl (fun _ => hskip _ rfl) (by simp [hpc])

theorem peerChoke_handle {sh : Shared} {x : Session} {e : Event} :
    (handle sh x e).after.peerChoke = x.peerChoke ∨
      (handle sh x e).after.peerChoke ≠ .unknown := by
  cases e
  all_goals
    simp only [handle]
    repeat' split
  all_goals first
    | exact .inl rfl
    | exact .inr (by simp [Effect.after])

namespace Proc

variable {p p' : Proc} {s t : Sid} {q : InterestStatus}

theorem peerInterestStep_protocol {c : Choice} :
    PeerInterestStep (p.sess s) (protocol p s c).after := by
  cases hpc : (p.sess s).pc with
  | handle e =>
      simp only [protocol, hpc]
      exact peerInterestStep_handle hpc
  | preempt =>
      simp only [protocol, hpc, withCollection]
      split
      · exact .kept rfl (fun _ => rfl) fun _ => .inl hpc
      · exact .kept rfl (fun _ => rfl) fun _ => .inr rfl
  | drain | awaitTearDown =>
      simp only [protocol, hpc, drainStep, awaitStep]
      repeat' split
      all_goals exact .kept rfl (by simp [hpc, Pc.stage]) (by simp [hpc])
  | bcastNext i rest =>
      obtain ⟨m, pc, hturn, hstep⟩ := protocol_bcastNext (c := c) hpc
      rw [hstep]
      cases hturn
      all_goals exact .kept rfl (fun _ => rfl) (by simp [hpc])
  | _ =>
      simp only [protocol, hpc, withDifference, withCollection]
      repeat' split
      all_goals exact .kept rfl (fun _ => rfl) (by simp [hpc])

theorem peerChoke_protocol {c : Choice} :
    (protocol p s c).after.peerChoke = (p.sess s).peerChoke ∨
      (protocol p s c).after.peerChoke ≠ .unknown := by
  cases hpc : (p.sess s).pc with
  | handle e =>
      simp only [protocol, hpc]
      exact peerChoke_handle
  | bcastNext i rest =>
      obtain ⟨m, pc, -, hstep⟩ := protocol_bcastNext (c := c) hpc
      rw [hstep]
      exact .inl rfl
  | _ =>
      simp only [protocol, hpc, withDifference, withCollection, drainStep,
        awaitStep]
      repeat' split
      all_goals exact .inl rfl

def seatFor (sc : SessionCollection) (addr : Nat) : Bool :=
  !holdsSlot sc addr && (decide (sc.pnSet.size < sc.nPn) || sc.opt.isNone)

/--
Conditions on a session whose flag is `Unknown` and that has no timer command
queued: `tryPreempt` finds a seat for it; a teardown loop does not throw its
last timer command away; and, for `q = .notInterested`, no `NotInterested` is
handled.
-/
def Seated (q : InterestStatus) (p : Proc) : Act → Prop
  | .session s (.thread _) =>
      let x := p.sess s
      match x.pc with
      | .preempt => x.peerChoke = .unknown → timerQueued x.eq = false →
          seatFor p.sh.sc x.addr = true
      | .handle .msgNotInterest => q = .notInterested →
          x.peerChoke = .unknown → timerQueued x.eq = true
      | .drain | .awaitTearDown => x.peerInterest = q →
          x.peerChoke = .unknown → timerQueued (x.eq.take 1) = true →
            timerQueued x.eq.tail = true
      | _ => True
  | _ => True

instance (q : InterestStatus) (p : Proc) :
    (a : Act) → Decidable (Seated q p a)
  | .session s (.thread _) => by
      dsimp only [Seated]
      generalize (p.sess s).pc = pc
      apply @Pc.casesOn _ pc
      case handle =>
        intro e
        apply @Event.casesOn _ e
        all_goals
          intros
          infer_instance
      all_goals
        intros
        infer_instance
  | .session _ (.create ..) | .session _ (.recvHandshake _)
  | .session _ (.recvBitfield _) | .session _ (.scan _)
  | .session _ (.readFails _) | .session _ (.received _)
  | .pnTick _ | .optTick _ | .cleanUp | .exit => .isTrue trivial

theorem preempt_posts {c : Choice} (hlife : Lifecycle p)
    (hph : Phased (p.sess s)) (hpc : (p.sess s).pc = .preempt)
    (hseat : seatFor p.sh.sc (p.sess s).addr = true) :
    (s, .timerUnchoke) ∈ (protocol p s c).posts := by
  have hmem := hlife.live s (by simp [hpc]) (by simp [hpc])
  have hfind := hlife.findAddr hmem rfl
  have hactive := hph.active.mpr (by rw [hpc]; decide)
  simp only [seatFor, holdsSlot, hfind, Bool.and_eq_true, Bool.not_eq_true',
    Bool.or_eq_false_iff, Bool.or_eq_true, decide_eq_true_eq] at hseat
  obtain ⟨⟨hout, hopt⟩, hroom⟩ := hseat
  simp only [protocol, hpc, withCollection, SessionCollection.tryPreempt, hfind]
  by_cases hlt : p.sh.sc.pnSet.size < p.sh.sc.nPn
  · simp [hout, hopt, hlt, unchokeCmd, hactive]
  · simp [hout, hopt, hlt, hroom.resolve_left hlt, unchokeCmd, hactive]

theorem handled_timer {c : Choice} {e : Event}
    (hpc : (p.sess s).pc = .handle e) (he : e.isTimer = true) :
    (protocol p s c).after.peerChoke ≠ .unknown := by
  cases e
  all_goals first
    | contradiction
    | skip
  all_goals
    simp only [protocol, hpc, handle]
    split
  all_goals simp_all [Effect.after, Session.goto]

/-- Where a timer command leaves the queue, the flag is set; the teardown loops
keep the last one. -/
theorem timerQueued_protocol {c : Choice}
    (hok : Seated q p (.session s (.thread c)))
    (hint : (p.sess s).peerInterest = q)
    (hunknown : (p.sess s).peerChoke = .unknown)
    (hunknown' : (protocol p s c).after.peerChoke = .unknown)
    (hmem : timerQueued (p.sess s).events = true) :
    timerQueued (protocol p s c).after.events = true := by
  cases queueStep_protocol (p := p) (s := s) (c := c) with
  | same events => rw [events, hmem]
  | consumed e events handled stands =>
      cases he : e.isTimer with
      | false =>
          rw [events, timerQueued, List.any_cons, he] at hmem
          exact hmem
      | true =>
          rcases stands with hpc | hpc | hpc
          · exact absurd hunknown' (handled_timer hpc he)
          all_goals
            simp only [Session.events, hpc] at events
            simp only [Seated, hpc] at hok
            rw [events] at hok
            refine hok hint hunknown ?_
            simp [timerQueued, he]

theorem noted_protocol {c : Choice} (hlife : Lifecycle p)
    (hph : Phased (p.sess s)) (hok : Seated q p (.session s (.thread c)))
    (h : Noted q (p.sess s)) :
    Noted q ((protocol p s c).after.enqAll
      (postsTo s (protocol p s c).posts)) := by
  by_cases hflag : (protocol p s c).after.peerChoke = .unknown
  swap
  · exact Noted.enqAll (fun _ _ => .inl hflag) _
  have hold : (p.sess s).peerChoke = .unknown := by
    rcases peerChoke_protocol (p := p) (s := s) (c := c) with hx | hx
    · exact hx ▸ hflag
    · exact absurd hflag hx
  cases peerInterestStep_protocol (p := p) (s := s) (c := c) with
  | kept flag heard stays =>
      by_cases hpc : (p.sess s).pc = .preempt
      · -- the session asks for a seat
        have hev : (p.sess s).events = (p.sess s).eq := by
          simp only [Session.events, hpc]
        cases hqueued : timerQueued (p.sess s).eq with
        | true =>
            cases queueStep_protocol (p := p) (s := s) (c := c) with
            | same events =>
                refine Noted.enqAll (fun _ _ => .inr ?_) _
                rw [events, hev, hqueued]
            | consumed e events handled stands => simp [hpc] at stands
        | false =>
            simp only [Seated, hpc] at hok
            have hpost := preempt_posts (c := c) hlife hph hpc (hok hold hqueued)
            refine noted_of_queued (List.any_eq_true.mpr ?_)
            exact ⟨_, mem_postsTo.mpr hpost, rfl⟩
      · refine Noted.enqAll (fun hint _ => .inr ?_) _
        rw [flag] at hint
        have hmem := (h hint hpc).resolve_left (not_not.mpr hold)
        exact timerQueued_protocol hok hint hold hflag hmem
  | heard m stands flag last =>
      rcases stands with hpc | ⟨hpc, rfl⟩
      · exact Noted.enqAll (fun _ hne => absurd hpc hne) _
      · simp only [Seated, hpc] at hok
        refine Noted.enqAll (fun hint _ => .inr ?_) _
        have hqueued := hok (hint.symm.trans flag) hold
        have hev : (p.sess s).events = .msgNotInterest :: (p.sess s).eq := by
          simp only [Session.events, hpc]
        cases queueStep_protocol (p := p) (s := s) (c := c) with
        | same events =>
            rw [events, hev]
            exact hqueued
        | consumed e events handled stands =>
            rw [hev] at events
            rw [← (List.cons.inj events).2]
            exact hqueued

theorem noted_step {a : Act} (hlife : Lifecycle p)
    (hph : ∀ s, Phased (p.sess s)) (hok : Seated q p a)
    (h : ∀ s, Noted q (p.sess s)) (hstep : p.step a = some p') :
    ∀ s, Noted q (p'.sess s) := by
  intro s
  rcases sess_step hstep s with ⟨es, heq⟩ | ⟨act, rfl, hen, heq⟩
  · rw [heq]
    exact (h s).enqAll es
  · rw [heq]
    have hact := actCases hen
    generalize p.sessionEffect s act = e at hact
    cases hact with
    | thread c => exact noted_protocol hlife (hph s) hok (h s)
    | setup stands goes quiet keeps =>
        refine Noted.enqAll ((h s).of_keeps keeps.peerChoke
          keeps.peerInterest ?_ ?_) _
        · rw [quiet.1, quiet.2, keeps.eq]
        · refine iff_of_false (fun hpc => ?_) fun hpc => ?_
          · rw [hpc] at goes
            contradiction
          · rw [hpc] at stands
            contradiction
    | idle after =>
        obtain ⟨n, hafter⟩ := after
        rw [hafter]
        exact ((h s).of_keeps rfl rfl rfl Iff.rfl).enqAll _

def Heeded (x : Session) : Prop :=
  x.pc.stage ≤ 8 → x.peerInterest = interestOf (lastInterest x.handled)

theorem heeded_sessionEffect {a : SessionAct}
    (hen : p.sessionEnabled s a = true) (h : Heeded (p.sess s)) :
    Heeded (p.sessionEffect s a).after := by
  have hle := stage_sessionEffect hen
  have hact := actCases hen
  generalize p.sessionEffect s a = e at hact hle
  intro hstage
  have hlow := hle.trans hstage
  cases hact with
  | thread c =>
      cases peerInterestStep_protocol (p := p) (s := s) (c := c) with
      | kept flag heard stays => rw [flag, heard hlow, h hlow]
      | heard m stands flag last => rw [flag, last]
  | setup stands goes quiet keeps taken =>
      rw [keeps.peerInterest, h hlow]
      rcases taken with hx | ⟨hx, hopens⟩
      · rw [hx]
      · rw [hx, lastInterest_append_nil]
        refine List.filter_eq_nil_iff.mpr fun m hm hm' => ?_
        exact absurd (hopens m hm) (by
          cases m with
          | handshakeMsg _ => cases hm'
          | actual m => cases m <;> simp_all [Msg.isInterest, Msg.opens])
  | idle after =>
      obtain ⟨n, heq⟩ := after
      rw [heq]
      exact h hlow

theorem heeded_reachable {cfg : Config} (h : Reachable cfg p) :
    ∀ s, Heeded (p.sess s) :=
  h.invariant (I := fun p => ∀ s, Heeded (p.sess s)) (fun _ _ => rfl)
    fun _ _ _ _ ih _ hstep => forall_sess ih (fun _ _ hx => hx)
      (fun _ _ hen hs => heeded_sessionEffect hen hs) hstep

/-- The steps that neither leave a flag `Unknown` after `q` was handled nor let
the flags and the choke messages come apart. -/
def Noticing (q : InterestStatus) (p : Proc) (a : Act) : Prop :=
  Compensated p a ∧ Seated q p a

instance (q : InterestStatus) (p : Proc) (a : Act) :
    Decidable (Noticing q p a) :=
  inferInstanceAs (Decidable (_ ∧ _))

theorem flag_known {cfg : Config} (hq : q ≠ .unknown)
    (h : Reaches step (Noticing q) (init cfg) p)
    (hint : (p.sess s).peerInterest = q) (hpc : (p.sess s).pc ≠ .preempt)
    (hquiet : ∀ ev ∈ (p.sess s).events, ev.isTimer = false) :
    (p.sess s).peerChoke ≠ .unknown := by
  have hnoted : ∀ s, Noted q (p.sess s) := by
    refine h.invariant (I := fun p => ∀ s, Noted q (p.sess s))
      (fun s hint => absurd hint.symm hq) fun _ _ _ hr ih hok hstep => ?_
    exact noted_step (lifecycle_reachable hr.reachable)
      (phased_reachable hr.reachable) hok.2 ih hstep
  refine (hnoted s hint hpc).resolve_right fun hqueued => ?_
  obtain ⟨ev, hev, htimer⟩ := List.any_eq_true.mp hqueued
  rw [hquiet ev hev] at htimer
  cases htimer

def Drained (p : Proc) : Prop :=
  ∀ e ∈ p.sh.sc.ss, (p.sess e.s).eq = [] ∧
    ((p.sess e.s).isActive = true → (p.sess e.s).pc.betweenEvents = true)

instance (p : Proc) : Decidable (Drained p) :=
  inferInstanceAs (Decidable (∀ e ∈ p.sh.sc.ss, _ ∧ (_ → _)))

theorem lucky_of_eligible {sc : SessionCollection} {v : Sid → Session} {e : Sn}
    (hmem : e ∈ sc.ss) (he : SessionCollection.eligible v e = true)
    (rnd : Nat) : ∃ l, sc.lucky v rnd = some l ∧ l ∈ sc.ss ∧
      SessionCollection.eligible v l = true := by
  have hfilter : e ∈ sc.ss.filter (SessionCollection.eligible v) :=
    List.mem_filter.mpr ⟨hmem, he⟩
  have hlt : rnd % (sc.ss.filter (SessionCollection.eligible v)).length <
      (sc.ss.filter (SessionCollection.eligible v)).length :=
    Nat.mod_lt _ (List.length_pos_of_mem hfilter)
  refine ⟨_, List.getElem?_eq_getElem hlt, ?_⟩
  exact List.mem_filter.mp (List.getElem_mem hlt)

theorem lucky_posts {sc sc' : SessionCollection} {v : Sid → Session} {e : Sn}
    {rnd : Nat} {posts : Posts} (hlucky : sc.lucky v rnd = some e)
    (hactive : (v e.s).isActive = true)
    (h : sc.optAlgorithm v rnd = some (sc', posts)) :
    (e.s, .timerUnchoke) ∈ posts := by
  simp only [SessionCollection.optAlgorithm, hlucky] at h
  repeat' split at h
  all_goals
    cases h
    try simp [unchokeCmd, hactive]

/--
In runs that find a seat for the interested, the flag is known once an
`Interested` and the timer commands are handled, and in those that also spare
the unknown from `NotInterested`, once any interest message is; and when all
queues are drained and some interested session is not told `Unchoke`,
`optAlgorithm` unchokes such a session.  The status of the interest is what the
event loop handled last.
-/
theorem interested_visible {cfg : Config}
    (h : Reaches step (Noticing .interested) (init cfg) p) :
    (∀ q, (q = .interested ∨ q = .notInterested ∧
        Reaches step (Noticing .notInterested) (init cfg) p) →
      ∀ s, (p.sess s).peerInterest = q → (p.sess s).pc ≠ .preempt →
      (∀ ev ∈ (p.sess s).events, ev.isTimer = false) →
      (p.sess s).peerChoke ≠ .unknown) ∧
    (∀ s, Heeded (p.sess s)) ∧
    (Drained p → (∃ e ∈ p.sh.sc.ss, Waiting (p.sess e.s)) → ∀ rnd,
      ∃ e ∈ p.sh.sc.ss, Waiting (p.sess e.s) ∧
        p.sh.sc.lucky p.sess rnd = some e ∧
        ∀ sc' posts, p.sh.sc.optAlgorithm p.sess rnd = some (sc', posts) →
          (e.s, .timerUnchoke) ∈ posts) := by
  refine ⟨?_, heeded_reachable h.reachable, ?_⟩
  · rintro q (rfl | ⟨rfl, h'⟩) s hint hpc hquiet
    · exact flag_known (by decide) h hint hpc hquiet
    · exact flag_known (by decide) h' hint hpc hquiet
  rintro hdrained ⟨e, he, hactive, hint, hlast⟩ rnd
  obtain ⟨heq, hbetween⟩ := hdrained e he
  have hcorrected := corrected_reaches
    (h.mono fun _ _ hok => (hok.1 : Compensated _ _))
  -- nothing is on its way to the session, so its flag is `Choked`
  have hevents : (p.sess e.s).events = [] := by
    have hpc := hbetween hactive
    unfold Session.events
    split
    · rename_i hhandle
      rw [hhandle] at hpc
      cases hpc
    · exact heq
  have hunknown : (p.sess e.s).peerChoke ≠ .unknown := by
    refine flag_known (by decide) h hint (fun hpc => ?_) (by simp [hevents])
    have := hbetween hactive
    rw [hpc] at this
    cases this
  have hunchoked : (p.sess e.s).peerChoke ≠ .unchoked := by
    intro hflag
    rcases (hcorrected e.s).written hflag with hw | hw
    · exact hlast hw
    · simp [hevents] at hw
  have hchoked : (p.sess e.s).peerChoke = .choked := by
    cases hflag : (p.sess e.s).peerChoke with
    | choked => rfl
    | unchoked => exact absurd hflag hunchoked
    | unknown => exact absurd hflag hunknown
  obtain ⟨l, hlucky, hl, helig⟩ := lucky_of_eligible
    (v := p.sess) he
    (by simp [SessionCollection.eligible, hactive, hchoked, hint]) rnd
  simp only [SessionCollection.eligible, Bool.and_eq_true,
    decide_eq_true_eq] at helig
  obtain ⟨⟨hlactive, hlchoked⟩, hlint⟩ := helig
  refine ⟨l, hl, ⟨hlactive, hlint, fun hw => ?_⟩, hlucky,
    fun sc' posts hopt => lucky_posts hlucky hlactive hopt⟩
  have := (hcorrected l.s).flagged hw
  rw [hlchoked] at this
  cases this

def askingAgainRun : List Act :=
  setupRun 0 [.absent] ++ setupRun 1 [.absent] ++ setupRun 2 [.absent] ++
    receive 0 .interestedMsg 5 ++ receive 1 .interestedMsg 5 ++
    receive 0 .notInterestedMsg 5 ++ receive 2 .interestedMsg 5 ++
    receive 0 .interestedMsg 3

def askingAgain : Proc :=
  (run (checkedStep step (Noticing .interested)) (init seed) askingAgainRun).get (by decide)

theorem interested_visible_askingAgain :
    Drained askingAgain ∧ (∃ e ∈ askingAgain.sh.sc.ss,
      Waiting (askingAgain.sess e.s)) ∧
      ∃ e ∈ askingAgain.sh.sc.ss, Waiting (askingAgain.sess e.s) ∧
        askingAgain.sh.sc.lucky askingAgain.sess 0 = some e :=
  have hdrained : Drained askingAgain := by decide
  have hwaiting : ∃ e ∈ askingAgain.sh.sc.ss,
      Waiting (askingAgain.sess e.s) :=
    ⟨⟨0, 0⟩, by decide, by decide, by decide, by decide⟩
  ⟨hdrained, hwaiting,
    let ⟨e, he, hw, hlucky, _⟩ :=
      (interested_visible (p := askingAgain) (reaches_get _)).2.2 hdrained
        hwaiting 0
    ⟨e, he, hw, hlucky⟩⟩

def overlooked : Proc :=
  (run step (init seed) (setupRun 0 [.absent] ++ setupRun 1 [.absent] ++
    setupRun 2 [.absent] ++ receive 0 .interestedMsg 5 ++
    receive 1 .interestedMsg 5 ++ receive 2 .interestedMsg 3)).get (by decide)

/-- Without the conditions, an interested session stays out of reach of the
optimistic timer, with its flag `Unknown`. -/
theorem interested_overlooked :
    ¬ ∀ (cfg : Config) (p : Proc), Reachable cfg p → Drained p →
      (∃ e ∈ p.sh.sc.ss, Waiting (p.sess e.s) ∧
        lastInterest (p.sess e.s).handled =
          some (.actual .interestedMsg)) →
      ∀ rnd, ∃ e, p.sh.sc.lucky p.sess rnd = some e := by
  intro h
  obtain ⟨e, he⟩ := h seed overlooked (reachable_get _) (by decide)
    ⟨⟨2, 2⟩, by decide, ⟨by decide, by decide, by decide⟩, by decide⟩ 0
  rw [show overlooked.sh.sc.lucky overlooked.sess 0 = none by decide] at he
  cases he

end Proc

end CntPeer
