import CntPeer.Foundation.History
import CntPeer.Process.Announce

/-!
# Choke flags and choke messages

`peer_choke` is what a session believes it told its peer last.  The two come
apart where a `Choke` is written without the flag and `relinquish` enqueues no
compensating `TimerChoke`.
-/

namespace CntPeer

open CntPeer.Foundation

def Msg.isChoke : Msg → Bool
  | .actual .chokeMsg | .actual .unchokeMsg => true
  | _ => false

def chokeMsgs (l : List Msg) : List Msg := l.filter Msg.isChoke

def lastChoke (l : List Msg) : Option Msg := (chokeMsgs l).getLast?

@[simp] theorem chokeMsgs_append (a b : List Msg) :
    chokeMsgs (a ++ b) = chokeMsgs a ++ chokeMsgs b :=
  List.filter_append ..

theorem lastChoke_append_nil {a b : List Msg} (h : chokeMsgs b = []) :
    lastChoke (a ++ b) = lastChoke a :=
  last_append_nil h

theorem lastChoke_append_one {a b : List Msg} {m : Msg}
    (h : chokeMsgs b = [m]) : lastChoke (a ++ b) = some m :=
  last_append_one h

def nextTimer (l : List Event) : Option Event := l.find? Event.isTimer

theorem nextTimer_append_of_some {l : List Event} {e : Event}
    (h : nextTimer l = some e) (k : List Event) :
    nextTimer (l ++ k) = some e := by
  rw [nextTimer] at h
  rw [nextTimer, List.find?_append, h, Option.some_or]

theorem nextTimer_append_of_none {l : List Event}
    (h : nextTimer l = none) (k : List Event) :
    nextTimer (l ++ k) = nextTimer k := by
  rw [nextTimer] at h
  rw [nextTimer, List.find?_append, h, Option.none_or, nextTimer]

theorem nextTimer_cons_of_not {e : Event} (h : e.isTimer = false)
    (l : List Event) : nextTimer (e :: l) = nextTimer l :=
  List.find?_cons_of_neg (by simp [h])

/-- The flag follows what was written, or a `TimerChoke` is on its way to
correct it. -/
structure Corrected (x : Session) : Prop where
  flagged : lastChoke x.sent = some (.actual .unchokeMsg) →
    x.peerChoke = .unchoked
  written : x.peerChoke = .unchoked →
    lastChoke x.sent = some (.actual .unchokeMsg) ∨ .timerChoke ∈ x.events

theorem Corrected.enqAll {x : Session} (h : Corrected x) (es : List Event) :
    Corrected (x.enqAll es) where
  flagged := h.flagged
  written hx := by
    rw [Session.enqAll_events]
    exact (h.written hx).imp_right (List.mem_append_left _)

theorem Corrected.of_eq {x y : Session} (h : Corrected x)
    (hflag : y.peerChoke = x.peerChoke) (hsent : y.sent = x.sent)
    (hev : y.events = x.events) : Corrected y where
  flagged hlast := by
    rw [hflag]
    exact h.flagged (hsent ▸ hlast)
  written hy := by
    rw [hsent, hev]
    exact h.written (hflag ▸ hy)

inductive ChokeStep (x : Session) (e : Effect) : Prop
  | quiet (out : chokeMsgs e.out = [])
      (flag : e.after.peerChoke = x.peerChoke)
  | choked (out : chokeMsgs e.out = [.actual .chokeMsg])
      (flag : e.after.peerChoke ≠ .unchoked)
  | unchoked (out : chokeMsgs e.out = [.actual .unchokeMsg])
      (flag : e.after.peerChoke = .unchoked)
  | relinquished (stands : x.pc = .relinquish)
      (out : chokeMsgs e.out = [.actual .chokeMsg])
      (flag : e.after.peerChoke = x.peerChoke)

theorem chokeStep_handle {sh : Shared} {x : Session} {e : Event} :
    ChokeStep x (handle sh x e) := by
  cases e with
  | timerChoke =>
      simp only [handle]
      split
      · exact .choked rfl (by simp [Effect.after])
      · exact .quiet rfl rfl
  | timerUnchoke =>
      simp only [handle]
      split
      · exact .unchoked rfl rfl
      · exact .quiet rfl rfl
  | msgNotInterest =>
      simp only [handle]
      split
      · exact .quiet rfl rfl
      · exact .choked rfl ‹_›
  | _ =>
      simp only [handle]
      repeat' split
      all_goals exact .quiet rfl rfl

namespace Proc

variable {p p' : Proc} {s t : Sid}

theorem chokeStep_protocol {c : Choice} :
    ChokeStep (p.sess s) (protocol p s c) := by
  cases hpc : (p.sess s).pc with
  | handle e =>
      simp only [protocol, hpc]
      exact chokeStep_handle
  | relinquish =>
      simp only [protocol, hpc, withCollection]
      split
      · exact .quiet rfl rfl
      · exact .relinquished hpc rfl rfl
  | markReady =>
      simp only [protocol, hpc]
      cases (p.sess s).bfMsg with
      | none => exact .quiet rfl rfl
      | some sv => exact .quiet rfl rfl
  | bcastNext i rest =>
      obtain ⟨m, pc, -, hstep⟩ := protocol_bcastNext (c := c) hpc
      rw [hstep]
      exact .quiet rfl rfl
  | _ =>
      simp only [protocol, hpc, withDifference, withCollection, drainStep,
        awaitStep]
      repeat' split
      all_goals exact .quiet rfl rfl

/-- `pn_set.contains` or `opt`, for the session at `addr`. -/
def holdsSlot (sc : SessionCollection) (addr : Nat) : Bool :=
  match sc.findAddr addr with
  | none => false
  | some e => sc.pnSet.contains e || sc.isOpt e.addr

/--
Two conditions.  When `MsgNotInterest` calls `relinquish`, the session holds a
slot or already has a `TimerChoke` in its queue; a teardown loop discards a
`TimerChoke` only when the flag needs no correction by it.
-/
def Compensated (p : Proc) : Act → Prop
  | .session s (.thread _) =>
      let x := p.sess s
      match x.pc with
      | .relinquish => holdsSlot p.sh.sc x.addr = true ∨ .timerChoke ∈ x.eq
      | .drain | .awaitTearDown => x.eq.head? = some .timerChoke →
          x.peerChoke = .unchoked →
          lastChoke x.sent = some (.actual .unchokeMsg) ∨
            .timerChoke ∈ x.eq.tail
      | _ => True
  | _ => True

instance (p : Proc) : (a : Act) → Decidable (Compensated p a)
  | .session s (.thread _) => by
      dsimp only [Compensated]
      generalize (p.sess s).pc = pc
      apply @Pc.casesOn _ pc
      all_goals
        intros
        infer_instance
  | .session _ (.create ..) | .session _ (.recvHandshake _)
  | .session _ (.recvBitfield _) | .session _ (.scan _)
  | .session _ (.readFails _) | .session _ (.received _)
  | .pnTick _ | .optTick _ | .cleanUp | .exit => .isTrue trivial

/--
No `TimerUnchoke` is ahead in the queue when `MsgNotInterest` calls
`relinquish`.  It would be handled before the `TimerChoke` that corrects the
flag, and be taken for a command already obeyed.
-/
def Prompt (p : Proc) : Act → Prop
  | .session s (.thread _) => (p.sess s).pc = .relinquish →
      nextTimer (p.sess s).eq ≠ some .timerUnchoke
  | _ => True

instance (p : Proc) : (a : Act) → Decidable (Prompt p a)
  | .session _ (.thread _) => inferInstanceAs (Decidable (_ → _))
  | .session _ (.create ..) | .session _ (.recvHandshake _)
  | .session _ (.recvBitfield _) | .session _ (.scan _)
  | .session _ (.readFails _) | .session _ (.received _)
  | .pnTick _ | .optTick _ | .cleanUp | .exit => .isTrue trivial

theorem relinquish_posts {c : Choice} (hlife : Lifecycle p)
    (hph : Phased (p.sess s)) (hpc : (p.sess s).pc = .relinquish)
    (hslot : holdsSlot p.sh.sc (p.sess s).addr = true) :
    ∃ rest, (protocol p s c).posts = (s, .timerChoke) :: rest := by
  have hmem := hlife.live s (by simp [hpc]) (by simp [hpc])
  have hfind := hlife.findAddr hmem rfl
  have hactive := hph.active.mpr (by rw [hpc]; decide)
  simp only [holdsSlot, hfind, Bool.or_eq_true] at hslot
  simp only [protocol, hpc, withCollection, SessionCollection.relinquish, hfind]
  cases hcontains : p.sh.sc.pnSet.contains ⟨s, (p.sess s).addr⟩ with
  | true => simp [chokeCmd, hactive]
  | false =>
      have hopt := hslot.resolve_left (by simp [hcontains])
      simp only [hopt]
      simp [chokeCmd, hactive]

theorem handled_timerChoke {c : Choice}
    (hpc : (p.sess s).pc = .handle .timerChoke) :
    (protocol p s c).after.peerChoke ≠ .unchoked := by
  simp only [protocol, hpc, handle]
  split
  · simp [Effect.after]
  · rename_i hchoked
    simp only [ne_eq, not_not] at hchoked
    simp [Effect.after, Session.goto, hchoked]

/-- A `TimerChoke` that leaves the queue has corrected the flag, or there was
nothing to correct. -/
theorem timerChoke_kept {c : Choice}
    (hok : Compensated p (.session s (.thread c)))
    (hmem : .timerChoke ∈ (p.sess s).events)
    (hflag : (p.sess s).peerChoke = .unchoked)
    (hflag' : (protocol p s c).after.peerChoke = .unchoked) :
    lastChoke (p.sess s).sent = some (.actual .unchokeMsg) ∨
      .timerChoke ∈ (protocol p s c).after.events := by
  cases queueStep_protocol (p := p) (s := s) (c := c) with
  | same events =>
      rw [events]
      exact .inr hmem
  | consumed e events handled stands =>
      rw [events, List.mem_cons] at hmem
      rcases hmem with rfl | hmem
      swap
      · exact .inr hmem
      rcases stands with hpc | hpc | hpc
      · exact absurd hflag' (handled_timerChoke hpc)
      all_goals
        simp only [Session.events, hpc] at events
        simp only [Compensated, hpc] at hok
        rw [events] at hok
        exact hok rfl hflag

theorem corrected_protocol {c : Choice} (hlife : Lifecycle p)
    (hph : Phased (p.sess s)) (hok : Compensated p (.session s (.thread c)))
    (h : Corrected (p.sess s)) :
    Corrected ((protocol p s c).after.enqAll
      (postsTo s (protocol p s c).posts)) := by
  cases chokeStep_protocol (p := p) (s := s) (c := c) with
  | quiet out flag =>
      refine Corrected.enqAll ⟨?_, ?_⟩ _
      · intro hlast
        rw [sent_protocol, lastChoke_append_nil out] at hlast
        rw [flag]
        exact h.flagged hlast
      · intro hflag'
        rw [sent_protocol, lastChoke_append_nil out]
        have hflag := flag.symm.trans hflag'
        rcases h.written hflag with hlast | hmem
        · exact .inl hlast
        · exact timerChoke_kept hok hmem hflag hflag'
  | choked out flag =>
      refine Corrected.enqAll ⟨?_, fun hflag' => absurd hflag' flag⟩ _
      intro hlast
      rw [sent_protocol, lastChoke_append_one out] at hlast
      cases hlast
  | unchoked out flag =>
      refine Corrected.enqAll ⟨fun _ => flag, fun _ => .inl ?_⟩ _
      rw [sent_protocol, lastChoke_append_one out]
  | relinquished stands out flag =>
      refine ⟨?_, fun _ => .inr ?_⟩
      · intro hlast
        rw [Session.enqAll_sent, sent_protocol, lastChoke_append_one out] at hlast
        cases hlast
      · rw [Session.enqAll_events, List.mem_append]
        simp only [Compensated, stands] at hok
        rcases hok with hslot | hmem
        · right
          obtain ⟨rest, hposts⟩ := relinquish_posts hlife hph stands hslot
          exact mem_postsTo.mpr (hposts ▸ List.mem_cons_self)
        · left
          have hev : (p.sess s).events = (p.sess s).eq := by
            simp only [Session.events, stands]
          cases queueStep_protocol (p := p) (s := s) (c := c) with
          | same events => rwa [events, hev]
          | consumed e events handled stands' => simp [stands] at stands'

theorem corrected_step {a : Act} (hlife : Lifecycle p)
    (hph : ∀ s, Phased (p.sess s)) (hok : Compensated p a)
    (h : ∀ s, Corrected (p.sess s)) (hstep : p.step a = some p') :
    ∀ s, Corrected (p'.sess s) := by
  intro s
  rcases sess_step hstep s with ⟨es, heq⟩ | ⟨act, rfl, hen, heq⟩
  · rw [heq]
    exact (h s).enqAll es
  · rw [heq]
    have hact := actCases hen
    generalize p.sessionEffect s act = e at hact
    cases hact with
    | thread c => exact corrected_protocol hlife (hph s) hok (h s)
    | setup stands goes quiet keeps =>
        refine ((h s).of_eq keeps.peerChoke keeps.sent ?_).enqAll _
        rw [quiet.1, quiet.2, keeps.eq]
    | idle after =>
        obtain ⟨n, hafter⟩ := after
        rw [hafter]
        refine Corrected.enqAll ?_ _
        exact ⟨(h s).flagged, (h s).written⟩

theorem corrected_reaches {cfg : Config}
    (h : Reaches step Compensated (init cfg) p) :
    ∀ s, Corrected (p.sess s) := by
  refine h.invariant (I := fun p => ∀ s, Corrected (p.sess s))
    (fun s => ⟨nofun, nofun⟩) fun _ _ _ hr ih hok hstep => ?_
  exact corrected_step (lifecycle_reachable hr.reachable)
    (phased_reachable hr.reachable) hok ih hstep

/-- While the session is in its event loop, a flag that runs ahead of what was
written is corrected before the next timer command is obeyed. -/
def Obeyed (x : Session) : Prop :=
  x.pc.stage ≤ 8 → x.peerChoke = .unchoked →
    lastChoke x.sent = some (.actual .unchokeMsg) ∨
      nextTimer x.events = some .timerChoke

theorem Obeyed.enqAll {x : Session} (h : Obeyed x) (es : List Event) :
    Obeyed (x.enqAll es) := by
  intro hstage hflag
  rw [Session.enqAll_events]
  exact (h hstage hflag).imp_right (nextTimer_append_of_some · es)

/-- The next timer command stays the next one until it is handled, and a
`TimerChoke` that is handled takes the flag back. -/
theorem nextTimer_kept {c : Choice} (hstage : (p.sess s).pc.stage ≤ 8)
    (hnext : nextTimer (p.sess s).events = some .timerChoke)
    (hflag' : (protocol p s c).after.peerChoke = .unchoked) :
    nextTimer (protocol p s c).after.events = some .timerChoke := by
  cases queueStep_protocol (p := p) (s := s) (c := c) with
  | same events => rwa [events]
  | consumed e events handled stands =>
      rw [events] at hnext
      cases htimer : e.isTimer with
      | false => rwa [nextTimer_cons_of_not htimer] at hnext
      | true =>
          have hfirst : nextTimer (e :: (protocol p s c).after.events) = some e :=
            List.find?_cons_of_pos htimer
          obtain rfl := Option.some.inj (hfirst.symm.trans hnext)
          rcases stands with hpc | hpc | hpc
          · exact absurd hflag' (handled_timerChoke hpc)
          all_goals
            rw [hpc] at hstage
            exact absurd hstage (by decide)

theorem obeyed_protocol {c : Choice} (hlife : Lifecycle p)
    (hph : Phased (p.sess s)) (hok : Compensated p (.session s (.thread c)))
    (hprompt : Prompt p (.session s (.thread c))) (h : Obeyed (p.sess s)) :
    Obeyed ((protocol p s c).after.enqAll
      (postsTo s (protocol p s c).posts)) := by
  cases chokeStep_protocol (p := p) (s := s) (c := c) with
  | quiet out flag =>
      refine Obeyed.enqAll (fun hstage' hflag' => ?_) _
      have hstage := stage_protocol.trans hstage'
      rw [sent_protocol, lastChoke_append_nil out]
      exact (h hstage (flag.symm.trans hflag')).imp_right
        (nextTimer_kept hstage · hflag')
  | choked out flag =>
      exact Obeyed.enqAll (fun _ hflag' => absurd hflag' flag) _
  | unchoked out flag =>
      refine Obeyed.enqAll (fun _ _ => .inl ?_) _
      rw [sent_protocol, lastChoke_append_one out]
  | relinquished stands out flag =>
      refine fun _ _ => .inr ?_
      have hev : (protocol p s c).after.events = (p.sess s).eq := by
        cases queueStep_protocol (p := p) (s := s) (c := c) with
        | same events => rw [events, Session.events, stands]
        | consumed e events handled stands' => simp [stands] at stands'
      rw [Session.enqAll_events, hev]
      simp only [Compensated, stands] at hok
      have hahead := hprompt stands
      cases hnext : nextTimer (p.sess s).eq with
      | some e =>
          refine nextTimer_append_of_some ?_ _
          have htimer := List.find?_some hnext
          rw [hnext] at hahead
          cases e with
          | timerChoke => exact hnext
          | timerUnchoke => exact absurd rfl hahead
          | _ => cases htimer
      | none =>
          -- no `TimerChoke` is queued, so the session holds a slot
          have hnot : .timerChoke ∉ (p.sess s).eq := fun hmem =>
            List.find?_eq_none.mp hnext _ hmem rfl
          obtain ⟨rest, hposts⟩ := relinquish_posts (c := c) hlife hph stands
            (hok.resolve_right hnot)
          rw [nextTimer_append_of_none hnext, hposts, postsTo_cons, if_pos rfl]
          rfl

theorem obeyed_step {a : Act} (hlife : Lifecycle p)
    (hph : ∀ s, Phased (p.sess s)) (hok : Compensated p a)
    (hprompt : Prompt p a) (h : ∀ s, Obeyed (p.sess s))
    (hstep : p.step a = some p') : ∀ s, Obeyed (p'.sess s) := by
  intro s
  rcases sess_step hstep s with ⟨es, heq⟩ | ⟨act, rfl, hen, heq⟩
  · rw [heq]
    exact (h s).enqAll es
  · rw [heq]
    have hstage := stage_sessionEffect hen
    have hact := actCases hen
    generalize p.sessionEffect s act = e at hact hstage
    cases hact with
    | thread c => exact obeyed_protocol hlife (hph s) hok hprompt (h s)
    | setup stands goes quiet keeps =>
        refine Obeyed.enqAll (fun hstage' hflag' => ?_) _
        have hevents : e.after.events = (p.sess s).events := by
          rw [quiet.1, quiet.2, keeps.eq]
        rw [keeps.sent, hevents]
        exact h s (hstage.trans hstage') (keeps.peerChoke ▸ hflag')
    | idle after =>
        obtain ⟨n, hafter⟩ := after
        rw [hafter]
        exact Obeyed.enqAll (h s) _

theorem obeyed_reaches {cfg : Config}
    (h : Reaches step (fun p a => Compensated p a ∧ Prompt p a) (init cfg) p) :
    ∀ s, Obeyed (p.sess s) := by
  refine h.invariant (I := fun p => ∀ s, Obeyed (p.sess s))
    (fun s _ => nofun) fun _ _ _ hr ih hok hstep => ?_
  exact obeyed_step (lifecycle_reachable hr.reachable)
    (phased_reachable hr.reachable) hok.1 hok.2 ih hstep

def Follows (x : Session) : Prop :=
  x.pc.stage ≤ 8 → (x.selfChoke = .unchoked ↔
    lastChoke x.handled = some (.actual .unchokeMsg))

theorem follows_handle {sh : Shared} {x : Session} {e : Event}
    (hpc : x.pc = .handle e) (h : Follows x) :
    Follows (handle sh x e).after := by
  have hx := h (by rw [hpc]; exact le_rfl)
  have hskip : ∀ m, Msg.isChoke (.actual m) = false →
      lastChoke (x.handled ++ [.actual m]) = lastChoke x.handled := by
    intro m hm
    exact lastChoke_append_nil (by simp [chokeMsgs, hm])
  intro _
  cases e with
  | msgChoke | msgUnchoke =>
      simp only [handle, Effect.after, Session.took]
      rw [lastChoke_append_one (b := [.actual _]) rfl]
      simp
  | _ =>
      simp only [handle]
      repeat' split
      all_goals first
        | exact hx
        | (simp only [Effect.after, Session.goto, Session.took]
           rw [hskip _ rfl]
           exact hx)

theorem follows_protocol {c : Choice} (h : Follows (p.sess s)) :
    Follows (protocol p s c).after := by
  cases hpc : (p.sess s).pc with
  | handle e =>
      simp only [protocol, hpc]
      exact follows_handle hpc h
  | drain | awaitTearDown =>
      intro hstage
      have hle := (stage_protocol (p := p) (s := s) (c := c)).trans hstage
      rw [hpc] at hle
      exact absurd hle (by decide)
  | bcastNext i rest =>
      intro hstage
      have hx := h (stage_protocol.trans hstage)
      obtain ⟨m, pc, -, hstep⟩ := protocol_bcastNext (c := c) hpc
      rw [hstep]
      exact hx
  | _ =>
      intro hstage
      have hx := h (stage_protocol.trans hstage)
      simp only [protocol, hpc, withDifference, withCollection]
      repeat' split
      all_goals exact hx

theorem follows_sessionEffect {a : SessionAct}
    (hen : p.sessionEnabled s a = true) (h : Follows (p.sess s)) :
    Follows (p.sessionEffect s a).after := by
  have hle := stage_sessionEffect hen
  have hskip : ∀ m, Msg.isChoke m = false →
      lastChoke ((p.sess s).handled ++ [m]) = lastChoke (p.sess s).handled := by
    intro m hm
    exact lastChoke_append_nil (by simp [chokeMsgs, hm])
  cases a with
  | thread c => exact follows_protocol h
  | recvHandshake _ | recvBitfield _ =>
      intro hstage
      have hx := h (hle.trans hstage)
      simp only [sessionEffect]
      repeat' split
      all_goals first
        | exact hx
        | (simp only [Effect.after, panicEffect, Session.goto, Session.took]
           rw [hskip _ rfl]
           exact hx)
  | scan m =>
      intro hstage
      have hx := h (hle.trans hstage)
      simp only [sessionEffect]
      split
      all_goals exact hx
  | _ =>
      intro hstage
      exact h (hle.trans hstage)

theorem follows_reachable {cfg : Config} (h : Reachable cfg p) :
    ∀ s, Follows (p.sess s) :=
  h.invariant (I := fun p => ∀ s, Follows (p.sess s))
    (fun _ _ => ⟨nofun, nofun⟩) fun _ _ _ _ ih _ hstep =>
      forall_sess ih (fun _ _ hx => hx)
        (fun _ _ hen hs => follows_sessionEffect hen hs) hstep

/-- The other end has handled the choke messages that `x` wrote, none is in
flight. -/
def CaughtUp (x y : Session) : Prop :=
  y.pc.stage ≤ 8 ∧ chokeMsgs y.handled = chokeMsgs x.sent

instance (x y : Session) : Decidable (CaughtUp x y) :=
  inferInstanceAs (Decidable (_ ∧ _))

theorem CaughtUp.selfChoke {cfg : Config} {q : Proc} {x : Session}
    (hq : Reachable cfg q) (h : CaughtUp x (q.sess t)) :
    (q.sess t).selfChoke = .unchoked ↔
      lastChoke x.sent = some (.actual .unchokeMsg) := by
  rw [follows_reachable hq t h.1, lastChoke, lastChoke, h.2]

/--
When every `MsgNotInterest` and every teardown compensates, a session with no
timer command left agrees with the messages it wrote, and so with the peer that
has handled all of them.  When it compensates promptly, a `TimerUnchoke` that
changes nothing finds the peer unchoked.
-/
theorem choke_agreement {cfg : Config}
    (h : Reaches step Compensated (init cfg) p) :
    ((∀ ev ∈ (p.sess s).events, ev.isTimer = false) →
      ((p.sess s).peerChoke = .unchoked ↔
        lastChoke (p.sess s).sent = some (.actual .unchokeMsg)) ∧
      ∀ (cfg' : Config) (q : Proc) (t : Sid), Reachable cfg' q →
        CaughtUp (p.sess s) (q.sess t) →
        ((p.sess s).peerChoke = .unchoked ↔
          (q.sess t).selfChoke = .unchoked)) ∧
    (Reaches step (fun p a => Compensated p a ∧ Prompt p a) (init cfg) p →
      (p.sess s).pc = .handle .timerUnchoke →
      (p.sess s).peerChoke = .unchoked →
      lastChoke (p.sess s).sent = some (.actual .unchokeMsg) ∧
      ∀ (cfg' : Config) (q : Proc) (t : Sid), Reachable cfg' q →
        CaughtUp (p.sess s) (q.sess t) → (q.sess t).selfChoke = .unchoked) := by
  constructor
  · intro hquiet
    have hcorrected := corrected_reaches h s
    have hflag : (p.sess s).peerChoke = .unchoked ↔
        lastChoke (p.sess s).sent = some (.actual .unchokeMsg) := by
      refine ⟨fun hx => ?_, hcorrected.flagged⟩
      rcases hcorrected.written hx with hlast | hmem
      · exact hlast
      · cases hquiet _ hmem
    refine ⟨hflag, fun cfg' q t hq htold => ?_⟩
    rw [hflag, htold.selfChoke hq]
  · intro hprompt hpc hflag
    have hlast : lastChoke (p.sess s).sent = some (.actual .unchokeMsg) := by
      have hevents : nextTimer (p.sess s).events = some .timerUnchoke := by
        simp [Session.events, hpc, nextTimer, Event.isTimer]
      refine (obeyed_reaches hprompt s (by rw [hpc]; exact le_rfl)
        hflag).resolve_right fun hnext => ?_
      rw [hevents] at hnext
      cases hnext
    exact ⟨hlast, fun cfg' q t hq htold => (htold.selfChoke hq).mpr hlast⟩

def relinquishRun : List Act :=
  setupRun 0 [.absent] ++ receive 0 .interestedMsg 5 ++
    receive 0 .notInterestedMsg 5

def relinquished : Proc :=
  (run (checkedStep step Compensated) (init seed) relinquishRun).get (by decide)

def told : Proc :=
  (run step (init leech) (setupRun 0 [.absent] ++ receive 0 .unchokeMsg 3 ++
    receive 0 .chokeMsg 2 ++ receive 0 .chokeMsg 2)).get (by decide)

def reselected : Proc :=
  (run (checkedStep step fun p a => Compensated p a ∧ Prompt p a) (init seed)
    (setupRun 0 [.absent] ++ receive 0 .interestedMsg 5 ++
      [.pnTick [⟨0, 0⟩], .session 0 (.thread {})])).get (by decide)

def toldUnchoked : Proc :=
  (run step (init leech)
    (setupRun 0 [.absent] ++ receive 0 .unchokeMsg 3)).get (by decide)

theorem choke_agreement_relinquished :
    (((relinquished.sess 0).peerChoke = .unchoked ↔
      lastChoke (relinquished.sess 0).sent = some (.actual .unchokeMsg)) ∧
    ((relinquished.sess 0).peerChoke = .unchoked ↔
      (told.sess 0).selfChoke = .unchoked)) ∧
    lastChoke (reselected.sess 0).sent = some (.actual .unchokeMsg) ∧
    (toldUnchoked.sess 0).selfChoke = .unchoked :=
  have h := (choke_agreement (p := relinquished) (s := 0) (reaches_get _)).1
    (by decide)
  have hprompt : Reaches step (fun p a => Compensated p a ∧ Prompt p a)
      (init seed) reselected := reaches_get _
  have h' := (choke_agreement (s := 0) (hprompt.mono fun _ _ ha => ha.1)).2
    hprompt (by decide) (by decide)
  ⟨⟨h.1, h.2 leech told 0 (reachable_get _) (by decide)⟩,
    h'.1, h'.2 leech toldUnchoked 0 (reachable_get _) (by decide)⟩

-- a `TimerUnchoke` of the timer waits while the slot is given up, is handled
-- ahead of the compensating `TimerChoke` and writes nothing
example : (run (checkedStep step Compensated) (init seed)
    (setupRun 0 [.absent] ++ receive 0 .interestedMsg 5 ++
      [.session 0 (.scan .notInterestedMsg), .pnTick [⟨0, 0⟩]] ++
      List.replicate 4 (.session 0 (.thread {})))).map
    (fun p => ((p.sess 0).pc, (p.sess 0).peerChoke, lastChoke (p.sess 0).sent)) =
    some (.handle .timerUnchoke, .unchoked, some (.actual .chokeMsg)) := by
  decide

/-- Sessions 0 and 1 hold the slots; the timer prefers session 2, and session 1
loses its slot while it stays unchoked. -/
def slotlessRun : List Act :=
  setupRun 0 [.absent] ++ setupRun 1 [.absent] ++ setupRun 2 [.absent] ++
    receive 0 .interestedMsg 3 ++ receive 1 .interestedMsg 5 ++
    receive 2 .interestedMsg 3 ++
    .pnTick [⟨2, 2⟩, ⟨0, 0⟩, ⟨1, 1⟩] :: receive 1 .notInterestedMsg 3

def slotless : Proc := (run step (init seed) slotlessRun).get (by decide)

/-- Without the condition, a session can believe to have unchoked a peer that
it told to be choked. -/
theorem choke_disagreement :
    ¬ ∀ (cfg : Config) (p : Proc) (s : Sid), Reachable cfg p →
      (p.sess s).pc = .loop → (∀ ev ∈ (p.sess s).eq, ev.isTimer = false) →
      ((p.sess s).peerChoke = .unchoked ↔
        lastChoke (p.sess s).sent = some (.actual .unchokeMsg)) := by
  intro h
  have hiff := h seed slotless 1 (reachable_get _) (by decide) (by decide)
  exact absurd (hiff.mp (by decide)) (by decide)

end Proc

end CntPeer
