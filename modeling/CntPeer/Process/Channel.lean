import CntPeer.Process.Steps

/-!
# The two directions of a connection

A session takes the messages of its peer off the connection in order: what has
been read is handled, enqueued or in hand.  Both directions start with a
handshake and a bitfield, and neither comes again.
-/

namespace CntPeer

open CntPeer.Foundation

def Session.inbox (x : Session) : List Msg := x.handled ++ x.pending

/-- The read is one that its reader accepts: `setup` takes a bitfield after the
handshake, the scanner takes none. -/
def SessionAct.expected : SessionAct → Bool
  | .recvBitfield m => (Msg.actual m).opens
  | .scan m => !(Msg.actual m).opens
  | _ => true

def Act.inputAt : Act → Sid → List Msg
  | .session s a, t => if t = s then a.input else []
  | _, _ => []

def Proc.outputAt (p : Proc) : Act → Sid → List Msg
  | .session s a, t => if t = s then (p.sessionEffect s a).out else []
  | _, _ => []

def Act.expected : Act → Bool
  | .session _ a => a.expected
  | _ => true

theorem opens_of_msg? {e : Event} {m : Msg} (h : e.msg? = some m) :
    m.opens = false := by
  cases e <;> cases h <;> rfl

theorem scanned_of_expected {m : ActualMsg}
    (h : (SessionAct.scan m).expected = true) : ∃ e, scanned m = .ok e := by
  cases m
  all_goals first
    | exact ⟨_, rfl⟩
    | cases h

def Internal (es : List Event) : Prop := es.filterMap Event.msg? = []

theorem internal_of_forall {es : List Event} (h : ∀ e ∈ es, e.msg? = none) :
    Internal es :=
  List.filterMap_eq_nil_iff.mpr h

theorem msg?_of_isTimer {e : Event} (h : e.isTimer = true) :
    e.msg? = none := by
  cases e <;> simp_all [Event.isTimer, Event.msg?]

theorem QueueStep.inbox {x y : Session} (h : QueueStep x y) :
    y.inbox = x.inbox := by
  cases h with
  | same events handled =>
      simp only [Session.inbox, Session.pending, events, handled]
  | consumed e events handled stands =>
      simp only [Session.inbox, Session.pending, events, handled,
        List.filterMap_cons]
      cases e.msg? <;> simp

theorem Session.inbox_enqAll (x : Session) (es : List Event) :
    (x.enqAll es).inbox = x.inbox ++ es.filterMap Event.msg? := by
  simp [inbox]

def Quiet (x : Session) : Prop := x.pc.stage ≤ 6 → x.pending = []

structure Received (x : Session) : Prop where
  silent : x.pc.stage ≤ 4 → x.inbox = []
  greeted : x.pc.stage = 5 → ∃ id, x.inbox = [.handshakeMsg id]
  opened : 6 ≤ x.pc.stage → ∃ id sv rest,
    x.inbox = .handshakeMsg id :: .actual (.bitfieldMsg sv) :: rest ∧
      ∀ m ∈ rest, m.opens = false

theorem Received.congr {x y : Session} (h : Received x) (hpc : y.pc = x.pc)
    (hinbox : y.inbox = x.inbox) : Received y :=
  ⟨by rw [hpc, hinbox]; exact h.silent, by rw [hpc, hinbox]; exact h.greeted,
    by rw [hpc, hinbox]; exact h.opened⟩

structure Opening (selfPeerId : Int) (x : Session) : Prop where
  silent : x.pc.stage ≤ 1 → x.sent = []
  greeted : 2 ≤ x.pc.stage → x.pc.stage ≤ 3 →
    x.sent = [.handshakeMsg selfPeerId]
  opened : 4 ≤ x.pc.stage → ∃ sv rest, x.bfMsg = some sv ∧
    x.sent = .handshakeMsg selfPeerId :: .actual (.bitfieldMsg sv) :: rest ∧
      ∀ m ∈ rest, m.opens = false

theorem Opening.congr {x y : Session} {n : Int} (h : Opening n x)
    (hstage : y.pc.stage = x.pc.stage ∨ 4 ≤ x.pc.stage ∧ 4 ≤ y.pc.stage)
    (hbf : y.bfMsg = x.bfMsg) (hsent : y.sent = x.sent) : Opening n y := by
  refine ⟨fun hle => ?_, fun hge hle => ?_, fun hge => ?_⟩
  · rw [hsent]
    exact h.silent (by omega)
  · rw [hsent]
    exact h.greeted (by omega) (by omega)
  · rw [hbf, hsent]
    exact h.opened (by omega)

namespace Proc

variable {p p' : Proc} {s t : Sid}

theorem postsTo_internal {a : SessionAct} (ha : ∀ m, a ≠ .scan m ∨ t ≠ s)
    (hen : p.sessionEnabled s a = true) :
    Internal (postsTo t (p.sessionEffect s a).posts) := by
  refine internal_of_forall fun ev hev => ?_
  rw [mem_postsTo] at hev
  have hact := actCases hen
  generalize p.sessionEffect s a = e at hact hev
  cases hact with
  | thread c =>
      rcases mayPost_protocol _ hev with ht | ⟨i, rest, rfl, -⟩
      · exact msg?_of_isTimer ht
      · rfl
  | setup stands goes quiet keeps taken out posts =>
      rw [posts] at hev
      cases hev
  | idle after out posts =>
      obtain ⟨rfl, m, rfl, -⟩ := posts t ev hev
      rcases ha m with h | h <;> contradiction

theorem inbox_sessionEffect {a : SessionAct}
    (hen : p.sessionEnabled s a = true) (hexp : a.expected = true)
    (hquiet : Quiet (p.sess s)) :
    (p.sessionEffect s a).after.inbox ++
        (postsTo s (p.sessionEffect s a).posts).filterMap Event.msg? =
      (p.sess s).inbox ++ a.input := by
  have hnil : (∀ m, a ≠ .scan m) →
      (postsTo s (p.sessionEffect s a).posts).filterMap Event.msg? = [] :=
    fun ha => postsTo_internal (fun m => .inl (ha m)) hen
  cases a with
  | thread c =>
      rw [hnil (by simp)]
      simpa [SessionAct.input, sessionEffect] using
        (queueStep_protocol (p := p) (s := s) (c := c)).inbox
  | create _ _ | readFails _ | received _ =>
      rw [hnil (by simp)]
      simpa [SessionAct.input] using (queueStep_sessionEffect hen rfl).inbox
  | recvHandshake peerId =>
      simp only [sessionEnabled, decide_eq_true_eq] at hen
      have hpend := hquiet (by rw [hen]; decide)
      simp only [Session.pending, Session.events, hen] at hpend
      simp only [sessionEffect]
      split
      all_goals simp [Session.inbox, Session.pending, Session.events,
        Effect.after, panicEffect, Session.goto, hen, hpend, SessionAct.input]
  | recvBitfield m =>
      simp only [sessionEnabled, decide_eq_true_eq] at hen
      have hpend := hquiet (by rw [hen]; decide)
      simp only [Session.pending, Session.events, hen] at hpend
      cases m with
      | bitfieldMsg sv =>
          simp [sessionEffect, Session.inbox, Session.pending, Session.events,
            Effect.after, Session.took, hen, hpend, SessionAct.input]
      | _ => cases hexp
  | scan m =>
      simp only [sessionEffect]
      obtain ⟨e, he⟩ := scanned_of_expected hexp
      simp [Session.inbox, Session.pending, Session.events, Effect.after, he,
        msg?_of_scanned he, SessionAct.input]

theorem sent_sessionEffect {a : SessionAct}
    (hen : p.sessionEnabled s a = true) :
    (p.sessionEffect s a).after.sent =
      (p.sess s).sent ++ (p.sessionEffect s a).out := by
  have hact := actCases hen
  generalize p.sessionEffect s a = e at hact
  cases hact with
  | thread c => exact sent_protocol
  | setup stands goes quiet keeps taken out =>
      rw [keeps.sent, out, List.append_nil]
  | idle after out =>
      obtain ⟨n, heq⟩ := after
      rw [heq, out, List.append_nil]

theorem inbox_step {a : Act} (hexp : a.expected = true)
    (hquiet : ∀ s, Quiet (p.sess s)) (hstep : p.step a = some p') (t : Sid) :
    (p'.sess t).inbox = (p.sess t).inbox ++ a.inputAt t := by
  cases a with
  | session s act =>
      obtain ⟨hen, rfl⟩ := session_step hstep
      rw [commit_sess, Session.inbox_enqAll, Act.inputAt]
      by_cases hts : t = s
      · subst t
        rw [moved_self, if_pos rfl]
        exact inbox_sessionEffect hen hexp (hquiet s)
      · rw [moved_of_ne hts, if_neg hts,
          postsTo_internal (fun _ => .inr hts) hen]
  | _ =>
      obtain ⟨es, hes, heq⟩ := (background_step hstep rfl).sess t
      rw [heq, Session.inbox_enqAll,
        internal_of_forall fun e he => msg?_of_isTimer (hes e he)]
      rfl

theorem sent_step {a : Act} (hstep : p.step a = some p') (t : Sid) :
    (p'.sess t).sent = (p.sess t).sent ++ p.outputAt a t := by
  cases a with
  | session s act =>
      obtain ⟨hen, rfl⟩ := session_step hstep
      rw [commit_sess, Session.enqAll_sent, outputAt]
      by_cases hts : t = s
      · subst t
        rw [moved_self, if_pos rfl]
        exact sent_sessionEffect hen
      · rw [moved_of_ne hts, if_neg hts, List.append_nil]
  | _ =>
      obtain ⟨es, -, heq⟩ := (background_step hstep rfl).sess t
      rw [heq, Session.enqAll_sent]
      exact (List.append_nil _).symm

theorem pending_sessionEffect {a : SessionAct}
    (hen : p.sessionEnabled s a = true) (hscan : ∀ m, a ≠ .scan m)
    (h : Quiet (p.sess s)) : Quiet (p.sessionEffect s a).after := by
  intro hstage
  have hmono := stage_sessionEffect hen
  have hact := actCases hen
  generalize p.sessionEffect s a = e at hact hstage hmono
  cases hact with
  | thread c =>
      cases queueStep_protocol (p := p) (s := s) (c := c) with
      | same events =>
          rw [Session.pending, events]
          exact h (hmono.trans hstage)
      | consumed ev events handled stands =>
          exfalso
          rcases stands with hpc | hpc | hpc
          all_goals
            rw [hpc] at hmono
            exact absurd (hmono.trans hstage) (by simp [Pc.stage])
  | setup stands goes quiet keeps =>
      rw [Session.pending, quiet.2, keeps.eq, ← quiet.1]
      exact h (by omega)
  | idle after =>
      obtain ⟨n, heq⟩ := after
      rw [heq]
      exact h (hmono.trans hstage)

theorem quiet_step {a : Act} (h : ∀ s, Quiet (p.sess s))
    (hph : ∀ s, Phased (p.sess s)) (hstep : p.step a = some p') :
    ∀ s, Quiet (p'.sess s) := by
  intro t
  obtain ⟨-, ⟨s, act, rfl, hen, rfl⟩ | hb⟩ := step_cases hstep
  · intro hstage
    rw [commit_sess, Session.enqAll_pc] at hstage
    rw [commit_sess, Session.enqAll_pending]
    by_cases hts : t = s
    · subst t
      rw [moved_self] at hstage ⊢
      have hscan : ∀ m, act ≠ .scan m := by
        rintro m rfl
        have hmono := stage_sessionEffect hen
        simp only [sessionEnabled, Bool.and_eq_true] at hen
        have := (hph s).scanning.mp hen.1
        omega
      rw [pending_sessionEffect hen hscan (h s) hstage,
        postsTo_internal (fun m => .inl (hscan m)) hen, List.append_nil]
    · rw [moved_of_ne hts] at hstage ⊢
      rw [h t hstage, postsTo_internal (fun _ => .inr hts) hen,
        List.append_nil]
  · obtain ⟨es, hes, heq⟩ := hb.sess t
    intro hstage
    rw [heq] at hstage ⊢
    rw [Session.enqAll_pending, h t hstage,
      internal_of_forall fun e he => msg?_of_isTimer (hes e he)]
    rfl

theorem quiet_reachable {cfg : Config} (h : Reachable cfg p) :
    ∀ s, Quiet (p.sess s) :=
  h.invariant (fun _ _ => rfl) fun _ _ _ hr ih _ hstep =>
    quiet_step ih (phased_reachable hr) hstep

theorem expected_of_running {a : Act} (hstep : p.step a = some p')
    (hrun : p'.sh.halt = none) : a.expected = true := by
  cases a with
  | session s act =>
      obtain ⟨-, rfl⟩ := session_step hstep
      cases act with
      | recvBitfield m | scan m =>
          cases m
          all_goals first
            | rfl
            | cases hrun
      | _ => rfl
  | _ => rfl

/-- A thread passes the stages of `setup` that wait for the peer only when the
peer has sent something. -/
theorem stage_waits {c : Choice} (hrun : runnable p s = true) :
    (p.sess s).pc.stage ≤ 3 ∧ (protocol p s c).after.pc.stage ≤ 4 ∨
      6 ≤ (p.sess s).pc.stage := by
  cases hpc : (p.sess s).pc with
  | absent | recvHandshake | recvBitfield => simp [runnable, hpc] at hrun
  | handshake | snapshot | markReady =>
      left
      simp [protocol, hpc, Effect.after, Session.goto, Pc.stage]
  | _ =>
      right
      simp [Pc.stage]

theorem received_session {a : SessionAct} (hen : p.sessionEnabled s a = true)
    (hph : Phased (p.sess s)) (h : Received (p.sess s))
    (hexp : a.expected = true)
    (hrun : (p.sessionEffect s a).sh.halt = none) {x : Session}
    (hpc : x.pc = (p.sessionEffect s a).after.pc)
    (hinbox : x.inbox = (p.sess s).inbox ++ a.input) : Received x := by
  have hmono := stage_sessionEffect hen
  rw [← hpc] at hmono
  cases a with
  | thread c =>
      replace hinbox := hinbox.trans (List.append_nil _)
      rcases stage_waits (c := c) hen with ⟨hlow, hlow'⟩ | hhigh
      · rw [sessionEffect] at hpc
        rw [← hpc] at hlow'
        exact ⟨fun _ => hinbox.trans (h.silent (by omega)), by omega, by omega⟩
      · exact ⟨by omega, by omega, fun _ => hinbox ▸ h.opened hhigh⟩
  | create addr epid =>
      replace hinbox := hinbox.trans (List.append_nil _)
      simp only [sessionEnabled, Bool.and_eq_true, decide_eq_true_eq] at hen
      have hstage : x.pc.stage = 1 := by rw [hpc]; rfl
      refine ⟨fun _ => hinbox.trans (h.silent ?_), by omega, by omega⟩
      rw [hen.1.2]
      decide
  | recvHandshake peerId =>
      simp only [sessionEnabled, decide_eq_true_eq] at hen
      have hnil := h.silent (by rw [hen]; decide)
      have hstage : x.pc = .recvBitfield := by
        simp only [sessionEffect] at hrun hpc
        split at hrun
        · cases hrun
        · rw [hpc, if_neg ‹_›]
          rfl
      rw [hnil] at hinbox
      refine ⟨?_, fun _ => ⟨peerId, hinbox⟩, ?_⟩
      all_goals
        rw [hstage]
        intro hle
        exact absurd hle (by decide)
  | recvBitfield m =>
      simp only [sessionEnabled, decide_eq_true_eq] at hen
      obtain ⟨id, hid⟩ := h.greeted (by rw [hen]; rfl)
      cases m with
      | bitfieldMsg sv =>
          have hstage : x.pc.stage = 6 := by rw [hpc]; rfl
          refine ⟨by omega, by omega, fun _ => ⟨id, sv, [], ?_, by simp⟩⟩
          rw [hinbox, hid]
          rfl
      | _ => cases hexp
  | scan m =>
      simp only [sessionEnabled, Bool.and_eq_true] at hen
      have hhigh := hph.scanning.mp hen.1
      obtain ⟨id, sv, rest, heq, hrest⟩ := h.opened (by omega)
      refine ⟨by omega, by omega, fun _ => ⟨id, sv, rest ++ [.actual m], ?_, ?_⟩⟩
      · rw [hinbox, heq]
        rfl
      · intro m' hm'
        rcases List.mem_append.mp hm' with hm' | hm'
        · exact hrest m' hm'
        · rw [List.mem_singleton.mp hm']
          simpa [SessionAct.expected] using hexp
  | readFails _ | received _ =>
      replace hinbox := hinbox.trans (List.append_nil _)
      have hsame : x.pc = (p.sess s).pc := hpc
      exact ⟨by rw [hsame, hinbox]; exact h.silent,
        by rw [hsame, hinbox]; exact h.greeted,
        by rw [hsame, hinbox]; exact h.opened⟩

theorem received_step {a : Act} (h : ∀ s, Received (p.sess s))
    (hph : ∀ s, Phased (p.sess s)) (hquiet : ∀ s, Quiet (p.sess s))
    (hstep : p.step a = some p') (hrun : p'.sh.halt = none) :
    ∀ s, Received (p'.sess s) := by
  intro t
  have hexp := expected_of_running hstep hrun
  have hinbox := inbox_step hexp hquiet hstep t
  cases a with
  | session s act =>
      obtain ⟨hen, rfl⟩ := session_step hstep
      rw [Act.inputAt] at hinbox
      by_cases hts : t = s
      · subst t
        rw [if_pos rfl] at hinbox
        refine received_session hen (hph s) (h s) hexp hrun ?_ hinbox
        rw [commit_pc_self]
      · rw [if_neg hts, List.append_nil] at hinbox
        refine (h t).congr ?_ hinbox
        rw [commit_pc_of_ne hts]
  | _ =>
      obtain ⟨es, -, heq⟩ := (background_step hstep rfl).sess t
      refine (h t).congr ?_ (hinbox.trans (List.append_nil _))
      rw [heq, Session.enqAll_pc]

/-- While the process runs, each session has read a handshake, a bitfield and
then messages of other kinds, as far as its stage says. -/
theorem received_reachable {cfg : Config} (h : Reachable cfg p) :
    p.sh.halt = none → ∀ s, Received (p.sess s) :=
  h.invariant (I := fun p => p.sh.halt = none → ∀ s, Received (p.sess s))
    (fun _ _ => ⟨fun _ => rfl, nofun, nofun⟩)
    fun _ _ _ hr ih _ hstep hrun =>
      received_step (ih (step_cases hstep).1) (phased_reachable hr)
        (quiet_reachable hr) hstep hrun

theorem opens_of_out {c : Choice} (hhigh : 6 ≤ (p.sess s).pc.stage) :
    ∀ m ∈ (protocol p s c).out, m.opens = false := by
  intro m hm
  have hmay := mayWrite_protocol m hm
  cases m with
  | handshakeMsg id =>
      rw [MayWrite] at hmay
      rw [hmay] at hhigh
      exact absurd hhigh (by decide)
  | actual m =>
      cases m with
      | bitfieldMsg sv =>
          rw [MayWrite] at hmay
          rw [hmay.1] at hhigh
          exact absurd hhigh (by decide)
      | _ => rfl

theorem opening_protocol {c : Choice} {n : Int} (hrun : runnable p s = true)
    (hph : Phased (p.sess s)) (hn : p.sh.selfPeerId = n)
    (h : Opening n (p.sess s)) : Opening n (protocol p s c).after := by
  rcases stage_waits (c := c) hrun with ⟨hlow, -⟩ | hhigh
  · cases hpc : (p.sess s).pc with
    | handshake =>
        have hsent := h.silent (by rw [hpc]; decide)
        subst n
        refine ⟨?_, fun _ _ => ?_, ?_⟩
        all_goals simp [protocol, hpc, Effect.after, Session.goto, hsent,
          Pc.stage]
    | snapshot =>
        have hsent := h.greeted (by rw [hpc]; decide) (by rw [hpc]; decide)
        refine ⟨?_, fun _ _ => ?_, ?_⟩
        all_goals simp [protocol, hpc, Effect.after, hsent, Pc.stage]
    | markReady =>
        have hsent := h.greeted (by rw [hpc]; decide) (by rw [hpc]; decide)
        obtain ⟨sv, hsv⟩ := Option.isSome_iff_exists.mp
          (hph.bfMsg.mpr (by rw [hpc]; decide))
        refine ⟨?_, ?_, fun _ => ⟨sv, [], ?_, ?_, by simp⟩⟩
        all_goals simp [protocol, hpc, Effect.after, hsent, hsv, Pc.stage]
    | absent => simp [runnable, hpc] at hrun
    | _ => simp [hpc, Pc.stage] at hlow
  · have hmono := stage_protocol (p := p) (s := s) (c := c)
    obtain ⟨sv, rest, hsv, hsent, hrest⟩ := h.opened (by omega)
    refine ⟨by omega, by omega, fun _ =>
      ⟨sv, rest ++ (protocol p s c).out, ?_, ?_, ?_⟩⟩
    · rcases bfMsg_protocol (p := p) (s := s) (c := c) with hbf | ⟨hpc, -⟩
      · rw [hbf, hsv]
      · rw [hpc] at hhigh
        exact absurd hhigh (by decide)
    · rw [sent_protocol, hsent]
      rfl
    · intro m hm
      rcases List.mem_append.mp hm with hm | hm
      · exact hrest m hm
      · exact opens_of_out hhigh m hm

theorem written_sessionEffect {a : SessionAct}
    (hen : p.sessionEnabled s a = true) (ha : ∀ c, a ≠ .thread c) :
    (p.sessionEffect s a).after.bfMsg = (p.sess s).bfMsg ∧
      (p.sessionEffect s a).after.sent = (p.sess s).sent := by
  have hact := actCases hen
  generalize p.sessionEffect s a = e at hact
  cases hact with
  | thread c => exact absurd rfl (ha c)
  | setup stands goes quiet keeps => exact ⟨keeps.bfMsg, keeps.sent⟩
  | idle after =>
      obtain ⟨n, heq⟩ := after
      rw [heq]
      exact ⟨rfl, rfl⟩

theorem opening_sessionEffect {a : SessionAct} {n : Int}
    (hen : p.sessionEnabled s a = true) (hph : Phased (p.sess s))
    (hn : p.sh.selfPeerId = n) (h : Opening n (p.sess s)) :
    Opening n (p.sessionEffect s a).after := by
  have hmono := stage_sessionEffect hen
  have hkeep := written_sessionEffect (p := p) (s := s) (a := a) hen
  cases a with
  | thread c => exact opening_protocol hen hph hn h
  | create addr epid =>
      obtain ⟨-, hsent⟩ := hkeep (by simp)
      simp only [sessionEnabled, Bool.and_eq_true, decide_eq_true_eq] at hen
      have hstage : (p.sessionEffect s (.create addr epid)).after.pc.stage = 1 :=
        rfl
      refine ⟨fun _ => hsent.trans (h.silent ?_), by omega, by omega⟩
      rw [hen.1.2]
      decide
  | recvHandshake _ | recvBitfield _ =>
      obtain ⟨hbf, hsent⟩ := hkeep (by simp)
      simp only [sessionEnabled, decide_eq_true_eq] at hen
      rw [hen, Pc.stage] at hmono
      exact h.congr (.inr ⟨by rw [hen]; decide, by omega⟩) hbf hsent
  | scan m =>
      obtain ⟨hbf, hsent⟩ := hkeep (by simp)
      refine h.congr (.inl ?_) hbf hsent
      simp only [sessionEffect]
      split
      all_goals rfl
  | readFails _ | received _ =>
      obtain ⟨hbf, hsent⟩ := hkeep (by simp)
      exact h.congr (.inl rfl) hbf hsent

theorem selfPeerId_protocol {c : Choice} :
    (protocol p s c).sh.selfPeerId = p.sh.selfPeerId := by
  cases hpc : (p.sess s).pc with
  | handle e =>
      obtain ⟨halt, hsh⟩ := (handles p.sh (p.sess s) e).sh
      simp only [protocol, hpc]
      rw [hsh]
  | bcastNext i rest =>
      obtain ⟨m, pc, -, hstep⟩ := protocol_bcastNext (c := c) hpc
      rw [hstep]
  | _ =>
      simp only [protocol, hpc, withDifference, withCollection, drainStep,
        awaitStep]
      repeat' split
      all_goals rfl

theorem selfPeerId_step {a : Act} (hstep : p.step a = some p') :
    p'.sh.selfPeerId = p.sh.selfPeerId := by
  obtain ⟨-, ⟨s, act, rfl, hen, rfl⟩ | hb⟩ := step_cases hstep
  · cases act with
    | thread c => exact selfPeerId_protocol
    | _ =>
        simp only [commit_sh, sessionEffect]
        repeat' split
        all_goals rfl
  · exact hb.selfPeerId

/-- Each session has written its handshake, its bitfield and then messages of
other kinds, as far as its stage says. -/
structure Introduces (n : Int) (p : Proc) : Prop where
  selfPeerId : p.sh.selfPeerId = n
  opening : ∀ s, Opening n (p.sess s)

theorem introduces_reachable {cfg : Config} (h : Reachable cfg p) :
    Introduces cfg.selfPeerId p :=
  h.invariant ⟨rfl, fun _ => ⟨fun _ => rfl, nofun, nofun⟩⟩
    fun _ _ _ hr ih _ hstep =>
      ⟨(selfPeerId_step hstep).trans ih.selfPeerId,
        forall_sess ih.opening (fun _ _ hx => hx.congr (.inl rfl) rfl rfl)
          (fun s _ hen hs => opening_sessionEffect hen
            (phased_reachable hr s) ih.selfPeerId hs) hstep⟩

end Proc

end CntPeer
