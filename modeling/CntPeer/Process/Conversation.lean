import CntPeer.Process.Choke
import CntPeer.Process.Interest
import CntPeer.Process.Parting
import CntPeer.Process.Statuses
import CntPeer.Process.Tokens

/-!
# What a session says

The messages that a session writes, in their order: an opening, a body in which
`Unchoke` follows a `Choke`, and at most one `TearDown` at the end.  Pieces
answer requests one by one, and a piece is requested once.
-/

namespace CntPeer

open CntPeer.Foundation

/-- Where the writer of a connection stands. -/
inductive Line where
  | fresh
  | greeted
  | introduced
  | talking (unchoked : Bool)
  | closed
  deriving DecidableEq

def Line.next : Line → Msg → Option Line
  | .fresh, .handshakeMsg _ => some .greeted
  | .greeted, .actual (.bitfieldMsg _) => some .introduced
  | .introduced, .actual .interestedMsg
  | .introduced, .actual .notInterestedMsg => some (.talking false)
  | .talking false, .actual .unchokeMsg => some (.talking true)
  | .talking _, .actual .chokeMsg => some (.talking false)
  | .talking u, .actual .interestedMsg | .talking u, .actual .notInterestedMsg
  | .talking u, .actual (.haveMsg _) | .talking u, .actual (.requestMsg _)
  | .talking u, .actual (.pieceMsg _ _) => some (.talking u)
  | .talking _, .actual .tearDownMsg => some .closed
  | _, _ => none

theorem Line.run_closed {l : Line} {ms : List Msg}
    (h : run Line.next .closed ms = some l) : ms = [] ∧ l = .closed := by
  cases ms with
  | nil =>
      cases h
      exact ⟨rfl, rfl⟩
  | cons m ms =>
      simp only [run, Line.next, Option.bind_none] at h
      cases h

theorem Line.closed_of_tearDown {l l' : Line} {ms : List Msg}
    (h : run Line.next l ms = some l')
    (hmem : .actual .tearDownMsg ∈ ms) : l' = .closed := by
  induction ms generalizing l with
  | nil => cases hmem
  | cons m ms ih =>
      obtain ⟨l₁, hnext, hrest⟩ := Option.bind_eq_some_iff.mp h
      rcases List.mem_cons.mp hmem with rfl | hmem
      · have hclosed : l₁ = .closed := by
          cases l <;> simp_all [Line.next]
        rw [hclosed] at hrest
        exact (Line.run_closed hrest).2
      · exact ih hrest hmem

theorem Line.tearDown_of_closed {l : Line} {ms : List Msg}
    (h : run Line.next l ms = some .closed) (hl : l ≠ .closed) :
    .actual .tearDownMsg ∈ ms := by
  induction ms generalizing l with
  | nil =>
      cases h
      exact absurd rfl hl
  | cons m ms ih =>
      obtain ⟨l₁, hnext, hrest⟩ := Option.bind_eq_some_iff.mp h
      by_cases hl₁ : l₁ = .closed
      · have hm : m = .actual .tearDownMsg := by
          subst hl₁
          revert hnext
          unfold Line.next
          split <;> simp
        exact hm ▸ List.mem_cons_self
      · exact List.mem_cons_of_mem m (ih hrest hl₁)

def Line.started : Line → Bool
  | .fresh | .greeted | .introduced => false
  | _ => true

theorem Line.interest_of_next {l l' : Line} {m : Msg}
    (h : l.next m = some l') (hl : l.started = false)
    (hl' : l'.started = true) : m.isInterest = true := by
  unfold Line.next at h
  split at h
  all_goals first
    | rfl
    | (cases h
       done)
    | (cases h
       simp [Line.started] at hl hl')

theorem Line.interest_of_started {l l' : Line} {ms : List Msg}
    (h : run Line.next l ms = some l') (hl : l.started = false)
    (hl' : l'.started = true) : ∃ m ∈ ms, m.isInterest = true := by
  induction ms generalizing l with
  | nil =>
      cases h
      rw [hl] at hl'
      cases hl'
  | cons m ms ih =>
      obtain ⟨l₁, hnext, hrest⟩ := Option.bind_eq_some_iff.mp h
      cases hl₁ : l₁.started with
      | false =>
          obtain ⟨m', hmem, hint⟩ := ih hrest hl₁
          exact ⟨m', List.mem_cons_of_mem m hmem, hint⟩
      | true => exact ⟨m, List.mem_cons_self, Line.interest_of_next hnext hl hl₁⟩

theorem Line.opens_of_unstarted {l l' : Line} {ms : List Msg}
    (h : run Line.next l ms = some l') (hl' : l'.started = false) :
    l.started = false ∧ ∀ m ∈ ms, m.opens = true := by
  induction ms generalizing l with
  | nil =>
      cases h
      exact ⟨hl', nofun⟩
  | cons m ms ih =>
      obtain ⟨l₁, hnext, hrest⟩ := Option.bind_eq_some_iff.mp h
      obtain ⟨hl₁, hms⟩ := ih hrest
      have hfirst : l.started = false ∧ m.opens = true := by
        unfold Line.next at hnext
        split at hnext
        all_goals first
          | (cases hnext
             done)
          | (cases hnext
             simp [Line.started] at hl₁
             done)
          | exact ⟨rfl, rfl⟩
      exact ⟨hfirst.1, List.forall_mem_cons.mpr ⟨hfirst.2, hms⟩⟩

def Line.Fits (x : Session) : Line → Prop
  | .fresh => x.pc.stage ≤ 1
  | .greeted => 2 ≤ x.pc.stage ∧ x.pc.stage ≤ 3
  | .introduced => 4 ≤ x.pc.stage ∧ x.pc.stage ≤ 6
  | .talking u => 7 ≤ x.pc.stage ∧ x.pc.stage ≤ 10 ∧
      (u = true → x.peerChoke = .unchoked)
  | .closed => 11 ≤ x.pc.stage

def Conforms (x : Session) : Prop :=
  ∃ l, run Line.next .fresh x.sent = some l ∧ l.Fits x

theorem Conforms.congr {x y : Session} (h : Conforms x)
    (hsent : y.sent = x.sent ++ []) (hflag : y.peerChoke = x.peerChoke)
    (hstage : x.pc.stage ≤ 1 ∧ y.pc.stage ≤ 1 ∨
      4 ≤ x.pc.stage ∧ x.pc.stage ≤ y.pc.stage ∧ y.pc.stage ≤ 6 ∨
      y.pc.stage = x.pc.stage) : Conforms y := by
  obtain ⟨l, hrun, hfits⟩ := h
  refine ⟨l, by rw [hsent, List.append_nil, hrun], ?_⟩
  cases l with
  | talking u =>
      simp only [Line.Fits] at hfits ⊢
      rw [hflag]
      exact ⟨by omega, by omega, hfits.2.2⟩
  | _ =>
      simp only [Line.Fits] at hfits ⊢
      omega

theorem conforms_fresh : Conforms Session.fresh :=
  ⟨.fresh, rfl, Nat.zero_le 1⟩

def Talks (x : Session) (e : Effect) : Prop :=
  ∀ u, (u = true → x.peerChoke = .unchoked) →
    ∃ l, run Line.next (.talking u) e.out = some l ∧ l.Fits e.after

def Pc.talks (pc : Pc) : Prop := 7 ≤ pc.stage ∧ pc.stage ≤ 10

theorem Talks.keeps {x : Session} {e : Effect} (hpc : e.after.pc.talks)
    (hflag : e.after.peerChoke = x.peerChoke)
    (hout : ∀ u, run Line.next (.talking u) e.out = some (.talking u)) :
    Talks x e := fun u hu =>
  ⟨.talking u, hout u, hpc.1, hpc.2, fun h => hflag.trans (hu h)⟩

theorem Talks.choked {x : Session} {e : Effect} (hpc : e.after.pc.talks)
    (hout : e.out = [.actual .chokeMsg]) : Talks x e := by
  intro u _
  refine ⟨.talking false, ?_, hpc.1, hpc.2, nofun⟩
  rw [hout]
  cases u <;> rfl

theorem Talks.unchoked {x : Session} {e : Effect} (hpc : e.after.pc.talks)
    (hold : x.peerChoke ≠ .unchoked) (hflag : e.after.peerChoke = .unchoked)
    (hout : e.out = [.actual .unchokeMsg]) : Talks x e := by
  intro u hu
  refine ⟨.talking true, ?_, hpc.1, hpc.2, fun _ => hflag⟩
  rw [hout]
  cases u with
  | false => rfl
  | true => exact absurd (hu rfl) hold

theorem talks_handle {sh : Shared} {x : Session} {e : Event}
    (hpc : x.pc = .handle e) : Talks x (handle sh x e) := by
  have hstage := Proc.stage_handle sh x e hpc
  have htalks : (handle sh x e).after.pc.talks := ⟨by omega, by omega⟩
  revert htalks
  cases e with
  | timerChoke =>
      simp only [handle]
      split
      · exact fun h => .choked h rfl
      · exact fun h => .keeps h rfl fun u => rfl
  | timerUnchoke =>
      simp only [handle]
      split
      · exact fun h => .unchoked h ‹_› rfl rfl
      · exact fun h => .keeps h rfl fun u => rfl
  | msgNotInterest =>
      simp only [handle]
      split
      · exact fun h => .keeps h rfl fun u => rfl
      · exact fun h => .choked h rfl
  | _ =>
      simp only [handle]
      repeat' split
      all_goals exact fun h => .keeps h rfl fun u => by cases u <;> rfl

namespace Proc

variable {p p' : Proc} {s : Sid}

theorem talks_protocol {c : Choice} (h : (p.sess s).pc.talks) :
    Talks (p.sess s) (protocol p s c) := by
  cases hpc : (p.sess s).pc with
  | handle e =>
      simp only [protocol, hpc]
      exact talks_handle hpc
  | bcastNext i rest =>
      obtain ⟨m, pc, hturn, hstep⟩ := protocol_bcastNext (c := c) hpc
      rw [hstep]
      refine .keeps ?_ rfl fun u => rfl
      cases hturn
      all_goals simp [Pc.talks, Effect.after, Session.goto, Pc.stage]
  | sendTearDown received =>
      intro u hu
      simp only [protocol, hpc]
      refine ⟨.closed, by cases u <;> rfl, ?_⟩
      cases received
      all_goals simp [Line.Fits, Effect.after, Session.goto, Pc.stage]
  | relinquish =>
      simp only [protocol, hpc, withCollection]
      split
      · exact .keeps (hpc ▸ h) rfl fun u => rfl
      · exact .choked (by simp [Pc.talks, Effect.after, Session.goto, Pc.stage]) rfl
  | drain =>
      simp only [protocol, hpc, drainStep]
      repeat' split
      all_goals
        refine .keeps ?_ rfl fun u => rfl
        simp [Pc.talks, Effect.after, Session.goto, discard, hpc, Pc.stage]
  | absent | handshake | snapshot | markReady | recvHandshake | recvBitfield
  | sendInterest | awaitTearDown | finalRelinquish | notify | ended =>
      simp [hpc, Pc.talks, Pc.stage] at h
  | _ =>
      simp only [protocol, hpc, withDifference, withCollection]
      repeat' split
      all_goals
        refine .keeps ?_ rfl fun u => by cases u <;> rfl
        simp [Pc.talks, Effect.after, panicEffect, Session.goto, hpc, Pc.stage]

theorem conforms_setup {c : Choice} (hph : Phased (p.sess s))
    (hlow : (p.sess s).pc.stage ≤ 6) {l : Line} (hfits : l.Fits (p.sess s)) :
    ∃ l', run Line.next l (protocol p s c).out = some l' ∧
      l'.Fits (protocol p s c).after := by
  cases hpc : (p.sess s).pc with
  | absent | recvHandshake | recvBitfield =>
      refine ⟨l, by simp only [protocol, hpc, run], ?_⟩
      cases l <;> simpa [Line.Fits, protocol, hpc, Effect.after] using hfits
  | handshake =>
      cases l with
      | fresh =>
          simp only [protocol, hpc]
          exact ⟨.greeted, rfl,
            by simp [Line.Fits, Effect.after, Session.goto, Pc.stage]⟩
      | _ => simp [Line.Fits, hpc, Pc.stage] at hfits
  | snapshot =>
      cases l with
      | greeted =>
          simp only [protocol, hpc]
          exact ⟨.greeted, rfl, by simp [Line.Fits, Effect.after, Pc.stage]⟩
      | _ => simp [Line.Fits, hpc, Pc.stage] at hfits
  | markReady =>
      cases l with
      | greeted =>
          obtain ⟨sv, hsv⟩ := Option.isSome_iff_exists.mp
            (hph.bfMsg.mpr (by rw [hpc]; decide))
          simp only [protocol, hpc, hsv]
          exact ⟨.introduced, rfl, by simp [Line.Fits, Effect.after, Pc.stage]⟩
      | _ => simp [Line.Fits, hpc, Pc.stage] at hfits
  | sendInterest =>
      cases l with
      | introduced =>
          simp only [protocol, hpc, withDifference]
          split
          · refine ⟨.introduced, rfl, ?_⟩
            simp [Line.Fits, Effect.after, panicEffect, hpc, Pc.stage]
          · refine ⟨.talking false, ?_, ?_⟩
            · split <;> rfl
            · simp [Line.Fits, Effect.after, Pc.stage]
      | _ => simp [Line.Fits, hpc, Pc.stage] at hfits
  | _ =>
      simp only [hpc, Pc.stage] at hlow
      omega

theorem conforms_protocol {c : Choice} (hph : Phased (p.sess s))
    (h : Conforms (p.sess s)) : Conforms (protocol p s c).after := by
  obtain ⟨l, hrun, hfits⟩ := h
  have hnext : ∃ l', run Line.next l (protocol p s c).out = some l' ∧
      l'.Fits (protocol p s c).after := by
    rcases Nat.lt_or_ge (p.sess s).pc.stage 7 with hlow | hlow
    · exact conforms_setup hph (by omega) hfits
    · rcases Nat.lt_or_ge (p.sess s).pc.stage 11 with hhigh | hhigh
      · cases l with
        | talking u => exact talks_protocol ⟨hlow, by omega⟩ u hfits.2.2
        | _ =>
            simp only [Line.Fits] at hfits
            omega
      · have hstage := stage_protocol (p := p) (s := s) (c := c)
        cases l with
        | closed =>
            refine ⟨.closed, ?_, hhigh.trans hstage⟩
            rw [silent_protocol hhigh]
            rfl
        | _ =>
            simp only [Line.Fits] at hfits
            omega
  obtain ⟨l', hrun', hfits'⟩ := hnext
  refine ⟨l', ?_, hfits'⟩
  rw [sent_protocol, run_append, hrun, Option.bind_some, hrun']

theorem conforms_sessionEffect {a : SessionAct}
    (hen : p.sessionEnabled s a = true) (hph : Phased (p.sess s))
    (h : Conforms (p.sess s)) : Conforms (p.sessionEffect s a).after := by
  cases a with
  | thread c => exact conforms_protocol hph h
  | create addr epid =>
      simp only [sessionEnabled, Bool.and_eq_true, decide_eq_true_eq] at hen
      refine h.congr rfl rfl (.inl ?_)
      simp [sessionEffect, Effect.after, hen.1.2, Pc.stage]
  | recvHandshake _ | recvBitfield _ =>
      simp only [sessionEnabled, decide_eq_true_eq] at hen
      simp only [sessionEffect]
      split
      all_goals
        refine h.congr rfl rfl (.inr (.inl ?_))
        simp [Effect.after, panicEffect, Session.goto, hen, Pc.stage]
  | scan m =>
      simp only [sessionEffect]
      split
      all_goals exact h.congr rfl rfl (.inr (.inr rfl))
  | readFails _ | received _ => exact h.congr rfl rfl (.inr (.inr rfl))

/-- A session of any process, whatever its peers send, writes its messages in
the order of `Line.next`. -/
theorem conforms_reachable {cfg : Config} (h : Reachable cfg p) :
    ∀ s, Conforms (p.sess s) :=
  h.invariant (I := fun p => ∀ s, Conforms (p.sess s))
    (fun _ => conforms_fresh) fun _ _ _ hr ih _ hstep =>
      forall_sess ih (fun _ _ hx => hx)
        (fun s _ hen hs => conforms_sessionEffect hen (phased_reachable hr s) hs)
        hstep

theorem setup_sent {cfg : Config} (h : Reachable cfg p)
    (hstage : (p.sess s).pc.stage ≤ 6) :
    ∀ m ∈ (p.sess s).sent, m.opens = true := by
  obtain ⟨l, hline, hfits⟩ := conforms_reachable h s
  refine (Line.opens_of_unstarted hline ?_).2
  cases l with
  | talking u => exact absurd (hfits.1.trans hstage) (by decide)
  | closed => exact absurd (hfits.trans hstage) (by decide)
  | _ => rfl

/--
Whatever the peers send, a session writes one conversation: the handshake, the
bitfield and the first interest message, then messages in which no `Unchoke`
follows an `Unchoke`, and nothing after `TearDown`.
-/
theorem conversation_ordered {cfg : Config} (h : Reachable cfg p) (s : Sid) :
    ∃ l, run Line.next .fresh (p.sess s).sent = some l ∧ l.Fits (p.sess s) :=
  conforms_reachable h s

theorem conversation_ordered_relinquished :
    ∃ l, run Line.next .fresh (relinquished.sess 0).sent = some l ∧
      l.Fits (relinquished.sess 0) := by
  have hreach : Reaches step Compensated (init seed) relinquished :=
    reaches_get (by decide)
  exact conversation_ordered hreach.reachable 0

end Proc

/-! ### Answers -/

def requestIds (l : List Msg) : List Int :=
  l.filterMap fun
    | .actual (.requestMsg j) => some j
    | _ => none

def pieceIds (l : List Msg) : List Int :=
  l.filterMap fun
    | .actual (.pieceMsg j _) => some j
    | _ => none

@[simp] theorem requestIds_append (k l : List Msg) :
    requestIds (k ++ l) = requestIds k ++ requestIds l :=
  List.filterMap_append

@[simp] theorem pieceIds_append (k l : List Msg) :
    pieceIds (k ++ l) = pieceIds k ++ pieceIds l :=
  List.filterMap_append

/-- The requests of the peer that the session has answered or is answering, in
their order; those that a teardown loop throws away come after them. -/
def Answers (x : Session) : Prop :=
  ∃ rest, pieceIds x.sent ++ x.pc.answering.toList.map Nat.cast ++ rest =
      requestIds x.handled ∧ (x.pc.stage ≤ 8 → rest = [])

inductive AnswerStep (x : Session) (e : Effect) : Prop
  | kept (out : pieceIds e.out = [])
      (place : e.after.pc.answering = x.pc.answering)
      (taken : requestIds e.after.handled = requestIds x.handled)
  | took (i : Nat) (out : pieceIds e.out = [])
      (free : x.pc.answering = none) (place : e.after.pc.answering = some i)
      (early : x.pc.stage ≤ 8)
      (taken : requestIds e.after.handled = requestIds x.handled ++ [(i : Int)])
  | answered (i : Nat) (out : pieceIds e.out = [(i : Int)])
      (busy : x.pc.answering = some i) (place : e.after.pc.answering = none)
      (taken : requestIds e.after.handled = requestIds x.handled)
  | discarded (ids : List Int) (out : pieceIds e.out = [])
      (free : x.pc.answering = none) (place : e.after.pc.answering = none)
      (late : 9 ≤ e.after.pc.stage)
      (taken : requestIds e.after.handled = requestIds x.handled ++ ids)

theorem Answers.step {x : Session} {e : Effect} (h : Answers x)
    (hsent : e.after.sent = x.sent ++ e.out)
    (hstage : x.pc.stage ≤ e.after.pc.stage) (hstep : AnswerStep x e) :
    Answers e.after := by
  obtain ⟨rest, hids, hrest⟩ := h
  unfold Answers
  rw [hsent, pieceIds_append]
  cases hstep with
  | kept out place taken =>
      refine ⟨rest, ?_, fun hlow => hrest (hstage.trans hlow)⟩
      rw [out, place, taken, List.append_nil, hids]
  | took i out free place early taken =>
      refine ⟨[], ?_, fun _ => rfl⟩
      rw [out, place, taken, ← hids, free, hrest early]
      simp
  | answered i out busy place taken =>
      refine ⟨rest, ?_, fun hlow => hrest (hstage.trans hlow)⟩
      rw [out, place, taken, ← hids, busy]
      simp
  | discarded ids out free place late taken =>
      refine ⟨rest ++ ids, ?_, fun hlow => absurd (late.trans hlow) (by decide)⟩
      rw [out, place, taken, ← hids, free]
      simp

theorem answers_fresh : Answers Session.fresh := ⟨[], rfl, fun _ => rfl⟩

theorem answerStep_handle {sh : Shared} {x : Session} {e : Event}
    (hpc : x.pc = .handle e) : AnswerStep x (handle sh x e) := by
  cases e with
  | msgRequest j =>
      simp only [handle]
      split
      · rename_i hrange
        obtain ⟨i, rfl, -⟩ := checkRange_iff.mp hrange
        split
        · apply AnswerStep.took i
          all_goals simp [Effect.after, Session.goto, Session.took, hpc,
            pieceIds, requestIds, Pc.answering, Pc.stage]
        · exact .kept rfl rfl rfl
      · exact .kept rfl rfl rfl
  | _ =>
      simp only [handle]
      repeat' split
      all_goals
        apply AnswerStep.kept
        all_goals simp [Effect.after, panicEffect, Session.goto, Session.took,
          hpc, pieceIds, requestIds, Pc.answering]

namespace Proc

variable {p p' : Proc} {s : Sid}

theorem answerStep_protocol {c : Choice} :
    AnswerStep (p.sess s) (protocol p s c) := by
  cases hpc : (p.sess s).pc with
  | handle e =>
      simp only [protocol, hpc]
      exact answerStep_handle hpc
  | sendPiece i d =>
      apply AnswerStep.answered i
      all_goals simp [protocol, hpc, Effect.after, Session.goto, pieceIds,
        Pc.answering]
  | markReady =>
      apply AnswerStep.kept
      all_goals simp [protocol, hpc, Effect.after, pieceIds, Pc.answering,
        Option.toList]
  | bcastNext i rest =>
      obtain ⟨m, pc, hturn, hstep⟩ := protocol_bcastNext (c := c) hpc
      rw [hstep]
      apply AnswerStep.kept rfl
      all_goals cases hturn <;> simp [Effect.after, Session.goto, hpc, Pc.answering]
  | drain | awaitTearDown =>
      simp only [protocol, hpc, drainStep, awaitStep]
      split
      · exact .kept rfl (by simp [Effect.after, Session.goto, hpc, Pc.answering])
          rfl
      · rename_i e rest heq
        apply AnswerStep.discarded (requestIds e.msg?.toList)
        all_goals
          cases e <;> simp [Effect.after, Session.goto, discard, hpc, pieceIds,
            Pc.answering, Pc.stage]
  | _ =>
      simp only [protocol, hpc, withDifference, withCollection]
      repeat' split
      all_goals
        apply AnswerStep.kept
        all_goals simp [Effect.after, panicEffect, Session.goto, hpc, pieceIds,
          Pc.answering]

theorem requestIds_of_opens {l : List Msg} (h : ∀ m ∈ l, m.opens = true) :
    requestIds l = [] := by
  apply List.filterMap_eq_nil_iff.mpr
  intro m hm
  have hopens := h m hm
  cases m with
  | handshakeMsg n => rfl
  | actual m => cases m <;> first | rfl | cases hopens

theorem answering_none {pc : Pc} (h : pc.stage ≠ 8) : pc.answering = none := by
  cases pc <;> first | rfl | exact absurd rfl h

theorem answers_sessionEffect {a : SessionAct}
    (hen : p.sessionEnabled s a = true) (h : Answers (p.sess s)) :
    Answers (p.sessionEffect s a).after := by
  cases actCases hen with
  | thread c =>
      exact h.step sent_protocol stage_protocol answerStep_protocol
  | setup stands goes quiet keeps taken out posts own repo slots =>
      have hids : requestIds (p.sessionEffect s a).after.handled =
          requestIds (p.sess s).handled := by
        rcases taken with taken | ⟨taken, hopens⟩
        · rw [taken]
        · rw [taken, requestIds_append, requestIds_of_opens hopens,
            List.append_nil]
      obtain ⟨rest, hold, hrest⟩ := h
      refine ⟨rest, ?_, fun _ => hrest (stands.trans (by decide))⟩
      rw [keeps.sent, hids, ← hold, answering_none (by omega),
        answering_none (by omega)]
  | idle after out posts own repo sc =>
      obtain ⟨n, hafter⟩ := after
      rw [hafter]
      exact h

theorem answers_reachable {cfg : Config} (h : Reachable cfg p) :
    ∀ s, Answers (p.sess s) :=
  h.invariant (I := fun p => ∀ s, Answers (p.sess s))
    (fun _ => answers_fresh) fun _ _ _ _ ih _ hstep =>
      forall_sess ih (fun _ _ hx => hx)
        (fun _ _ hen hs => answers_sessionEffect hen hs) hstep

/--
Whatever the peers send, the event loop of a session answers their requests one
by one and in their order: the pieces written are those requested, up to the
request in hand.
-/
theorem answers_in_order {cfg : Config} (h : Reachable cfg p) (s : Sid) :
    pieceIds (p.sess s).sent <+: requestIds (p.sess s).handled ∧
      ((p.sess s).pc.stage ≤ 8 →
        pieceIds (p.sess s).sent ++
            (p.sess s).pc.answering.toList.map Nat.cast =
          requestIds (p.sess s).handled) := by
  obtain ⟨rest, hids, hrest⟩ := answers_reachable h s
  constructor
  · rw [← hids, List.append_assoc]
    exact List.prefix_append _ _
  · intro hstage
    rw [← hids, hrest hstage, List.append_nil]

def answeringSecond : Proc :=
  (run step (init { seed with file := [7, 8], fileSize := 2 })
    (setupRun 0 [.absent, .absent] ++ receive 0 (.requestMsg 1) 6 ++
      receive 0 (.requestMsg 0) 3)).get (by decide)

theorem answers_in_order_second :
    requestIds (answeringSecond.sess 0).handled = [1, 0] ∧
      pieceIds (answeringSecond.sess 0).sent ++
          (answeringSecond.sess 0).pc.answering.toList.map Nat.cast = [1, 0] := by
  have hreach : Reachable { seed with file := [7, 8], fileSize := 2 }
      answeringSecond := reachable_get (by decide)
  have hids : requestIds (answeringSecond.sess 0).handled = [1, 0] := by decide
  refine ⟨hids, ?_⟩
  rw [← hids]
  exact (answers_in_order hreach 0).2 (by decide)

/-! ### Requests -/

def Allowed (x : Session) : Prop :=
  x.pc = .requestNext ∨ x.pc.asks.isSome = true → x.selfChoke = .unchoked

theorem allowed_handle {sh : Shared} {x : Session} {e : Event}
    (hpc : x.pc = .handle e) : Allowed (handle sh x e).after := by
  unfold Allowed
  cases e
  all_goals
    simp only [handle]
    repeat' split
    all_goals simp [Effect.after, panicEffect, Session.goto, Session.took, hpc,
      Pc.asks]

theorem allowed_protocol {c : Choice} (h : Allowed (p.sess s)) :
    Allowed (protocol p s c).after := by
  unfold Allowed at h ⊢
  cases hpc : (p.sess s).pc with
  | handle e =>
      simp only [protocol, hpc]
      exact allowed_handle hpc
  | bcastNext i rest =>
      cases rest with
      | nil =>
          simp only [protocol, hpc, Effect.after, Session.goto]
          split
          · exact fun _ => ‹_›
          · simp [Pc.asks]
      | cons t rest =>
          simp only [protocol, hpc]
          split
          all_goals simp [Effect.after, Session.goto, Pc.asks]
  | _ =>
      simp only [hpc, Pc.asks] at h
      simp only [protocol, hpc, withDifference, withCollection, drainStep, awaitStep]
      repeat' split
      all_goals simp_all [Effect.after, panicEffect, Session.goto, discard, Pc.asks]

theorem allowed_sessionEffect {a : SessionAct}
    (hen : p.sessionEnabled s a = true) (h : Allowed (p.sess s)) :
    Allowed (p.sessionEffect s a).after := by
  cases actCases hen with
  | thread c => exact allowed_protocol h
  | setup stands goes quiet keeps taken out posts own repo slots =>
      intro hasks
      revert hasks goes
      cases (p.sessionEffect s a).after.pc <;> simp [Pc.asks, Pc.stage]
  | idle after out posts own repo sc =>
      obtain ⟨n, hafter⟩ := after
      rw [hafter]
      exact h

theorem allowed_reachable {cfg : Config} (h : Reachable cfg p) :
    ∀ s, Allowed (p.sess s) :=
  h.invariant (I := fun p => ∀ s, Allowed (p.sess s))
    (fun _ => by simp [Allowed, init, Session.fresh, Pc.asks]) fun _ _ _ _ ih _ hstep =>
      forall_sess ih (fun _ _ hx => hx)
        (fun _ _ hen hs => allowed_sessionEffect hen hs) hstep

theorem request_stands {a : Act} {j : Int} (hstep : p.step a = some p')
    (hout : .actual (.requestMsg j) ∈ p.outputAt a s) :
    ∃ i : Nat, j = i ∧ (p.sess s).pc = .sendRequest i := by
  cases a with
  | session t act =>
      simp only [outputAt] at hout
      split at hout
      · rename_i hst
        subst hst
        cases actCases (session_step hstep).1 with
        | thread c => exact mayWrite_protocol _ hout
        | setup _ _ _ _ _ out | idle _ out =>
            rw [out] at hout
            cases hout
      · cases hout
  | _ => cases hout

theorem first_request {j : Int} {i : Nat} (h : RequestedOnce p j) (hj : j = i)
    (hpc : (p.sess s).pc = .sendRequest i) (t : Sid) :
    .actual (.requestMsg j) ∉ (p.sess t).sent := by
  have hself : (p.sess s).pc.aboutToRequest j = 1 := by
    simp [hpc, Pc.aboutToRequest, hj]
  have honce := h.once s
  have hthis : 0 < requested j (p.sess s) := by
    unfold requested
    omega
  intro hmem
  have hcount := List.count_pos_iff.mpr hmem
  have hst : s = t := by
    apply h.alone s t hthis
    unfold requested
    omega
  subst hst
  unfold requested at honce
  omega

/--
Whatever the peers send, a session requests a piece only from a peer that has
unchoked it last and has announced the piece, when the process has marked the
piece, and when no session of the process has requested it before.
-/
theorem requests_justified {cfg : Config} (h : Reachable cfg p) {a : Act}
    (hstep : p.step a = some p') {j : Int}
    (hout : .actual (.requestMsg j) ∈ p.outputAt a s) :
    ∃ i : Nat, j = i ∧
      lastChoke (p.sess s).handled = some (.actual .unchokeMsg) ∧
      (∃ m ∈ (p.sess s).handled, tells i m = true) ∧
      Taken p.sh.own.sv i ∧
      ∀ t, .actual (.requestMsg j) ∉ (p.sess t).sent := by
  obtain ⟨i, hj, hpc⟩ := request_stands hstep hout
  refine ⟨i, hj, ?_, ?_, ?_, ?_⟩
  · apply (follows_reachable h s (by simp [hpc, Pc.stage])).mp
    apply allowed_reachable h s
    simp [hpc, Pc.asks]
  · apply (viewed_reachable h s).sound
    apply (asked_reachable h s).asking
    rw [hpc]
    rfl
  · have hl := (owning_reachable h).locals s
    simpa only [OwnLocal, hpc] using hl
  · exact first_request (requestedOnce_reachable h j) hj hpc

def askingFirst : Proc :=
  (run step (init leech) (setupRun 0 [.owned] ++ receive 0 .unchokeMsg 4)).get
    (by decide)

theorem requests_justified_first :
    askingFirst.outputAt (.session 0 (.thread {})) 0 = [.actual (.requestMsg 0)] ∧
      lastChoke (askingFirst.sess 0).handled = some (.actual .unchokeMsg) := by
  have hreach : Reachable leech askingFirst := reachable_get (by decide)
  have hstep : askingFirst.step (.session 0 (.thread {})) =
      some (askingFirst.next (.session 0 (.thread {}))) := rfl
  have hout : askingFirst.outputAt (.session 0 (.thread {})) 0 =
      [.actual (.requestMsg 0)] := by decide
  obtain ⟨i, -, hlast, -⟩ :=
    requests_justified hreach hstep (hout ▸ List.mem_singleton_self _)
  exact ⟨hout, hlast⟩

end Proc

end CntPeer
