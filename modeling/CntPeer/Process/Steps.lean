import CntPeer.Process.Phase

/-!
# What one step of a session does

One lemma for each part of a session that a step can change: the messages it
writes, the events it enqueues and consumes, the snapshot and the view of the
peer.
-/

namespace CntPeer

open CntPeer.Foundation

def MayWrite (x : Session) : Msg → Prop
  | .handshakeMsg _ => x.pc = .handshake
  | .actual (.bitfieldMsg sv) => x.pc = .markReady ∧ x.bfMsg = some sv
  | .actual (.haveMsg j) => ∃ i : Nat, j = i ∧
      (x.pc = .handle (.bcastHave i) ∨ x.pc = .drainHave i)
  | .actual (.requestMsg j) => ∃ i : Nat, j = i ∧ x.pc = .sendRequest i
  | .actual (.pieceMsg j d) => ∃ i : Nat, j = i ∧ x.pc = .sendPiece i d
  | .actual .tearDownMsg => ∃ received, x.pc = .sendTearDown received
  | _ => True

/-- The events that a session enqueues: timer commands, and the HAVE that it
broadcasts to `t` next. -/
def MayPost (pc : Pc) (t : Sid) (ev : Event) : Prop :=
  ev.isTimer = true ∨ ∃ i rest, ev = .bcastHave i ∧
    (pc = .bcastEnq i t rest ∨ pc = .bcastWait i t rest)

inductive QueueStep (x y : Session) : Prop
  | same (events : y.events = x.events) (handled : y.handled = x.handled)
  | consumed (e : Event) (events : x.events = e :: y.events)
      (handled : y.handled = x.handled ++ e.msg?.toList)
      (stands : x.pc = .handle e ∨ x.pc = .drain ∨ x.pc = .awaitTearDown)

theorem queueStep_handle {sh : Shared} {x : Session} {e : Event}
    (hpc : x.pc = .handle e) : QueueStep x (handle sh x e).after := by
  have hev : x.events = e :: x.eq := by simp only [Session.events, hpc]
  have hpanic : ∀ reason, QueueStep x (panicEffect sh x reason).after :=
    fun _ => .same rfl rfl
  cases e
  all_goals
    simp only [handle]
    repeat' split
  all_goals first
    | exact hpanic _
    | exact .consumed _ hev rfl (.inl hpc)
    | exact .consumed _ hev (List.append_nil _).symm (.inl hpc)

theorem peerSv_setOwned {x y : Session} {i : Nat}
    (h : y.peerOwn = x.peerOwn.map (PieceBitfield.setOwned · i)) :
    y.peerSv = x.peerSv.set i .owned := by
  unfold Session.peerSv
  rw [h]
  cases x.peerOwn <;> rfl

theorem peerSv_of_peerOwn {x y : Session} (h : y.peerOwn = x.peerOwn) :
    y.peerSv = x.peerSv := by
  unfold Session.peerSv
  rw [h]

namespace Proc

variable {p p' : Proc} {s t : Sid}

theorem queueStep_protocol {c : Choice} :
    QueueStep (p.sess s) (protocol p s c).after := by
  cases hpc : (p.sess s).pc with
  | handle e =>
      simp only [protocol, hpc]
      exact queueStep_handle hpc
  | loop =>
      have hev : (p.sess s).events = (p.sess s).eq := by
        simp only [Session.events, hpc]
      simp only [protocol, hpc]
      repeat' split
      · exact .same hev.symm rfl
      · exact .same rfl rfl
      · rename_i heq
        exact .same (by rw [hev, heq]; rfl) rfl
  | drain | awaitTearDown =>
      have hev : (p.sess s).events = (p.sess s).eq := by
        simp only [Session.events, hpc]
      simp only [protocol, hpc, drainStep, awaitStep]
      repeat' split
      all_goals first
        | exact .same rfl rfl
        | exact .same hev.symm rfl
        | exact .consumed _ (by rw [hev, ‹(p.sess s).eq = _›]; rfl) rfl
            (by simp [hpc])
        | exact .consumed _
            (by rw [hev, ‹(p.sess s).eq = _›]; simp [Effect.after,
              Session.events, discard, hpc]) rfl (by simp [hpc])
  | bcastNext i rest =>
      have hev : (p.sess s).events = (p.sess s).eq := by
        simp only [Session.events, hpc]
      obtain ⟨m, pc, hturn, hstep⟩ := protocol_bcastNext (c := c) hpc
      rw [hstep]
      cases hturn
      all_goals exact .same hev.symm rfl
  | _ =>
      have hev : (p.sess s).events = (p.sess s).eq := by
        simp only [Session.events, hpc]
      simp only [protocol, hpc, withDifference, withCollection]
      repeat' split
      all_goals first
        | exact .same hev.symm rfl
        | exact .same rfl rfl

theorem queueStep_sessionEffect {a : SessionAct}
    (hen : p.sessionEnabled s a = true)
    (hin : a.input = []) :
    QueueStep (p.sess s) (p.sessionEffect s a).after := by
  cases a with
  | thread c => exact queueStep_protocol
  | create addr expectedPeerId =>
      simp only [sessionEnabled, Bool.and_eq_true, decide_eq_true_eq] at hen
      refine .same ?_ rfl
      simp only [Session.events, hen.1.2]
      rfl
  | recvHandshake _ | recvBitfield _ | scan _ => cases hin
  | readFails h => exact .same rfl rfl
  | received n => exact .same rfl rfl

theorem mayWrite_handle {sh : Shared} {x : Session} {e : Event}
    (hpc : x.pc = .handle e) : ∀ m ∈ (handle sh x e).out, MayWrite x m := by
  cases e
  all_goals
    simp only [handle]
    repeat' split
  all_goals simp [panicEffect, MayWrite, hpc]

theorem mayWrite_protocol {c : Choice} :
    ∀ m ∈ (protocol p s c).out, MayWrite (p.sess s) m := by
  cases hpc : (p.sess s).pc with
  | handle e =>
      simp only [protocol, hpc]
      exact mayWrite_handle hpc
  | bcastNext i rest =>
      obtain ⟨m, pc, -, hstep⟩ := protocol_bcastNext (c := c) hpc
      rw [hstep]
      exact fun _ h => absurd h List.not_mem_nil
  | _ =>
      simp only [protocol, hpc, withDifference, withCollection, drainStep,
        awaitStep]
      repeat' split
      all_goals simp [panicEffect, MayWrite, hpc]

theorem mayPost_protocol {c : Choice} :
    ∀ e ∈ (protocol p s c).posts, MayPost (p.sess s).pc e.1 e.2 := by
  cases hpc : (p.sess s).pc with
  | preempt | relinquish | finalRelinquish =>
      simp only [protocol, hpc, withCollection]
      split
      · exact fun _ h => absurd h List.not_mem_nil
      · rename_i hr
        intro e he
        left
        first
          | exact timerPosts_tryPreempt hr e he
          | exact timerPosts_relinquish hr e he
  | handle e =>
      simp only [protocol, hpc]
      rw [(handles p.sh (p.sess s) e).posts]
      exact fun _ h => absurd h List.not_mem_nil
  | bcastNext i rest =>
      obtain ⟨m, pc, -, hstep⟩ := protocol_bcastNext (c := c) hpc
      rw [hstep]
      exact fun _ h => absurd h List.not_mem_nil
  | bcastEnq i t rest =>
      simp only [protocol, hpc]
      intro e he
      rw [List.mem_singleton.mp he]
      exact .inr ⟨i, rest, rfl, .inl rfl⟩
  | bcastWait i t rest =>
      simp only [protocol, hpc]
      split
      · intro e he
        rw [List.mem_singleton.mp he]
        exact .inr ⟨i, rest, rfl, .inr rfl⟩
      · exact fun _ h => absurd h List.not_mem_nil
  | _ =>
      simp only [protocol, hpc, withDifference, drainStep, awaitStep]
      repeat' split
      all_goals exact fun _ h => absurd h List.not_mem_nil

theorem sent_protocol {c : Choice} :
    (protocol p s c).after.sent =
      (p.sess s).sent ++ (protocol p s c).out := by
  cases hpc : (p.sess s).pc with
  | handle e =>
      simp only [protocol, hpc]
      exact (handles p.sh (p.sess s) e).sent
  | bcastNext i rest =>
      obtain ⟨m, pc, -, hstep⟩ := protocol_bcastNext (c := c) hpc
      rw [hstep]
      rfl
  | _ =>
      simp only [protocol, hpc, withDifference, withCollection, drainStep,
        awaitStep]
      repeat' split
      all_goals rfl

theorem bfMsg_protocol {c : Choice} :
    (protocol p s c).after.bfMsg = (p.sess s).bfMsg ∨
      (p.sess s).pc = .snapshot ∧
        (protocol p s c).after.bfMsg = some p.sh.own.snapshot := by
  cases hpc : (p.sess s).pc with
  | snapshot =>
      simp only [protocol, hpc]
      exact .inr ⟨trivial, rfl⟩
  | handle e =>
      left
      simp only [protocol, hpc]
      exact (handles p.sh (p.sess s) e).bfMsg
  | bcastNext i rest =>
      left
      obtain ⟨m, pc, -, hstep⟩ := protocol_bcastNext (c := c) hpc
      rw [hstep]
      rfl
  | _ =>
      left
      simp only [protocol, hpc, withDifference, withCollection, drainStep,
        awaitStep]
      repeat' split
      all_goals rfl

theorem commands_protocol {c : Choice} :
    (protocol p s c).after.commands = (p.sess s).commands := by
  cases hpc : (p.sess s).pc with
  | handle e =>
      simp only [protocol, hpc]
      exact (handles p.sh (p.sess s) e).commands
  | bcastNext i rest =>
      obtain ⟨m, pc, -, hstep⟩ := protocol_bcastNext (c := c) hpc
      rw [hstep]
      rfl
  | _ =>
      simp only [protocol, hpc, withDifference, withCollection, drainStep,
        awaitStep]
      repeat' split
      all_goals rfl

theorem peerOwn_protocol {c : Choice} :
    (protocol p s c).after.peerOwn = (p.sess s).peerOwn ∨
      ∃ i : Int, (p.sess s).pc = .handle (.msgHave i) ∧
        checkRange (p.sess s).peerSv i = true ∧
        (protocol p s c).after.handled =
          (p.sess s).handled ++ [.actual (.haveMsg i)] ∧
        (protocol p s c).after.peerOwn =
          (p.sess s).peerOwn.map (PieceBitfield.setOwned · i.toNat) := by
  cases hpc : (p.sess s).pc with
  | handle e =>
      simp only [protocol, hpc]
      cases e with
      | msgHave i =>
          simp only [handle]
          split
          · rename_i hi
            split
            all_goals exact .inr ⟨i, rfl, hi, rfl, rfl⟩
          · exact .inl rfl
      | _ =>
          left
          simp only [handle]
          repeat' split
          all_goals rfl
  | bcastNext i rest =>
      left
      obtain ⟨m, pc, -, hstep⟩ := protocol_bcastNext (c := c) hpc
      rw [hstep]
      rfl
  | _ =>
      left
      simp only [protocol, hpc, withDifference, withCollection, drainStep,
        awaitStep]
      repeat' split
      all_goals rfl

theorem isDone_protocol {c : Choice}
    (h : (protocol p s c).after.isDone = true) :
    (p.sess s).isDone = true ∨
      p.sh.own.owningAll = true ∧ (protocol p s c).after.peerAll = true ∧
        (protocol p s c).sh.own = p.sh.own := by
  cases hpc : (p.sess s).pc with
  | handle e =>
      simp only [protocol, hpc] at h ⊢
      cases e with
      | msgHave i =>
          simp only [handle] at h ⊢
          repeat' split at h
          · rename_i hi hall
            rw [if_pos hi, if_pos hall]
            rw [Bool.and_eq_true] at hall
            exact .inr ⟨hall.1, hall.2, rfl⟩
          · exact .inl h
          · exact .inl h
      | _ =>
          left
          simp only [handle] at h
          repeat' split at h
          all_goals exact h
  | bcastDone =>
      simp only [protocol, hpc] at h ⊢
      simp only [Effect.after, Bool.or_eq_true, Bool.and_eq_true] at h
      rcases h with h | ⟨hown, hpeer⟩
      · exact .inl h
      · exact .inr ⟨hown, hpeer, trivial⟩
  | bcastNext i rest =>
      left
      obtain ⟨m, pc, -, hstep⟩ := protocol_bcastNext (c := c) hpc
      rw [hstep] at h
      exact h
  | _ =>
      left
      simp only [protocol, hpc, withDifference, withCollection, drainStep,
        awaitStep] at h
      repeat' split at h
      all_goals exact h

structure SetupKeeps (x y : Session) : Prop where
  eq : y.eq = x.eq
  isActive : y.isActive = x.isActive
  isBcastReady : y.isBcastReady = x.isBcastReady
  scanning : y.scanning = x.scanning
  selfChoke : y.selfChoke = x.selfChoke
  peerChoke : y.peerChoke = x.peerChoke
  peerInterest : y.peerInterest = x.peerInterest
  bfMsg : y.bfMsg = x.bfMsg
  sent : y.sent = x.sent
  commands : y.commands = x.commands

/-- A step of a session is one of its thread, one of `setup` that waits for the
outside, or one that leaves the session as it is. -/
inductive ActCases (p : Proc) (s : Sid) : SessionAct → Effect → Prop
  | thread (c : Choice) : ActCases p s (.thread c) (protocol p s c)
  | setup {a : SessionAct} {e : Effect}
      (stands : (p.sess s).pc.stage ≤ 5) (goes : e.after.pc.stage ≤ 6)
      (quiet : (p.sess s).events = (p.sess s).eq ∧ e.after.events = e.after.eq)
      (keeps : SetupKeeps (p.sess s) e.after)
      (taken : e.after.handled = (p.sess s).handled ∨
        e.after.handled = (p.sess s).handled ++ a.input ∧
          ∀ m ∈ a.input, m.opens = true)
      (out : e.out = []) (posts : e.posts = [])
      (own : e.sh.own = p.sh.own) (repo : e.sh.repo = p.sh.repo)
      (slots : ∃ ss, e.sh.sc = { p.sh.sc with ss := ss }) : ActCases p s a e
  | idle {a : SessionAct} {e : Effect}
      (after : ∃ n, e.after = { p.sess s with recvBcnt := n })
      (out : e.out = []) (posts : ∀ t ev, (t, ev) ∈ e.posts →
        t = s ∧ ∃ m, a = .scan m ∧ scanned m = .ok ev)
      (own : e.sh.own = p.sh.own) (repo : e.sh.repo = p.sh.repo)
      (sc : e.sh.sc = p.sh.sc) : ActCases p s a e

theorem actCases {a : SessionAct} (hen : p.sessionEnabled s a = true) :
    ActCases p s a (p.sessionEffect s a) := by
  have hnil : ∀ {x : Session}, { x with sent := x.sent ++ [] } =
      { x with recvBcnt := x.recvBcnt } := by simp
  cases a with
  | thread c => exact .thread c
  | create addr epid =>
      simp only [sessionEnabled, Bool.and_eq_true, decide_eq_true_eq] at hen
      refine .setup (by simp [hen.1.2, Pc.stage])
        (by simp [sessionEffect, Effect.after, Pc.stage])
        ⟨by simp only [Session.events, hen.1.2], rfl⟩ ?_ (.inl rfl)
        rfl rfl rfl rfl ⟨_, rfl⟩
      constructor
      all_goals first
        | rfl
        | exact List.append_nil _
  | recvHandshake _ | recvBitfield _ =>
      simp only [sessionEnabled, decide_eq_true_eq] at hen
      simp only [sessionEffect]
      split
      all_goals
        refine .setup (by simp [hen, Pc.stage])
          (by simp [Effect.after, panicEffect, Session.goto, Session.took, hen,
            Pc.stage])
          ⟨by simp only [Session.events, hen],
            by simp only [Session.events, Effect.after, panicEffect,
              Session.goto, Session.took, hen]⟩
          ?_ (by first
            | exact .inl rfl
            | exact .inr ⟨rfl, by simp [SessionAct.input, Msg.opens]⟩)
          rfl rfl rfl rfl ⟨_, rfl⟩
        constructor
      all_goals first
        | rfl
        | exact List.append_nil _
  | scan m =>
      simp only [sessionEffect]
      split
      · rename_i e he
        refine .idle ⟨_, hnil⟩ rfl ?_ rfl rfl rfl
        intro t ev hmem
        cases List.mem_singleton.mp hmem
        exact ⟨rfl, m, rfl, he⟩
      · exact .idle ⟨_, hnil⟩ rfl (by simp [panicEffect]) rfl rfl rfl
  | readFails h =>
      exact .idle ⟨_, hnil⟩ rfl (by simp [sessionEffect]) rfl rfl rfl
  | received n =>
      refine .idle ⟨(p.sess s).recvBcnt + n, ?_⟩ rfl (by simp [sessionEffect]) rfl rfl rfl
      simp [sessionEffect, Effect.after]

end Proc

end CntPeer
