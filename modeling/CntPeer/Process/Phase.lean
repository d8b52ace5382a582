import CntPeer.Process.Frame

/-!
# Phases of a session

How far a protocol thread has come decides which of its flags are set.  The
stages are passed in order, and a session never goes back.
-/

namespace CntPeer

open CntPeer.Foundation

/-- `setup` takes the stages 1 to 7, the event loop 8, the teardown the rest. -/
def Pc.stage : Pc → Nat
  | .absent => 0
  | .handshake => 1
  | .snapshot => 2
  | .markReady => 3
  | .recvHandshake => 4
  | .recvBitfield => 5
  | .sendInterest => 6
  | .activate => 7
  | .drain | .drainHave _ | .drainInterest => 9
  | .sendTearDown _ => 10
  | .awaitTearDown => 11
  | .finalRelinquish => 12
  | .notify => 13
  | .ended => 14
  | _ => 8

structure Phased (x : Session) : Prop where
  bfMsg : x.bfMsg.isSome = true ↔ 3 ≤ x.pc.stage
  ready : x.isBcastReady = true ↔ 4 ≤ x.pc.stage
  peerOwn : x.peerOwn.isSome = true ↔ 6 ≤ x.pc.stage
  scanning : x.scanning = true ↔ 7 ≤ x.pc.stage
  active : x.isActive = true ↔ 8 ≤ x.pc.stage
  done : x.isDone = true → 6 ≤ x.pc.stage
  teardown : 9 ≤ x.pc.stage → x.isDone = true

theorem Phased.enqAll {x : Session} (h : Phased x) (es : List Event) :
    Phased (x.enqAll es) :=
  ⟨h.bfMsg, h.ready, h.peerOwn, h.scanning, h.active, h.done, h.teardown⟩

structure Flags (x y : Session) : Prop where
  bfMsg : y.bfMsg = x.bfMsg
  ready : y.isBcastReady = x.isBcastReady
  peerOwn : y.peerOwn.isSome = x.peerOwn.isSome
  scanning : y.scanning = x.scanning
  active : y.isActive = x.isActive

theorem Phased.late {x y : Session} (h : Phased x) (hx : 8 ≤ x.pc.stage)
    (hy : 8 ≤ y.pc.stage) (hflags : Flags x y)
    (hdone : 9 ≤ y.pc.stage → y.isDone = true) : Phased y where
  bfMsg := by
    rw [hflags.bfMsg, h.bfMsg]
    omega
  ready := by
    rw [hflags.ready, h.ready]
    omega
  peerOwn := by
    rw [hflags.peerOwn, h.peerOwn]
    omega
  scanning := by
    rw [hflags.scanning, h.scanning]
    omega
  active := by
    rw [hflags.active, h.active]
    omega
  done := fun _ => by omega
  teardown := hdone

theorem phased_fresh : Phased Session.fresh := by
  constructor <;> decide

namespace Proc

variable {p p' : Proc} {s : Sid}

theorem stage_handle (sh : Shared) (x : Session) (e : Event)
    (hpc : x.pc = .handle e) : (handle sh x e).after.pc.stage = 8 := by
  cases e
  all_goals
    simp only [handle]
    repeat' split
  all_goals simp_all [Effect.after, panicEffect, Session.goto, Session.took,
    Pc.stage]

theorem stage_protocol {c : Choice} :
    (p.sess s).pc.stage ≤ (protocol p s c).after.pc.stage := by
  cases hpc : (p.sess s).pc with
  | handle e =>
      simp only [protocol, hpc]
      rw [stage_handle p.sh (p.sess s) e hpc]
      rfl
  | bcastNext i rest =>
      obtain ⟨m, pc, hturn, hstep⟩ := protocol_bcastNext (c := c) hpc
      rw [hstep]
      cases hturn
      all_goals exact le_rfl
  | sendTearDown received =>
      cases received
      all_goals
        simp only [protocol, hpc]
        simp [Effect.after, Session.goto, Pc.stage]
  | _ =>
      simp only [protocol, hpc, withDifference, withCollection, drainStep,
        awaitStep, discard]
      repeat' split
      all_goals simp [Effect.after, panicEffect, Session.goto, Pc.stage, hpc]

theorem flags_handle {sh : Shared} {x : Session} (e : Event) :
    Flags x (handle sh x e).after := by
  cases e
  all_goals
    simp only [handle]
    repeat' split
  all_goals first
    | exact ⟨rfl, rfl, rfl, rfl, rfl⟩
    | exact ⟨rfl, rfl, Option.isSome_map, rfl, rfl⟩

theorem phased_setup {c : Choice} (h : Phased (p.sess s))
    (hstage : (p.sess s).pc.stage ≤ 7) : Phased (protocol p s c).after := by
  cases hpc : (p.sess s).pc with
  | absent | handshake | snapshot | markReady | recvHandshake | recvBitfield
  | sendInterest | activate =>
      obtain ⟨h1, h2, h3, h4, h5, h6, h7⟩ := h
      rw [hpc] at h1 h2 h3 h4 h5 h6 h7
      simp only [protocol, hpc, withDifference]
      repeat' split
      all_goals constructor
      all_goals simp_all [Effect.after, panicEffect, Session.goto, Pc.stage]
  | _ => simp [hpc, Pc.stage] at hstage

theorem flags_late {c : Choice} (hstage : 8 ≤ (p.sess s).pc.stage) :
    Flags (p.sess s) (protocol p s c).after := by
  cases hpc : (p.sess s).pc with
  | handle e =>
      simp only [protocol, hpc]
      exact flags_handle e
  | bcastNext i rest =>
      obtain ⟨m, pc, -, hstep⟩ := protocol_bcastNext (c := c) hpc
      rw [hstep]
      exact ⟨rfl, rfl, rfl, rfl, rfl⟩
  | absent | handshake | snapshot | markReady | recvHandshake | recvBitfield
  | sendInterest | activate => simp [hpc, Pc.stage] at hstage
  | _ =>
      simp only [protocol, hpc, withDifference, withCollection, drainStep,
        awaitStep]
      repeat' split
      all_goals exact ⟨rfl, rfl, rfl, rfl, rfl⟩

theorem isDone_stays {c : Choice} (h : (p.sess s).isDone = true) :
    (protocol p s c).after.isDone = true := by
  cases hpc : (p.sess s).pc with
  | handle e =>
      simp only [protocol, hpc]
      cases e
      all_goals
        simp only [handle]
        repeat' split
      all_goals first
        | exact h
        | rfl
  | bcastNext i rest =>
      obtain ⟨m, pc, -, hstep⟩ := protocol_bcastNext (c := c) hpc
      rw [hstep]
      exact h
  | bcastDone =>
      simp only [protocol, hpc, Effect.after, h]
      rfl
  | _ =>
      simp only [protocol, hpc, withDifference, withCollection, drainStep,
        awaitStep]
      repeat' split
      all_goals exact h

theorem drain_from {c : Choice} (hlow : (p.sess s).pc.stage ≤ 8)
    (hhigh : 9 ≤ (protocol p s c).after.pc.stage) :
    (p.sess s).pc = .loop ∧ (p.sess s).isDone = true := by
  cases hpc : (p.sess s).pc with
  | loop =>
      refine ⟨rfl, ?_⟩
      simp only [protocol, hpc] at hhigh
      repeat' split at hhigh
      · assumption
      all_goals simp [Effect.after, hpc, Pc.stage] at hhigh
  | handle e =>
      simp only [protocol, hpc] at hhigh
      rw [stage_handle p.sh (p.sess s) e hpc] at hhigh
      contradiction
  | bcastNext i rest =>
      obtain ⟨m, pc, hturn, hstep⟩ := protocol_bcastNext (c := c) hpc
      rw [hstep] at hhigh
      cases hturn
      all_goals simp [Effect.after, Session.goto, Pc.stage] at hhigh
  | drain | drainHave _ | drainInterest | sendTearDown _ | awaitTearDown
  | finalRelinquish | notify | ended =>
      simp [hpc, Pc.stage] at hlow
  | _ =>
      simp only [protocol, hpc, withDifference, withCollection] at hhigh
      repeat' split at hhigh
      all_goals simp [Effect.after, panicEffect, Session.goto, Pc.stage, hpc]
        at hhigh

theorem phased_protocol {c : Choice} (h : Phased (p.sess s)) :
    Phased (protocol p s c).after := by
  rcases Nat.lt_or_ge (p.sess s).pc.stage 8 with hlt | hge
  · exact phased_setup h (by omega)
  · refine h.late hge (hge.trans stage_protocol) (flags_late hge) fun h9 => ?_
    rcases Nat.lt_or_ge (p.sess s).pc.stage 9 with hlow | hhigh
    · exact isDone_stays (drain_from (by omega) h9).2
    · exact isDone_stays (h.teardown hhigh)

theorem stage_sessionEffect {a : SessionAct}
    (hen : p.sessionEnabled s a = true) :
    (p.sess s).pc.stage ≤ (p.sessionEffect s a).after.pc.stage := by
  cases a with
  | thread c => exact stage_protocol
  | scan _ | readFails _ | received _ =>
      simp only [sessionEffect]
      repeat' split
      all_goals exact le_rfl
  | _ =>
      simp only [sessionEnabled, Bool.and_eq_true, decide_eq_true_eq] at hen
      simp only [sessionEffect]
      repeat' split
      all_goals simp [Effect.after, panicEffect, Session.goto, Session.took,
        Pc.stage, hen]

theorem phased_sessionEffect {a : SessionAct}
    (hen : p.sessionEnabled s a = true) (h : Phased (p.sess s)) :
    Phased (p.sessionEffect s a).after := by
  cases a with
  | thread c => exact phased_protocol h
  | create addr expectedPeerId =>
      obtain ⟨h1, h2, h3, h4, h5, h6, h7⟩ := h
      simp only [sessionEnabled, Bool.and_eq_true, decide_eq_true_eq] at hen
      rw [hen.1.2] at h1 h2 h3 h4 h5 h6 h7
      simp only [sessionEffect]
      constructor
      all_goals simp_all [Effect.after, Pc.stage]
  | recvHandshake peerId | recvBitfield m =>
      obtain ⟨h1, h2, h3, h4, h5, h6, h7⟩ := h
      simp only [sessionEnabled, decide_eq_true_eq] at hen
      rw [hen] at h1 h2 h3 h4 h5 h6 h7
      simp only [sessionEffect]
      split
      all_goals constructor
      all_goals simp_all [Effect.after, panicEffect, Session.goto,
        Session.took, Pc.stage]
  | scan m =>
      simp only [sessionEffect]
      split
      all_goals
        obtain ⟨h1, h2, h3, h4, h5, h6, h7⟩ := h
        exact ⟨h1, h2, h3, h4, h5, h6, h7⟩
  | readFails _ | received n =>
      obtain ⟨h1, h2, h3, h4, h5, h6, h7⟩ := h
      exact ⟨h1, h2, h3, h4, h5, h6, h7⟩

theorem phased_step {a : Act} (h : ∀ s, Phased (p.sess s))
    (hstep : p.step a = some p') : ∀ s, Phased (p'.sess s) :=
  forall_sess h (fun _ es hx => hx.enqAll es)
    (fun _ _ hen hs => phased_sessionEffect hen hs) hstep

theorem phased_reachable {cfg : Config} (h : Reachable cfg p) :
    ∀ s, Phased (p.sess s) :=
  h.invariant (fun _ => phased_fresh) fun _ _ _ _ ih _ hstep =>
    phased_step ih hstep

end Proc

end CntPeer
