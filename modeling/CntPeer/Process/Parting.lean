import CntPeer.Process.TearDown
import CntPeer.Process.View

/-!
# When a session leaves its main loop

A session notices that both sides own everything as soon as it has announced all
its pieces and knows that the peer has announced all of its own.  When its
drains are settled it leaves only after it has told everything, and it writes
nothing after `TearDown`.
-/

namespace CntPeer

open CntPeer.Foundation

/-- `is_done` is set when all is announced and the peer owns everything, unless
the thread is about to look. -/
def Alert (n : Nat) (x : Session) : Prop :=
  6 ≤ x.pc.stage → (∀ i, i < n → Announced x i) → x.peerAll = true →
    x.isDone = true ∨ x.pc = .bcastInterest ∨ x.pc = .bcastDone

/-- `TearDown` is the last message of a session, and unless the peer has sent
one it follows all announcements. -/
def Parted (n : Nat) (x : Session) : Prop :=
  .actual .tearDownMsg ∈ x.sent → 11 ≤ x.pc.stage ∧
    ∃ l, x.sent = l ++ [.actual .tearDownMsg] ∧ .actual .tearDownMsg ∉ l ∧
      (.actual .tearDownMsg ∈ x.handled ∨
        ∀ i, i < n → ∃ m ∈ l, tells i m = true)

namespace Proc

variable {p p' : Proc} {s : Sid} {cfg : Config}

theorem owningAll_of_announced (hr : Reachable cfg p)
    (h : ∀ i, i < cfg.nPieces → Announced (p.sess s) i) :
    p.sh.own.owningAll = true := by
  have hown := owning_reachable hr
  refine hown.counted.owningAll fun i hi => ?_
  exact (truthful_reachable hr s).of_announced (h i (hown.length ▸ hi))

theorem announced_from {c : Choice} {i : Nat}
    (h : Announced (protocol p s c).after i) :
    Announced (p.sess s) i ∨ (p.sess s).pc = .snapshot ∨
      (p.sess s).pc = .handle (.bcastHave i) ∨
      (p.sess s).pc = .drainHave i := by
  rcases h with ⟨sv, hsv, hi⟩ | h
  · rcases bfMsg_protocol (p := p) (s := s) (c := c) with hbf | ⟨hpc, -⟩
    · exact .inl (.inl ⟨sv, hbf.symm.trans hsv, hi⟩)
    · exact .inr (.inl hpc)
  · rw [sent_protocol, List.mem_append] at h
    rcases h with h | h
    · exact .inl (.inr h)
    · obtain ⟨j, hij, hpc⟩ := mayWrite_protocol _ h
      cases Int.natCast_inj.mp hij
      exact .inr (.inr hpc)

theorem alert_protocol {c : Choice} (hr : Reachable cfg p)
    (hrun : runnable p s = true) (h : Alert cfg.nPieces (p.sess s)) :
    Alert cfg.nPieces (protocol p s c).after := by
  intro hstage hann hpeer
  have hph := phased_reachable hr s
  have hhigh : 6 ≤ (p.sess s).pc.stage := by
    rcases stage_waits (c := c) hrun with ⟨-, hle⟩ | hge
    · omega
    · exact hge
  cases hdone : (p.sess s).isDone with
  | true => exact .inl (isDone_stays hdone)
  | false =>
      have hbefore : (∀ i, (p.sess s).pc ≠ .handle (.bcastHave i)) →
          ∀ i, i < cfg.nPieces → Announced (p.sess s) i := by
        intro hno i hi
        rcases announced_from (hann i hi) with ha | hpc | hpc | hpc
        · exact ha
        · rw [hpc] at hhigh
          exact absurd hhigh (by decide)
        · exact absurd hpc (hno i)
        · have := hph.teardown (by rw [hpc]; simp [Pc.stage])
          rw [hdone] at this
          cases this
      by_cases hlook : (p.sess s).pc = .bcastInterest ∨
          (p.sess s).pc = .bcastDone ∨ ∃ i, (p.sess s).pc = .handle (.bcastHave i)
      · rcases hlook with hpc | hpc | ⟨i, hpc⟩
        · right
          simp only [protocol, hpc, withDifference]
          split
          · exact .inl hpc
          · exact .inr rfl
        · left
          have hall := owningAll_of_announced hr (hbefore (by simp [hpc]))
          simp only [protocol, hpc] at hpeer ⊢
          change (p.sess s).peerAll = true at hpeer
          simp [Effect.after, hall, hpeer]
        · right
          left
          simp [protocol, hpc, handle, Effect.after, Session.goto]
      · have hall := hbefore fun i hpc => hlook (.inr (.inr ⟨i, hpc⟩))
        rcases peerOwn_protocol (p := p) (s := s) (c := c) with
          heq | ⟨j, hpc, hj, -, -⟩
        · -- nothing has changed that the session looks at
          unfold Session.peerAll at hpeer
          rw [heq] at hpeer
          rcases h hhigh hall hpeer with hd | hpc | hpc
          · rw [hdone] at hd
            cases hd
          · exact absurd (.inl hpc) hlook
          · exact absurd (.inr (.inl hpc)) hlook
        · left
          have hown := owningAll_of_announced hr hall
          simp only [protocol, hpc, handle, hj, if_true] at hpeer ⊢
          split
          · rfl
          · rename_i hnot
            rw [if_neg hnot] at hpeer
            rw [hown, Bool.true_and] at hnot
            exact absurd hpeer hnot

theorem alert_sessionEffect {a : SessionAct} (hr : Reachable cfg p)
    (hen : p.sessionEnabled s a = true) (h : Alert cfg.nPieces (p.sess s)) :
    Alert cfg.nPieces (p.sessionEffect s a).after := by
  cases a with
  | thread c => exact alert_protocol hr hen h
  | recvBitfield m =>
      simp only [sessionEnabled, decide_eq_true_eq] at hen
      cases m with
      | bitfieldMsg sv =>
          intro hstage hann hpeer
          left
          have hall := owningAll_of_announced (s := s) hr fun i hi => by
            simpa [sessionEffect, Announced, Effect.after, Session.took]
              using hann i hi
          simp only [sessionEffect, Effect.after] at hpeer ⊢
          rw [hall, Bool.and_true]
          exact hpeer
      | _ =>
          intro hstage
          simp [sessionEffect, Effect.after, panicEffect, hen, Pc.stage]
            at hstage
  | scan m =>
      simp only [sessionEffect]
      split
      all_goals
        simp only [Effect.after, panicEffect, List.append_nil]
        exact h
  | create addr epid =>
      intro hstage
      simp [sessionEffect, Effect.after, Pc.stage] at hstage
  | recvHandshake id =>
      simp only [sessionEnabled, decide_eq_true_eq] at hen
      intro hstage
      simp only [sessionEffect] at hstage
      split at hstage
      all_goals simp [Effect.after, panicEffect, Session.goto, hen, Pc.stage]
        at hstage
  | readFails _ | received _ =>
      simp only [sessionEffect, Effect.after, List.append_nil]
      exact h

theorem alert_reachable (h : Reachable cfg p) :
    ∀ s, Alert cfg.nPieces (p.sess s) :=
  h.invariant (fun _ hstage => absurd hstage (by simp [init, Pc.stage,
      Session.fresh])) fun _ _ _ hr ih _ hstep =>
    forall_sess ih (fun _ _ hx => hx)
      (fun _ _ hen hs => alert_sessionEffect hr hen hs) hstep

theorem announced_of_told (hr : Reachable cfg p) {i : Nat}
    (h : Told (p.sess s) i) : Announced (p.sess s) i := by
  obtain ⟨m, hm, ht⟩ := h
  unfold tells at ht
  split at ht
  · rename_i sv
    exact .inl ⟨sv, bitfield_written hr hm, of_decide_eq_true ht⟩
  · rw [of_decide_eq_true ht] at hm
    exact .inr hm
  · cases ht

theorem silent_protocol {c : Choice} (hstage : 11 ≤ (p.sess s).pc.stage) :
    (protocol p s c).out = [] := by
  cases hpc : (p.sess s).pc with
  | awaitTearDown =>
      simp only [protocol, hpc, awaitStep]
      repeat' split
      all_goals rfl
  | finalRelinquish =>
      simp only [protocol, hpc, withCollection]
      split
      all_goals rfl
  | notify | ended => simp [protocol, hpc]
  | _ => simp [hpc, Pc.stage] at hstage

theorem parted_protocol {c : Choice} (hr : Reachable cfg p)
    (htold : ToldFirst cfg.nPieces p) (h : Parted cfg.nPieces (p.sess s)) :
    Parted cfg.nPieces (protocol p s c).after := by
  intro hmem
  have hmono := stage_protocol (p := p) (s := s) (c := c)
  by_cases hold : .actual .tearDownMsg ∈ (p.sess s).sent
  · obtain ⟨hstage, l, hsent, hl, hwhy⟩ := h hold
    refine ⟨hstage.trans hmono, l, ?_, hl, hwhy.imp_left fun hm => ?_⟩
    · rw [sent_protocol, silent_protocol hstage, List.append_nil, hsent]
    · cases queueStep_protocol (p := p) (s := s) (c := c) with
      | same events handled => rwa [handled]
      | consumed e events handled =>
          rw [handled]
          exact List.mem_append_left _ hm
  · rw [sent_protocol] at hmem
    obtain ⟨received, hpc⟩ := mayWrite_protocol _
      ((List.mem_append.mp hmem).resolve_left hold)
    refine ⟨?_, (p.sess s).sent, ?_, hold, ?_⟩
    · cases received
      all_goals simp [protocol, hpc, Effect.after, Session.goto, Pc.stage]
    · simp [protocol, hpc, Effect.after, Session.goto]
    · by_cases hm : .actual .tearDownMsg ∈ (p.sess s).handled
      · left
        simpa [protocol, hpc, Effect.after, Session.goto] using hm
      · exact .inr fun i hi => told_of_announced hr
          (by rw [hpc]; simp [Pc.stage]) (htold s received hpc hm i hi)

theorem parted_sessionEffect {a : SessionAct} (hr : Reachable cfg p)
    (htold : ToldFirst cfg.nPieces p) (hen : p.sessionEnabled s a = true)
    (h : Parted cfg.nPieces (p.sess s)) :
    Parted cfg.nPieces (p.sessionEffect s a).after := by
  by_cases ha : ∃ c, a = .thread c
  · obtain ⟨c, rfl⟩ := ha
    exact parted_protocol hr htold h
  · intro hmem
    have hsent := (written_sessionEffect hen
      (fun c hc => ha ⟨c, hc⟩)).2
    rw [hsent] at hmem ⊢
    obtain ⟨hstage, l, heq, hl, hwhy⟩ := h hmem
    exact ⟨hstage.trans (stage_sessionEffect hen), l, heq, hl,
      hwhy.imp_left (handled_sessionEffect hen)⟩

theorem parted_reaches (h : Reaches step DrainsSettled (init cfg) p) :
    ∀ s, Parted cfg.nPieces (p.sess s) :=
  h.invariant (fun _ hmem => nomatch hmem) fun _ _ _ hr ih _ hstep =>
    forall_sess ih (fun _ _ hx => hx)
      (fun _ _ hen hs => parted_sessionEffect hr.reachable
        (toldFirst_reaches hr) hen hs) hstep

/-- A thread at this place has entered `setOwned` past its counter and has not
finished the broadcast. -/
def settling : Pc → Bool
  | .markOwned _ | .bcastLock _ | .bcastNext _ _ | .bcastEnq _ _ _
  | .bcastWait _ _ _ => true
  | _ => false

/-- When a session starts its drain, every thread of the process has completed
the `setOwned` and the broadcast that it had begun. -/
def DrainStartsSettled (p : Proc) : Act → Prop
  | .session s (.thread _) => (p.sess s).pc = .loop →
      (p.sess s).isDone = true →
      ∀ e ∈ p.sh.sc.ss, settling (p.sess e.s).pc = false
  | _ => True

instance (p : Proc) : (a : Act) → Decidable (DrainStartsSettled p a)
  | .session _ (.thread _) => inferInstanceAs (Decidable (_ → _))
  | .session _ (.create ..) | .session _ (.recvHandshake _)
  | .session _ (.recvBitfield _) | .session _ (.scan _)
  | .session _ (.readFails _) | .session _ (.received _)
  | .pnTick _ | .optTick _ | .cleanUp | .exit => .isTrue trivial

/-- Once a session tears down, the process owns everything and announces
nothing any more. -/
def Rested (p : Proc) : Prop :=
  ∀ s, 9 ≤ (p.sess s).pc.stage →
    (∀ i, i < p.sh.own.sv.length → p.sh.own.sv[i]? = some .owned) ∧
      ∀ u, settling (p.sess u).pc = false

theorem Rested.drainsSettled (h : Rested p) (a : Act) : DrainsSettled p a := by
  unfold DrainsSettled
  split
  · rename_i s c
    intro hpc heq e he i hi
    have hrest := (h s (by rw [hpc]; decide)).2 e.s
    cases hu : (p.sess e.s).pc <;> simp_all [settling, settlingPiece]
  · trivial

theorem settling_from {c : Choice}
    (h : settling (protocol p s c).after.pc = true) :
    settling (p.sess s).pc = true ∨ ∃ i, (p.sess s).pc = .countOwned i := by
  cases hpc : (p.sess s).pc with
  | countOwned i => exact .inr ⟨i, rfl⟩
  | markOwned _ | bcastLock _ | bcastNext _ _ | bcastEnq _ _ _
  | bcastWait _ _ _ => exact .inl rfl
  | handle e =>
      simp only [protocol, hpc] at h
      cases e
      all_goals
        simp only [handle] at h
        repeat' split at h
      all_goals simp [Effect.after, panicEffect, Session.goto, Session.took,
        settling, hpc] at h
  | _ =>
      simp only [protocol, hpc, withDifference, withCollection, drainStep,
        awaitStep, discard] at h
      repeat' split at h
      all_goals simp [Effect.after, panicEffect, Session.goto, settling, hpc]
        at h

theorem handle_from {c : Choice} {e : Event}
    (h : (protocol p s c).after.pc = .handle e) :
    (p.sess s).pc = .handle e ∨ (p.sess s).pc = .loop ∧
      (p.sess s).isDone = false ∧ (p.sess s).eq.head? = some e := by
  cases hpc : (p.sess s).pc with
  | loop =>
      simp only [protocol, hpc] at h
      repeat' split at h
      · cases h
      · simp [Effect.after, hpc] at h
      · rename_i hdone l e' rest heq
        cases h
        exact .inr ⟨rfl, Bool.eq_false_iff.mpr hdone, by rw [heq]; rfl⟩
  | handle e' =>
      simp only [protocol, hpc] at h
      cases e'
      all_goals
        simp only [handle] at h
        repeat' split at h
      all_goals simp_all [Effect.after, panicEffect, Session.goto, Session.took]
  | bcastNext i rest =>
      obtain ⟨m, pc, hturn, hstep⟩ := protocol_bcastNext (c := c) hpc
      rw [hstep] at h
      cases hturn
      all_goals simp [Effect.after, Session.goto] at h
  | sendTearDown received =>
      cases received
      all_goals simp [protocol, hpc, Effect.after, Session.goto] at h
  | _ =>
      simp only [protocol, hpc, withDifference, withCollection, drainStep,
        awaitStep, discard] at h
      repeat' split at h
      all_goals simp [Effect.after, panicEffect, Session.goto, hpc] at h

theorem handle_step {a : Act} {e : Event} (hstep : p.step a = some p')
    (h : (p'.sess s).pc = .handle e) :
    (p.sess s).pc = .handle e ∨ (p.sess s).pc = .loop ∧
      (p.sess s).isDone = false ∧ (p.sess s).eq.head? = some e := by
  rcases sess_step hstep s with ⟨es, heq⟩ | ⟨act, -, hen, heq⟩
  · rw [heq, Session.enqAll_pc] at h
    exact .inl h
  · rw [heq, Session.enqAll_pc] at h
    have hact := actCases hen
    generalize p.sessionEffect s act = eff at hact h
    cases hact with
    | thread c => exact handle_from h
    | setup stands goes =>
        rw [h] at goes
        exact absurd goes (by simp [Pc.stage])
    | idle after =>
        obtain ⟨n, hafter⟩ := after
        rw [hafter] at h
        exact .inl h

theorem stage_of_settling {pc : Pc} (h : settling pc = true) :
    pc.stage = 8 := by
  cases pc <;> first
    | rfl
    | cases h

theorem all_owned (hr : Reachable cfg p) (hall : p.sh.own.owningAll = true)
    (hset : ∀ u, settling (p.sess u).pc = false) :
    ∀ i, i < p.sh.own.sv.length → p.sh.own.sv[i]? = some .owned := by
  intro i hi
  have hown := owning_reachable hr
  have hsettled := hown.counted.owningAll_iff.mp hall i hi
  unfold SyncPieceBitfield.settled at hsettled
  split at hsettled
  · exact hsettled
  · rename_i u j hmutex
    have hu := hset u
    rw [hown.mutex u j hmutex] at hu
    cases hu

theorem rested_of_start {c : Choice} (hr : Reachable cfg p)
    (hlow : (p.sess s).pc.stage ≤ 8)
    (hhigh : 9 ≤ (protocol p s c).after.pc.stage)
    (hok : DrainStartsSettled p (.session s (.thread c))) :
    (∀ i, i < p.sh.own.sv.length → p.sh.own.sv[i]? = some .owned) ∧
      ∀ u, settling (p.sess u).pc = false := by
  obtain ⟨hloop, hdone⟩ := drain_from hlow hhigh
  have hset : ∀ u, settling (p.sess u).pc = false := by
    intro u
    by_contra hu
    rw [Bool.not_eq_false] at hu
    have hlive := (lifecycle_reachable hr).live u ?_ ?_
    · rw [hok hloop hdone _ hlive] at hu
      cases hu
    all_goals
      intro hpc
      rw [hpc] at hu
      cases hu
  exact ⟨all_owned hr (doneAgrees_reachable hr s hdone).1 hset, hset⟩

theorem settling_sessionEffect {a : SessionAct}
    (hen : p.sessionEnabled s a = true)
    (hold : settling (p.sess s).pc = false)
    (hcount : ∀ i, (p.sess s).pc ≠ .countOwned i) :
    settling (p.sessionEffect s a).after.pc = false := by
  by_contra hnew
  rw [Bool.not_eq_false] at hnew
  have hact := actCases hen
  generalize p.sessionEffect s a = e at hact hnew
  cases hact with
  | thread c =>
      rcases settling_from hnew with h | ⟨i, h⟩
      · rw [hold] at h
        cases h
      · exact hcount i h
  | setup stands goes =>
      rw [stage_of_settling hnew] at goes
      contradiction
  | idle after =>
      obtain ⟨n, heq⟩ := after
      rw [heq, hold] at hnew
      cases hnew

theorem Rested.session {a : SessionAct} {u : Sid} (hr : Reachable cfg p)
    (h : Rested p)
    (hcount : ∀ v i, (p.sess v).pc = .countOwned i →
      p.sh.own.sv[i]? = some .requested)
    (hok : DrainStartsSettled p (.session u a))
    (hen : p.sessionEnabled u a = true)
    (hadv : Advances p.sh.own.sv (p.sessionEffect u a).sh.own.sv) :
    Rested (p.commit u (p.sessionEffect u a)) := by
  intro s hstage
  have hbefore : (∀ i, i < p.sh.own.sv.length →
      p.sh.own.sv[i]? = some .owned) ∧ ∀ v, settling (p.sess v).pc = false := by
    by_cases hold : 9 ≤ (p.sess s).pc.stage
    · exact h s hold
    · by_cases hsu : s = u
      · subst s
        rw [commit_pc_self] at hstage
        have hact := actCases hen
        generalize p.sessionEffect u a = e at hact hstage
        cases hact with
        | thread c => exact rested_of_start hr (by omega) hstage hok
        | setup stands goes => omega
        | idle after =>
            obtain ⟨n, heq⟩ := after
            rw [heq] at hstage
            exact absurd hstage hold
      · rw [commit_pc_of_ne hsu] at hstage
        exact absurd hstage hold
  obtain ⟨hall, hset⟩ := hbefore
  refine ⟨fun i hi => ?_, fun v => ?_⟩
  · rw [commit_sh] at hi ⊢
    exact hadv.owned i (hall i (hadv.length ▸ hi))
  · by_cases hvu : v = u
    · subst v
      rw [commit_pc_self]
      refine settling_sessionEffect hen (hset u) fun i hpc => ?_
      have hreq := hcount u i hpc
      rw [hall i (List.getElem?_eq_some_iff.mp hreq).1] at hreq
      cases hreq
    · rw [commit_pc_of_ne hvu]
      exact hset v

theorem Rested.step {a : Act} (hr : Reachable cfg p) (h : Rested p)
    (hcount : ∀ v i, (p.sess v).pc = .countOwned i →
      p.sh.own.sv[i]? = some .requested)
    (hok : DrainStartsSettled p a) (hstep : p.step a = some p') :
    Rested p' := by
  have hadv := (owning_reachable hr).advances hstep
  obtain ⟨-, ⟨u, act, rfl, hen, rfl⟩ | hb⟩ := step_cases hstep
  · exact h.session hr hcount hok hen hadv
  · intro s hstage
    rw [hb.pc] at hstage
    simp only [hb.pc, hb.own]
    exact h s hstage

end Proc

end CntPeer
