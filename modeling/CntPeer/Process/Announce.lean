import CntPeer.Process.Lifecycle
import CntPeer.Process.Ownership
import CntPeer.Process.Phase
import CntPeer.Process.Steps

/-!
# Announcements

Every piece a process owns reaches every session that has taken its snapshot:
in the snapshot, in a HAVE, in the queue or through a broadcast that has not yet
passed the session.  Nothing else is ever announced.
-/

namespace CntPeer

open CntPeer.Foundation

def Announced (x : Session) (i : Nat) : Prop :=
  (∃ sv, x.bfMsg = some sv ∧ sv[i]? = some .owned) ∨
    .actual (.haveMsg i) ∈ x.sent

def Underway (x : Session) (i : Nat) : Prop :=
  Announced x i ∨ .bcastHave i ∈ x.events ∨ x.pc = .drainHave i

/-- A thread at `pc` has finished `setOwned(i)` and has yet to pass session `s`
in its `broadcastHave(i)`. -/
def Passing (pc : Pc) (s : Sid) (i : Nat) : Prop :=
  match pc with
  | .bcastLock j => j = i
  | .bcastNext j rest => j = i ∧ s ∈ rest
  | .bcastEnq j t rest | .bcastWait j t rest => j = i ∧ (s = t ∨ s ∈ rest)
  | _ => False

def Pc.announcing : Pc → Option Nat
  | .drainHave i | .bcastLock i | .bcastNext i _ | .bcastEnq i _ _
  | .bcastWait i _ _ => some i
  | _ => none

structure Truthful (own : List PieceStatus) (x : Session) : Prop where
  length : ∀ sv, x.bfMsg = some sv → sv.length = own.length
  snapshot : ∀ sv, x.bfMsg = some sv →
    ∀ i : Nat, sv[i]? = some .owned → own[i]? = some .owned
  written : ∀ j : Int, .actual (.haveMsg j) ∈ x.sent →
    ∃ i : Nat, j = i ∧ own[i]? = some .owned
  queued : ∀ i : Nat, .bcastHave i ∈ x.events → own[i]? = some .owned
  announcing : ∀ i, x.pc.announcing = some i → own[i]? = some .owned

theorem Truthful.mono {own own' : List PieceStatus} {x : Session}
    (h : Truthful own x) (hadv : Advances own own') : Truthful own' x where
  length sv hsv := by rw [h.length sv hsv, hadv.length]
  snapshot sv hsv i hi := hadv.owned i (h.snapshot sv hsv i hi)
  written j hj :=
    let ⟨i, hij, hi⟩ := h.written j hj
    ⟨i, hij, hadv.owned i hi⟩
  queued i hi := hadv.owned i (h.queued i hi)
  announcing i hi := hadv.owned i (h.announcing i hi)

theorem Truthful.enqAll {own : List PieceStatus} {x : Session}
    (h : Truthful own x) {es : List Event}
    (hes : ∀ i : Nat, .bcastHave i ∈ es → own[i]? = some .owned) :
    Truthful own (x.enqAll es) where
  length := h.length
  snapshot := h.snapshot
  written := h.written
  queued i hi := by
    rw [Session.enqAll_events, List.mem_append] at hi
    rcases hi with hi | hi
    · exact h.queued i hi
    · exact hes i hi
  announcing := h.announcing

theorem Truthful.of_announced {own : List PieceStatus} {x : Session}
    (h : Truthful own x) {i : Nat} (hi : Announced x i) :
    own[i]? = some .owned := by
  rcases hi with ⟨sv, hsv, hi⟩ | hi
  · exact h.snapshot sv hsv i hi
  · obtain ⟨k, hk, hi⟩ := h.written i hi
    rwa [Int.natCast_inj.mp hk]

theorem announced_enqAll {x : Session} {es : List Event} {i : Nat} :
    Announced (x.enqAll es) i ↔ Announced x i := Iff.rfl

theorem Underway.enqAll {x : Session} {i : Nat} (h : Underway x i)
    (es : List Event) : Underway (x.enqAll es) i := by
  rcases h with h | h | h
  · exact .inl h
  · refine .inr (.inl ?_)
    rw [Session.enqAll_events]
    exact List.mem_append_left _ h
  · exact .inr (.inr h)

theorem underway_of_mem {x : Session} {es : List Event} {i : Nat}
    (h : .bcastHave i ∈ es) : Underway (x.enqAll es) i := by
  refine .inr (.inl ?_)
  rw [Session.enqAll_events]
  exact List.mem_append_right _ h

namespace Proc

variable {p p' : Proc} {s t : Sid}

theorem owned_of_snapshot {own : SyncPieceBitfield Sid} {i : Nat} :
    own.snapshot[i]? = some .owned ↔ own.sv[i]? = some .owned := by
  simp only [SyncPieceBitfield.snapshot, List.getElem?_map]
  cases own.sv[i]? with
  | none => simp
  | some e => cases e <;> simp

theorem announcing_protocol {c : Choice} {i : Nat}
    (h : (protocol p s c).after.pc.announcing = some i) :
    (p.sess s).pc.announcing = some i ∨ .bcastHave i ∈ (p.sess s).events ∨
      (p.sess s).pc = .markOwned i ∧
        (protocol p s c).sh.own = p.sh.own.markOwned i := by
  cases hpc : (p.sess s).pc with
  | markOwned j =>
      simp only [protocol, hpc] at h ⊢
      cases h
      exact .inr (.inr ⟨rfl, rfl⟩)
  | drain =>
      right
      left
      simp only [protocol, hpc, drainStep] at h
      simp only [Session.events, hpc]
      repeat' split at h
      all_goals simp_all [Effect.after, Session.goto, discard, Pc.announcing]
  | handle e =>
      simp only [protocol, hpc] at h
      rw [show (handle p.sh (p.sess s) e).after.pc.announcing = none by
        cases e
        all_goals
          simp only [handle]
          repeat' split
        all_goals first
          | rfl
          | simp only [Effect.after, panicEffect, hpc]; rfl] at h
      contradiction
  | bcastNext j rest =>
      left
      obtain ⟨m, pc, hturn, hstep⟩ := protocol_bcastNext (c := c) hpc
      rw [hstep] at h
      cases hturn
      all_goals first
        | contradiction
        | exact h
  | sendTearDown received =>
      cases received
      all_goals
        simp only [protocol, hpc] at h
        contradiction
  | _ =>
      left
      simp only [protocol, hpc, withDifference, withCollection,
        awaitStep] at h
      repeat' split at h
      all_goals first
        | exact h
        | contradiction
        | simp [Effect.after, panicEffect, discard, hpc, Pc.announcing] at h

theorem truthful_protocol {c : Choice} (hrun : runnable p s = true)
    (hl : OwnLocal p.sh s (p.sess s)) (h : Truthful p.sh.own.sv (p.sess s)) :
    Truthful (protocol p s c).sh.own.sv (protocol p s c).after := by
  have hadv := (protocol_own (c := c) hrun).advances hl
  have hsub : ∀ ev, ev ∈ (protocol p s c).after.events →
      ev ∈ (p.sess s).events := by
    intro ev hev
    cases queueStep_protocol (p := p) (s := s) (c := c) with
    | same events => rwa [events] at hev
    | consumed e events =>
        rw [events]
        exact List.mem_cons_of_mem _ hev
  refine ⟨?_, ?_, ?_, ?_, ?_⟩
  · intro sv hsv
    rcases bfMsg_protocol (p := p) (s := s) (c := c) with hbf | ⟨-, hbf⟩
    · rw [hadv.length, h.length sv (hbf ▸ hsv)]
    · rw [hbf] at hsv
      cases hsv
      simp [SyncPieceBitfield.snapshot, hadv.length]
  · intro sv hsv i hi
    rcases bfMsg_protocol (p := p) (s := s) (c := c) with hbf | ⟨-, hbf⟩
    · exact hadv.owned i (h.snapshot sv (hbf ▸ hsv) i hi)
    · rw [hbf] at hsv
      cases hsv
      exact hadv.owned i (owned_of_snapshot.mp hi)
  · intro j hj
    rw [sent_protocol, List.mem_append] at hj
    rcases hj with hj | hj
    · obtain ⟨i, hij, hi⟩ := h.written j hj
      exact ⟨i, hij, hadv.owned i hi⟩
    · obtain ⟨i, hij, hpc | hpc⟩ := mayWrite_protocol _ hj
      · refine ⟨i, hij, hadv.owned i (h.queued i ?_)⟩
        simp [Session.events, hpc]
      · exact ⟨i, hij, hadv.owned i (h.announcing i (by rw [hpc]; rfl))⟩
  · exact fun i hi => hadv.owned i (h.queued i (hsub _ hi))
  · intro i hi
    rcases announcing_protocol hi with hi | hi | ⟨hpc, hown⟩
    · exact hadv.owned i (h.announcing i hi)
    · exact hadv.owned i (h.queued i hi)
    · simp only [OwnLocal, hpc] at hl
      have hlt : i < p.sh.own.sv.length := by
        rcases hl.2 with hi | hi <;> exact (List.getElem?_eq_some_iff.mp hi).1
      simp [hown, SyncPieceBitfield.markOwned, hlt]

theorem truthful_sessionEffect {a : SessionAct}
    (hen : p.sessionEnabled s a = true) (hl : OwnLocal p.sh s (p.sess s))
    (h : Truthful p.sh.own.sv (p.sess s)) :
    Truthful (p.sessionEffect s a).sh.own.sv (p.sessionEffect s a).after := by
  cases a with
  | thread c => exact truthful_protocol hen hl h
  | scan _ | readFails _ | received _ =>
      obtain ⟨h1, h2, h3, h4, h5⟩ := h
      simp only [sessionEffect]
      repeat' split
      all_goals
        refine ⟨h1, h2, ?_, h4, h5⟩
        simpa [Effect.after, panicEffect] using h3
  | _ =>
      obtain ⟨h1, h2, h3, h4, h5⟩ := h
      simp only [sessionEnabled, Bool.and_eq_true, decide_eq_true_eq] at hen
      simp only [Session.events, hen] at h4
      simp only [sessionEffect]
      repeat' split
      all_goals
        refine ⟨h1, h2, ?_, ?_, ?_⟩
      all_goals simp_all [Effect.after, panicEffect, Session.goto,
        Session.took, Session.events, Pc.announcing]

theorem posts_truthful {a : SessionAct} {t : Sid} {i : Nat}
    (h : Truthful p.sh.own.sv (p.sess s))
    (hmem : (t, .bcastHave i) ∈ (p.sessionEffect s a).posts) :
    p.sh.own.sv[i]? = some .owned := by
  cases a with
  | thread c =>
      rcases mayPost_protocol _ hmem with ht | ⟨j, rest, hj, hpc⟩
      · cases ht
      · cases hj
        refine h.announcing i ?_
        rcases hpc with hpc | hpc <;> rw [hpc] <;> rfl
  | scan m =>
      simp only [sessionEffect] at hmem
      split at hmem
      · rename_i e he
        cases List.mem_singleton.mp hmem
        cases m <;> cases he
      · cases hmem
  | _ =>
      simp only [sessionEffect] at hmem
      repeat' split at hmem
      all_goals cases hmem

def TruthfulAll (p : Proc) : Prop := ∀ s, Truthful p.sh.own.sv (p.sess s)

theorem TruthfulAll.step {n : Nat} {a : Act} (h : TruthfulAll p)
    (hn : Owning n p) (hstep : p.step a = some p') : TruthfulAll p' := by
  intro t
  have hadv := hn.advances hstep
  obtain ⟨-, ⟨s, act, -, hen, rfl⟩ | hb⟩ := step_cases hstep
  · rw [commit_sess]
    refine Truthful.enqAll ?_ fun i hi =>
      hadv.owned i (posts_truthful (h s) (mem_postsTo.mp hi))
    by_cases hts : t = s
    · subst t
      rw [moved_self]
      exact truthful_sessionEffect hen (hn.locals s) (h s)
    · rw [moved_of_ne hts]
      exact (h t).mono hadv
  · obtain ⟨es, hes, heq⟩ := hb.sess t
    rw [heq, hb.own]
    refine (h t).enqAll fun i hi => ?_
    cases hes _ hi

theorem truthful_init (cfg : Config) : TruthfulAll (init cfg) := fun s => by
  refine ⟨nofun, nofun, ?_, ?_, nofun⟩
  · intro j hj
    cases hj
  · intro i hi
    cases hi

theorem truthful_reachable {cfg : Config} (h : Reachable cfg p) :
    TruthfulAll p :=
  h.invariant (truthful_init cfg) fun _ _ _ hr ih _ hstep =>
    ih.step (owning_reachable hr) hstep

theorem have_written {c : Choice} {i : Nat}
    (hpc : (p.sess s).pc = .handle (.bcastHave i) ∨
      (p.sess s).pc = .drainHave i) :
    .actual (.haveMsg i) ∈ (protocol p s c).out := by
  rcases hpc with hpc | hpc <;> simp [protocol, hpc, handle]

theorem drain_announcing {c : Choice} {i : Nat} {rest : List Event}
    (hpc : (p.sess s).pc = .drain)
    (heq : (p.sess s).eq = .bcastHave i :: rest) :
    (protocol p s c).after.pc = .drainHave i := by
  simp [protocol, hpc, drainStep, heq, Effect.after, Session.goto]

theorem announced_protocol {c : Choice} {i : Nat} (hph : Phased (p.sess s))
    (h : Announced (p.sess s) i) : Announced (protocol p s c).after i := by
  rcases h with ⟨sv, hsv, hi⟩ | h
  · rcases bfMsg_protocol (p := p) (s := s) (c := c) with hbf | ⟨hpc, -⟩
    · exact .inl ⟨sv, hbf.trans hsv, hi⟩
    · have := hph.bfMsg.mp (by rw [hsv]; rfl)
      rw [hpc] at this
      contradiction
  · right
    rw [sent_protocol]
    exact List.mem_append_left _ h

/-- No announcement gets lost in a step of its session, short of the loop that
waits for `TearDown`. -/
theorem underway_protocol {c : Choice} {i : Nat} (hph : Phased (p.sess s))
    (hawait : (p.sess s).pc ≠ .awaitTearDown) (h : Underway (p.sess s) i) :
    Underway (protocol p s c).after i := by
  have hwritten : .actual (.haveMsg i) ∈ (protocol p s c).out →
      Underway (protocol p s c).after i := by
    intro hout
    refine .inl (.inr ?_)
    rw [sent_protocol]
    exact List.mem_append_right _ hout
  rcases h with h | h | h
  · exact .inl (announced_protocol hph h)
  · cases queueStep_protocol (p := p) (s := s) (c := c) with
    | same events =>
        rw [← events] at h
        exact .inr (.inl h)
    | consumed e events handled stands =>
        rw [events, List.mem_cons] at h
        rcases h with rfl | h
        · rcases stands with hpc | hpc | hpc
          · exact hwritten (have_written (.inl hpc))
          · simp only [Session.events, hpc] at events
            exact .inr (.inr (drain_announcing hpc events))
          · exact absurd hpc hawait
        · exact .inr (.inl h)
  · exact hwritten (have_written (.inr h))

theorem underway_sessionEffect {a : SessionAct} {i : Nat}
    (hen : p.sessionEnabled s a = true) (hph : Phased (p.sess s))
    (hawait : (p.sess s).pc ≠ .awaitTearDown) (h : Underway (p.sess s) i) :
    Underway (p.sessionEffect s a).after i := by
  cases a with
  | thread c => exact underway_protocol hph hawait h
  | scan _ | readFails _ | received _ =>
      simp only [sessionEffect]
      repeat' split
      all_goals simpa [Underway, Announced, Effect.after, panicEffect,
        Session.events] using h
  | _ =>
      simp only [sessionEnabled, Bool.and_eq_true, decide_eq_true_eq] at hen
      simp only [Underway, Session.events, hen] at h
      simp only [sessionEffect]
      repeat' split
      all_goals simpa [Underway, Announced, Effect.after, panicEffect,
        Session.goto, Session.took, Session.events, hen] using h

theorem passing_protocol {c : Choice} {u : Sid} {i : Nat}
    (hrun : runnable p u = true) (hlive : s ∈ p.sh.sc.ss.map Sn.s)
    (hready : (p.sess s).isBcastReady = true ∨ (p.sess s).pc = .markReady)
    (h : Passing (p.sess u).pc s i) :
    Passing (protocol p u c).after.pc s i ∨
      (s, .bcastHave i) ∈ (protocol p u c).posts := by
  cases hpc : (p.sess u).pc with
  | bcastLock j =>
      simp only [hpc, Passing] at h
      simp only [protocol, hpc]
      exact .inl ⟨h, hlive⟩
  | bcastNext j rest =>
      simp only [hpc, Passing] at h
      cases rest with
      | nil => simp at h
      | cons t rest =>
          left
          simp only [protocol, hpc]
          split
          all_goals exact ⟨h.1, List.mem_cons.mp h.2⟩
  | bcastEnq j t rest =>
      simp only [hpc, Passing] at h
      simp only [protocol, hpc]
      obtain ⟨rfl, rfl | h⟩ := h
      · exact .inr (by simp)
      · exact .inl ⟨rfl, h⟩
  | bcastWait j t rest =>
      simp only [hpc, Passing] at h
      simp only [protocol, hpc]
      obtain ⟨rfl, rfl | h⟩ := h
      · -- the lock is free only once the session is ready
        simp only [runnable, hpc, decide_eq_true_eq] at hrun
        exact .inr (by simp [hready.resolve_right hrun])
      · exact .inl ⟨rfl, h⟩
  | _ => simp [hpc, Passing] at h

theorem passing_sessionEffect {a : SessionAct} {u : Sid} {i : Nat}
    (hen : p.sessionEnabled u a = true) (hlive : s ∈ p.sh.sc.ss.map Sn.s)
    (hready : (p.sess s).isBcastReady = true ∨ (p.sess s).pc = .markReady)
    (h : Passing (p.sess u).pc s i) :
    Passing (p.sessionEffect u a).after.pc s i ∨
      (s, .bcastHave i) ∈ (p.sessionEffect u a).posts := by
  cases a with
  | thread c => exact passing_protocol hen hlive hready h
  | scan _ | readFails _ | received _ =>
      left
      simp only [sessionEffect]
      repeat' split
      all_goals exact h
  | _ =>
      simp only [sessionEnabled, Bool.and_eq_true, decide_eq_true_eq] at hen
      simp [hen, Passing] at h

/-- Every owned piece reaches every session that has its snapshot and still
serves its queue. -/
def Covered (p : Proc) : Prop :=
  ∀ s, (p.sess s).bfMsg.isSome = true → (p.sess s).pc.stage ≤ 9 →
    ∀ i : Nat, p.sh.own.sv[i]? = some .owned →
      Underway (p.sess s) i ∨ ∃ u, Passing (p.sess u).pc s i

theorem newly_owned {a : SessionAct} {i : Nat}
    (hen : p.sessionEnabled s a = true)
    (h : (p.sessionEffect s a).sh.own.sv[i]? = some .owned) :
    p.sh.own.sv[i]? = some .owned ∨
      (p.sessionEffect s a).after.pc = .bcastLock i := by
  cases a with
  | thread c =>
      cases protocol_own (c := c) hen with
      | same stays heq => exact .inl (heq ▸ h)
      | requested j stands free heq =>
          simp only [sessionEffect, heq, SyncPieceBitfield.setRequested,
            List.getElem?_set] at h
          split at h
          · split at h <;> cases h
          · exact .inl h
      | counted j stands goes free hi heq =>
          simp only [sessionEffect, heq, SyncPieceBitfield.countOwned] at h
          exact .inl h
      | marked j stands heq =>
          by_cases hij : j = i
          · subst j
            right
            simp [sessionEffect, protocol, stands, Effect.after, Session.goto]
          · simp only [sessionEffect, heq, SyncPieceBitfield.markOwned] at h
            rw [List.getElem?_set_ne hij] at h
            exact .inl h
  | _ =>
      left
      simp only [sessionEffect] at h
      repeat' split at h
      all_goals exact h

theorem newly_taken {a : SessionAct}
    (hold : (p.sess s).bfMsg.isSome = false)
    (h : (p.sessionEffect s a).after.bfMsg.isSome = true) :
    (p.sessionEffect s a).after.bfMsg = some p.sh.own.snapshot := by
  cases a with
  | thread c =>
      rcases bfMsg_protocol (p := p) (s := s) (c := c) with hbf | ⟨-, hbf⟩
      · simp only [sessionEffect, hbf, hold] at h
        contradiction
      · exact hbf
  | _ =>
      simp only [sessionEffect] at h
      repeat' split at h
      all_goals simp [Effect.after, panicEffect, Session.goto, Session.took,
        hold] at h

theorem Covered.session {a : SessionAct} {u : Sid} (h : Covered p)
    (hlife : Lifecycle p) (hph : ∀ s, Phased (p.sess s))
    (hen : p.sessionEnabled u a = true) :
    Covered (p.commit u (p.sessionEffect u a)) := by
  intro s hsnap hstage i hown
  have hpcs : ∀ v, ((p.commit u (p.sessionEffect u a)).sess v).pc =
      (p.moved u (p.sessionEffect u a) v).pc := fun _ => rfl
  rcases newly_owned hen hown with hown | hlock
  swap
  · -- the broadcast is still to come
    refine .inr ⟨u, ?_⟩
    rw [hpcs, moved_self, hlock]
    rfl
  cases hold : (p.sess s).bfMsg.isSome with
  | false =>
      by_cases hsu : s = u
      · subst s
        rw [commit_self, Session.enqAll_bfMsg] at hsnap
        rw [commit_self]
        exact .inl (.inl (.inl
          ⟨_, newly_taken hold hsnap, owned_of_snapshot.mpr hown⟩))
      · rw [commit_of_ne hsu, Session.enqAll_bfMsg, hold] at hsnap
        contradiction
  | true =>
      have hstage' : (p.sess s).pc.stage ≤ 9 := by
        by_cases hsu : s = u
        · subst s
          rw [commit_pc_self] at hstage
          exact (stage_sessionEffect hen).trans hstage
        · rw [commit_pc_of_ne hsu] at hstage
          exact hstage
      rcases h s hold hstage' i hown with hunder | ⟨v, hv⟩
      · left
        rw [commit_sess]
        refine Underway.enqAll ?_ _
        by_cases hsu : s = u
        · subst s
          rw [moved_self]
          refine underway_sessionEffect hen (hph u) ?_ hunder
          intro hpc
          rw [hpc] at hstage'
          contradiction
        · rwa [moved_of_ne hsu]
      · by_cases hvu : v = u
        · subst v
          have htaken := (hph s).bfMsg.mp hold
          have hready : (p.sess s).isBcastReady = true ∨
              (p.sess s).pc = .markReady := by
            by_cases hge : 4 ≤ (p.sess s).pc.stage
            · exact .inl ((hph s).ready.mpr hge)
            · right
              have hthree : (p.sess s).pc.stage = 3 := by omega
              revert hthree
              cases (p.sess s).pc <;> simp [Pc.stage]
          have hlive : s ∈ p.sh.sc.ss.map Sn.s := by
            refine List.mem_map.mpr ⟨_, hlife.live s ?_ ?_, rfl⟩
            all_goals
              intro hpc
              rw [hpc] at htaken hstage'
              contradiction
          rcases passing_sessionEffect hen hlive hready hv with hpass | hpost
          · refine .inr ⟨u, ?_⟩
            rw [hpcs, moved_self]
            exact hpass
          · refine .inl ?_
            rw [commit_sess]
            exact underway_of_mem (mem_postsTo.mpr hpost)
        · refine .inr ⟨v, ?_⟩
          rw [hpcs, moved_of_ne hvu]
          exact hv

theorem Covered.step {a : Act} (h : Covered p) (hlife : Lifecycle p)
    (hph : ∀ s, Phased (p.sess s)) (hstep : p.step a = some p') :
    Covered p' := by
  obtain ⟨-, ⟨u, act, -, hen, rfl⟩ | hb⟩ := step_cases hstep
  · exact h.session hlife hph hen
  · intro s hsnap hstage i hown
    obtain ⟨es, -, hes⟩ := hb.sess s
    rw [hes, Session.enqAll_bfMsg] at hsnap
    rw [hes, Session.enqAll_pc] at hstage
    rw [hb.own] at hown
    rcases h s hsnap hstage i hown with hunder | ⟨v, hv⟩
    · rw [hes]
      exact .inl (hunder.enqAll es)
    · obtain ⟨es', -, hes'⟩ := hb.sess v
      refine .inr ⟨v, ?_⟩
      rw [hes', Session.enqAll_pc]
      exact hv

theorem covered_reachable {cfg : Config} (h : Reachable cfg p) : Covered p :=
  h.invariant (fun _ hsnap => nomatch hsnap) fun _ _ _ hr ih _ hstep =>
    ih.step (lifecycle_reachable hr) (phased_reachable hr) hstep

/--
No announcement is lost and none is false: what is owned is announced on, or on
its way to, every session between its snapshot and its teardown, and only owned
pieces are.
-/
theorem announcements_exact {cfg : Config} (h : Reachable cfg p) (s : Sid) :
    ((p.sess s).bfMsg.isSome = true → (p.sess s).pc.stage ≤ 8 →
      ∀ i : Nat, p.sh.own.sv[i]? = some .owned →
        Announced (p.sess s) i ∨ .bcastHave i ∈ (p.sess s).events ∨
          ∃ u, Passing (p.sess u).pc s i) ∧
    (∀ i : Nat, (Announced (p.sess s) i ∨ .bcastHave i ∈ (p.sess s).events ∨
        ∃ u, Passing (p.sess u).pc s i) → p.sh.own.sv[i]? = some .owned) ∧
    ∀ j : Int, .actual (.haveMsg j) ∈ (p.sess s).sent → ∃ i : Nat, j = i := by
  have htrue := truthful_reachable h
  refine ⟨?_, ?_, ?_⟩
  · intro hsnap hstage i hown
    rcases covered_reachable h s hsnap (by omega) i hown with hu | hpass
    · rcases hu with ha | hq | hpc
      · exact .inl ha
      · exact .inr (.inl hq)
      · rw [hpc] at hstage
        contradiction
    · exact .inr (.inr hpass)
  · rintro i (ha | hq | ⟨u, hu⟩)
    · exact (htrue s).of_announced ha
    · exact (htrue s).queued i hq
    · refine (htrue u).announcing i ?_
      cases hpc : (p.sess u).pc <;> simp_all [Passing, Pc.announcing]
  · intro j hj
    obtain ⟨i, hij, -⟩ := (htrue s).written j hj
    exact ⟨i, hij⟩

/-- A process without the file, and a file of one piece. -/
def leech : Config where
  selfPeerId := 1
  hasFile := false
  file := []
  fileSize := 1
  pieceSize := 1
  numPn := 0
  totalPeerCount := 3

/-- A process with a file of one piece and one slot. -/
def seed : Config where
  selfPeerId := 1
  hasFile := true
  file := [7]
  fileSize := 1
  pieceSize := 1
  numPn := 1
  totalPeerCount := 4

def threadSteps (s : Sid) (n : Nat) : List Act :=
  List.replicate n (.session s (.thread {}))

def setupRun (s : Sid) (sv : List PieceStatus) : List Act :=
  .session s (.create s epidNoPreference) :: threadSteps s 3 ++
    [.session s (.recvHandshake (s + 2)),
      .session s (.recvBitfield (.bitfieldMsg sv))] ++ threadSteps s 2

/-- The peer of session `s` sends `m`, and the thread takes `n` steps. -/
def receive (s : Sid) (m : ActualMsg) (n : Nat) : List Act :=
  .session s (.scan m) :: threadSteps s n

/-- Session 0 downloads the piece up to the first half of `setOwned`; session 1
joins a peer that has nothing yet. -/
def lastPieceRun : List Act :=
  setupRun 0 [.owned] ++ setupRun 1 [.absent] ++ receive 0 .unchokeMsg 5 ++
    receive 0 (.pieceMsg 0 [7]) 7

def broadcasting : Proc :=
  (run step (init leech) (lastPieceRun ++ threadSteps 0 1)).get (by decide)

theorem announcements_exact_broadcasting :
    (broadcasting.sess 1).bfMsg.isSome = true ∧
      broadcasting.sh.own.sv[0]? = some .owned ∧
      (Announced (broadcasting.sess 1) 0 ∨
        .bcastHave 0 ∈ (broadcasting.sess 1).events ∨
        ∃ u, Passing (broadcasting.sess u).pc 1 0) :=
  ⟨by decide, by decide,
    (announcements_exact (reachable_get _) 1).1 (by decide) (by decide) 0
      (by decide)⟩

end Proc

end CntPeer
