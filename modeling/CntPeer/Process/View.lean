import CntPeer.Process.TearDown

/-!
# The view of the peer

`peer_own` is what the handled messages tell about the peer, and a session asks
its peer only for pieces that the view marks.
-/

namespace CntPeer

open CntPeer.Foundation

/-- The view of the peer holds what the handled messages tell; the teardown
loops stop to record it. -/
structure Viewed (x : Session) : Prop where
  early : x.pc.stage ≤ 5 → ∀ sv, .actual (.bitfieldMsg sv) ∉ x.handled
  length : ∀ sv, .actual (.bitfieldMsg sv) ∈ x.handled →
    x.peerSv.length = sv.length
  sound : ∀ i : Nat, x.peerSv[i]? = some .owned →
    ∃ m ∈ x.handled, tells i m = true
  complete : x.pc.stage ≤ 8 → ∀ i : Nat, ∀ m ∈ x.handled,
    tells i m = true → x.peerSv[i]? = some .owned

def Pc.asks : Pc → Option Nat
  | .setRequested i | .sendRequest i => some i
  | _ => none

/-- Only pieces that the peer is known to own are requested from it. -/
structure Asked (x : Session) : Prop where
  written : ∀ j : Int, .actual (.requestMsg j) ∈ x.sent →
    ∃ i : Nat, j = i ∧ x.peerSv[i]? = some .owned
  asking : ∀ i, x.pc.asks = some i → x.peerSv[i]? = some .owned

theorem opens_of_tells {i : Nat} {e : Event} {m : Msg} (h : e.msg? = some m)
    (ht : tells i m = true) : e = .msgHave i := by
  cases e with
  | msgHave j =>
      cases h
      simp only [tells, decide_eq_true_eq] at ht
      rw [ht]
  | _ =>
      cases h
      try cases ht

theorem peerSv_of_peerAll {x : Session} (h : x.peerAll = true) {i : Nat}
    (hi : i < x.peerSv.length) : x.peerSv[i]? = some .owned := by
  unfold Session.peerAll at h
  unfold Session.peerSv at hi ⊢
  split at h
  · cases h
  · rename_i b hb
    rw [hb] at hi
    exact b.owningAll_iff.mp h i hi

theorem peerAll_of_peerSv {x : Session} (hpeer : x.peerOwn.isSome = true)
    (h : ∀ i, i < x.peerSv.length → x.peerSv[i]? = some .owned) :
    x.peerAll = true := by
  obtain ⟨b, hb⟩ := Option.isSome_iff_exists.mp hpeer
  simp only [Session.peerSv, Session.peerAll, hb] at h ⊢
  exact b.owningAll_iff.mpr h

theorem checkRange_iff {sv : List PieceStatus} {j : Int} :
    checkRange sv j = true ↔ ∃ i : Nat, j = i ∧ i < sv.length := by
  simp only [checkRange, Bool.and_eq_true, decide_eq_true_eq]
  constructor
  · rintro ⟨h0, hlt⟩
    exact ⟨j.toNat, by omega, by omega⟩
  · rintro ⟨i, rfl, hi⟩
    omega

theorem Viewed.congr {x y : Session} (h : Viewed x)
    (hstage : x.pc.stage ≤ y.pc.stage) (hpeer : y.peerOwn = x.peerOwn)
    (hhandled : y.handled = x.handled ∨
      ∃ id, y.handled = x.handled ++ [.handshakeMsg id]) : Viewed y := by
  have hkeep : ∀ m ∈ x.handled, m ∈ y.handled := by
    intro m hm
    rcases hhandled with heq | ⟨id, heq⟩
    · rwa [heq]
    · rw [heq]
      exact List.mem_append_left _ hm
  have hold : ∀ m ∈ y.handled, (∀ id, m ≠ .handshakeMsg id) →
      m ∈ x.handled := by
    intro m hm hne
    rcases hhandled with heq | ⟨id, heq⟩
    · rwa [← heq]
    · rw [heq, List.mem_append, List.mem_singleton] at hm
      exact hm.resolve_right (hne id)
  refine ⟨fun hle sv hsv => h.early (by omega) sv (hold _ hsv nofun), ?_, ?_, ?_⟩
  all_goals rw [peerSv_of_peerOwn hpeer]
  · exact fun sv hsv => h.length sv (hold _ hsv nofun)
  · intro i hi
    obtain ⟨m, hm, ht⟩ := h.sound i hi
    exact ⟨m, hkeep m hm, ht⟩
  · intro hle i m hm ht
    refine h.complete (by omega) i m (hold m hm ?_) ht
    rintro id rfl
    cases ht

theorem Viewed.bitfield {x y : Session} {sv : List PieceStatus}
    (h : Viewed x) (hstage : x.pc.stage = 5) (hnone : x.peerOwn = none)
    (hstage' : y.pc.stage = 6)
    (hpeer : y.peerOwn = some (PieceBitfield.ofSnapshot sv))
    (hhandled : y.handled = x.handled ++ [.actual (.bitfieldMsg sv)]) :
    Viewed y := by
  have hnil : x.peerSv = [] := by simp [Session.peerSv, hnone]
  have hsv : y.peerSv = sv := by
    simp [Session.peerSv, hpeer, PieceBitfield.ofSnapshot]
  have hold : ∀ i m, m ∈ x.handled → tells i m = true → False := by
    intro i m hm ht
    have := h.complete (by omega) i m hm ht
    rw [hnil] at this
    cases this
  refine ⟨by omega, ?_, ?_, ?_⟩
  all_goals rw [hsv, hhandled]
  · intro sv' hmem
    rcases List.mem_append.mp hmem with hmem | hmem
    · exact absurd hmem (h.early (by omega) sv')
    · cases List.mem_singleton.mp hmem
      rfl
  · intro i hi
    exact ⟨_, List.mem_append_right _ (List.mem_singleton.mpr rfl),
      by simp [tells, hi]⟩
  · intro _ i m hm ht
    rcases List.mem_append.mp hm with hm | hm
    · exact (hold i m hm ht).elim
    · cases List.mem_singleton.mp hm
      simpa [tells] using ht

namespace Proc

variable {p p' : Proc} {s t : Sid}

theorem peerSv_protocol {c : Choice} {i : Nat}
    (h : (p.sess s).peerSv[i]? = some .owned) :
    (protocol p s c).after.peerSv[i]? = some .owned := by
  rcases peerOwn_protocol (p := p) (s := s) (c := c) with
    heq | ⟨j, -, -, -, heq⟩
  · rwa [peerSv_of_peerOwn heq]
  · have hi := (List.getElem?_eq_some_iff.mp h).1
    rw [peerSv_setOwned heq, List.getElem?_set]
    split
    · simp_all
    · exact h

theorem have_recorded {c : Choice} {j : Int}
    (hpc : (p.sess s).pc = .handle (.msgHave j)) :
    (protocol p s c).after.handled = (p.sess s).handled ∨
      ∃ i : Nat, j = i ∧ i < (p.sess s).peerSv.length ∧
        (protocol p s c).after.peerOwn =
          (p.sess s).peerOwn.map (PieceBitfield.setOwned · i) := by
  simp only [protocol, hpc, handle]
  split
  · rename_i hrange
    obtain ⟨i, rfl, hi⟩ := checkRange_iff.mp hrange
    right
    refine ⟨i, rfl, hi, ?_⟩
    split
    all_goals rfl
  · exact .inl rfl

theorem viewed_protocol {c : Choice} (h : Viewed (p.sess s)) :
    Viewed (protocol p s c).after := by
  have hmono := stage_protocol (p := p) (s := s) (c := c)
  have hhandled : ∀ m ∈ (protocol p s c).after.handled,
      m ∈ (p.sess s).handled ∨ ∃ e, e.msg? = some m ∧
        ((p.sess s).pc = .handle e ∨ 9 ≤ (p.sess s).pc.stage) := by
    intro m hm
    cases queueStep_protocol (p := p) (s := s) (c := c) with
    | same events handled => exact .inl (handled ▸ hm)
    | consumed e events handled stands =>
        rw [handled, List.mem_append] at hm
        refine hm.imp_right fun hm => ⟨e, by simpa using hm, ?_⟩
        rcases stands with hpc | hpc | hpc
        · exact .inl hpc
        all_goals
          right
          rw [hpc]
          decide
  have hopens : ∀ sv, .actual (.bitfieldMsg sv) ∈
      (protocol p s c).after.handled →
      .actual (.bitfieldMsg sv) ∈ (p.sess s).handled := by
    intro sv hsv
    rcases hhandled _ hsv with hold | ⟨e, he, -⟩
    · exact hold
    · cases opens_of_msg? he
  refine ⟨?_, ?_, ?_, ?_⟩
  · intro hstage sv hsv
    exact h.early (hmono.trans hstage) sv (hopens sv hsv)
  · intro sv hsv
    rw [← h.length sv (hopens sv hsv)]
    rcases peerOwn_protocol (p := p) (s := s) (c := c) with
      heq | ⟨j, -, -, -, heq⟩
    · rw [peerSv_of_peerOwn heq]
    · rw [peerSv_setOwned heq, List.length_set]
  · intro i hi
    rcases peerOwn_protocol (p := p) (s := s) (c := c) with
      heq | ⟨j, hpc, hrange, hhand, heq⟩
    · rw [peerSv_of_peerOwn heq] at hi
      obtain ⟨m, hm, ht⟩ := h.sound i hi
      refine ⟨m, ?_, ht⟩
      cases queueStep_protocol (p := p) (s := s) (c := c) with
      | same events handled => rwa [handled]
      | consumed e events handled =>
          rw [handled]
          exact List.mem_append_left _ hm
    · rw [hhand]
      obtain ⟨k, rfl, hk⟩ := checkRange_iff.mp hrange
      by_cases hik : k = i
      · subst k
        exact ⟨_, List.mem_append_right _ (List.mem_singleton.mpr rfl),
          by simp [tells]⟩
      · rw [peerSv_setOwned heq, Int.toNat_natCast,
          List.getElem?_set_ne hik] at hi
        obtain ⟨m, hm, ht⟩ := h.sound i hi
        exact ⟨m, List.mem_append_left _ hm, ht⟩
  · intro hstage i m hm ht
    rcases hhandled m hm with hold | ⟨e, he, hpc | hhigh⟩
    · exact peerSv_protocol (h.complete (hmono.trans hstage) i m hold ht)
    · cases opens_of_tells he ht
      rcases have_recorded (c := c) hpc with hsame | ⟨k, hik, hk, heq⟩
      · rw [hsame] at hm
        exact peerSv_protocol (h.complete (hmono.trans hstage) i m hm ht)
      · cases Int.natCast_inj.mp hik
        rw [peerSv_setOwned heq]
        simp [hk]
    · omega

theorem viewed_sessionEffect {a : SessionAct}
    (hen : p.sessionEnabled s a = true) (hph : Phased (p.sess s))
    (h : Viewed (p.sess s)) : Viewed (p.sessionEffect s a).after := by
  have hmono := stage_sessionEffect hen
  cases a with
  | thread c => exact viewed_protocol h
  | recvHandshake peerId =>
      simp only [sessionEffect] at hmono ⊢
      split at hmono
      · rw [if_pos ‹_›]
        exact h.congr hmono rfl (.inr ⟨peerId, rfl⟩)
      · rw [if_neg ‹_›]
        exact h.congr hmono rfl (.inr ⟨peerId, rfl⟩)
  | recvBitfield m =>
      simp only [sessionEnabled, decide_eq_true_eq] at hen
      cases m with
      | bitfieldMsg sv =>
          refine h.bitfield (by rw [hen]; rfl) ?_ rfl rfl rfl
          have hnone := hph.peerOwn
          rw [hen] at hnone
          simpa [Pc.stage] using hnone
      | _ => exact h.congr hmono rfl (.inl rfl)
  | scan m =>
      simp only [sessionEffect]
      split
      all_goals exact h.congr le_rfl rfl (.inl rfl)
  | _ => exact h.congr hmono rfl (.inl rfl)

theorem viewed_reachable {cfg : Config} (h : Reachable cfg p) :
    ∀ s, Viewed (p.sess s) :=
  h.invariant (fun _ => ⟨nofun, nofun, nofun, nofun⟩) fun _ _ _ hr ih _ hstep =>
    forall_sess ih (fun _ _ hx => ⟨hx.early, hx.length, hx.sound, hx.complete⟩)
      (fun s _ hen hs => viewed_sessionEffect hen (phased_reachable hr s) hs)
      hstep

theorem asks_protocol {c : Choice} {i : Nat}
    (h : (protocol p s c).after.pc.asks = some i) :
    (p.sess s).pc.asks = some i ∨ (p.sess s).peerSv[i]? = some .owned := by
  cases hpc : (p.sess s).pc with
  | requestNext =>
      right
      simp only [protocol, hpc, withDifference] at h
      repeat' split at h
      · simp [Effect.after, panicEffect, hpc, Pc.asks] at h
      · cases h
      · rename_i is hdiff _ j hj
        cases h
        exact ((mem_of_difference hdiff i).mp (List.mem_of_getElem? hj)).1
  | setRequested j =>
      left
      simp only [protocol, hpc] at h
      split at h
      · exact h
      · simpa [Effect.after, panicEffect, hpc] using h
  | handle e =>
      simp only [protocol, hpc] at h
      rw [show (handle p.sh (p.sess s) e).after.pc.asks = none by
        cases e
        all_goals
          simp only [handle]
          repeat' split
        all_goals first
          | rfl
          | simp only [Effect.after, panicEffect, hpc]; rfl] at h
      cases h
  | bcastNext j rest =>
      left
      obtain ⟨m, pc, hturn, hstep⟩ := protocol_bcastNext (c := c) hpc
      rw [hstep] at h
      cases hturn
      all_goals
        simp only [Effect.after, Session.goto] at h
        try split at h
      all_goals cases h
  | sendTearDown received =>
      cases received
      all_goals
        simp only [protocol, hpc] at h
        cases h
  | _ =>
      left
      simp only [protocol, hpc, withDifference, withCollection, drainStep,
        awaitStep] at h
      repeat' split at h
      all_goals first
        | exact h
        | contradiction
        | simp [Effect.after, panicEffect, discard, hpc, Pc.asks] at h

theorem asked_protocol {c : Choice} (h : Asked (p.sess s)) :
    Asked (protocol p s c).after := by
  refine ⟨?_, ?_⟩
  · intro j hj
    rw [sent_protocol, List.mem_append] at hj
    rcases hj with hj | hj
    · obtain ⟨i, hij, hi⟩ := h.written j hj
      exact ⟨i, hij, peerSv_protocol hi⟩
    · obtain ⟨i, hij, hpc⟩ := mayWrite_protocol _ hj
      exact ⟨i, hij, peerSv_protocol (h.asking i (by rw [hpc]; rfl))⟩
  · intro i hi
    rcases asks_protocol hi with hi | hi
    · exact peerSv_protocol (h.asking i hi)
    · exact peerSv_protocol hi

theorem asked_sessionEffect {a : SessionAct}
    (hen : p.sessionEnabled s a = true) (hph : Phased (p.sess s))
    (h : Asked (p.sess s)) : Asked (p.sessionEffect s a).after := by
  have hact := actCases hen
  generalize p.sessionEffect s a = e at hact
  cases hact with
  | thread c => exact asked_protocol h
  | setup stands goes quiet keeps =>
      -- the view is still empty, so nothing has been requested
      have hnone : (p.sess s).peerOwn = none := by
        have := hph.peerOwn
        rw [← Option.not_isSome_iff_eq_none, this]
        omega
      refine ⟨fun j hj => ?_, fun i hi => ?_⟩
      · rw [keeps.sent] at hj
        obtain ⟨i, -, hi⟩ := h.written j hj
        rw [Session.peerSv, hnone] at hi
        cases hi
      · revert hi goes
        cases e.after.pc <;> simp [Pc.asks, Pc.stage]
  | idle after =>
      obtain ⟨n, heq⟩ := after
      rw [heq]
      exact ⟨h.written, h.asking⟩

theorem asked_reachable {cfg : Config} (h : Reachable cfg p) :
    ∀ s, Asked (p.sess s) :=
  h.invariant (fun _ => ⟨nofun, nofun⟩) fun _ _ _ hr ih _ hstep =>
    forall_sess ih (fun _ _ hx => ⟨hx.written, hx.asking⟩)
      (fun s _ hen hs => asked_sessionEffect hen (phased_reachable hr s) hs)
      hstep

theorem bitfield_written {cfg : Config} (h : Reachable cfg p)
    {sv : List PieceStatus}
    (hsv : .actual (.bitfieldMsg sv) ∈ (p.sess s).sent) :
    (p.sess s).bfMsg = some sv := by
  have hopen := (introduces_reachable h).opening s
  rcases Nat.lt_or_ge (p.sess s).pc.stage 4 with hlt | hge
  · rcases Nat.lt_or_ge (p.sess s).pc.stage 2 with hlt' | hge'
    · rw [hopen.silent (by omega)] at hsv
      cases hsv
    · rw [hopen.greeted hge' (by omega)] at hsv
      simp at hsv
  · obtain ⟨sv', rest, hbf, heq, hrest⟩ := hopen.opened hge
    rw [heq, List.mem_cons, List.mem_cons] at hsv
    rcases hsv with hsv | hsv | hsv
    · cases hsv
    · cases hsv
      exact hbf
    · cases hrest _ hsv

theorem bitfield_length {cfg : Config} (h : Reachable cfg p)
    {sv : List PieceStatus}
    (hsv : .actual (.bitfieldMsg sv) ∈ (p.sess s).sent) :
    sv.length = p.sh.own.sv.length :=
  (truthful_reachable h s).length sv (bitfield_written h hsv)

theorem told_owned {cfg : Config} (h : Reachable cfg p) {m : Msg} {i : Nat}
    (hm : m ∈ (p.sess s).sent) (ht : tells i m = true) :
    p.sh.own.sv[i]? = some .owned := by
  have htrue := truthful_reachable h s
  unfold tells at ht
  split at ht
  · rename_i sv
    exact htrue.snapshot sv (bitfield_written h hm) i (of_decide_eq_true ht)
  · rename_i j
    obtain ⟨k, hk, hown⟩ := htrue.written j hm
    rw [of_decide_eq_true ht] at hk
    rwa [Int.natCast_inj.mp hk]
  · cases ht

theorem handled_sessionEffect {a : SessionAct}
    (hen : p.sessionEnabled s a = true) {m : Msg}
    (h : m ∈ (p.sess s).handled) :
    m ∈ (p.sessionEffect s a).after.handled := by
  have hact := actCases hen
  generalize p.sessionEffect s a = e at hact
  cases hact with
  | thread c =>
      cases queueStep_protocol (p := p) (s := s) (c := c) with
      | same events handled => rwa [handled]
      | consumed e events handled =>
          rw [handled]
          exact List.mem_append_left _ h
  | setup stands goes quiet keeps taken =>
      rcases taken with heq | ⟨heq, -⟩
      · rwa [heq]
      · rw [heq]
        exact List.mem_append_left _ h
  | idle after =>
      obtain ⟨n, heq⟩ := after
      rwa [heq]

theorem handled_step {a : Act} (hstep : p.step a = some p') {m : Msg}
    (hm : m ∈ (p.sess s).handled) : m ∈ (p'.sess s).handled := by
  rcases sess_step hstep s with ⟨es, heq⟩ | ⟨act, -, hen, heq⟩
  · rwa [heq, Session.enqAll_handled]
  · rw [heq, Session.enqAll_handled]
    exact handled_sessionEffect hen hm

theorem bitfield_sessionEffect {a : SessionAct}
    (hen : p.sessionEnabled s a = true)
    (hlow : (p.sess s).pc.stage ≤ 5)
    (hhigh : 6 ≤ (p.sessionEffect s a).after.pc.stage) :
    ∃ sv, .actual (.bitfieldMsg sv) ∈ (p.sessionEffect s a).after.handled := by
  cases a with
  | thread c =>
      rcases stage_waits (c := c) hen with ⟨-, hle⟩ | hge
      · exact absurd (hhigh.trans hle) (by decide)
      · omega
  | recvBitfield m =>
      cases m with
      | bitfieldMsg sv =>
          exact ⟨sv, by simp [sessionEffect, Effect.after, Session.took]⟩
      | _ => exact absurd (hhigh.trans hlow) (by decide)
  | recvHandshake peerId =>
      simp only [sessionEnabled, decide_eq_true_eq] at hen
      simp only [sessionEffect] at hhigh
      split at hhigh
      · simp [Effect.after, panicEffect, hen, Pc.stage] at hhigh
      · simp [Effect.after, Session.goto, Pc.stage] at hhigh
  | scan m =>
      simp only [sessionEffect] at hhigh
      split at hhigh
      all_goals exact absurd (hhigh.trans hlow) (by decide)
  | create _ _ => simp [sessionEffect, Effect.after, Pc.stage] at hhigh
  | readFails _ | received _ => exact absurd (hhigh.trans hlow) (by decide)

def MetPeer (x : Session) : Prop :=
  6 ≤ x.pc.stage → ∃ sv, .actual (.bitfieldMsg sv) ∈ x.handled

theorem bitfield_handled {cfg : Config} (h : Reachable cfg p) :
    ∀ s, MetPeer (p.sess s) :=
  h.invariant (fun _ hstage => absurd hstage (by simp [init, Pc.stage,
      Session.fresh]))
    fun q _ _ _ ih _ hstep =>
      forall_sess ih (fun _ _ hx => hx)
        (fun s _ hen hs hstage => by
          rcases Nat.lt_or_ge 5 (q.sess s).pc.stage with hge | hlow
          · obtain ⟨sv, hsv⟩ := hs hge
            exact ⟨sv, handled_sessionEffect hen hsv⟩
          · exact bitfield_sessionEffect hen hlow hstage) hstep

end Proc

end CntPeer
