import CntPeer.Process.Announce

/-!
# The chain of requests

An unchoked session asks for the next piece when it is unchoked and after every
piece it receives.  A HAVE starts nothing, so the chain stays alive only if one
request is outstanding when a HAVE makes a new piece eligible.
-/

namespace CntPeer

open CntPeer.Foundation

/-- A request written on the session, whose piece it has not taken up. -/
def Outstanding (x : Session) : Prop :=
  ∃ i : Nat, .actual (.requestMsg i) ∈ x.sent ∧
    ∀ d, .actual (.pieceMsg i d) ∉ x.handled

/-- The handlers of `MsgPiece` and `MsgUnchoke` from their first step to the
request they may write. -/
def Pc.requesting : Pc → Bool
  | .requestNext | .setRequested _ | .sendRequest _ | .savePiece _ _
  | .saveCache _ _ | .readCount _ | .logPiece _ _ | .countOwned _
  | .markOwned _ | .bcastLock _ | .bcastNext _ _ | .bcastEnq _ _ _
  | .bcastWait _ _ _ => true
  | _ => false

/-- The invariant of the chain, for one session. -/
structure Chained (own : List PieceStatus) (x : Session) : Prop where
  early : x.selfChoke = .unchoked → 8 ≤ x.pc.stage
  taken : x.pc.stage ≤ 8 → ∀ (j : Int) (d : Piece),
    .actual (.pieceMsg j d) ∈ x.handled → ∃ i : Nat, j = i ∧ Taken own i
  picked : ∀ i : Nat, x.pc = .setRequested i ∨ x.pc = .sendRequest i →
    ∀ d, .actual (.pieceMsg i d) ∉ x.handled
  alive : x.pc.stage ≤ 8 → x.pc.requesting = false → x.selfChoke = .unchoked →
    ∀ i : Nat, x.peerSv[i]? = some .owned → own[i]? = some .absent →
      Outstanding x

theorem Chained.mono {own own' : List PieceStatus} {x : Session}
    (h : Chained own x) (hadv : Advances own own') : Chained own' x where
  early := h.early
  taken hstage j d hmem :=
    let ⟨i, hij, hi⟩ := h.taken hstage j d hmem
    ⟨i, hij, hadv.taken i hi⟩
  picked := h.picked
  alive hstage hreq hunch i hpeer hi :=
    h.alive hstage hreq hunch i hpeer (hadv.absent i hi)

theorem Chained.enqAll {own : List PieceStatus} {x : Session}
    (h : Chained own x) (es : List Event) : Chained own (x.enqAll es) :=
  ⟨h.early, h.taken, h.picked, h.alive⟩

namespace Proc

variable {p p' : Proc} {s t : Sid}

theorem selfChoke_protocol {c : Choice} :
    (protocol p s c).after.selfChoke = (p.sess s).selfChoke ∨
      (protocol p s c).after.selfChoke = .choked ∨
      (p.sess s).pc = .handle .msgUnchoke ∧
        (protocol p s c).after.pc = .requestNext := by
  cases hpc : (p.sess s).pc with
  | handle e =>
      simp only [protocol, hpc]
      cases e with
      | msgChoke => exact .inr (.inl rfl)
      | msgUnchoke => exact .inr (.inr ⟨rfl, rfl⟩)
      | _ =>
          left
          simp only [handle]
          repeat' split
          all_goals rfl
  | bcastNext i rest =>
      left
      obtain ⟨m, pc, -, hstep⟩ := protocol_bcastNext (c := c) hpc
      rw [hstep]
      rfl
  | _ =>
      left
      simp only [protocol, hpc, withDifference, withCollection, drainStep,
        awaitStep]
      repeat' split
      all_goals rfl

theorem piece_taken {c : Choice} {j : Int} {d : Piece}
    (hpc : (p.sess s).pc = .handle (.msgPiece j d)) :
    (protocol p s c).after.handled = (p.sess s).handled ∨
      (∃ i : Nat, j = i ∧ p.sh.own.sv[i]? = some .requested) ∧
        (protocol p s c).after.pc = .savePiece j.toNat d := by
  simp only [protocol, hpc, handle]
  repeat' split
  · rename_i hrange hreq
    right
    simp only [checkRange, Bool.and_eq_true, decide_eq_true_eq] at hrange
    refine ⟨⟨j.toNat, ?_, by simpa [SyncPieceBitfield.isRequested] using hreq⟩,
      rfl⟩
    exact (Int.toNat_of_nonneg hrange.1).symm
  · exact .inl rfl
  · exact .inl rfl

theorem handled_piece {c : Choice} {j : Int} {d : Piece}
    (hstage : (protocol p s c).after.pc.stage ≤ 8)
    (h : .actual (.pieceMsg j d) ∈ (protocol p s c).after.handled) :
    .actual (.pieceMsg j d) ∈ (p.sess s).handled ∨
      (∃ i : Nat, j = i ∧ p.sh.own.sv[i]? = some .requested) ∧
        (protocol p s c).after.pc = .savePiece j.toNat d := by
  cases queueStep_protocol (p := p) (s := s) (c := c) with
  | same events handled => exact .inl (handled ▸ h)
  | consumed e events handled stands =>
      rw [handled, List.mem_append] at h
      rcases h with h | h
      · exact .inl h
      rcases stands with hpc | hpc | hpc
      · have he : e = .msgPiece j d := by
          cases e <;> simp_all [Event.msg?]
        rw [he] at hpc
        rcases piece_taken hpc with hsame | htaken
        · rw [handled] at hsame
          have := congrArg List.length hsame
          simp [he, Event.msg?] at this
        · exact .inr htaken
      all_goals
        have hle := (stage_protocol (p := p) (s := s) (c := c)).trans hstage
        rw [hpc] at hle
        exact absurd hle (by decide)

theorem outstanding_protocol {c : Choice}
    (hstage : (protocol p s c).after.pc.stage ≤ 8)
    (hreq : (protocol p s c).after.pc.requesting = false)
    (h : Outstanding (p.sess s)) : Outstanding (protocol p s c).after := by
  obtain ⟨i, hsent, hopen⟩ := h
  refine ⟨i, ?_, fun d hmem => ?_⟩
  · rw [sent_protocol]
    exact List.mem_append_left _ hsent
  · rcases handled_piece hstage hmem with hold | ⟨-, hpc⟩
    · exact hopen d hold
    · rw [hpc] at hreq
      cases hreq

theorem leaves_requesting {c : Choice}
    (hreq : (p.sess s).pc.requesting = true)
    (hreq' : (protocol p s c).after.pc.requesting = false) :
    (protocol p s c).after.selfChoke ≠ .unchoked ∨
      (∀ i : Nat, (p.sess s).peerSv[i]? = some .owned →
        p.sh.own.sv[i]? ≠ some .absent) ∨
      ∃ i, (p.sess s).pc = .sendRequest i := by
  cases hpc : (p.sess s).pc with
  | requestNext =>
      right
      left
      simp only [protocol, hpc, withDifference] at hreq'
      repeat' split at hreq'
      · simp [Effect.after, panicEffect, hpc, Pc.requesting] at hreq'
      · rename_i is hdiff _ hnone
        have hempty : is = [] := by
          by_contra hne
          have hpos := List.length_pos_iff.mpr hne
          have := List.getElem?_eq_none_iff.mp hnone
          have := Nat.mod_lt c.rnd hpos
          omega
        intro i hpeer hi
        have := (mem_of_difference hdiff i).mpr ⟨hpeer, hi⟩
        simp [hempty] at this
      · cases hreq'
  | sendRequest i => exact .inr (.inr ⟨i, rfl⟩)
  | bcastNext i rest =>
      left
      cases rest with
      | nil =>
          simp only [protocol, hpc] at hreq' ⊢
          split at hreq'
          · cases hreq'
          · rename_i hunch
            exact hunch
      | cons t rest =>
          simp only [protocol, hpc] at hreq'
          split at hreq'
          all_goals cases hreq'
  | setRequested i | savePiece i d | countOwned i =>
      simp only [protocol, hpc] at hreq'
      repeat' split at hreq'
      all_goals first
        | cases hreq'
        | simp [Effect.after, panicEffect, hpc, Pc.requesting] at hreq'
  | saveCache i d | readCount i | logPiece i n | markOwned i | bcastLock i
  | bcastEnq i t rest | bcastWait i t rest =>
      simp only [protocol, hpc] at hreq'
      cases hreq'
  | _ => simp [hpc, Pc.requesting] at hreq

/-- When a HAVE makes a piece eligible on an unchoked session, a request of the
session is outstanding. -/
def AsksOnHave (p : Proc) : Act → Prop
  | .session s (.thread _) =>
      let x := p.sess s
      match x.pc with
      | .handle (.msgHave j) => checkRange x.peerSv j = true →
          x.selfChoke = .unchoked → p.sh.own.sv[j.toNat]? = some .absent →
            Outstanding x
      | _ => True
  | _ => True

theorem picked_protocol {c : Choice} (h : Chained p.sh.own.sv (p.sess s))
    (hph : (p.sess s).pc.stage ≤ 8) (i : Nat)
    (hpc : (protocol p s c).after.pc = .setRequested i ∨
      (protocol p s c).after.pc = .sendRequest i) (d : Piece) :
    .actual (.pieceMsg i d) ∉ (protocol p s c).after.handled := by
  intro hmem
  have hstage : (protocol p s c).after.pc.stage ≤ 8 := by
    rcases hpc with hpc | hpc <;> rw [hpc] <;> exact le_rfl
  have hold : .actual (.pieceMsg i d) ∈ (p.sess s).handled := by
    rcases handled_piece hstage hmem with hold | ⟨-, hpc'⟩
    · exact hold
    · rw [hpc'] at hpc
      rcases hpc with hpc | hpc <;> cases hpc
  cases hpc' : (p.sess s).pc with
  | requestNext =>
      -- the piece was absent when it was drawn
      obtain ⟨k, hk, hk'⟩ := h.taken hph _ _ hold
      simp only [protocol, hpc', withDifference] at hpc
      repeat' split at hpc
      · simp [Effect.after, panicEffect, hpc'] at hpc
      · simp [Effect.after, Session.goto] at hpc
      · rename_i is hdiff _ l hl
        have habs := ((mem_of_difference hdiff l).mp (List.mem_of_getElem? hl)).2
        simp [Effect.after, Session.goto] at hpc
        have : k = i := (Int.natCast_inj.mp hk).symm
        subst this hpc
        rcases hk' with hk' | hk' <;> rw [habs] at hk' <;> cases hk'
  | setRequested k =>
      refine h.picked i ?_ d hold
      simp only [protocol, hpc'] at hpc
      split at hpc
      · simp [Effect.after, Session.goto] at hpc
        exact .inl (by rw [hpc', hpc])
      · simp [Effect.after, panicEffect, hpc'] at hpc
        exact .inl (by rw [hpc', hpc])
  | handle e =>
      simp only [protocol, hpc'] at hpc
      cases e
      all_goals
        simp only [handle] at hpc
        repeat' split at hpc
      all_goals simp [Effect.after, panicEffect, Session.goto, Session.took,
        hpc'] at hpc
  | bcastNext j rest =>
      obtain ⟨m, pc, hturn, hstep⟩ := protocol_bcastNext (c := c) hpc'
      rw [hstep] at hpc
      cases hturn
      all_goals simp [Effect.after, Session.goto] at hpc
  | _ =>
      simp only [protocol, hpc', withDifference, withCollection, drainStep,
        awaitStep] at hpc
      repeat' split at hpc
      all_goals simp [Effect.after, panicEffect, discard, Session.goto,
        hpc'] at hpc

theorem alive_protocol {c : Choice} (hrun : runnable p s = true)
    (hl : OwnLocal p.sh s (p.sess s)) (h : Chained p.sh.own.sv (p.sess s))
    (hok : AsksOnHave p (.session s (.thread c)))
    (hstage : (protocol p s c).after.pc.stage ≤ 8)
    (hreq : (protocol p s c).after.pc.requesting = false)
    (hunch : (protocol p s c).after.selfChoke = .unchoked) {i : Nat}
    (hpeer : (protocol p s c).after.peerSv[i]? = some .owned)
    (hi : (protocol p s c).sh.own.sv[i]? = some .absent) :
    Outstanding (protocol p s c).after := by
  have hold : (p.sess s).pc.stage ≤ 8 := stage_protocol.trans hstage
  have habs : p.sh.own.sv[i]? = some .absent :=
    ((protocol_own hrun).advances hl).absent i hi
  have hunch' : (p.sess s).selfChoke = .unchoked := by
    rcases selfChoke_protocol (p := p) (s := s) (c := c) with hx | hx | ⟨-, hx⟩
    · exact hx.symm.trans hunch
    · rw [hx] at hunch
      cases hunch
    · rw [hx] at hreq
      cases hreq
  by_cases hin : (p.sess s).pc.requesting = true
  · have hpeer' : (p.sess s).peerSv[i]? = some .owned := by
      rcases peerOwn_protocol (p := p) (s := s) (c := c) with hx | ⟨j, hpc, -⟩
      · rwa [peerSv_of_peerOwn hx] at hpeer
      · rw [hpc] at hin
        cases hin
    rcases leaves_requesting hin hreq with hchoked | hempty | ⟨k, hpc⟩
    · exact absurd hunch hchoked
    · exact absurd habs (hempty i hpeer')
    · -- the request that this step writes
      refine ⟨k, ?_, fun d hmem => ?_⟩
      · rw [sent_protocol]
        exact List.mem_append_right _ (by simp [protocol, hpc])
      · rcases handled_piece hstage hmem with hmem | ⟨-, hpc'⟩
        · exact h.picked k (.inr hpc) d hmem
        · rw [hpc'] at hreq
          cases hreq
  · rw [Bool.not_eq_true] at hin
    refine outstanding_protocol hstage hreq ?_
    rcases peerOwn_protocol (p := p) (s := s) (c := c)
      with hx | ⟨j, hpc, hrange, -, hx⟩
    · rw [peerSv_of_peerOwn hx] at hpeer
      exact h.alive hold hin hunch' i hpeer habs
    · by_cases hij : i = j.toNat
      · subst i
        simp only [AsksOnHave, hpc] at hok
        exact hok hrange hunch' habs
      · rw [peerSv_setOwned hx, List.getElem?_set_ne (Ne.symm hij)] at hpeer
        exact h.alive hold hin hunch' i hpeer habs

theorem chained_protocol {c : Choice} (hrun : runnable p s = true)
    (hl : OwnLocal p.sh s (p.sess s)) (h : Chained p.sh.own.sv (p.sess s))
    (hok : AsksOnHave p (.session s (.thread c))) :
    Chained (protocol p s c).sh.own.sv (protocol p s c).after := by
  have hadv := (protocol_own (c := c) hrun).advances hl
  refine ⟨?_, ?_, ?_, ?_⟩
  · intro hunch
    rcases selfChoke_protocol (p := p) (s := s) (c := c) with hx | hx | ⟨-, hx⟩
    · exact (h.early (hx.symm.trans hunch)).trans stage_protocol
    · rw [hx] at hunch
      cases hunch
    · rw [hx]
      exact le_rfl
  · intro hstage j d hmem
    rcases handled_piece hstage hmem with hold | ⟨⟨i, hij, hi⟩, -⟩
    · obtain ⟨i, hij, hi⟩ := h.taken (stage_protocol.trans hstage) j d hold
      exact ⟨i, hij, hadv.taken i hi⟩
    · exact ⟨i, hij, hadv.taken i (.inl hi)⟩
  · intro i hpc d
    refine picked_protocol h ?_ i hpc d
    have hle := stage_protocol (p := p) (s := s) (c := c)
    rcases hpc with hpc | hpc <;> rw [hpc] at hle <;> exact hle
  · intro hstage hreq hunch i hpeer hi
    exact alive_protocol hrun hl h hok hstage hreq hunch hpeer hi

theorem chained_sessionEffect {a : SessionAct}
    (hen : p.sessionEnabled s a = true) (hl : OwnLocal p.sh s (p.sess s))
    (h : Chained p.sh.own.sv (p.sess s)) (hok : AsksOnHave p (.session s a)) :
    Chained (p.sessionEffect s a).sh.own.sv (p.sessionEffect s a).after := by
  have hact := actCases hen
  generalize p.sessionEffect s a = e at hact
  cases hact with
  | thread c => exact chained_protocol hen hl h hok
  | setup stands goes quiet keeps taken out posts own =>
      rw [own]
      have hchoke : e.after.selfChoke ≠ .unchoked := by
        intro hunch
        have := h.early (keeps.selfChoke.symm.trans hunch)
        omega
      refine ⟨fun hunch => absurd hunch hchoke, ?_, ?_,
        fun _ _ hunch => absurd hunch hchoke⟩
      · intro _ j d hmem
        refine h.taken (by omega) j d ?_
        rcases taken with heq | ⟨heq, hopens⟩
        · rwa [heq] at hmem
        · rw [heq, List.mem_append] at hmem
          exact hmem.resolve_right fun hin => by cases hopens _ hin
      · intro i hpc
        rcases hpc with hpc | hpc <;> rw [hpc] at goes <;>
          exact absurd goes (by simp [Pc.stage])
  | idle after out posts own =>
      obtain ⟨n, heq⟩ := after
      rw [heq, own]
      exact ⟨h.early, h.taken, h.picked, h.alive⟩

theorem chained_step_at {n : Nat} {a : Act} (hn : Owning n p)
    (h : Chained p.sh.own.sv (p.sess t))
    (hok : ∀ act, a = .session t act → AsksOnHave p a)
    (hstep : p.step a = some p') : Chained p'.sh.own.sv (p'.sess t) := by
  have hadv := hn.advances hstep
  obtain ⟨-, ⟨s, act, rfl, hen, rfl⟩ | hb⟩ := step_cases hstep
  · rw [commit_sess]
    refine Chained.enqAll ?_ _
    by_cases hts : t = s
    · subst t
      rw [moved_self]
      exact chained_sessionEffect hen (hn.locals s) h (hok act rfl)
    · rw [moved_of_ne hts]
      exact h.mono hadv
  · obtain ⟨es, -, hes⟩ := hb.sess t
    rw [hes, hb.own]
    exact h.enqAll es

theorem chained_step {n : Nat} {a : Act} (hn : Owning n p)
    (h : ∀ s, Chained p.sh.own.sv (p.sess s)) (hok : AsksOnHave p a)
    (hstep : p.step a = some p') : ∀ s, Chained p'.sh.own.sv (p'.sess s) :=
  fun t => chained_step_at hn (h t) (fun _ _ => hok) hstep

theorem chained_reaches {cfg : Config}
    (h : Reaches step AsksOnHave (init cfg) p) :
    ∀ s, Chained p.sh.own.sv (p.sess s) := by
  refine h.invariant (I := fun p => ∀ s, Chained p.sh.own.sv (p.sess s))
    (fun s => ⟨nofun, nofun, nofun, nofun⟩) fun _ _ _ hr ih hok hstep => ?_
  exact chained_step (owning_reachable hr.reachable) ih hok hstep

/--
When no HAVE leaves the chain without a request, an unchoked session whose peer
owns a piece that is still absent always waits for an answer.
-/
theorem request_chain_alive {cfg : Config}
    (h : Reaches step AsksOnHave (init cfg) p) (hpc : (p.sess s).pc = .loop)
    (hunch : (p.sess s).selfChoke = .unchoked) {is : List Nat}
    (hdiff : difference (p.sess s).peerSv p.sh.own.sv = some is)
    (hne : is ≠ []) : Outstanding (p.sess s) := by
  obtain ⟨i, hi⟩ := List.exists_mem_of_ne_nil is hne
  obtain ⟨hpeer, habs⟩ := (mem_of_difference hdiff i).mp hi
  refine (chained_reaches h s).alive ?_ ?_ hunch i hpeer habs
  · rw [hpc]
    exact le_rfl
  · rw [hpc]
    rfl

def outstanding (x : Session) : Bool :=
  x.sent.any fun
    | .actual (.requestMsg i) => decide (0 ≤ i) && x.handled.all fun
        | .actual (.pieceMsg j _) => decide (j ≠ i)
        | _ => true
    | _ => false

theorem outstanding_iff (x : Session) :
    outstanding x = true ↔ Outstanding x := by
  rw [outstanding, List.any_eq_true]
  constructor
  · rintro ⟨m, hm, htest⟩
    split at htest
    · rename_i i
      simp only [Bool.and_eq_true, decide_eq_true_eq, List.all_eq_true] at htest
      have hi : (i.toNat : Int) = i := Int.toNat_of_nonneg htest.1
      refine ⟨i.toNat, hi.symm ▸ hm, fun d hd => ?_⟩
      rw [hi] at hd
      exact absurd (htest.2 _ hd) (by simp)
    · cases htest
  · rintro ⟨i, hm, hopen⟩
    refine ⟨_, hm, ?_⟩
    simp only [Bool.and_eq_true, decide_eq_true_eq, List.all_eq_true]
    refine ⟨Int.natCast_nonneg i, fun m hm => ?_⟩
    split
    · rename_i j d
      rw [decide_eq_true_eq]
      rintro rfl
      exact hopen d hm
    · rfl

instance (x : Session) : Decidable (Outstanding x) :=
  decidable_of_iff _ (outstanding_iff x)

instance (p : Proc) : (a : Act) → Decidable (AsksOnHave p a)
  | .session s (.thread _) => by
      dsimp only [AsksOnHave]
      generalize (p.sess s).pc = pc
      apply @Pc.casesOn _ pc
      case handle =>
        intro e
        apply @Event.casesOn _ e
        all_goals
          intros
          infer_instance
      all_goals
        intros
        infer_instance
  | .session _ (.create ..) | .session _ (.recvHandshake _)
  | .session _ (.recvBitfield _) | .session _ (.scan _)
  | .session _ (.readFails _) | .session _ (.received _)
  | .pnTick _ | .optTick _ | .cleanUp | .exit => .isTrue trivial

def pipelined : Proc :=
  (run (checkedStep step AsksOnHave) (init { leech with fileSize := 2 })
    (setupRun 0 [.owned, .absent] ++ receive 0 .unchokeMsg 5 ++
      receive 0 (.haveMsg 1) 3)).get (by decide)

theorem request_chain_alive_pipelined :
    difference (pipelined.sess 0).peerSv pipelined.sh.own.sv = some [1] ∧
      Outstanding (pipelined.sess 0) := by
  have hdiff : difference (pipelined.sess 0).peerSv pipelined.sh.own.sv =
      some [1] := by decide
  exact ⟨hdiff, request_chain_alive (reaches_get _) (by decide) (by decide)
    hdiff (by decide)⟩

def stalled : Proc :=
  (run step (init leech) (setupRun 0 [.absent] ++ receive 0 .unchokeMsg 3 ++
    receive 0 (.haveMsg 0) 3)).get (by decide)

/-- Without the condition, an unchoked session can stop asking for good. -/
theorem request_chain_stalls :
    ¬ ∀ (cfg : Config) (p : Proc) (s : Sid) (is : List Nat),
      Reachable cfg p → (p.sess s).pc = .loop →
      (p.sess s).selfChoke = .unchoked →
      difference (p.sess s).peerSv p.sh.own.sv = some is → is ≠ [] →
      Outstanding (p.sess s) := by
  intro h
  have hout := h leech stalled 0 [0] (reachable_get _) (by decide) (by decide)
    (by decide) (by decide)
  exact absurd hout (by decide)

end Proc

end CntPeer
