import Mathlib.Data.Finset.Card
import Mathlib.Data.Finset.Dedup
import CntPeer.Process.CleanUp
import CntPeer.Process.Eligible
import CntPeer.Process.Slots

/-!
# Room for everyone

A process with a preferred slot for each of its sessions chokes no peer that is
interested, as long as the optimistic timer finds nobody to unchoke.
-/

namespace CntPeer

open CntPeer.Foundation

def LifeEvent.created? : LifeEvent → Option Sid
  | .created s => some s
  | _ => none

namespace Proc

variable {p p' : Proc} {s t : Sid} {cfg : Config} {n : Nat}

theorem count_created (l : List LifeEvent) (t : Sid) :
    (l.filterMap LifeEvent.created?).count t = l.count (.created t) := by
  rw [List.count_filterMap, List.count_eq_countP]
  apply List.countP_congr
  intro e _
  cases e <;> simp [LifeEvent.created?]

theorem length_created (l : List LifeEvent) :
    (l.filterMap LifeEvent.created?).length = l.countP LifeEvent.isCreated := by
  rw [List.length_filterMap_eq_countP]
  congr 1
  funext e
  cases e <;> rfl

/-- The sessions that have been created are finitely many, and those that are
not registered any more have been counted. -/
theorem created_sessions (h : Reachable cfg p) :
    ∃ T : Finset Sid, (∀ t, t ∈ T ↔ (p.sess t).pc ≠ .absent) ∧
      p.sh.sc.nUnfinishedSession + T.card =
        cfg.totalPeerCount - 1 + p.sh.sc.ss.length := by
  obtain ⟨l, hl⟩ : ∃ l, Records step lifeEvents anyStep (init cfg) (p, l) :=
    h.records
  have hc := chronicled_records hl
  have hcount : ∀ t, (l.filterMap LifeEvent.created?).count t =
      if (p.sess t).pc = .absent then 0 else 1 := fun t => by
    rw [count_created, hc.created]
  have hnodup : (l.filterMap LifeEvent.created?).Nodup := by
    apply List.nodup_iff_count_le_one.mpr
    intro t
    rw [hcount]
    split <;> decide
  refine ⟨(l.filterMap LifeEvent.created?).toFinset, fun t => ?_, ?_⟩
  · rw [List.mem_toFinset, ← List.count_pos_iff, hcount]
    split <;> simp_all
  · rw [List.toFinset_card_of_nodup hnodup, length_created, hc.unfinished,
      ← hc.registered]
    push_cast
    omega

/-- At most `n` sessions have ever been created. -/
def AtMost (n : Nat) (p : Proc) : Prop :=
  ∃ T : Finset Sid, (∀ t, (p.sess t).pc ≠ .absent → t ∈ T) ∧ T.card ≤ n

theorem created_step {a : Act} (hstep : p.step a = some p')
    (h : (p.sess t).pc ≠ .absent) : (p'.sess t).pc ≠ .absent := by
  rcases sess_step hstep t with ⟨es, heq⟩ | ⟨act, -, hen, heq⟩
  · rwa [heq, Session.enqAll_pc]
  · rw [heq, Session.enqAll_pc]
    have hle := stage_sessionEffect hen
    intro habs
    rw [habs] at hle
    revert hle h
    cases (p.sess t).pc <;> simp [Pc.stage]

theorem AtMost.of_step {a : Act} (h : AtMost n p') (hstep : p.step a = some p') :
    AtMost n p := by
  obtain ⟨T, hT, hcard⟩ := h
  exact ⟨T, fun t ht => hT t (created_step hstep ht), hcard⟩

theorem AtMost.length_ss (h : AtMost n p) (hlife : Lifecycle p) :
    p.sh.sc.ss.length ≤ n := by
  obtain ⟨T, hT, hcard⟩ := h
  have hnodup : (p.sh.sc.ss.map Sn.s).Nodup :=
    List.Nodup.map_on (fun e he e' he' hs => hlife.eq_of_sid he he' hs)
      (List.Nodup.of_map _ hlife.addrs)
  have hsub : (p.sh.sc.ss.map Sn.s).toFinset ⊆ T := by
    intro t ht
    obtain ⟨e, he, rfl⟩ := List.mem_map.mp (List.mem_toFinset.mp ht)
    exact hT _ (hlife.stored e he).2
  have hle := Finset.card_le_card hsub
  rw [List.toFinset_card_of_nodup hnodup, List.length_map] at hle
  omega

end Proc

/-- The commands that a session has processed have set the flag, and the others
are in its queue. -/
def Commanded (x : Session) : Prop :=
  x.pc.stage ≤ 8 → ∃ done, x.commands = done ++ x.events.filter Event.isTimer ∧
    (x.peerChoke = .unchoked ↔ done.getLast? = some .timerUnchoke)

structure Minded (x : Session) : Prop where
  early : x.pc.stage < 8 → x.peerInterest = .unknown
  leaving : x.pc = .relinquish →
    x.peerInterest = .notInterested ∧ x.peerChoke = .unchoked

theorem Commanded.enqAll {x : Session} (h : Commanded x) (es : List Event) :
    Commanded (x.enqAll es) := by
  intro hstage
  obtain ⟨done, hcmd, hflag⟩ := h hstage
  refine ⟨done, ?_, hflag⟩
  rw [Session.enqAll_commands, hcmd, Session.enqAll_events, List.filter_append,
    List.append_assoc]

theorem Commanded.quiet {x : Session} (h : Commanded x) (hstage : x.pc.stage ≤ 8)
    (hquiet : ∀ ev ∈ x.events, ev.isTimer = false) :
    x.peerChoke = .unchoked ↔ lastCommand x = some .timerUnchoke := by
  obtain ⟨done, hcmd, hflag⟩ := h hstage
  rw [List.filter_eq_nil_iff.mpr (by simpa using hquiet), List.append_nil] at hcmd
  rw [lastCommand, hcmd]
  exact hflag

theorem Commanded.unchoked {x : Session} (h : Commanded x) (hstage : x.pc.stage ≤ 8)
    (hflag : x.peerChoke = .unchoked) :
    lastCommand x = some .timerUnchoke ∨ .timerChoke ∈ x.events := by
  obtain ⟨done, hcmd, hdone⟩ := h hstage
  rw [lastCommand, hcmd, List.getLast?_append, hdone.mp hflag]
  cases hlast : (x.events.filter Event.isTimer).getLast? with
  | none => exact .inl rfl
  | some e =>
      obtain ⟨hmem, htimer⟩ := List.mem_filter.mp (List.mem_of_getLast? hlast)
      cases e with
      | timerChoke => exact .inr hmem
      | timerUnchoke => exact .inl rfl
      | _ => cases htimer

namespace Proc

open SessionCollection

variable {p p' : Proc} {s t : Sid} {cfg : Config}

theorem peerChoke_kept {c : Choice}
    (h : ∀ e, (p.sess s).pc = .handle e → e.isTimer = false) :
    (protocol p s c).after.peerChoke = (p.sess s).peerChoke := by
  cases hpc : (p.sess s).pc with
  | handle e =>
      have he := h e hpc
      simp only [protocol, hpc]
      cases e with
      | timerChoke | timerUnchoke => cases he
      | _ =>
          simp only [handle]
          repeat' split
          all_goals rfl
  | bcastNext i rest =>
      obtain ⟨m, pc, -, hstep⟩ := protocol_bcastNext (c := c) hpc
      rw [hstep]
      rfl
  | _ =>
      simp only [protocol, hpc, withDifference, withCollection, drainStep,
        awaitStep]
      repeat' split
      all_goals rfl

theorem timers_kept {c : Choice} (hstage : (protocol p s c).after.pc.stage ≤ 8)
    (h : ∀ e, (p.sess s).pc = .handle e → e.isTimer = false) :
    (protocol p s c).after.events.filter Event.isTimer =
      (p.sess s).events.filter Event.isTimer := by
  have hold := stage_protocol.trans hstage
  cases queueStep_protocol (p := p) (s := s) (c := c) with
  | same events => rw [events]
  | consumed e events handled stands =>
      rcases stands with hpc | hpc | hpc
      · rw [events, List.filter_cons_of_neg (by simp [h e hpc])]
      · rw [hpc] at hold
        exact absurd hold (by decide)
      · rw [hpc] at hold
        exact absurd hold (by decide)

theorem command_handled {c : Choice} {e : Event} (hpc : (p.sess s).pc = .handle e)
    (he : e.isTimer = true) :
    (protocol p s c).after.events = (p.sess s).eq ∧
      ((protocol p s c).after.peerChoke = .unchoked ↔ e = .timerUnchoke) := by
  simp only [protocol, hpc]
  cases e with
  | timerChoke | timerUnchoke =>
      simp only [handle]
      split
      · simp [Effect.after, Session.events]
      · rename_i hflag
        rw [ne_eq, not_not] at hflag
        simp [Effect.after, Session.goto, Session.events, hflag]
  | _ => cases he

theorem commanded_protocol {c : Choice} (h : Commanded (p.sess s)) :
    Commanded (protocol p s c).after := by
  intro hstage
  obtain ⟨done, hcmd, hflag⟩ := h (stage_protocol.trans hstage)
  rw [commands_protocol, hcmd]
  by_cases htimer : ∃ e, (p.sess s).pc = .handle e ∧ e.isTimer = true
  · obtain ⟨e, hpc, he⟩ := htimer
    obtain ⟨hev, hset⟩ := command_handled (c := c) hpc he
    refine ⟨done ++ [e], ?_, ?_⟩
    · have hold : (p.sess s).events = e :: (p.sess s).eq := by
        rw [Session.events, hpc]
      rw [hev, hold, List.filter_cons_of_pos he, List.append_assoc]
      rfl
    · rw [hset, List.getLast?_append]
      simp
  · have hnot : ∀ e, (p.sess s).pc = .handle e → e.isTimer = false := by
      intro e hpc
      by_contra he
      exact htimer ⟨e, hpc, by simpa using he⟩
    rw [timers_kept hstage hnot, peerChoke_kept hnot]
    exact ⟨done, rfl, hflag⟩

theorem commanded_reachable (h : Reachable cfg p) : ∀ s, Commanded (p.sess s) := by
  refine h.invariant (I := fun p => ∀ s, Commanded (p.sess s))
    (fun _ _ => ⟨[], rfl, by simp [init, Session.fresh]⟩)
    fun _ _ _ _ ih _ hstep => ?_
  refine forall_sess ih (fun _ es hx => hx.enqAll es) (fun s a hen hx => ?_) hstep
  have hact := actCases hen
  generalize sessionEffect _ s a = e at hact
  cases hact with
  | thread c => exact commanded_protocol hx
  | setup stands goes quiet keeps =>
      intro _
      obtain ⟨done, hcmd, hflag⟩ := hx (by omega)
      refine ⟨done, ?_, by rwa [keeps.peerChoke]⟩
      rw [keeps.commands, hcmd, quiet.1, quiet.2, keeps.eq]
  | idle after =>
      obtain ⟨n, heq⟩ := after
      rw [heq]
      exact hx

theorem minded_protocol {c : Choice} (h : Minded (p.sess s)) :
    Minded (protocol p s c).after := by
  refine ⟨fun hstage => ?_, fun hpc' => ?_⟩
  · have hold := h.early (stage_protocol.trans_lt hstage)
    cases peerInterestStep_protocol (p := p) (s := s) (c := c) with
    | kept flag => rw [flag, hold]
    | heard m stands =>
        have hlow := stage_protocol.trans_lt hstage
        rcases stands with hpc | ⟨hpc, -⟩
        · rw [hpc] at hstage
          exact absurd hstage (by decide)
        · rw [hpc] at hlow
          exact absurd hlow (by decide)
  · cases hpc : (p.sess s).pc with
    | handle e =>
        simp only [protocol, hpc] at hpc' ⊢
        cases e
        all_goals
          simp only [handle] at hpc' ⊢
          repeat' split at hpc'
        all_goals simp_all [Effect.after, panicEffect, Session.goto, Session.took]
    | relinquish =>
        simp only [protocol, hpc, withCollection] at hpc' ⊢
        split at hpc'
        · simpa [Effect.after, panicEffect] using h.leaving hpc
        · cases hpc'
    | bcastNext i rest =>
        obtain ⟨m, pc, hturn, hstep⟩ := protocol_bcastNext (c := c) hpc
        rw [hstep] at hpc'
        cases hturn
        all_goals cases hpc'
    | _ =>
        simp only [protocol, hpc, withDifference, withCollection, drainStep,
          awaitStep] at hpc'
        repeat' split at hpc'
        all_goals simp [Effect.after, panicEffect, discard, Session.goto, hpc] at hpc'

theorem minded_reachable (h : Reachable cfg p) : ∀ s, Minded (p.sess s) := by
  refine h.invariant (I := fun p => ∀ s, Minded (p.sess s))
    (fun _ => ⟨fun _ => rfl, nofun⟩) fun _ _ _ _ ih _ hstep => ?_
  refine forall_sess ih (fun _ _ hx => ⟨hx.early, hx.leaving⟩)
    (fun s a hen hx => ?_) hstep
  have hact := actCases hen
  generalize sessionEffect _ s a = e at hact
  cases hact with
  | thread c => exact minded_protocol hx
  | setup stands goes quiet keeps =>
      refine ⟨fun _ => keeps.peerInterest.trans (hx.early (by omega)), fun hpc => ?_⟩
      rw [hpc] at goes
      exact absurd goes (by decide)
  | idle after =>
      obtain ⟨n, heq⟩ := after
      rw [heq]
      exact ⟨hx.early, hx.leaving⟩

/-- The timer of the preferred neighbours selects no session past its final
`relinquish`, and the optimistic timer finds nobody to unchoke. -/
def Roomy (p : Proc) : Act → Prop
  | .pnTick order => ∀ e ∈ p.sh.sc.selected p.sess order,
      (p.sess e.s).pc.stage ≤ 12
  | .optTick rnd => p.sh.sc.lucky p.sess rnd = none
  | _ => True

instance (p : Proc) : (a : Act) → Decidable (Roomy p a)
  | .pnTick _ => inferInstanceAs (Decidable (∀ e ∈ _, _ ≤ _))
  | .optTick _ => inferInstanceAs (Decidable (_ = _))
  | .session .. | .cleanUp | .exit => .isTrue trivial

/-- There is an optimistic slot for nobody and a preferred one for everyone who
is interested, and those who hold it are told. -/
structure Spacious (p : Proc) : Prop where
  noOpt : p.sh.sc.opt = none
  held : Held p
  blank : ∀ s, (p.sess s).isActive = false → lastCommand (p.sess s) = none
  told : ∀ e ∈ p.sh.sc.ss, (p.sess e.s).pc.stage ≤ 12 → p.sh.sc.Holds e →
    lastCommand (p.sess e.s) = some .timerUnchoke
  seated : ∀ e ∈ p.sh.sc.ss, (p.sess e.s).pc.stage ≤ 12 →
    (p.sess e.s).pc ≠ .preempt →
    lastCommand (p.sess e.s) = some .timerUnchoke ∨
      (p.sess e.s).peerInterest = .interested → p.sh.sc.Holds e

theorem Roomy.selectsLive {a : Act} (h : Roomy p a) (hopt : p.sh.sc.opt = none) :
    SelectsLive p a := by
  cases a with
  | session s a =>
      cases a with
      | thread c =>
          intro _ hboth
          obtain ⟨o, ho, -⟩ := isOpt_iff.mp hboth.2
          rw [hopt] at ho
          cases ho
      | _ => trivial
  | pnTick order => exact h
  | optTick rnd =>
      intro e he
      rw [Roomy] at h
      rw [h] at he
      cases he
  | _ => trivial

theorem Spacious.room {e : Sn} (h : Spacious p) (hseats : Seats cfg.numPn p)
    (hfew : p.sh.sc.ss.length ≤ cfg.numPn)
    (he : e ∈ p.sh.sc.ss) (hout : p.sh.sc.pnSet.contains e = false) :
    p.sh.sc.pnSet.size < p.sh.sc.nPn := by
  have hnot : e ∉ p.sh.sc.pnSet.items := by
    intro hmem
    rw [(SortedVec.contains_iff _ _).mpr ⟨e, hmem, rfl⟩] at hout
    cases hout
  have hstrict := hseats.orderly.2
  have hnodup : (e :: p.sh.sc.pnSet.items).Nodup :=
    List.nodup_cons.mpr ⟨hnot, hstrict.imp fun hab heq => by
      rw [heq] at hab
      exact lt_irrefl _ hab⟩
  have hsub : e :: p.sh.sc.pnSet.items ⊆ p.sh.sc.ss := by
    intro y hy
    rcases List.mem_cons.mp hy with rfl | hy
    · exact he
    · exact (h.held y (.inl hy)).1
  have hlen := (List.subperm_of_subset hnodup hsub).length_le
  rw [hseats.nPn, SortedVec.size]
  rw [List.length_cons] at hlen
  omega

theorem Spacious.unique {e y : Sn} (h : Spacious p) (hlife : Lifecycle p)
    (he : e ∈ p.sh.sc.ss) (hy : p.sh.sc.Holds y) (haddr : y.addr = e.addr) :
    y = e :=
  eq_of_addr hlife.addrs (h.held y hy).1 he haddr

theorem Spacious.not_isOpt (h : Spacious p) (addr : Nat) :
    p.sh.sc.isOpt addr = false := by
  rw [isOpt, h.noOpt]
  rfl

theorem Spacious.preempts {c : Choice} (h : Spacious p)
    (hseats : Seats cfg.numPn p) (hlife : Lifecycle p)
    (hfew : p.sh.sc.ss.length ≤ cfg.numPn) (hpc : (p.sess s).pc = .preempt) :
    Preempts p.sh.sc p.sess ⟨s, (p.sess s).addr⟩ (protocol p s c).sh.sc
        (protocol p s c).posts ∧
      (protocol p s c).sh.sc.opt = none ∧
      (protocol p s c).sh.sc.Holds ⟨s, (p.sess s).addr⟩ := by
  have he : ⟨s, (p.sess s).addr⟩ ∈ p.sh.sc.ss :=
    hlife.live s (by simp [hpc]) (by simp [hpc])
  have hfind := hlife.findAddr he rfl
  by_cases hin : p.sh.sc.pnSet.contains ⟨s, (p.sess s).addr⟩ = true
  · have hpre : p.sh.sc.tryPreempt p.sess (p.sess s).addr = .ok (p.sh.sc, []) := by
      simp only [tryPreempt, hfind, hin, if_true]
    simp only [protocol, hpc, withCollection, hpre]
    refine ⟨.keeps, h.noOpt, ?_⟩
    obtain ⟨y, hy, haddr⟩ := (SortedVec.contains_iff _ _).mp hin
    rw [← h.unique hlife he (.inl hy) haddr]
    exact .inl hy
  · rw [Bool.not_eq_true] at hin
    have hroom := h.room hseats hfew he hin
    have hpre : p.sh.sc.tryPreempt p.sess (p.sess s).addr =
        .ok ({ p.sh.sc with pnSet := p.sh.sc.pnSet.add ⟨s, (p.sess s).addr⟩ },
          unchokeCmd p.sess ⟨s, (p.sess s).addr⟩) := by
      simp only [tryPreempt, hfind, hin, h.not_isOpt, Bool.false_eq_true, if_false,
        hroom, if_true]
    simp only [protocol, hpc, withCollection, hpre]
    refine ⟨.prefers hin (h.not_isOpt _) hroom, h.noOpt, ?_⟩
    exact .inl (SortedVec.mem_add.mpr (.inl rfl))

theorem lastPosted_active {posts : Posts}
    (h : ∀ u ev, (u, ev) ∈ posts → ev.isTimer = true → (p.sess u).isActive = true)
    (ht : (p.sess t).isActive = false) : lastPosted t posts = none := by
  rw [lastPosted, List.filter_eq_nil_iff.mpr]
  · rfl
  · intro ev hmem htimer
    rw [h t ev (mem_postsTo.mp hmem) htimer] at ht
    cases ht

theorem active_chokeCmd {v : Sid → Session} {e : Sn} {u : Sid} {ev : Event}
    (h : (u, ev) ∈ chokeCmd v e) : (v u).isActive = true := by
  unfold chokeCmd at h
  split at h
  · cases List.mem_singleton.mp h
    assumption
  · cases h

theorem active_unchokeCmd {v : Sid → Session} {e : Sn} {u : Sid} {ev : Event}
    (h : (u, ev) ∈ unchokeCmd v e) : (v u).isActive = true := by
  unfold unchokeCmd at h
  split at h
  · cases List.mem_singleton.mp h
    assumption
  · cases h

theorem active_slotStep {a : SessionAct} {eff : Effect} (h : SlotStep p s a eff)
    {u : Sid} {ev : Event} (hmem : (u, ev) ∈ eff.posts) (htimer : ev.isTimer = true) :
    (p.sess u).isActive = true := by
  have hgiven : ∀ e, (u, ev) ∈ chokeCmd p.sess e ++ p.sh.sc.replacementCmd p.sess →
      (p.sess u).isActive = true := by
    intro e hin
    rcases List.mem_append.mp hin with hin | hin
    · exact active_chokeCmd hin
    · unfold replacementCmd at hin
      split at hin
      · cases hin
      · exact active_unchokeCmd hin
  cases h with
  | still pnSet opt nPn timers =>
      rw [timers u ev hmem] at htimer
      cases htimer
  | preempts stands goes taken =>
      generalize eff.sh.sc = sc' at taken
      generalize eff.posts = posts at taken hmem
      cases taken with
      | keeps => cases hmem
      | prefers => exact active_unchokeCmd hmem
      | opts => exact active_unchokeCmd hmem
  | relinquishes stands given =>
      generalize eff.sh.sc = sc' at given
      generalize eff.posts = posts at given hmem
      cases given with
      | keeps => cases hmem
      | leavesPn => exact hgiven _ hmem
      | leavesOpt => exact hgiven _ hmem

inductive RoomStep (p : Proc) (s : Sid) (eff : Effect) : Prop
  | still (pnSet : eff.sh.sc.pnSet = p.sh.sc.pnSet)
      (opt : eff.sh.sc.opt = p.sh.sc.opt)
      (timers : ∀ t ev, (t, ev) ∈ eff.posts → ev.isTimer = false)
      (mind : eff.after.pc ≠ .preempt → (p.sess s).pc ≠ .preempt ∧
        (eff.after.peerInterest = .interested →
          (p.sess s).peerInterest = .interested))
  | preempts (stands : (p.sess s).pc = .preempt)
      (taken : Preempts p.sh.sc p.sess ⟨s, (p.sess s).addr⟩ eff.sh.sc eff.posts)
      (opt : eff.sh.sc.opt = none)
      (holds : eff.sh.sc.Holds ⟨s, (p.sess s).addr⟩)
  | relinquishes
      (stands : (p.sess s).pc = .relinquish ∧ eff.after.pc = .loop ∨
        (p.sess s).pc = .finalRelinquish ∧ eff.after.pc = .notify)
      (given : Relinquishes p.sh.sc p.sess ⟨s, (p.sess s).addr⟩ eff.sh.sc eff.posts)
      (mind : eff.after.peerInterest = .interested →
        (p.sess s).peerInterest = .interested)

theorem interest_sessionEffect {a : SessionAct} (hen : p.sessionEnabled s a = true)
    (hgoes : (p.sessionEffect s a).after.pc ≠ .preempt)
    (hint : (p.sessionEffect s a).after.peerInterest = .interested) :
    (p.sess s).peerInterest = .interested := by
  have hact := actCases hen
  generalize p.sessionEffect s a = eff at hact hgoes hint
  cases hact with
  | thread c =>
      cases peerInterestStep_protocol (p := p) (s := s) (c := c) with
      | kept flag => rwa [flag] at hint
      | heard m stands flag =>
          rcases stands with hpc | ⟨-, rfl⟩
          · exact absurd hpc hgoes
          · rw [flag] at hint
            cases hint
  | setup stands goes quiet keeps => rwa [keeps.peerInterest] at hint
  | idle after =>
      obtain ⟨n, heq⟩ := after
      rwa [heq] at hint

theorem Spacious.roomStep {a : SessionAct} (h : Spacious p)
    (hseats : Seats cfg.numPn p) (hlife : Lifecycle p)
    (hfew : p.sh.sc.ss.length ≤ cfg.numPn) (hen : p.sessionEnabled s a = true) :
    RoomStep p s (p.sessionEffect s a) := by
  have hint := interest_sessionEffect hen
  have hslot := slotStep_sessionEffect hlife hen
  have hact := actCases hen
  by_cases hpre : (p.sess s).pc = .preempt
  · generalize p.sessionEffect s a = eff at hslot hact hint ⊢
    cases hact with
    | thread c =>
        obtain ⟨htaken, hopt, hholds⟩ := h.preempts (c := c) hseats hlife hfew hpre
        exact .preempts hpre htaken hopt hholds
    | setup stands => simp [hpre, Pc.stage] at stands
    | idle after =>
        obtain ⟨n, heq⟩ := after
        cases hslot with
        | still pnSet opt nPn timers =>
            refine .still pnSet opt timers fun hgoes => absurd ?_ hgoes
            rw [heq]
            exact hpre
        | preempts stands goes =>
            rw [heq] at goes
            simp [hpre] at goes
        | relinquishes stands => simp [hpre] at stands
  · generalize p.sessionEffect s a = eff at hslot hint ⊢
    cases hslot with
    | still pnSet opt nPn timers =>
        exact .still pnSet opt timers fun hgoes => ⟨hpre, hint hgoes⟩
    | preempts stands => exact absurd stands hpre
    | relinquishes stands given =>
        refine .relinquishes stands given (hint ?_)
        rcases stands with ⟨-, goes⟩ | ⟨-, goes⟩ <;> simp [goes]

theorem replacement_interested {r : Sn} (h : p.sh.sc.replacement p.sess = some r) :
    r ∈ p.sh.sc.ss ∧ (p.sess r.s).peerInterest = .interested := by
  have helig : eligible p.sess r = true := List.find?_some h
  simp only [eligible, Bool.and_eq_true, decide_eq_true_eq] at helig
  exact ⟨List.mem_of_find?_eq_some h, helig.2⟩

theorem Spacious.told_session {a : SessionAct} {e : Sn} (h : Spacious p)
    (hseats : Seats cfg.numPn p) (hlife : Lifecycle p)
    (hph : ∀ s, Phased (p.sess s)) (hfew : p.sh.sc.ss.length ≤ cfg.numPn)
    (hen : p.sessionEnabled s a = true)
    (hstage : ((p.commit s (p.sessionEffect s a)).sess e.s).pc.stage ≤ 12)
    (he : e ∈ p.sh.sc.ss) (hholds : (p.sessionEffect s a).sh.sc.Holds e) :
    lastCommand ((p.commit s (p.sessionEffect s a)).sess e.s) =
      some .timerUnchoke := by
  have hold := (stage_commit hen e.s).trans hstage
  have hself : ((p.commit s (p.sessionEffect s a)).sess s).pc =
      (p.sessionEffect s a).after.pc := commit_pc_self
  rw [lastCommand_commit hen]
  have hroom := h.roomStep hseats hlife hfew hen
  generalize p.sessionEffect s a = eff at hroom hself hstage hholds ⊢
  cases hroom with
  | still pnSet opt timers =>
      rw [Holds, pnSet, opt] at hholds
      rw [lastPosted_of_quiet timers, Option.none_or]
      exact h.told e he hold hholds
  | preempts stands taken =>
      have hactive := (hph s).active.mpr (by rw [stands]; decide)
      have hin := hlife.live s (by simp [stands]) (by simp [stands])
      by_cases hes : e.s = s
      · have heq := hlife.eq_of_sid he hin hes
        rw [heq] at hold hholds ⊢
        rcases preempts_self taken hactive with ⟨hsc, hposts⟩ | ⟨hpost, -⟩
        · rw [hsc] at hholds
          rw [hposts, lastPosted_nil, Option.none_or]
          exact h.told _ hin hold hholds
        · rw [hpost, Option.some_or]
      · obtain ⟨hpost, hsame⟩ := preempts_other taken hes
        rw [hpost, Option.none_or]
        exact h.told e he hold (hsame.mp hholds)
  | relinquishes stands given =>
      have hpc : (p.sess s).pc ≠ .absent ∧ (p.sess s).pc ≠ .ended := by
        rcases stands with ⟨stands, -⟩ | ⟨stands, -⟩ <;> simp [stands]
      have hin := hlife.live s hpc.1 hpc.2
      by_cases hes : e.s = s
      · have heq := hlife.eq_of_sid he hin hes
        rw [heq] at hholds
        refine absurd hholds (given.gone hseats.orderly.2 ?_)
        rw [h.not_isOpt]
        simp
      · obtain ⟨hsame, hpost⟩ := relinquishes_other given hseats.orderly.2
          (fun z hz haddr => h.unique hlife hin hz haddr) hes
        rcases hpost with hpost | ⟨-, r, -, -, hpost⟩
        · rw [hpost, Option.none_or]
          exact h.told e he hold (hsame.mp hholds)
        · rw [hpost, Option.some_or]

theorem Spacious.seated_session {a : SessionAct} {e : Sn} (h : Spacious p)
    (hseats : Seats cfg.numPn p) (hlife : Lifecycle p)
    (hph : ∀ s, Phased (p.sess s)) (hmind : ∀ s, Minded (p.sess s))
    (hfew : p.sh.sc.ss.length ≤ cfg.numPn) (hen : p.sessionEnabled s a = true)
    (hstage : ((p.commit s (p.sessionEffect s a)).sess e.s).pc.stage ≤ 12)
    (hpc' : ((p.commit s (p.sessionEffect s a)).sess e.s).pc ≠ .preempt)
    (he : e ∈ p.sh.sc.ss)
    (hwants : lastCommand ((p.commit s (p.sessionEffect s a)).sess e.s) =
        some .timerUnchoke ∨
      ((p.commit s (p.sessionEffect s a)).sess e.s).peerInterest = .interested) :
    (p.sessionEffect s a).sh.sc.Holds e := by
  have hold := (stage_commit hen e.s).trans hstage
  rw [lastCommand_commit hen, commit_sess, Session.enqAll_peerInterest] at hwants
  rw [commit_sess, Session.enqAll_pc] at hstage hpc'
  have hroom := h.roomStep hseats hlife hfew hen
  generalize p.sessionEffect s a = eff at hroom hstage hpc' hwants ⊢
  -- another session stays where it is and wants what it wanted
  have hother : e.s ≠ s → (p.sess e.s).pc ≠ .preempt ∧
      (p.moved s eff e.s).peerInterest = (p.sess e.s).peerInterest := by
    intro hes
    rw [moved_of_ne hes] at hpc' ⊢
    exact ⟨hpc', rfl⟩
  cases hroom with
  | still pnSet opt timers mind =>
      rw [lastPosted_of_quiet timers, Option.none_or] at hwants
      rw [Holds, pnSet, opt]
      by_cases hes : e.s = s
      · rw [hes, moved_self] at hpc' hwants
        obtain ⟨hpre, hint⟩ := mind hpc'
        refine h.seated e he hold (hes ▸ hpre) ?_
        rw [hes]
        exact hwants.imp id hint
      · obtain ⟨hpre, hint⟩ := hother hes
        rw [hint] at hwants
        exact h.seated e he hold hpre hwants
  | preempts stands taken opt holds =>
      have hin := hlife.live s (by simp [stands]) (by simp [stands])
      by_cases hes : e.s = s
      · rwa [hlife.eq_of_sid he hin hes]
      · obtain ⟨hpost, hsame⟩ := preempts_other taken hes
        obtain ⟨hpre, hint⟩ := hother hes
        rw [hpost, Option.none_or, hint] at hwants
        exact hsame.mpr (h.seated e he hold hpre hwants)
  | relinquishes stands given mind =>
      have hpc : (p.sess s).pc ≠ .absent ∧ (p.sess s).pc ≠ .ended := by
        rcases stands with ⟨stands, -⟩ | ⟨stands, -⟩ <;> simp [stands]
      have hin := hlife.live s hpc.1 hpc.2
      by_cases hes : e.s = s
      · -- it gives the slot up, since its peer has lost interest
        rw [hes, moved_self] at hstage hwants
        have heq := hlife.eq_of_sid he hin hes
        rcases stands with ⟨stands, -⟩ | ⟨-, goes⟩
        swap
        · rw [goes] at hstage
          exact absurd hstage (by decide)
        have hnot := (hmind s).leaving stands
        have hactive := (hph s).active.mpr (by rw [stands]; decide)
        have hint : eff.after.peerInterest ≠ .interested := by
          intro hint
          rw [hnot.1] at mind
          cases mind hint
        have hrep : ∀ r ∈ p.sh.sc.replacement p.sess, r.s ≠ s := by
          intro r hr hrs
          have := (replacement_interested hr).2
          rw [hrs, hnot.1] at this
          cases this
        rcases relinquishes_self given hactive hrep with ⟨hsc, hposts⟩ | hpost
        · rw [hposts, lastPosted_nil, Option.none_or] at hwants
          rw [hsc]
          refine h.seated e he hold (by simp [hes, stands]) (.inl ?_)
          rw [hes]
          exact hwants.resolve_right hint
        · rw [hpost, Option.some_or] at hwants
          rcases hwants with hlast | hlast
          · cases hlast
          · exact absurd hlast hint
      · obtain ⟨hpre, hint⟩ := hother hes
        rw [hint] at hwants
        obtain ⟨hsame, hpost⟩ := relinquishes_other given hseats.orderly.2
          (fun z hz haddr => h.unique hlife hin hz haddr) hes
        refine hsame.mpr (h.seated e he hold hpre ?_)
        rcases hpost with hpost | ⟨-, r, hr, hrs, -⟩
        · rwa [hpost, Option.none_or] at hwants
        · exact .inr (hrs ▸ (replacement_interested hr).2)

theorem Spacious.created {addr : Nat} {epid : Int} (h : Spacious p)
    (hph : ∀ s, Phased (p.sess s)) (hmind : ∀ s, Minded (p.sess s))
    (hen : p.sessionEnabled s (.create addr epid) = true) :
    ¬(p.sessionEffect s (.create addr epid)).sh.sc.Holds ⟨s, addr⟩ ∧
      ¬(lastCommand ((p.commit s (p.sessionEffect s (.create addr epid))).sess s) =
          some .timerUnchoke ∨
        ((p.commit s (p.sessionEffect s (.create addr epid))).sess s).peerInterest =
          .interested) := by
  have hlast := lastCommand_commit hen s
  simp only [sessionEnabled, Bool.and_eq_true, decide_eq_true_eq,
    List.all_eq_true] at hen
  obtain ⟨⟨-, hpc⟩, hfresh⟩ := hen
  have hstage : (p.sess s).pc.stage = 0 := by rw [hpc]; rfl
  refine ⟨fun hholds => hfresh _ (h.held _ hholds).1 rfl, ?_⟩
  rintro (hcmd | hint)
  · have hactive : (p.sess s).isActive = false := by
      rw [← Bool.not_eq_true, (hph s).active]
      omega
    rw [hlast, h.blank s hactive] at hcmd
    cases hcmd
  · rw [commit_self, Session.enqAll_peerInterest] at hint
    have hearly := (hmind s).early (by omega)
    exact absurd (hearly.symm.trans hint) (by decide)

theorem Spacious.session {a : SessionAct} (h : Spacious p)
    (hseats : Seats cfg.numPn p) (hlife : Lifecycle p)
    (hph : ∀ s, Phased (p.sess s)) (hmind : ∀ s, Minded (p.sess s))
    (hfew : p.sh.sc.ss.length ≤ cfg.numPn) (hen : p.sessionEnabled s a = true) :
    Spacious (p.commit s (p.sessionEffect s a)) := by
  have hslot := slotStep_sessionEffect hlife hen
  have hroom := h.roomStep hseats hlife hfew hen
  have hblank : ∀ t, ((p.commit s (p.sessionEffect s a)).sess t).isActive = false →
      lastCommand ((p.commit s (p.sessionEffect s a)).sess t) = none := by
    intro t ht
    have hold : (p.sess t).isActive = false := by
      by_contra hactive
      rw [Bool.not_eq_false] at hactive
      rw [active_commit hph hen t hactive] at ht
      cases ht
    rw [lastCommand_commit hen, h.blank t hold, Option.or_none]
    exact lastPosted_active (fun u ev hmem htimer => active_slotStep hslot hmem htimer)
      hold
  have hheld : Held (p.commit s (p.sessionEffect s a)) := by
    refine h.held.session hseats hlife hen (Roomy.selectsLive ?_ h.noOpt)
    trivial
  refine ⟨?_, hheld, hblank, fun e hmem hstage hholds => ?_,
    fun e hmem hstage hpc hwants => ?_⟩
  · generalize p.sessionEffect s a = eff at hroom ⊢
    cases hroom with
    | still pnSet opt => exact opt.trans h.noOpt
    | preempts stands taken opt => exact opt
    | relinquishes stands given =>
        rw [commit_sh]
        generalize eff.sh.sc = sc' at given
        generalize eff.posts = posts at given
        cases given with
        | keeps => exact h.noOpt
        | leavesPn => exact h.noOpt
        | leavesOpt => rfl
  · rcases mem_ss_cases hen hmem with he | ⟨addr, epid, rfl, rfl⟩
    · exact h.told_session hseats hlife hph hfew hen hstage he hholds
    · exact absurd hholds (h.created hph hmind hen).1
  · rcases mem_ss_cases hen hmem with he | ⟨addr, epid, rfl, rfl⟩
    · exact h.seated_session hseats hlife hph hmind hfew hen hstage hpc he hwants
    · exact absurd hwants (h.created hph hmind hen).2

/-- With a slot for each session, the timer of the preferred neighbours selects
all active ones. -/
theorem mem_newPnSet_of_active {order : List Sn} {e : Sn} (hseats : Seats cfg.numPn p)
    (hfew : p.sh.sc.ss.length ≤ cfg.numPn) (hperm : order.Perm p.sh.sc.ss)
    (he : e ∈ p.sh.sc.ss) (hactive : (p.sess e.s).isActive = true) :
    e ∈ (p.sh.sc.newPnSet p.sess order).items := by
  refine mem_newPnSet.mpr (mem_selected.mpr ⟨?_, hactive⟩)
  have hnn : p.sh.sc.nnPn = order.length := by
    rw [nnPn, hseats.nPn, hperm.length_eq]
    exact Nat.min_eq_right hfew
  rw [hnn, List.take_length]
  exact hperm.mem_iff.mpr he

theorem Spacious.background {a : Act} (h : Spacious p) (hseats : Seats cfg.numPn p)
    (hlife : Lifecycle p) (hph : ∀ s, Phased (p.sess s))
    (hmind : ∀ s, Minded (p.sess s)) (hfew : p.sh.sc.ss.length ≤ cfg.numPn)
    (hback : Background p p') (hb : SlotBack p p' a) (hok : Roomy p a) :
    Spacious p' := by
  have hheld := h.held.background hlife hback hb (hok.selectsLive h.noOpt)
  have hpc : ∀ t, (p'.sess t).pc = (p.sess t).pc ∧
      (p'.sess t).isActive = (p.sess t).isActive ∧
      (p'.sess t).peerInterest = (p.sess t).peerInterest := by
    intro t
    obtain ⟨es, -, hes⟩ := hback.sess t
    rw [hes]
    exact ⟨rfl, rfl, rfl⟩
  have hss : ∀ e ∈ p'.sh.sc.ss, e ∈ p.sh.sc.ss := by
    intro e hmem
    cases hback.life with
    | kept ss => exact ss.mem_iff.mp hmem
    | erased y queued found ss => exact List.mem_of_mem_erase (ss ▸ hmem)
  cases hb with
  | pnTick order perm live pnSet opt nPn sess =>
      have hposted : ∀ u ev, (u, ev) ∈ p.pnPosts order → ev.isTimer = true →
          (p.sess u).isActive = true := by
        intro u ev hmem _
        rcases List.mem_append.mp hmem with hmem | hmem
        all_goals obtain ⟨e, -, he⟩ := List.mem_flatMap.mp hmem
        · exact active_chokeCmd he
        · exact active_unchokeCmd he
      refine ⟨?_, hheld, fun t ht => ?_, fun e hmem hstage hholds => ?_,
        fun e hmem hstage hpre hwants => .inl ?_⟩
      · rw [opt, h.noOpt, ite_self]
      · rw [(hpc t).2.1] at ht
        rw [sess, lastCommand_post, h.blank t ht, Option.or_none]
        exact lastPosted_active hposted ht
      · rw [Holds, pnSet, opt, h.noOpt, ite_self] at hholds
        have hin := hholds.resolve_right (by simp)
        have hactive := (mem_selected.mp (mem_newPnSet.mp hin)).2
        rw [sess, lastCommand_post, pnPosts, lastPosted_append,
          lastPosted_flatMap commands_unchoke ⟨e, hin, rfl⟩ hactive,
          Option.some_or, Option.some_or]
      · rw [pnSet]
        refine mem_newPnSet_of_active hseats hfew perm (hss e hmem) ?_
        -- a session that was told something, or whose peer was heard, is active
        by_contra hactive
        rw [Bool.not_eq_true] at hactive
        rcases hwants with hlast | hint
        · rw [sess, lastCommand_post, h.blank _ hactive, Option.or_none,
            lastPosted_active hposted hactive] at hlast
          cases hlast
        · rw [(hpc e.s).2.2] at hint
          have hlow : (p.sess e.s).pc.stage < 8 := by
            rw [← Bool.not_eq_true, (hph e.s).active] at hactive
            omega
          rw [(hmind e.s).early hlow] at hint
          cases hint
  | optTick rnd e drawn =>
      rw [Roomy] at hok
      rw [hok] at drawn
      cases drawn
  | still pnSet opt nPn sess =>
      refine ⟨opt.trans h.noOpt, hheld, ?_, fun e hmem hstage hholds => ?_,
        fun e hmem hstage hpre hwants => ?_⟩
      · rw [sess]
        exact h.blank
      · rw [Holds, pnSet, opt] at hholds
        rw [sess] at hstage ⊢
        exact h.told e (hss e hmem) hstage hholds
      · rw [Holds, pnSet, opt]
        rw [sess] at hstage hpre hwants
        exact h.seated e (hss e hmem) hstage hpre hwants

theorem Spacious.step {a : Act} (h : Spacious p) (hr : Reachable cfg p)
    (hfew : p.sh.sc.ss.length ≤ cfg.numPn) (hok : Roomy p a)
    (hstep : p.step a = some p') : Spacious p' := by
  have hseats := seats_reachable hr
  have hlife := lifecycle_reachable hr
  have hph := phased_reachable hr
  have hmind := minded_reachable hr
  obtain ⟨-, ⟨s, act, rfl, hen, rfl⟩ | hback⟩ := step_cases hstep
  · exact h.session hseats hlife hph hmind hfew hen
  · rcases slotBack_of_step hstep with ⟨s, act, rfl, hen, rfl⟩ | hb
    · exact h.session hseats hlife hph hmind hfew hen
    · exact h.background hseats hlife hph hmind hfew hback hb hok

theorem spacious_init : Spacious (init cfg) where
  noOpt := rfl
  held e he := by rcases he with he | he <;> cases he
  blank _ _ := rfl
  told := nofun
  seated := nofun

theorem holdsSlot_of_holds {e : Sn} (hlife : Lifecycle p) (he : e ∈ p.sh.sc.ss)
    (hholds : p.sh.sc.Holds e) : holdsSlot p.sh.sc e.addr = true := by
  rw [holdsSlot, hlife.findAddr he rfl]
  dsimp only
  rcases hholds with hin | hopt
  · rw [(SortedVec.contains_iff _ _).mpr ⟨e, hin, rfl⟩, Bool.true_or]
  · rw [isOpt_iff.mpr ⟨e, hopt, rfl⟩, Bool.or_true]

theorem Spacious.compensated {c : Choice} (h : Spacious p) (hr : Reachable cfg p)
    (hstage : (p.sess s).pc.stage ≤ 8) :
    Compensated p (.session s (.thread c)) := by
  simp only [Compensated]
  split
  · rename_i hpc
    have hlife := lifecycle_reachable hr
    have hin := hlife.live s (by simp [hpc]) (by simp [hpc])
    have hev : (p.sess s).events = (p.sess s).eq := by rw [Session.events, hpc]
    rcases (commanded_reachable hr s).unchoked hstage
      ((minded_reachable hr s).leaving hpc).2 with hlast | hmem
    · refine .inl (holdsSlot_of_holds hlife hin ?_)
      refine h.seated _ hin (hstage.trans (by decide)) ?_ (.inl hlast)
      simp [hpc]
    · exact .inr (hev ▸ hmem)
  · rename_i hpc
    rw [hpc] at hstage
    exact absurd hstage (by decide)
  · rename_i hpc
    rw [hpc] at hstage
    exact absurd hstage (by decide)
  · trivial

theorem Spacious.corrected {a : Act} (h : Spacious p) (hr : Reachable cfg p)
    (hcor : ∀ s, (p.sess s).pc.stage ≤ 8 → Corrected (p.sess s))
    (hstep : p.step a = some p') :
    ∀ s, (p'.sess s).pc.stage ≤ 8 → Corrected (p'.sess s) := by
  intro s hstage
  rcases sess_step hstep s with ⟨es, heq⟩ | ⟨act, rfl, hen, heq⟩
  · rw [heq] at hstage ⊢
    exact (hcor s hstage).enqAll es
  · rw [heq, Session.enqAll_pc] at hstage
    have hold := (stage_sessionEffect hen).trans hstage
    rw [heq]
    have hact := actCases hen
    generalize p.sessionEffect s act = e at hact
    cases hact with
    | thread c =>
        exact corrected_protocol (lifecycle_reachable hr) (phased_reachable hr s)
          (h.compensated hr hold) (hcor s hold)
    | setup stands goes quiet keeps =>
        refine ((hcor s hold).of_eq keeps.peerChoke keeps.sent ?_).enqAll _
        rw [quiet.1, quiet.2, keeps.eq]
    | idle after =>
        obtain ⟨n, hafter⟩ := after
        rw [hafter]
        refine Corrected.enqAll ?_ _
        exact (hcor s hold).of_eq rfl rfl rfl

theorem spacious_reaches (h : Reaches step Roomy (init cfg) p)
    (hfew : AtMost cfg.numPn p) :
    Spacious p ∧ ∀ s, (p.sess s).pc.stage ≤ 8 → Corrected (p.sess s) := by
  refine h.invariant (I := fun p => AtMost cfg.numPn p → Spacious p ∧
    ∀ s, (p.sess s).pc.stage ≤ 8 → Corrected (p.sess s)) ?_ ?_ hfew
  · exact fun _ => ⟨spacious_init, fun _ _ => ⟨nofun, nofun⟩⟩
  · intro p a p' hrun ih hok hstep hfew
    have hr := hrun.reachable
    obtain ⟨hs, hcor⟩ := ih (hfew.of_step hstep)
    have hlen := (hfew.of_step hstep).length_ss (lifecycle_reachable hr)
    exact ⟨hs.step hr hlen hok hstep, hs.corrected hr hcor hstep⟩

/-- A session that waits for events with no command left has unchoked its peer if
it holds a slot. -/
theorem unchoked_of_interested (h : Reaches step Roomy (init cfg) p)
    (hfew : AtMost cfg.numPn p) (hpc : (p.sess s).pc = .loop)
    (hquiet : ∀ ev ∈ (p.sess s).events, ev.isTimer = false)
    (hint : (p.sess s).peerInterest = .interested) :
    p.sh.sc.Holds ⟨s, (p.sess s).addr⟩ ∧
      lastChoke (p.sess s).sent = some (.actual .unchokeMsg) := by
  obtain ⟨hs, hcor⟩ := spacious_reaches h hfew
  have hlife := lifecycle_reachable h.reachable
  have hin := hlife.live s (by simp [hpc]) (by simp [hpc])
  have hstage : (p.sess s).pc.stage ≤ 8 := by rw [hpc]; exact le_rfl
  have hholds := hs.seated _ hin (hstage.trans (by decide)) (by simp [hpc]) (.inr hint)
  have hlast := hs.told _ hin (hstage.trans (by decide)) hholds
  have hflag := ((commanded_reachable h.reachable s).quiet hstage hquiet).mpr hlast
  refine ⟨hholds, ((hcor s hstage).written hflag).resolve_right fun hmem => ?_⟩
  cases hquiet _ hmem

/--
A process with a preferred slot for each session it ever creates leaves nobody
choked who is interested: whenever a session that waits for events has processed
its commands, it holds a slot and was told last that it is unchoked, if the last
its peer said is `Interested`.
-/
theorem interested_unchoked (h : Reaches step Roomy (init cfg) p)
    (hfew : AtMost cfg.numPn p) (hpc : (p.sess s).pc = .loop)
    (hquiet : ∀ ev ∈ (p.sess s).events, ev.isTimer = false)
    (hint : lastInterest (p.sess s).handled = some (.actual .interestedMsg)) :
    p.sh.sc.Holds ⟨s, (p.sess s).addr⟩ ∧
      lastChoke (p.sess s).sent = some (.actual .unchokeMsg) := by
  refine unchoked_of_interested h hfew hpc hquiet ?_
  rw [heeded_reachable h.reachable s (by rw [hpc]; exact le_rfl), hint]
  rfl

def returned : Proc :=
  (run (checkedStep step Roomy) (init seed)
    (setupRun 0 [.absent] ++ receive 0 .interestedMsg 5 ++
      receive 0 .notInterestedMsg 5 ++ [.pnTick [⟨0, 0⟩]] ++
      receive 0 .interestedMsg 5)).get (by decide)

theorem interested_unchoked_returned :
    lastInterest (returned.sess 0).handled = some (.actual .interestedMsg) ∧
      lastChoke (returned.sess 0).sent = some (.actual .unchokeMsg) := by
  have hrun : Reaches step Roomy (init seed) returned := reaches_get _
  have hfew : AtMost seed.numPn returned := by
    obtain ⟨T, hT, hcount⟩ := created_sessions hrun.reachable
    refine ⟨T, fun t ht => (hT t).mpr ht, ?_⟩
    have hss : returned.sh.sc.ss.length = 1 := by decide
    have hn : returned.sh.sc.nUnfinishedSession = 3 := by decide
    rw [hss, hn] at hcount
    simp only [seed] at hcount ⊢
    omega
  have hint : lastInterest (returned.sess 0).handled =
      some (.actual .interestedMsg) := by decide
  exact ⟨hint, (interested_unchoked hrun hfew (by decide) (by decide) hint).2⟩

end Proc

end CntPeer
