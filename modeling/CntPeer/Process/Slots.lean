import CntPeer.Process.Seats

/-!
# Slot accounting

The last command issued to a session is `unchoke` exactly when it holds a slot,
in runs where no operation forgets about a session it unchokes or strips of its
slot.
-/

namespace CntPeer

open CntPeer.Foundation

def lastCommand (x : Session) : Option Event := x.commands.getLast?

namespace Proc

open SessionCollection

variable {p p' : Proc} {s t : Sid}

def lastPosted (t : Sid) (posts : Posts) : Option Event :=
  ((postsTo t posts).filter Event.isTimer).getLast?

@[simp] theorem lastPosted_nil : lastPosted t [] = none := rfl

theorem lastPosted_append (a b : Posts) :
    lastPosted t (a ++ b) = (lastPosted t b).or (lastPosted t a) := by
  simp [lastPosted, List.getLast?_append]

theorem lastCommand_enqAll (x : Session) (posts : Posts) :
    lastCommand (x.enqAll (postsTo t posts)) =
      (lastPosted t posts).or (lastCommand x) := by
  simp [lastCommand, lastPosted, List.getLast?_append]

theorem lastPosted_of_quiet {posts : Posts}
    (h : ∀ t ev, (t, ev) ∈ posts → ev.isTimer = false) :
    lastPosted t posts = none := by
  have hnil : (postsTo t posts).filter Event.isTimer = [] := by
    rw [List.filter_eq_nil_iff]
    intro ev hev
    simp [h t ev (mem_postsTo.mp hev)]
  rw [lastPosted, hnil, List.getLast?_nil]

section Commands

variable {v : Sid → Session} {f : Sn → Posts} {ev : Event} {l : List Sn}

def Commands (v : Sid → Session) (f : Sn → Posts) (ev : Event) : Prop :=
  ev.isTimer = true ∧
    ∀ e, f e = if (v e.s).isActive then [(e.s, ev)] else []

theorem commands_choke : Commands v (chokeCmd v) .timerChoke :=
  ⟨rfl, fun _ => rfl⟩

theorem commands_unchoke : Commands v (unchokeCmd v) .timerUnchoke :=
  ⟨rfl, fun _ => rfl⟩

theorem lastPosted_flatMap_not (hf : Commands v f ev)
    (h : ∀ e ∈ l, e.s ≠ t) : lastPosted t (l.flatMap f) = none := by
  induction l with
  | nil => rfl
  | cons e l ih =>
      have he := h e List.mem_cons_self
      rw [List.flatMap_cons, lastPosted_append,
        ih fun y hy => h y (List.mem_cons_of_mem _ hy), hf.2 e]
      split <;> simp [lastPosted, he]

theorem lastPosted_flatMap (hf : Commands v f ev) (h : ∃ e ∈ l, e.s = t)
    (hactive : (v t).isActive = true) :
    lastPosted t (l.flatMap f) = some ev := by
  induction l with
  | nil =>
      obtain ⟨e, he, -⟩ := h
      cases he
  | cons y l ih =>
      rw [List.flatMap_cons, lastPosted_append]
      by_cases hin : ∃ e ∈ l, e.s = t
      · rw [ih hin, Option.some_or]
      · have hrest : ∀ e ∈ l, e.s ≠ t := fun e he hs => hin ⟨e, he, hs⟩
        have hy : y.s = t := by
          obtain ⟨e, he, hs⟩ := h
          rcases List.mem_cons.mp he with rfl | he
          · exact hs
          · exact absurd hs (hrest e he)
        rw [lastPosted_flatMap_not hf hrest, hf.2 y, hy, if_pos hactive]
        simp [lastPosted, hf.1]

end Commands

/-- For every session before its final `relinquish`, the last command tells
whether it holds a slot. -/
def Balanced (p : Proc) : Prop :=
  ∀ e ∈ p.sh.sc.ss, (p.sess e.s).pc.stage ≤ 12 →
    (lastCommand (p.sess e.s) = some .timerUnchoke ↔ p.sh.sc.Holds e)

/-- The slots are told apart by address, also from later sessions, and a
session that is not created yet has had no command. -/
structure Distinct (p : Proc) : Prop where
  unique : ∀ y, p.sh.sc.Holds y → ∀ e ∈ p.sh.sc.ss, y.addr = e.addr → y = e
  blank : ∀ s, (p.sess s).pc = .absent → lastCommand (p.sess s) = none

def Past (p : Proc) (e : Sn) : Prop := 12 < (p.sess e.s).pc.stage

instance (p : Proc) (e : Sn) : Decidable (p.Past e) :=
  inferInstanceAs (Decidable (_ < _))

instance (sc : SessionCollection) (e : Sn) : Decidable (sc.Holds e) :=
  inferInstanceAs (Decidable (_ ∨ _))

/--
What each operation would have to check: `newSession` reuses no address in the
slots; `relinquish` finds the session in one slot at most and its replacement in
a slot; a promotion forgets no optimistic neighbour outside `pn_set`; the
optimistic timer draws another session than the one it chokes, which is not a
preferred neighbour.
-/
def Accounted (p : Proc) : Act → Prop
  | .session _ (.create addr _) =>
      (∀ y ∈ p.sh.sc.pnSet.items, y.addr ≠ addr) ∧ p.sh.sc.isOpt addr = false
  | .session s (.thread _) =>
      let e : Sn := ⟨s, (p.sess s).addr⟩
      let held := p.sh.sc.pnSet.contains e || p.sh.sc.isOpt e.addr
      match (p.sess s).pc with
      | .relinquish =>
          ¬(p.sh.sc.pnSet.contains e = true ∧ p.sh.sc.isOpt e.addr = true) ∧
            (held = true → ∀ r ∈ p.sh.sc.replacement p.sess,
              p.Past r ∨ r ≠ e ∧ p.sh.sc.Holds r)
      | .finalRelinquish => held = true →
          ∀ r ∈ p.sh.sc.replacement p.sess,
            p.Past r ∨ r = e ∨ p.sh.sc.Holds r
      | _ => True
  | .pnTick order =>
      (p.sh.sc.supplanted p.sess order).isEmpty = false →
        ∀ o ∈ p.sh.sc.opt, o ∈ p.sh.sc.ss → p.Past o ∨
          o ∈ (p.sh.sc.newPnSet p.sess order).items ∨ o ∈ p.sh.sc.pnSet.items
  | .optTick rnd => ∀ e ∈ p.sh.sc.lucky p.sess rnd,
      ∀ o ∈ p.sh.sc.opt, o ∈ p.sh.sc.ss →
        p.Past o ∨ o ≠ e ∧ o ∉ p.sh.sc.pnSet.items
  | _ => True

instance (p : Proc) : (a : Act) → Decidable (Accounted p a)
  | .session _ (.create ..) => inferInstanceAs (Decidable (_ ∧ _))
  | .session s (.thread _) => by
      dsimp only [Accounted]
      generalize (p.sess s).pc = pc
      apply @Pc.casesOn _ pc
      all_goals
        intros
        infer_instance
  | .pnTick _ => inferInstanceAs (Decidable (_ → _))
  | .optTick _ => inferInstanceAs (Decidable (∀ e ∈ _, _))
  | .session _ (.recvHandshake _) | .session _ (.recvBitfield _)
  | .session _ (.scan _) | .session _ (.readFails _) | .session _ (.received _)
  | .cleanUp | .exit => .isTrue trivial

theorem commands_sessionEffect {a : SessionAct}
    (hen : p.sessionEnabled s a = true) :
    (p.sessionEffect s a).after.commands = (p.sess s).commands := by
  have hact := actCases hen
  generalize p.sessionEffect s a = e at hact
  cases hact with
  | thread c => exact commands_protocol
  | setup stands goes quiet keeps => exact keeps.commands
  | idle after =>
      obtain ⟨n, heq⟩ := after
      rw [heq]

theorem lastCommand_commit {a : SessionAct}
    (hen : p.sessionEnabled s a = true) (t : Sid) :
    lastCommand ((p.commit s (p.sessionEffect s a)).sess t) =
      (lastPosted t (p.sessionEffect s a).posts).or
        (lastCommand (p.sess t)) := by
  rw [commit_sess, lastCommand_enqAll]
  by_cases hts : t = s
  · subst t
    rw [moved_self, lastCommand, commands_sessionEffect hen, lastCommand]
  · rw [moved_of_ne hts]

section Operations

variable {sc sc' : SessionCollection} {v : Sid → Session} {e y : Sn}
  {posts : Posts}

theorem lastPosted_one_not {f : Sn → Posts} {ev : Event}
    (hf : Commands v f ev) (h : e.s ≠ t) : lastPosted t (f e) = none := by
  have := lastPosted_flatMap_not (l := [e]) hf (by simpa using h)
  simpa using this

theorem lastPosted_one {f : Sn → Posts} {ev : Event} (hf : Commands v f ev)
    (hactive : (v e.s).isActive = true) : lastPosted e.s (f e) = some ev := by
  have := lastPosted_flatMap (l := [e]) hf ⟨e, by simp, rfl⟩ hactive
  simpa using this

theorem preempts_self (h : Preempts sc v e sc' posts)
    (hactive : (v e.s).isActive = true) :
    sc' = sc ∧ posts = [] ∨
      lastPosted e.s posts = some .timerUnchoke ∧ sc'.Holds e := by
  cases h with
  | keeps => exact .inl ⟨rfl, rfl⟩
  | prefers =>
      exact .inr ⟨lastPosted_one commands_unchoke hactive,
        .inl (SortedVec.mem_add.mpr (.inl rfl))⟩
  | opts =>
      exact .inr ⟨lastPosted_one commands_unchoke hactive, .inr rfl⟩

theorem preempts_other (h : Preempts sc v e sc' posts) (hy : y.s ≠ e.s) :
    lastPosted y.s posts = none ∧ (sc'.Holds y ↔ sc.Holds y) := by
  have hne : y ≠ e := fun heq => hy (heq ▸ rfl)
  cases h with
  | keeps => exact ⟨rfl, Iff.rfl⟩
  | prefers =>
      refine ⟨lastPosted_one_not commands_unchoke hy.symm, ?_⟩
      simp [Holds, hne]
  | opts out notOpt free =>
      refine ⟨lastPosted_one_not commands_unchoke hy.symm, ?_⟩
      simp [Holds, free, hne.symm]

theorem relinquishes_self (h : Relinquishes sc v e sc' posts)
    (hactive : (v e.s).isActive = true)
    (hrep : ∀ r ∈ sc.replacement v, r.s ≠ e.s) :
    sc' = sc ∧ posts = [] ∨ lastPosted e.s posts = some .timerChoke := by
  have hlast : lastPosted e.s (chokeCmd v e ++ sc.replacementCmd v) =
      some .timerChoke := by
    rw [lastPosted_append, lastPosted_one commands_choke hactive]
    unfold replacementCmd
    split
    · rfl
    · rw [lastPosted_one_not commands_unchoke (hrep _ ‹_›), Option.none_or]
  cases h with
  | keeps => exact .inl ⟨rfl, rfl⟩
  | leavesPn => exact .inr hlast
  | leavesOpt => exact .inr hlast

theorem relinquishes_not_held (h : Relinquishes sc v e sc' posts)
    (hheld : ¬(sc.pnSet.contains e || sc.isOpt e.addr) = true) :
    sc' = sc ∧ posts = [] := by
  cases h with
  | keeps => exact ⟨rfl, rfl⟩
  | leavesPn inside => simp [inside] at hheld
  | leavesOpt out isOpt => simp [isOpt] at hheld

theorem relinquishes_other (h : Relinquishes sc v e sc' posts)
    (hs : sc.pnSet.Strict)
    (hunique : ∀ z, sc.Holds z → z.addr = e.addr → z = e) (hy : y.s ≠ e.s) :
    (sc'.Holds y ↔ sc.Holds y) ∧
      (lastPosted y.s posts = none ∨
        (sc.pnSet.contains e || sc.isOpt e.addr) = true ∧
          ∃ r, sc.replacement v = some r ∧ r.s = y.s ∧
            lastPosted y.s posts = some .timerUnchoke) := by
  have hne : y ≠ e := fun heq => hy (heq ▸ rfl)
  have hposts : lastPosted y.s (chokeCmd v e ++ sc.replacementCmd v) = none ∨
      ∃ r, sc.replacement v = some r ∧ r.s = y.s ∧
        lastPosted y.s (chokeCmd v e ++ sc.replacementCmd v) =
          some .timerUnchoke := by
    rw [lastPosted_append, lastPosted_one_not commands_choke hy.symm]
    unfold replacementCmd
    cases hr : sc.replacement v with
    | none => exact .inl rfl
    | some r =>
        by_cases hrs : r.s = y.s
        · right
          refine ⟨r, rfl, hrs, ?_⟩
          have helig : eligible v r = true := List.find?_some hr
          simp only [eligible, Bool.and_eq_true] at helig
          dsimp only
          rw [← hrs, lastPosted_one commands_unchoke helig.1.1, Option.some_or]
        · left
          dsimp only
          rw [lastPosted_one_not commands_unchoke hrs]
          rfl
  cases h with
  | keeps => exact ⟨Iff.rfl, .inl rfl⟩
  | leavesPn inside =>
      refine ⟨?_, hposts.imp_right fun hr => ⟨by simp [inside], hr⟩⟩
      simp only [Holds, hs.mem_remove inside]
      refine or_congr_left ⟨And.left, fun hmem => ⟨hmem, fun haddr => ?_⟩⟩
      exact hne (hunique y (.inl hmem) haddr)
  | leavesOpt out isOpt =>
      refine ⟨?_, hposts.imp_right fun hr => ⟨by simp [isOpt], hr⟩⟩
      obtain ⟨o, ho, haddr⟩ := isOpt_iff.mp isOpt
      have hoe := hunique o (.inr ho) haddr
      subst hoe
      simp [Holds, ho, hne.symm]

theorem told_preempts (h : Preempts sc v e sc' posts)
    (hactive : (v e.s).isActive = true) (hme : y.s = e.s → y = e)
    (hbal : lastCommand (v y.s) = some .timerUnchoke ↔ sc.Holds y) :
    (lastPosted y.s posts).or (lastCommand (v y.s)) = some .timerUnchoke ↔
      sc'.Holds y := by
  by_cases hys : y.s = e.s
  · have heq := hme hys
    subst heq
    rcases preempts_self h hactive with ⟨rfl, rfl⟩ | ⟨hpost, hholds⟩
    · exact hbal
    · rw [hpost, Option.some_or]
      exact ⟨fun _ => hholds, fun _ => rfl⟩
  · obtain ⟨hpost, hholds⟩ := preempts_other h hys
    rw [hpost, Option.none_or, hbal]
    exact hholds.symm

theorem told_relinquishes_self (h : Relinquishes sc v e sc' posts)
    (hactive : (v e.s).isActive = true) (hs : sc.pnSet.Strict)
    (hone : ¬(sc.pnSet.contains e = true ∧ sc.isOpt e.addr = true))
    (hrep : (sc.pnSet.contains e || sc.isOpt e.addr) = true →
      ∀ r ∈ sc.replacement v, r.s ≠ e.s)
    (hbal : lastCommand (v e.s) = some .timerUnchoke ↔ sc.Holds e) :
    (lastPosted e.s posts).or (lastCommand (v e.s)) = some .timerUnchoke ↔
      sc'.Holds e := by
  have hsame : sc' = sc ∧ posts = [] →
      ((lastPosted e.s posts).or (lastCommand (v e.s)) = some .timerUnchoke ↔
        sc'.Holds e) := by
    rintro ⟨rfl, rfl⟩
    exact hbal
  by_cases hheld : (sc.pnSet.contains e || sc.isOpt e.addr) = true
  · rcases relinquishes_self h hactive (hrep hheld) with hkept | hpost
    · exact hsame hkept
    · rw [hpost, Option.some_or]
      exact iff_of_false (by simp) (h.gone hs hone)
  · exact hsame (relinquishes_not_held h hheld)

theorem told_relinquishes_other (h : Relinquishes sc v e sc' posts)
    (hs : sc.pnSet.Strict)
    (hunique : ∀ z, sc.Holds z → z.addr = e.addr → z = e) (hy : y.s ≠ e.s)
    (hrep : (sc.pnSet.contains e || sc.isOpt e.addr) = true →
      ∀ r ∈ sc.replacement v, r.s = y.s → sc.Holds y)
    (hbal : lastCommand (v y.s) = some .timerUnchoke ↔ sc.Holds y) :
    (lastPosted y.s posts).or (lastCommand (v y.s)) = some .timerUnchoke ↔
      sc'.Holds y := by
  obtain ⟨hholds, hpost | ⟨hheld, r, hr, hrs, hpost⟩⟩ :=
    relinquishes_other h hs hunique hy
  · rw [hpost, Option.none_or, hbal]
    exact hholds.symm
  · rw [hpost, Option.some_or]
    exact ⟨fun _ => hholds.mpr (hrep hheld r hr hrs), fun _ => rfl⟩

end Operations

theorem mem_ss_cases {a : SessionAct} {e : Sn}
    (hen : p.sessionEnabled s a = true)
    (h : e ∈ (p.sessionEffect s a).sh.sc.ss) :
    e ∈ p.sh.sc.ss ∨ ∃ addr epid, a = .create addr epid ∧ e = ⟨s, addr⟩ := by
  cases lifeStep_sessionEffect hen with
  | created addr act absent fresh goes addr' ss =>
      rw [ss, List.mem_append, List.mem_singleton] at h
      obtain ⟨epid, hact⟩ := act
      exact h.imp_right fun he => ⟨addr, epid, hact, he⟩
  | kept absent ended addr ss => exact .inl (ss ▸ h)
  | notified stands goes addr ss => exact .inl (ss ▸ h)

theorem Balanced.new {addr : Nat} {epid : Int} (hd : Distinct p)
    (hen : p.sessionEnabled s (.create addr epid) = true)
    (hok : Accounted p (.session s (.create addr epid))) :
    lastCommand ((p.commit s (p.sessionEffect s (.create addr epid))).sess s) =
        some .timerUnchoke ↔
      (p.sessionEffect s (.create addr epid)).sh.sc.Holds ⟨s, addr⟩ := by
  have hen' := hen
  simp only [sessionEnabled, Bool.and_eq_true, decide_eq_true_eq] at hen'
  rw [lastCommand_commit hen, hd.blank s hen'.1.2]
  constructor
  · intro hlast
    cases hlast
  · rintro (hmem | hopt)
    · exact absurd rfl (hok.1 _ hmem)
    · have := isOpt_iff.mpr ⟨_, hopt, rfl⟩
      rw [show (p.sessionEffect s (.create addr epid)).sh.sc.isOpt addr =
        p.sh.sc.isOpt addr from rfl, hok.2] at this
      cases this

theorem stage_commit {a : SessionAct} (hen : p.sessionEnabled s a = true)
    (t : Sid) : (p.sess t).pc.stage ≤
      ((p.commit s (p.sessionEffect s a)).sess t).pc.stage := by
  by_cases hts : t = s
  · subst t
    rw [commit_pc_self]
    exact stage_sessionEffect hen
  · rw [commit_pc_of_ne hts]

/-- A session that gives its slot away hands it to no session that goes on
without one. -/
theorem Balanced.relinquishes {n : Nat} {c : Choice} {e : Sn}
    {eff : Effect} (hd : Distinct p) (hseats : Seats n p)
    (hlife : Lifecycle p) (hph : ∀ s, Phased (p.sess s))
    (hok : Accounted p (.session s (.thread c))) (he : e ∈ p.sh.sc.ss)
    (hold : (p.sess e.s).pc.stage ≤ 12)
    (hgoes : e.s = s → eff.after.pc ≠ .notify)
    (stands : (p.sess s).pc = .relinquish ∧ eff.after.pc = .loop ∨
      (p.sess s).pc = .finalRelinquish ∧ eff.after.pc = .notify)
    (given : Relinquishes p.sh.sc p.sess ⟨s, (p.sess s).addr⟩ eff.sh.sc
      eff.posts)
    (hbal : lastCommand (p.sess e.s) = some .timerUnchoke ↔ p.sh.sc.Holds e) :
    (lastPosted e.s eff.posts).or (lastCommand (p.sess e.s)) =
      some .timerUnchoke ↔ eff.sh.sc.Holds e := by
  have hpc : (p.sess s).pc ≠ .absent ∧ (p.sess s).pc ≠ .ended := by
    rcases stands with ⟨stands, -⟩ | ⟨stands, -⟩ <;> simp [stands]
  have hin := hlife.live s hpc.1 hpc.2
  have hactive : (p.sess s).isActive = true := by
    refine (hph s).active.mpr ?_
    rcases stands with ⟨stands, -⟩ | ⟨stands, -⟩ <;> simp [stands, Pc.stage]
  by_cases hes : e.s = s
  · have heq : e = ⟨s, (p.sess s).addr⟩ := hlife.eq_of_sid he hin hes
    subst heq
    obtain ⟨stands, -⟩ := stands.resolve_right fun hfin => hgoes rfl hfin.2
    simp only [Accounted, stands] at hok
    refine told_relinquishes_self given hactive hseats.orderly.2 hok.1 ?_ hbal
    intro hheld r hr hrs
    have hrin := List.mem_of_find?_eq_some hr
    rcases hok.2 hheld r hr with hpast | ⟨hne, -⟩
    · rw [Past, hrs, stands] at hpast
      contradiction
    · exact hne (hlife.eq_of_sid hrin hin hrs)
  · refine told_relinquishes_other given hseats.orderly.2
      (fun z hz haddr => hd.unique z hz _ hin haddr) hes ?_ hbal
    intro hheld r hr hrs
    have hre : r = e :=
      hlife.eq_of_sid (List.mem_of_find?_eq_some hr) he hrs
    subst hre
    have hnot : ¬p.Past r := by
      simp only [Past, not_lt]
      exact hold
    rcases stands with ⟨stands, -⟩ | ⟨stands, -⟩
    · simp only [Accounted, stands] at hok
      exact ((hok.2 hheld r hr).resolve_left hnot).2
    · simp only [Accounted, stands] at hok
      rcases hok hheld r hr with hpast | heq | hr'
      · exact absurd hpast hnot
      · exact absurd (heq ▸ rfl) hes
      · exact hr'

theorem Balanced.session {n : Nat} {a : SessionAct} (h : Balanced p)
    (hd : Distinct p) (hseats : Seats n p) (hlife : Lifecycle p)
    (hph : ∀ s, Phased (p.sess s)) (hen : p.sessionEnabled s a = true)
    (hok : Accounted p (.session s a)) :
    Balanced (p.commit s (p.sessionEffect s a)) := by
  intro e hmem hstage
  have hold := (stage_commit hen e.s).trans hstage
  rcases mem_ss_cases hen hmem with he | ⟨addr, epid, rfl, rfl⟩
  swap
  · exact Balanced.new hd hen hok
  have hbal := h e he hold
  have hself : ((p.commit s (p.sessionEffect s a)).sess s).pc =
      (p.sessionEffect s a).after.pc := commit_pc_self
  have hlast := lastCommand_commit hen e.s
  have hslot := slotStep_sessionEffect hlife hen
  generalize p.sessionEffect s a = eff at hlast hslot hself hstage ⊢
  rw [hlast]
  cases hslot with
  | still pnSet opt nPn timers =>
      rw [lastPosted_of_quiet timers, Option.none_or, hbal, Holds, Holds,
        commit_sh, pnSet, opt]
  | preempts stands goes taken =>
      have hactive := (hph s).active.mpr (by rw [stands]; decide)
      have hin := hlife.live s (by simp [stands]) (by simp [stands])
      exact told_preempts taken hactive (hlife.eq_of_sid he hin) hbal
  | relinquishes stands given =>
      refine Balanced.relinquishes hd hseats hlife hph hok he hold ?_ stands
        given hbal
      intro hes goes
      rw [hes, hself, goes] at hstage
      contradiction

theorem absent_of_commit {a : SessionAct}
    (hen : p.sessionEnabled s a = true)
    (h : ((p.commit s (p.sessionEffect s a)).sess t).pc = .absent) :
    (p.sess t).pc = .absent := by
  have hle := stage_commit hen t
  rw [h] at hle
  revert hle
  cases (p.sess t).pc <;> simp [Pc.stage]

theorem Distinct.session {n : Nat} {a : SessionAct} (h : Distinct p)
    (hseats : Seats n p) (hlife : Lifecycle p)
    (hen : p.sessionEnabled s a = true)
    (hok : Accounted p (.session s a)) :
    Distinct (p.commit s (p.sessionEffect s a)) := by
  have hin : (p.sess s).pc ≠ .absent → (p.sess s).pc ≠ .ended →
      ⟨s, (p.sess s).addr⟩ ∈ p.sh.sc.ss := hlife.live s
  refine ⟨?_, ?_⟩
  · intro y hy e hmem haddr
    rcases mem_ss_cases hen hmem with he | ⟨addr, epid, rfl, rfl⟩
    · cases slotStep_sessionEffect hlife hen with
      | still pnSet opt =>
          rw [commit_sh, Holds, pnSet, opt] at hy
          exact h.unique y hy e he haddr
      | preempts stands goes taken =>
          rcases taken.holds hy with hy | rfl
          · exact h.unique y hy e he haddr
          · exact eq_of_addr hlife.addrs
              (hin (by simp [stands]) (by simp [stands])) he haddr
      | relinquishes stands given =>
          exact h.unique y (given.holds hy) e he haddr
    · rcases hy with hy | hy
      · exact absurd haddr (hok.1 y hy)
      · have := isOpt_iff.mpr ⟨y, hy, haddr⟩
        rw [show (p.commit s (p.sessionEffect s
          (.create addr epid))).sh.sc.isOpt addr = p.sh.sc.isOpt addr from rfl,
          hok.2] at this
        cases this
  · intro t ht
    have htpc := absent_of_commit hen ht
    rw [lastCommand_commit hen, h.blank t htpc, Option.or_none]
    cases slotStep_sessionEffect hlife hen with
    | still pnSet opt nPn timers => exact lastPosted_of_quiet timers
    | preempts stands goes taken =>
        refine (preempts_other (y := ⟨t, 0⟩) taken ?_).1
        rintro rfl
        simp [stands] at htpc
    | relinquishes stands given =>
        have hpc : (p.sess s).pc ≠ .absent ∧ (p.sess s).pc ≠ .ended := by
          rcases stands with ⟨stands, -⟩ | ⟨stands, -⟩ <;> simp [stands]
        have hts : t ≠ s := fun hts => hpc.1 (hts ▸ htpc)
        rcases (relinquishes_other (y := ⟨t, 0⟩) given hseats.orderly.2
          (fun z hz haddr => h.unique z hz _ (hin hpc.1 hpc.2) haddr) hts).2
          with hpost | ⟨-, r, hr, hrs, -⟩
        · exact hpost
        · have := (hlife.stored r (List.mem_of_find?_eq_some hr)).2
          rw [hrs] at this
          exact absurd htpc this

/-- A tick of the preferred-neighbour timer leaves everything balanced when it
forgets no optimistic neighbour. -/
theorem balanced_pnTick {order : List Sn} {n : Nat} {e : Sn}
    (hbal : lastCommand (p.sess e.s) = some .timerUnchoke ↔ p.sh.sc.Holds e)
    (hseats : Seats n p) (hlife : Lifecycle p)
    (hperm : order.Perm p.sh.sc.ss)
    (hlive : ∀ y ∈ (p.sh.sc.supplanted p.sess order).items, y ∈ p.sh.sc.ss)
    (he : e ∈ p.sh.sc.ss)
    (hok : (p.sh.sc.supplanted p.sess order).isEmpty = false →
      p.sh.sc.opt = some e →
      e ∈ (p.sh.sc.newPnSet p.sess order).items ∨ e ∈ p.sh.sc.pnSet.items) :
    (lastPosted e.s (p.pnPosts order)).or (lastCommand (p.sess e.s)) =
        some .timerUnchoke ↔
      e ∈ (p.sh.sc.newPnSet p.sess order).items ∨
        (if (p.sh.sc.supplanted p.sess order).isEmpty then p.sh.sc.opt
          else none) = some e := by
  have hnew : ∀ y ∈ (p.sh.sc.newPnSet p.sess order).items, y ∈ p.sh.sc.ss :=
    fun y hy => hperm.mem_iff.mp
      (List.mem_of_mem_take (mem_selected.mp (mem_newPnSet.mp hy)).1)
  rw [pnPosts, lastPosted_append]
  by_cases hin : e ∈ (p.sh.sc.newPnSet p.sess order).items
  · have hactive := (mem_selected.mp (mem_newPnSet.mp hin)).2
    rw [lastPosted_flatMap commands_unchoke ⟨e, hin, rfl⟩ hactive,
      Option.some_or, Option.some_or]
    exact ⟨fun _ => .inl hin, fun _ => rfl⟩
  rw [lastPosted_flatMap_not commands_unchoke fun y hy hys =>
    hin (hlife.eq_of_sid (hnew y hy) he hys ▸ hy), Option.none_or]
  by_cases hsup : e ∈ (p.sh.sc.supplanted p.sess order).items
  · have hheld : p.sh.sc.Holds e := .inl
      ((SortedVec.differenceItems_sublist _ _).subset hsup)
    have hne : (p.sh.sc.supplanted p.sess order).isEmpty = false := by
      simp only [SortedVec.isEmpty, List.isEmpty_eq_false_iff]
      exact List.ne_nil_of_mem hsup
    rw [lastPosted_flatMap commands_choke ⟨e, hsup, rfl⟩
      (hseats.active e hheld), Option.some_or, hne]
    refine iff_of_false (by simp) ?_
    rintro (hmem | hopt)
    · exact hin hmem
    · cases hopt
  rw [lastPosted_flatMap_not commands_choke fun y hy hys =>
    hsup (hlife.eq_of_sid (hlive y hy) he hys ▸ hy), Option.none_or, hbal]
  have hout : e ∉ p.sh.sc.pnSet.items := by
    intro hmem
    refine hsup ((hseats.orderly.2.mem_difference _).mpr ⟨hmem, ?_⟩)
    intro z hz haddr
    exact hin (eq_of_addr hlife.addrs (hnew z hz) he haddr ▸ hz)
  cases hempty : (p.sh.sc.supplanted p.sess order).isEmpty with
  | true => simp [Holds, hin, hout]
  | false =>
      have hopt : p.sh.sc.opt ≠ some e := fun hopt =>
        (hok hempty hopt).elim hin hout
      simp [Holds, hin, hout, hopt]

theorem balanced_optTick {n : Nat} {d e : Sn}
    (hbal : lastCommand (p.sess e.s) = some .timerUnchoke ↔ p.sh.sc.Holds e)
    (hseats : Seats n p) (hlife : Lifecycle p)
    (hd : d ∈ p.sh.sc.ss) (hactive : (p.sess d.s).isActive = true)
    (hlive : ∀ o, p.sh.sc.opt = some o → o ∈ p.sh.sc.ss)
    (he : e ∈ p.sh.sc.ss)
    (hok : p.sh.sc.opt = some e → e ≠ d ∧ e ∉ p.sh.sc.pnSet.items) :
    (lastPosted e.s (p.optPosts d)).or (lastCommand (p.sess e.s)) =
        some .timerUnchoke ↔ e ∈ p.sh.sc.pnSet.items ∨ some d = some e := by
  rw [optPosts, lastPosted_append]
  by_cases hopt : p.sh.sc.opt = some e
  · obtain ⟨hne, hout⟩ := hok hopt
    rw [lastPosted_flatMap commands_choke ⟨e, by simp [hopt], rfl⟩
      (hseats.active e (.inr hopt)), Option.some_or, Option.some_or]
    simp [hout, hne.symm]
  have hother : ∀ o ∈ p.sh.sc.opt.toList, o.s ≠ e.s := by
    intro o ho hos
    rw [Option.mem_toList] at ho
    rw [hlife.eq_of_sid (hlive o ho) he hos] at ho
    exact hopt ho
  rw [lastPosted_flatMap_not commands_choke hother, Option.none_or]
  by_cases hed : d = e
  · subst hed
    rw [lastPosted_one commands_unchoke hactive, Option.some_or]
    simp
  · have hds : d.s ≠ e.s := fun hs => hed (hlife.eq_of_sid hd he hs)
    rw [lastPosted_one_not commands_unchoke hds, Option.none_or, hbal]
    simp [Holds, hopt, hed]

theorem lastCommand_post (posts : Posts) :
    lastCommand (post p.sess posts t) =
      (lastPosted t posts).or (lastCommand (p.sess t)) :=
  lastCommand_enqAll _ _

theorem Balanced.background {n : Nat} {a : Act} (h : Balanced p)
    (hseats : Seats n p) (hlife : Lifecycle p)
    (hback : Background p p') (hb : SlotBack p p' a) (hok : Accounted p a) :
    Balanced p' := by
  intro e hmem hstage
  have he : e ∈ p.sh.sc.ss := by
    cases hback.life with
    | kept ss => exact ss.mem_iff.mp hmem
    | erased y queued found ss => exact List.mem_of_mem_erase (ss ▸ hmem)
  have hpc : (p'.sess e.s).pc = (p.sess e.s).pc := by
    obtain ⟨es, -, hes⟩ := hback.sess e.s
    rw [hes, Session.enqAll_pc]
  rw [hpc] at hstage
  have hnot : ¬p.Past e := not_lt.mpr hstage
  have hbal := h e he hstage
  cases hb with
  | pnTick order perm live pnSet opt nPn sess =>
      rw [sess, lastCommand_post, Holds, pnSet, opt]
      exact balanced_pnTick hbal hseats hlife perm live he fun hne hopt =>
        (hok hne e hopt he).resolve_left hnot
  | optTick rnd d drawn live pnSet opt nPn sess =>
      obtain ⟨hd, helig⟩ := lucky_eligible drawn
      simp only [eligible, Bool.and_eq_true] at helig
      rw [sess, lastCommand_post, Holds, pnSet, opt]
      exact balanced_optTick hbal hseats hlife hd helig.1.1 live he
        fun hopt => (hok d drawn e hopt he).resolve_left hnot
  | still pnSet opt nPn sess =>
      rw [sess, Holds, pnSet, opt]
      exact hbal

theorem Distinct.background {a : Act} (h : Distinct p) (hlife : Lifecycle p)
    (hback : Background p p') (hb : SlotBack p p' a) : Distinct p' := by
  have hss : ∀ e ∈ p'.sh.sc.ss, e ∈ p.sh.sc.ss := by
    intro e hmem
    cases hback.life with
    | kept ss => exact ss.mem_iff.mp hmem
    | erased y queued found ss => exact List.mem_of_mem_erase (ss ▸ hmem)
  have hpc : ∀ t, (p'.sess t).pc = (p.sess t).pc := by
    intro t
    obtain ⟨es, -, hes⟩ := hback.sess t
    rw [hes, Session.enqAll_pc]
  have hblank : ∀ t, (p.sess t).pc = .absent → ∀ e ∈ p.sh.sc.ss, e.s ≠ t :=
    fun t ht e he hes => (hlife.stored e he).2 (hes ▸ ht)
  cases hb with
  | pnTick order perm live pnSet opt nPn sess =>
      have hnew : ∀ y ∈ (p.sh.sc.newPnSet p.sess order).items,
          y ∈ p.sh.sc.ss := fun y hy => perm.mem_iff.mp
        (List.mem_of_mem_take (mem_selected.mp (mem_newPnSet.mp hy)).1)
      refine ⟨?_, ?_⟩
      · intro y hy e he haddr
        rw [Holds, pnSet, opt] at hy
        rcases hy with hy | hy
        · exact eq_of_addr hlife.addrs (hnew y hy) (hss e he) haddr
        · split at hy
          · exact h.unique y (.inr hy) e (hss e he) haddr
          · cases hy
      · intro t ht
        rw [hpc] at ht
        rw [sess, lastCommand_post, h.blank t ht, Option.or_none, pnPosts,
          lastPosted_append,
          lastPosted_flatMap_not commands_unchoke fun y hy =>
            hblank t ht y (hnew y hy),
          lastPosted_flatMap_not commands_choke fun y hy =>
            hblank t ht y (live y hy)]
        rfl
  | optTick rnd d drawn live pnSet opt nPn sess =>
      have hd := (lucky_eligible drawn).1
      refine ⟨?_, ?_⟩
      · intro y hy e he haddr
        rw [Holds, pnSet, opt] at hy
        rcases hy with hy | hy
        · exact h.unique y (.inl hy) e (hss e he) haddr
        · cases hy
          exact eq_of_addr hlife.addrs hd (hss e he) haddr
      · intro t ht
        rw [hpc] at ht
        rw [sess, lastCommand_post, h.blank t ht, Option.or_none, optPosts,
          lastPosted_append,
          lastPosted_one_not commands_unchoke (hblank t ht d hd),
          lastPosted_flatMap_not commands_choke fun o ho =>
            hblank t ht o (live o (by simpa using ho))]
        rfl
  | still pnSet opt nPn sess =>
      refine ⟨?_, ?_⟩
      · intro y hy e he haddr
        rw [Holds, pnSet, opt] at hy
        exact h.unique y hy e (hss e he) haddr
      · intro t ht
        rw [hpc] at ht
        rw [sess]
        exact h.blank t ht

theorem balanced_reaches {cfg : Config}
    (h : Reaches step Accounted (init cfg) p) : Balanced p ∧ Distinct p := by
  refine h.invariant (I := fun p => Balanced p ∧ Distinct p) ?_
    fun p a p' hr ih hok hstep => ?_
  · refine ⟨fun e hin => ?_, ?_, fun _ _ => rfl⟩
    · cases hin
    · rintro y (hy | hy) <;> cases hy
  · have hlife := lifecycle_reachable hr.reachable
    have hseats := seats_reachable hr.reachable
    have hph := phased_reachable hr.reachable
    obtain ⟨-, ⟨s, act, rfl, hen, rfl⟩ | hback⟩ := step_cases hstep
    · exact ⟨ih.1.session ih.2 hseats hlife hph hen hok,
        ih.2.session hseats hlife hen hok⟩
    · rcases slotBack_of_step hstep with ⟨s, act, rfl, hen, rfl⟩ | hb
      · exact ⟨ih.1.session ih.2 hseats hlife hph hen hok,
          ih.2.session hseats hlife hen hok⟩
      · exact ⟨ih.1.background hseats hlife hback hb hok,
          ih.2.background hlife hback hb⟩

/-- The sessions that were told to be unchoked, before their final
`relinquish`. -/
def unchokedSessions (p : Proc) : List Sn :=
  p.sh.sc.ss.filter fun e => decide (¬p.Past e) &&
    decide (lastCommand (p.sess e.s) = some .timerUnchoke)

theorem unchokedSessions_le {n : Nat} (hseats : Seats n p)
    (hlife : Lifecycle p) (hbal : Balanced p) :
    p.unchokedSessions.length ≤ n + 1 := by
  have hsub : p.unchokedSessions ⊆ p.sh.sc.pnSet.items ++ p.sh.sc.opt.toList := by
    intro e he
    obtain ⟨hmem, htest⟩ := List.mem_filter.mp he
    simp only [Bool.and_eq_true, decide_eq_true_eq, Past, not_lt] at htest
    rcases (hbal e hmem htest.1).mp htest.2 with hin | hopt
    · exact List.mem_append_left _ hin
    · exact List.mem_append_right _ (by simp [hopt])
  have hnodup : p.unchokedSessions.Nodup :=
    (List.Nodup.of_map _ hlife.addrs).sublist List.filter_sublist
  have hlen := (List.subperm_of_subset hnodup hsub).length_le
  have hopt : p.sh.sc.opt.toList.length ≤ 1 := by
    cases p.sh.sc.opt <;> simp
  have hsize := hseats.orderly.1
  rw [hseats.nPn] at hsize
  rw [List.length_append] at hlen
  unfold SortedVec.size at hsize
  omega

/--
In runs whose operations account for the slots, the last command to an active
session before its final `relinquish` is `unchoke` exactly when the session is
in `pn_set` or is `opt`; at most `n_pn` preferred neighbours and one optimistic
one are unchoked.
-/
theorem slots_accounted {cfg : Config}
    (h : Reaches step Accounted (init cfg) p) :
    (∀ e ∈ p.sh.sc.ss, (p.sess e.s).isActive = true →
      (p.sess e.s).pc.stage ≤ 12 →
      (lastCommand (p.sess e.s) = some .timerUnchoke ↔
        e ∈ p.sh.sc.pnSet.items ∨ p.sh.sc.opt = some e)) ∧
      p.sh.sc.pnSet.size ≤ cfg.numPn ∧
      p.unchokedSessions.length ≤ cfg.numPn + 1 := by
  have hseats := seats_reachable h.reachable
  have hbal := (balanced_reaches h).1
  refine ⟨fun e he _ hstage => hbal e he hstage, ?_,
    unchokedSessions_le hseats (lifecycle_reachable h.reachable) hbal⟩
  have hsize := hseats.orderly.1
  rwa [hseats.nPn] at hsize

def rotated : Proc :=
  (run (checkedStep step Accounted) (init seed)
    (setupRun 0 [.absent] ++ setupRun 1 [.absent] ++
      receive 0 .interestedMsg 5 ++ receive 1 .interestedMsg 5 ++
      receive 0 .notInterestedMsg 5)).get (by decide)

theorem slots_accounted_rotated :
    rotated.sh.sc.opt = some ⟨1, 1⟩ ∧
      lastCommand (rotated.sess 1) = some .timerUnchoke ∧
      lastCommand (rotated.sess 0) ≠ some .timerUnchoke := by
  have h := (slots_accounted (p := rotated) (reaches_get _)).1
  refine ⟨by decide, ?_, ?_⟩
  · exact (h ⟨1, 1⟩ (by decide) (by decide) (by decide)).mpr (by decide)
  · exact mt (h ⟨0, 0⟩ (by decide) (by decide) (by decide)).mp (by decide)

/-- Without the condition, a session can stay unchoked without a slot: the
promotion of session 2 forgets the optimistic neighbour. -/
theorem slots_leak :
    ¬ ∀ (cfg : Config) (p : Proc), Reachable cfg p → ∀ e ∈ p.sh.sc.ss,
      (p.sess e.s).isActive = true → (p.sess e.s).pc.stage ≤ 12 →
      (lastCommand (p.sess e.s) = some .timerUnchoke ↔
        e ∈ p.sh.sc.pnSet.items ∨ p.sh.sc.opt = some e) := by
  intro h
  have hiff := h seed
    ((run step (init seed) (setupRun 0 [.absent] ++ setupRun 1 [.absent] ++
      setupRun 2 [.absent] ++ receive 0 .interestedMsg 3 ++
      receive 1 .interestedMsg 5 ++ receive 2 .interestedMsg 3 ++
      [.pnTick [⟨2, 2⟩, ⟨0, 0⟩, ⟨1, 1⟩]])).get (by decide))
    (reachable_get _) ⟨1, 1⟩ (by decide) (by decide) (by decide)
  exact absurd (hiff.mp (by decide)) (by decide)

end Proc

end CntPeer
