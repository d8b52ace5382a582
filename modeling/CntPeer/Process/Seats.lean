import CntPeer.Process.Announce

/-!
# Who holds an upload slot

The slots are `pn_set` and `opt`.  A holder is active, and holders live as long
as no timer selects a session that has already made its final `relinquish`.
-/

namespace CntPeer

open CntPeer.Foundation

namespace SessionCollection

def Holds (sc : SessionCollection) (e : Sn) : Prop :=
  e ∈ sc.pnSet.items ∨ sc.opt = some e

variable {sc sc' : SessionCollection} {v : Sid → Session} {e : Sn}
  {posts : Posts}

inductive Preempts (sc : SessionCollection) (v : Sid → Session) (e : Sn) :
    SessionCollection → Posts → Prop
  | keeps : Preempts sc v e sc []
  | prefers (out : sc.pnSet.contains e = false)
      (notOpt : sc.isOpt e.addr = false) (room : sc.pnSet.size < sc.nPn) :
      Preempts sc v e { sc with pnSet := sc.pnSet.add e } (unchokeCmd v e)
  | opts (out : sc.pnSet.contains e = false)
      (notOpt : sc.isOpt e.addr = false) (free : sc.opt = none) :
      Preempts sc v e { sc with opt := some e } (unchokeCmd v e)

theorem preempts_of_tryPreempt {addr : Nat} (hfind : sc.findAddr addr = some e)
    (h : sc.tryPreempt v addr = .ok (sc', posts)) :
    Preempts sc v e sc' posts := by
  simp only [tryPreempt, hfind] at h
  repeat' split at h
  all_goals cases h
  · exact .keeps
  · exact .keeps
  · exact .prefers (Bool.eq_false_iff.mpr ‹_›) (Bool.eq_false_iff.mpr ‹_›) ‹_›
  · exact .opts (Bool.eq_false_iff.mpr ‹_›) (Bool.eq_false_iff.mpr ‹_›)
      (Option.isNone_iff_eq_none.mp ‹_›)
  · exact .keeps

inductive Relinquishes (sc : SessionCollection) (v : Sid → Session) (e : Sn) :
    SessionCollection → Posts → Prop
  | keeps (out : sc.pnSet.contains e = false)
      (notOpt : sc.isOpt e.addr = false) : Relinquishes sc v e sc []
  | leavesPn (inside : sc.pnSet.contains e = true) :
      Relinquishes sc v e { sc with pnSet := sc.pnSet.remove e }
        (chokeCmd v e ++ sc.replacementCmd v)
  | leavesOpt (out : sc.pnSet.contains e = false)
      (isOpt : sc.isOpt e.addr = true) :
      Relinquishes sc v e { sc with opt := none }
        (chokeCmd v e ++ sc.replacementCmd v)

theorem relinquishes_of_relinquish {addr : Nat}
    (hfind : sc.findAddr addr = some e)
    (h : sc.relinquish v addr = .ok (sc', posts)) :
    Relinquishes sc v e sc' posts := by
  simp only [relinquish, hfind] at h
  repeat' split at h
  all_goals cases h
  · exact .leavesPn ‹_›
  · exact .leavesOpt (Bool.eq_false_iff.mpr ‹_›) ‹_›
  · exact .keeps (Bool.eq_false_iff.mpr ‹_›) (Bool.eq_false_iff.mpr ‹_›)

def Orderly (sc : SessionCollection) : Prop :=
  sc.pnSet.size ≤ sc.nPn ∧ sc.pnSet.Strict

theorem Preempts.nPn (h : Preempts sc v e sc' posts) : sc'.nPn = sc.nPn := by
  cases h <;> rfl

theorem Preempts.holds (h : Preempts sc v e sc' posts) {y : Sn}
    (hy : sc'.Holds y) : sc.Holds y ∨ y = e := by
  cases h with
  | keeps => exact .inl hy
  | prefers out notOpt room =>
      rcases hy with hy | hy
      · rcases SortedVec.mem_add.mp hy with rfl | hy
        · exact .inr rfl
        · exact .inl (.inl hy)
      · exact .inl (.inr hy)
  | opts out notOpt free =>
      rcases hy with hy | hy
      · exact .inl (.inl hy)
      · exact .inr (Option.some.inj hy).symm

theorem Preempts.orderly (h : Preempts sc v e sc' posts) (ho : sc.Orderly) :
    sc'.Orderly := by
  cases h with
  | keeps => exact ho
  | prefers out notOpt room =>
      refine ⟨?_, ho.2.add out⟩
      simp only [SortedVec.size_add]
      exact room
  | opts out notOpt free => exact ho

theorem Relinquishes.nPn (h : Relinquishes sc v e sc' posts) :
    sc'.nPn = sc.nPn := by
  cases h <;> rfl

theorem Relinquishes.holds (h : Relinquishes sc v e sc' posts) {y : Sn}
    (hy : sc'.Holds y) : sc.Holds y := by
  cases h with
  | keeps => exact hy
  | leavesPn inside =>
      exact hy.imp_left fun hy => (sc.pnSet.remove_sublist e).subset hy
  | leavesOpt out isOpt =>
      rcases hy with hy | hy
      · exact .inl hy
      · cases hy

theorem Relinquishes.orderly (h : Relinquishes sc v e sc' posts)
    (ho : sc.Orderly) : sc'.Orderly := by
  cases h with
  | keeps => exact ho
  | leavesPn inside =>
      exact ⟨(sc.pnSet.size_remove_le e).trans ho.1, ho.2.remove e⟩
  | leavesOpt out isOpt => exact ho

theorem isOpt_iff {addr : Nat} :
    sc.isOpt addr = true ↔ ∃ o, sc.opt = some o ∧ o.addr = addr := by
  simp [isOpt, Option.any_eq_true]

theorem size_newPnSet_le (order : List Sn) :
    (sc.newPnSet v order).size ≤ sc.nPn := by
  have hfilter := List.length_filter_le (fun e : Sn => (v e.s).isActive)
    (order.take sc.nnPn)
  have htake := List.length_take_le sc.nnPn order
  simp only [newPnSet, SortedVec.size_addAll, selected]
  simp only [SortedVec.size, SortedVec.items_empty, List.length_nil, nnPn] at *
  omega

theorem strict_newPnSet {order : List Sn}
    (h : (order.map Sn.addr).Nodup) : (sc.newPnSet v order).Strict := by
  refine SortedVec.Strict.addAll ?_ SortedVec.strict_empty (by simp)
  exact h.sublist ((List.filter_sublist.trans (List.take_sublist _ _)).map _)

theorem Relinquishes.gone (h : Relinquishes sc v e sc' posts)
    (ho : sc.pnSet.Strict)
    (hone : ¬(sc.pnSet.contains e = true ∧ sc.isOpt e.addr = true)) :
    ¬sc'.Holds e := by
  have hmem : e ∈ sc.pnSet.items → sc.pnSet.contains e = true := fun he =>
    (sc.pnSet.contains_iff e).mpr ⟨e, he, rfl⟩
  have hopt : sc.opt = some e → sc.isOpt e.addr = true := fun he =>
    isOpt_iff.mpr ⟨e, he, rfl⟩
  rintro (hy | hy)
  · cases h with
    | keeps out => simp [hmem hy] at out
    | leavesPn inside => exact ((ho.mem_remove inside).mp hy).2 rfl
    | leavesOpt out => simp [hmem hy] at out
  · cases h with
    | keeps out notOpt => simp [hopt hy] at notOpt
    | leavesPn inside => exact hone ⟨inside, hopt hy⟩
    | leavesOpt out => cases hy

end SessionCollection

namespace Proc

open SessionCollection

variable {p p' : Proc} {s t : Sid}

inductive SlotStep (p : Proc) (s : Sid) : SessionAct → Effect → Prop
  | still {a : SessionAct} {e : Effect} (pnSet : e.sh.sc.pnSet = p.sh.sc.pnSet)
      (opt : e.sh.sc.opt = p.sh.sc.opt) (nPn : e.sh.sc.nPn = p.sh.sc.nPn)
      (timers : ∀ t ev, (t, ev) ∈ e.posts → ev.isTimer = false)
      (stage : e.after.pc.stage ≤ 12 ∨ 12 < (p.sess s).pc.stage) :
      SlotStep p s a e
  | preempts {c : Choice} {e : Effect} (stands : (p.sess s).pc = .preempt) (goes : e.after.pc = .loop)
      (taken : Preempts p.sh.sc p.sess ⟨s, (p.sess s).addr⟩ e.sh.sc e.posts) :
      SlotStep p s (.thread c) e
  | relinquishes {c : Choice} {e : Effect}
      (stands : (p.sess s).pc = .relinquish ∧ e.after.pc = .loop ∨
        (p.sess s).pc = .finalRelinquish ∧ e.after.pc = .notify)
      (given : Relinquishes p.sh.sc p.sess ⟨s, (p.sess s).addr⟩ e.sh.sc
        e.posts) : SlotStep p s (.thread c) e

theorem timer_posts {c : Choice} (hpre : (p.sess s).pc ≠ .preempt)
    (hrel : (p.sess s).pc ≠ .relinquish)
    (hfin : (p.sess s).pc ≠ .finalRelinquish) :
    ∀ t ev, (t, ev) ∈ (protocol p s c).posts → ev.isTimer = false := by
  intro t ev hmem
  cases hpc : (p.sess s).pc with
  | preempt => exact absurd hpc hpre
  | relinquish => exact absurd hpc hrel
  | finalRelinquish => exact absurd hpc hfin
  | handle e =>
      simp only [protocol, hpc] at hmem
      rw [(handles p.sh (p.sess s) e).posts] at hmem
      cases hmem
  | bcastNext i rest =>
      obtain ⟨m, pc, -, hstep⟩ := protocol_bcastNext (c := c) hpc
      rw [hstep] at hmem
      cases hmem
  | bcastEnq i u rest =>
      simp only [protocol, hpc] at hmem
      cases List.mem_singleton.mp hmem
      rfl
  | bcastWait i u rest =>
      simp only [protocol, hpc] at hmem
      split at hmem
      · cases List.mem_singleton.mp hmem
        rfl
      · cases hmem
  | _ =>
      simp only [protocol, hpc, withDifference, drainStep, awaitStep] at hmem
      repeat' split at hmem
      all_goals cases hmem

theorem slots_protocol {c : Choice} (hpre : (p.sess s).pc ≠ .preempt)
    (hrel : (p.sess s).pc ≠ .relinquish)
    (hfin : (p.sess s).pc ≠ .finalRelinquish) :
    (protocol p s c).sh.sc.pnSet = p.sh.sc.pnSet ∧
      (protocol p s c).sh.sc.opt = p.sh.sc.opt ∧
      (protocol p s c).sh.sc.nPn = p.sh.sc.nPn ∧
      ((protocol p s c).after.pc.stage ≤ 12 ∨ 12 < (p.sess s).pc.stage) := by
  cases hpc : (p.sess s).pc with
  | preempt => exact absurd hpc hpre
  | relinquish => exact absurd hpc hrel
  | finalRelinquish => exact absurd hpc hfin
  | handle e =>
      simp only [protocol, hpc]
      rw [stage_handle p.sh (p.sess s) e hpc]
      cases e
      all_goals
        simp only [handle]
        repeat' split
      all_goals exact ⟨by trivial, by trivial, by trivial, .inl (by decide)⟩
  | bcastNext i rest =>
      obtain ⟨m, pc, hturn, hstep⟩ := protocol_bcastNext (c := c) hpc
      rw [hstep]
      cases hturn
      all_goals exact ⟨by trivial, by trivial, by trivial,
        .inl (by simp [Effect.after, Session.goto, Pc.stage])⟩
  | sendTearDown received =>
      cases received
      all_goals
        simp only [protocol, hpc]
        exact ⟨by trivial, by trivial, by trivial,
          .inl (by simp [Effect.after, Session.goto, Pc.stage])⟩
  | notify | ended =>
      simp only [protocol, hpc]
      exact ⟨by trivial, by trivial, by trivial, .inr (by decide)⟩
  | _ =>
      simp only [protocol, hpc, withDifference, drainStep, awaitStep]
      repeat' split
      all_goals exact ⟨by trivial, by trivial, by trivial,
        .inl (by simp [Effect.after, panicEffect, Session.goto, discard, hpc,
          Pc.stage])⟩

theorem slotStep_protocol {c : Choice} (hlife : Lifecycle p) :
    SlotStep p s (.thread c) (protocol p s c) := by
  have hfind : (p.sess s).pc ≠ .absent → (p.sess s).pc ≠ .ended →
      p.sh.sc.findAddr (p.sess s).addr = some ⟨s, (p.sess s).addr⟩ :=
    fun ha he => hlife.findAddr (hlife.live s ha he) rfl
  by_cases hpre : (p.sess s).pc = .preempt
  · have hfind' := hfind (by simp [hpre]) (by simp [hpre])
    simp only [protocol, hpre, withCollection]
    split
    · rename_i reason herr
      simp only [tryPreempt, hfind'] at herr
      repeat' split at herr
      all_goals cases herr
    · exact .preempts hpre rfl (preempts_of_tryPreempt hfind' ‹_›)
  have hgive : ∀ reason, (p.sess s).pc = .relinquish ∨
      (p.sess s).pc = .finalRelinquish →
      p.sh.sc.relinquish p.sess (p.sess s).addr ≠ .error reason := by
    intro reason hpc herr
    have hfind' := hfind (by rcases hpc with h | h <;> simp [h])
      (by rcases hpc with h | h <;> simp [h])
    simp only [relinquish, hfind'] at herr
    repeat' split at herr
    all_goals cases herr
  by_cases hrel : (p.sess s).pc = .relinquish
  · have hfind' := hfind (by simp [hrel]) (by simp [hrel])
    simp only [protocol, hrel, withCollection]
    split
    · exact absurd ‹_› (hgive _ (.inl hrel))
    · exact .relinquishes (.inl ⟨hrel, rfl⟩)
        (relinquishes_of_relinquish hfind' ‹_›)
  by_cases hfin : (p.sess s).pc = .finalRelinquish
  · have hfind' := hfind (by simp [hfin]) (by simp [hfin])
    simp only [protocol, hfin, withCollection]
    split
    · exact absurd ‹_› (hgive _ (.inr hfin))
    · exact .relinquishes (.inr ⟨hfin, rfl⟩)
        (relinquishes_of_relinquish hfind' ‹_›)
  obtain ⟨hpn, hopt, hn, hstage⟩ := slots_protocol (c := c) hpre hrel hfin
  exact .still hpn hopt hn (timer_posts hpre hrel hfin) hstage

theorem slotStep_sessionEffect {a : SessionAct} (hlife : Lifecycle p)
    (hen : p.sessionEnabled s a = true) :
    SlotStep p s a (p.sessionEffect s a) := by
  have hact := actCases hen
  generalize p.sessionEffect s a = e at hact
  cases hact with
  | thread c => exact slotStep_protocol hlife
  | setup stands goes quiet keeps taken out posts own repo slots =>
      obtain ⟨ss, hsc⟩ := slots
      refine .still (by rw [hsc]) (by rw [hsc]) (by rw [hsc]) ?_
        (.inl (by omega))
      simp [posts]
  | idle after out posts own repo sc =>
      obtain ⟨n, heq⟩ := after
      refine .still (by rw [sc]) (by rw [sc]) (by rw [sc]) ?_ ?_
      · intro t ev hmem
        obtain ⟨-, m, -, hm⟩ := posts t ev hmem
        cases m <;> cases hm <;> rfl
      · rw [heq]
        exact le_or_gt _ _

def pnPosts (p : Proc) (order : List Sn) : Posts :=
  (p.sh.sc.supplanted p.sess order).items.flatMap (chokeCmd p.sess) ++
    (p.sh.sc.newPnSet p.sess order).items.flatMap (unchokeCmd p.sess)

def optPosts (p : Proc) (e : Sn) : Posts :=
  unchokeCmd p.sess e ++ p.sh.sc.opt.toList.flatMap (chokeCmd p.sess)

inductive SlotBack (p p' : Proc) : Act → Prop
  | pnTick (order : List Sn) (perm : order.Perm p.sh.sc.ss)
      (live : ∀ e ∈ (p.sh.sc.supplanted p.sess order).items, e ∈ p.sh.sc.ss)
      (pnSet : p'.sh.sc.pnSet = p.sh.sc.newPnSet p.sess order)
      (opt : p'.sh.sc.opt =
        if (p.sh.sc.supplanted p.sess order).isEmpty then p.sh.sc.opt else none)
      (nPn : p'.sh.sc.nPn = p.sh.sc.nPn)
      (sess : p'.sess = post p.sess (p.pnPosts order)) :
      SlotBack p p' (.pnTick order)
  | optTick (rnd : Nat) (e : Sn) (drawn : p.sh.sc.lucky p.sess rnd = some e)
      (live : ∀ o, p.sh.sc.opt = some o → o ∈ p.sh.sc.ss)
      (pnSet : p'.sh.sc.pnSet = p.sh.sc.pnSet) (opt : p'.sh.sc.opt = some e)
      (nPn : p'.sh.sc.nPn = p.sh.sc.nPn)
      (sess : p'.sess = post p.sess (p.optPosts e)) :
      SlotBack p p' (.optTick rnd)
  | still {a : Act} (pnSet : p'.sh.sc.pnSet = p.sh.sc.pnSet)
      (opt : p'.sh.sc.opt = p.sh.sc.opt) (nPn : p'.sh.sc.nPn = p.sh.sc.nPn)
      (sess : p'.sess = p.sess) : SlotBack p p' a

theorem slotBack_pnTick {order : List Sn}
    (hen : p.enabled (.pnTick order) = true) :
    SlotBack p (p.next (.pnTick order)) (.pnTick order) := by
  have hperm : order.Perm p.sh.sc.ss := by
    simp only [enabled, Bool.and_eq_true, decide_eq_true_eq] at hen
    exact hen.2.2.1
  simp only [next, ticked, pnAlgorithm]
  by_cases hlive : ∀ e ∈ (p.sh.sc.supplanted p.sess order).items, e ∈ p.sh.sc.ss
  · rw [if_pos hlive]
    exact .pnTick order hperm hlive rfl rfl rfl rfl
  · rw [if_neg hlive]
    exact .still rfl rfl rfl rfl

theorem slotBack_optTick {rnd : Nat} :
    SlotBack p (p.next (.optTick rnd)) (.optTick rnd) := by
  simp only [next, ticked, optAlgorithm]
  cases hdraw : p.sh.sc.lucky p.sess rnd with
  | none => exact .still rfl rfl rfl (by funext t; simp [post])
  | some e =>
      cases hopt : p.sh.sc.opt with
      | none =>
          exact .optTick rnd e hdraw (by simp [hopt]) rfl rfl rfl
            (by simp [optPosts, hopt])
      | some o =>
          dsimp only
          by_cases hlive : o ∈ p.sh.sc.ss
          · rw [if_pos hlive]
            exact .optTick rnd e hdraw (by simp [hopt, hlive]) rfl rfl rfl
              (by simp [optPosts, hopt])
          · rw [if_neg hlive]
            exact .still rfl rfl rfl rfl

theorem slotBack_of_step {a : Act} (hstep : p.step a = some p') :
    (∃ s act, a = .session s act ∧ p.sessionEnabled s act = true ∧
      p' = p.commit s (p.sessionEffect s act)) ∨ SlotBack p p' a := by
  obtain ⟨hen, rfl⟩ := step_eq_some.mp hstep
  cases a with
  | session s act =>
      refine .inl ⟨s, act, rfl, ?_, rfl⟩
      simp only [enabled, Bool.and_eq_true] at hen
      exact hen.2
  | pnTick order => exact .inr (slotBack_pnTick hen)
  | optTick rnd => exact .inr slotBack_optTick
  | exit => exact .inr (.still rfl rfl rfl rfl)
  | cleanUp =>
      right
      simp only [next, cleanedUp, SessionCollection.cleanUp]
      repeat' split
      all_goals first
        | exact .still rfl rfl rfl rfl
        | skip
      all_goals
        rename_i heq
        repeat' split at heq
        all_goals cases heq
        all_goals exact .still rfl rfl rfl rfl

/-- The slots hold at most `n_pn` preferred neighbours and active sessions
only. -/
structure Seats (n : Nat) (p : Proc) : Prop where
  nPn : p.sh.sc.nPn = n
  orderly : p.sh.sc.Orderly
  active : ∀ e, p.sh.sc.Holds e → (p.sess e.s).isActive = true

theorem active_commit {a : SessionAct} (hph : ∀ s, Phased (p.sess s))
    (hen : p.sessionEnabled s a = true) (t : Sid)
    (h : (p.sess t).isActive = true) :
    ((p.commit s (p.sessionEffect s a)).sess t).isActive = true := by
  by_cases hts : t = s
  · subst t
    rw [commit_self, Session.enqAll_isActive]
    refine (phased_sessionEffect hen (hph s)).active.mpr ?_
    exact ((hph s).active.mp h).trans (stage_sessionEffect hen)
  · rw [commit_of_ne hts]
    exact h

theorem Seats.session {n : Nat} {a : SessionAct} (h : Seats n p)
    (hlife : Lifecycle p) (hph : ∀ s, Phased (p.sess s))
    (hen : p.sessionEnabled s a = true) :
    Seats n (p.commit s (p.sessionEffect s a)) := by
  have hactive := active_commit hph hen
  have hslot := slotStep_sessionEffect hlife hen
  generalize p.sessionEffect s a = e at hactive hslot ⊢
  cases hslot with
  | still pnSet opt nPn =>
      refine ⟨nPn.trans h.nPn, ?_, ?_⟩
      · rw [commit_sh, Orderly, pnSet, nPn]
        exact h.orderly
      · intro y hy
        rw [commit_sh, Holds, pnSet, opt] at hy
        exact hactive _ (h.active y hy)
  | preempts stands goes taken =>
      refine ⟨taken.nPn.trans h.nPn, taken.orderly h.orderly, fun y hy => ?_⟩
      rcases taken.holds hy with hy | rfl
      · exact hactive _ (h.active y hy)
      · exact hactive _ ((hph s).active.mpr (by rw [stands]; decide))
  | relinquishes stands given =>
      exact ⟨given.nPn.trans h.nPn, given.orderly h.orderly,
        fun y hy => hactive _ (h.active y (given.holds hy))⟩

theorem active_post {posts : Posts} {t : Sid} :
    (post p.sess posts t).isActive = (p.sess t).isActive := rfl

theorem lucky_eligible {rnd : Nat} {e : Sn}
    (h : p.sh.sc.lucky p.sess rnd = some e) :
    e ∈ p.sh.sc.ss ∧ eligible p.sess e = true := by
  have := List.mem_of_getElem? h
  exact List.mem_filter.mp this

theorem Seats.background {n : Nat} {a : Act} (h : Seats n p)
    (hlife : Lifecycle p) (hb : SlotBack p p' a) : Seats n p' := by
  cases hb with
  | pnTick order perm live pnSet opt nPn sess =>
      refine ⟨nPn.trans h.nPn, ⟨?_, ?_⟩, ?_⟩
      · rw [pnSet, nPn]
        exact size_newPnSet_le order
      · rw [pnSet]
        exact strict_newPnSet ((perm.map Sn.addr).nodup_iff.mpr hlife.addrs)
      · intro e he
        rw [sess, active_post]
        rw [Holds, pnSet, opt] at he
        rcases he with he | he
        · exact (mem_selected.mp (mem_newPnSet.mp he)).2
        · split at he
          · exact h.active e (.inr he)
          · cases he
  | optTick rnd e drawn live pnSet opt nPn sess =>
      refine ⟨nPn.trans h.nPn, ?_, ?_⟩
      · rw [Orderly, pnSet, nPn]
        exact h.orderly
      · intro y hy
        rw [sess, active_post]
        rw [Holds, pnSet, opt] at hy
        rcases hy with hy | hy
        · exact h.active y (.inl hy)
        · cases hy
          have helig := (lucky_eligible drawn).2
          simp only [eligible, Bool.and_eq_true] at helig
          exact helig.1.1
  | still pnSet opt nPn sess =>
      refine ⟨nPn.trans h.nPn, ?_, ?_⟩
      · rw [Orderly, pnSet, nPn]
        exact h.orderly
      · intro y hy
        rw [Holds, pnSet, opt] at hy
        rw [sess]
        exact h.active y hy

theorem seats_reachable {cfg : Config} (h : Reachable cfg p) :
    Seats cfg.numPn p := by
  refine h.invariant ⟨rfl, ⟨Nat.zero_le _, List.Pairwise.nil⟩, ?_⟩
    fun p a p' hr ih _ hstep => ?_
  · rintro e (he | he) <;> cases he
  · rcases slotBack_of_step hstep with ⟨s, act, -, hen, rfl⟩ | hb
    · exact ih.session (lifecycle_reachable hr) (phased_reachable hr) hen
    · exact ih.background (lifecycle_reachable hr) hb

/-- Every holder of a slot is in `ss` and has its final `relinquish` before
it. -/
def Held (p : Proc) : Prop :=
  ∀ e, p.sh.sc.Holds e → e ∈ p.sh.sc.ss ∧ (p.sess e.s).pc.stage ≤ 12

/-- No timer selects a session that has made its final `relinquish`, and none
makes it while it is both a preferred neighbour and the optimistic one. -/
def SelectsLive (p : Proc) : Act → Prop
  | .session s (.thread _) =>
      let x := p.sess s
      x.pc = .finalRelinquish →
        ¬(p.sh.sc.pnSet.contains ⟨s, x.addr⟩ = true ∧
          p.sh.sc.isOpt x.addr = true)
  | .pnTick order => ∀ e ∈ p.sh.sc.selected p.sess order,
      (p.sess e.s).pc.stage ≤ 12
  | .optTick rnd => ∀ e ∈ p.sh.sc.lucky p.sess rnd, (p.sess e.s).pc.stage ≤ 12
  | _ => True

instance (p : Proc) : (a : Act) → Decidable (SelectsLive p a)
  | .session _ (.thread _) => inferInstanceAs (Decidable (_ → ¬_))
  | .pnTick _ | .optTick _ => inferInstanceAs (Decidable (∀ e ∈ _, _ ≤ _))
  | .session _ (.create ..) | .session _ (.recvHandshake _)
  | .session _ (.recvBitfield _) | .session _ (.scan _)
  | .session _ (.readFails _) | .session _ (.received _)
  | .cleanUp | .exit => .isTrue trivial

theorem mem_ss_session {a : SessionAct} {e : Sn}
    (hen : p.sessionEnabled s a = true) (he : e ∈ p.sh.sc.ss) :
    e ∈ (p.sessionEffect s a).sh.sc.ss := by
  cases lifeStep_sessionEffect hen with
  | created addr act absent fresh goes addr' ss =>
      rw [ss]
      exact List.mem_append_left _ he
  | kept absent ended addr ss => rwa [ss]
  | notified stands goes addr ss => rwa [ss]

theorem Held.session {n : Nat} {a : SessionAct} (h : Held p)
    (hseats : Seats n p) (hlife : Lifecycle p)
    (hen : p.sessionEnabled s a = true)
    (hok : SelectsLive p (.session s a)) :
    Held (p.commit s (p.sessionEffect s a)) := by
  have hss := fun e => mem_ss_session (e := e) hen
  have hslot := slotStep_sessionEffect hlife hen
  generalize p.sessionEffect s a = eff at hss hslot ⊢
  -- a session other than `s` stays where it is
  have hkeep : ∀ y, p.sh.sc.Holds y →
      (y.s = s → eff.after.pc.stage ≤ 12) →
      y ∈ (p.commit s eff).sh.sc.ss ∧
        ((p.commit s eff).sess y.s).pc.stage ≤ 12 := by
    intro y hy hs
    refine ⟨hss y (h y hy).1, ?_⟩
    by_cases hys : y.s = s
    · rw [hys, commit_pc_self]
      exact hs hys
    · rw [commit_pc_of_ne hys]
      exact (h y hy).2
  intro y hy
  cases hslot with
  | still pnSet opt nPn timers stage =>
      rw [commit_sh, Holds, pnSet, opt] at hy
      refine hkeep y hy fun hys => stage.resolve_right ?_
      have := (h y hy).2
      rw [hys] at this
      omega
  | preempts stands goes taken =>
      have hgoes : eff.after.pc.stage ≤ 12 := by
        rw [goes]
        decide
      rcases taken.holds hy with hy | rfl
      · exact hkeep y hy fun _ => hgoes
      · refine ⟨hss _ (hlife.live s (by simp [stands]) (by simp [stands])), ?_⟩
        rw [commit_pc_self]
        exact hgoes
  | relinquishes stands given =>
      have hy' := given.holds hy
      refine hkeep y hy' fun hys => ?_
      rcases stands with ⟨-, goes⟩ | ⟨stands, goes⟩
      · rw [goes]
        decide
      · have hyme : y = ⟨s, (p.sess s).addr⟩ :=
          hlife.eq_of_sid (h y hy').1
            (hlife.live s (by simp [stands]) (by simp [stands])) hys
        rw [hyme] at hy
        exact absurd hy (given.gone hseats.orderly.2 (hok stands))

theorem stays_in_ss (hlife : Lifecycle p) (hb : Background p p') {e : Sn}
    (he : e ∈ p.sh.sc.ss) (hstage : (p.sess e.s).pc.stage ≤ 12) :
    e ∈ p'.sh.sc.ss := by
  cases hb.life with
  | kept ss gc => exact ss.mem_iff.mpr he
  | erased e' queued found ss =>
      rw [ss]
      refine (List.mem_erase_of_ne ?_).mpr he
      rintro rfl
      obtain ⟨f, hf, haddr, hpc⟩ :=
        hlife.queued e.addr (queued ▸ List.mem_cons_self)
      rw [eq_of_addr hlife.addrs hf he haddr] at hpc
      rw [hpc] at hstage
      contradiction

theorem Held.background {a : Act} (h : Held p) (hlife : Lifecycle p)
    (hback : Background p p') (hb : SlotBack p p' a) (hok : SelectsLive p a) :
    Held p' := by
  have hpc : ∀ t, (p'.sess t).pc = (p.sess t).pc := by
    intro t
    obtain ⟨es, -, hes⟩ := hback.sess t
    rw [hes, Session.enqAll_pc]
  have hkeep : ∀ y, y ∈ p.sh.sc.ss ∧ (p.sess y.s).pc.stage ≤ 12 →
      y ∈ p'.sh.sc.ss ∧ (p'.sess y.s).pc.stage ≤ 12 := by
    intro y hy
    rw [hpc]
    exact ⟨stays_in_ss hlife hback hy.1 hy.2, hy.2⟩
  intro y hy
  refine hkeep y ?_
  cases hb with
  | pnTick order perm live pnSet opt =>
      rw [Holds, pnSet, opt] at hy
      rcases hy with hy | hy
      · have hsel := mem_newPnSet.mp hy
        refine ⟨perm.mem_iff.mp ?_, hok y hsel⟩
        exact List.mem_of_mem_take (mem_selected.mp hsel).1
      · split at hy
        · exact h y (.inr hy)
        · cases hy
  | optTick rnd e drawn live pnSet opt =>
      rw [Holds, pnSet, opt] at hy
      rcases hy with hy | hy
      · exact h y (.inl hy)
      · cases hy
        exact ⟨(lucky_eligible drawn).1, hok y drawn⟩
  | still pnSet opt =>
      rw [Holds, pnSet, opt] at hy
      exact h y hy

theorem held_reaches {cfg : Config}
    (h : Reaches step SelectsLive (init cfg) p) : Held p := by
  refine h.invariant ?_ fun p a p' hr ih hok hstep => ?_
  · rintro e (he | he) <;> cases he
  · have hlife := lifecycle_reachable hr.reachable
    obtain ⟨-, hcases⟩ := step_cases hstep
    rcases slotBack_of_step hstep with ⟨s, act, rfl, hen, rfl⟩ | hb
    · exact ih.session (seats_reachable hr.reachable) hlife hen hok
    · rcases hcases with ⟨s, act, rfl, hen, rfl⟩ | hback
      · exact ih.session (seats_reachable hr.reachable) hlife hen hok
      · exact ih.background hlife hback hb hok

/--
When no timer selects a session past its final `relinquish`, and none makes it
from two slots, the slots refer to sessions in `ss` only, and the timers never
touch a destroyed session.
-/
theorem no_dangling_slots {cfg : Config}
    (h : Reaches step SelectsLive (init cfg) p) :
    (∀ e ∈ p.sh.sc.pnSet.items, e ∈ p.sh.sc.ss) ∧
      (∀ o, p.sh.sc.opt = some o → o ∈ p.sh.sc.ss) ∧
      (∀ order, (p.sh.sc.pnAlgorithm p.sess order).isSome = true) ∧
      ∀ rnd, (p.sh.sc.optAlgorithm p.sess rnd).isSome = true := by
  have hheld := held_reaches h
  have hpn : ∀ e ∈ p.sh.sc.pnSet.items, e ∈ p.sh.sc.ss := fun e he =>
    (hheld e (.inl he)).1
  have hopt : ∀ o, p.sh.sc.opt = some o → o ∈ p.sh.sc.ss := fun o ho =>
    (hheld o (.inr ho)).1
  refine ⟨hpn, hopt, fun order => ?_, fun rnd => ?_⟩
  · rw [pnAlgorithm, if_pos]
    · rfl
    · intro e he
      exact hpn e ((SortedVec.differenceItems_sublist _ _).subset he)
  · unfold optAlgorithm
    split
    · rfl
    · split
      · rfl
      · rename_i o ho
        rw [if_pos (hopt o ho)]
        rfl

/-- Session 0 makes its final `relinquish`, the timer then selects session 1,
and session 0 is cleaned up. -/
def preferred : Proc :=
  (run (checkedStep step SelectsLive) (init seed)
    (setupRun 0 [.owned] ++ setupRun 1 [.absent] ++
      receive 1 .interestedMsg 5 ++ threadSteps 0 3 ++
      receive 0 .tearDownMsg 2 ++
      .pnTick [⟨1, 1⟩, ⟨0, 0⟩] :: threadSteps 0 1 ++ [.cleanUp])).get (by decide)

theorem no_dangling_slots_preferred :
    preferred.sh.sc.pnSet.items = [⟨1, 1⟩] ∧ preferred.sh.sc.ss = [⟨1, 1⟩] ∧
      (∀ e ∈ preferred.sh.sc.pnSet.items, e ∈ preferred.sh.sc.ss) ∧
      (preferred.sh.sc.pnAlgorithm preferred.sess [⟨1, 1⟩]).isSome = true :=
  have h := no_dangling_slots (p := preferred) (reaches_get _)
  ⟨by decide, by decide, h.1, h.2.2.1 [⟨1, 1⟩]⟩

/-- Both ends own the piece; the timer ticks between the final `relinquish` and
`notifyCleanUp`. -/
def dangling : Proc :=
  (run step (init seed) (setupRun 0 [.owned] ++ threadSteps 0 3 ++
    receive 0 .tearDownMsg 2 ++
    .pnTick [⟨0, 0⟩] :: threadSteps 0 1 ++ [.cleanUp])).get (by decide)

/-- Without the condition, `pn_set` can refer to a destroyed session, which the
next tick then touches. -/
theorem slots_dangle :
    ¬ ∀ (cfg : Config) (p : Proc), Reachable cfg p →
      (∀ e ∈ p.sh.sc.pnSet.items, e ∈ p.sh.sc.ss) ∧
        ∀ o, p.sh.sc.opt = some o → o ∈ p.sh.sc.ss := by
  intro h
  have hmem := (h seed dangling (reachable_get _)).1 ⟨0, 0⟩ (by decide)
  exact absurd hmem (by decide)

example : dangling.sh.sc.pnAlgorithm dangling.sess [] = none := by decide

end Proc

end CntPeer
