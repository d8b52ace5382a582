import CntPeer.Foundation.History
import CntPeer.Process.Announce
import CntPeer.Process.Panics

/-!
# From `newSession` to `cleanUp`

The history of the session objects of one process: when each is created, when
its thread calls `notifyCleanUp` and when `cleanUp` erases it.
-/

namespace CntPeer

open CntPeer.Foundation

inductive LifeEvent where
  | created (s : Sid)
  | notified (s : Sid)
  | erased (s : Sid)
  deriving DecidableEq

namespace LifeEvent

def isCreated : LifeEvent → Bool
  | created _ => true
  | _ => false

def isErased : LifeEvent → Bool
  | erased _ => true
  | _ => false

end LifeEvent

namespace Proc

variable {p p' : Proc} {s : Sid}

def lifeEvents (p : Proc) : Act → List LifeEvent
  | .session s (.create _ _) => [.created s]
  | .session s (.thread _) =>
      if (p.sess s).pc = .notify then [.notified s] else []
  | .cleanUp =>
      match p.sh.sc.gcBq with
      | [] => []
      | addr :: _ => (p.sh.sc.findAddr addr).toList.map fun e => .erased e.s
  | _ => []

/-- A read of a connection stops the process only in the ways of a read. -/
def ReadsFail (_ : Proc) : Act → Prop
  | .session _ (.readFails h) => h.ofRead = true
  | _ => True

theorem unfinished_protocol {c : Choice} :
    (protocol p s c).sh.sc.nUnfinishedSession = p.sh.sc.nUnfinishedSession ∧
      (protocol p s c).sh.sc.gcDone = p.sh.sc.gcDone := by
  cases hpc : (p.sess s).pc with
  | preempt | relinquish | finalRelinquish =>
      simp only [protocol, hpc, withCollection]
      split
      · exact ⟨rfl, rfl⟩
      · rename_i hr
        obtain ⟨_, _, rfl⟩ := by
          first
            | exact tryPreempt_slots hr
            | exact relinquish_slots hr
        exact ⟨rfl, rfl⟩
  | handle e =>
      obtain ⟨halt, hsh⟩ := (handles p.sh (p.sess s) e).sh
      simp only [protocol, hpc]
      rw [hsh]
      exact ⟨rfl, rfl⟩
  | bcastNext i rest =>
      obtain ⟨m, pc, -, hstep⟩ := protocol_bcastNext (c := c) hpc
      rw [hstep]
      exact ⟨by trivial, by trivial⟩
  | _ =>
      simp only [protocol, hpc, withDifference, drainStep, awaitStep]
      repeat' split
      all_goals exact ⟨by trivial, by trivial⟩

theorem unfinished_sessionEffect {a : SessionAct}
    (hen : p.sessionEnabled s a = true) :
    (p.sessionEffect s a).sh.sc.nUnfinishedSession =
        p.sh.sc.nUnfinishedSession ∧
      (p.sessionEffect s a).sh.sc.gcDone = p.sh.sc.gcDone := by
  have hact := actCases hen
  generalize p.sessionEffect s a = e at hact
  cases hact with
  | thread c => exact unfinished_protocol
  | setup stands goes quiet keeps taken out posts own repo slots =>
      obtain ⟨ss, hsc⟩ := slots
      rw [hsc]
      exact ⟨rfl, rfl⟩
  | idle after out posts own repo sc =>
      rw [sc]
      exact ⟨rfl, rfl⟩

/-- What a step does to the registered sessions, with what it contributes to
the history. -/
inductive LifeChange (p p' : Proc) : List LifeEvent → Prop
  | quiet (ss : p'.sh.sc.ss.Perm p.sh.sc.ss)
      (absent : ∀ t, (p'.sess t).pc = .absent ↔ (p.sess t).pc = .absent)
      (ended : ∀ t, (p'.sess t).pc = .ended ↔ (p.sess t).pc = .ended)
      (unfinished : p'.sh.sc.nUnfinishedSession = p.sh.sc.nUnfinishedSession)
      (done : p'.sh.sc.gcDone = p.sh.sc.gcDone) : LifeChange p p' []
  | created (s : Sid) (addr : Nat) (absent : (p.sess s).pc = .absent)
      (goes : (p'.sess s).pc = .handshake)
      (others : ∀ t, t ≠ s → (p'.sess t).pc = (p.sess t).pc)
      (ss : p'.sh.sc.ss = p.sh.sc.ss ++ [⟨s, addr⟩])
      (unfinished : p'.sh.sc.nUnfinishedSession = p.sh.sc.nUnfinishedSession)
      (done : p'.sh.sc.gcDone = p.sh.sc.gcDone) : LifeChange p p' [.created s]
  | notified (s : Sid) (stands : (p.sess s).pc = .notify)
      (goes : (p'.sess s).pc = .ended)
      (others : ∀ t, t ≠ s → (p'.sess t).pc = (p.sess t).pc)
      (ss : p'.sh.sc.ss = p.sh.sc.ss)
      (unfinished : p'.sh.sc.nUnfinishedSession = p.sh.sc.nUnfinishedSession)
      (done : p'.sh.sc.gcDone = p.sh.sc.gcDone) : LifeChange p p' [.notified s]
  | erased (e : Sn) (found : e ∈ p.sh.sc.ss)
      (ended : (p.sess e.s).pc = .ended)
      (others : ∀ t, (p'.sess t).pc = (p.sess t).pc)
      (ss : p'.sh.sc.ss = p.sh.sc.ss.erase e)
      (unfinished : p'.sh.sc.nUnfinishedSession =
        p.sh.sc.nUnfinishedSession - 1)
      (running : p.sh.sc.gcDone = false)
      (done : p'.sh.sc.gcDone = decide (p'.sh.sc.ss = [] ∧
        p'.sh.sc.nUnfinishedSession = 0)) : LifeChange p p' [.erased e.s]

theorem lifeChange_session {a : SessionAct}
    (hen : p.sessionEnabled s a = true) :
    LifeChange p (p.commit s (p.sessionEffect s a))
      (p.lifeEvents (.session s a)) := by
  have hself : ((p.commit s (p.sessionEffect s a)).sess s).pc =
      (p.sessionEffect s a).after.pc := commit_pc_self
  have hother : ∀ t, t ≠ s → ((p.commit s (p.sessionEffect s a)).sess t).pc =
      (p.sess t).pc := fun t ht => commit_pc_of_ne ht
  obtain ⟨hun, hdone⟩ := unfinished_sessionEffect hen
  cases lifeStep_sessionEffect hen with
  | created addr act absent fresh goes addr' ss gc =>
      obtain ⟨epid, rfl⟩ := act
      exact .created s addr absent (hself.trans goes) hother ss hun hdone
  | kept absent ended addr ss gc =>
      have hquiet : p.lifeEvents (.session s a) = [] := by
        cases a with
        | create addr epid =>
            simp only [sessionEnabled, Bool.and_eq_true,
              decide_eq_true_eq] at hen
            cases absent.mpr hen.1.2
        | thread c =>
            refine if_neg fun hpc => ?_
            have hended := ended.mp (by
              simp only [sessionEffect, protocol, hpc]
              rfl)
            rw [hpc] at hended
            cases hended
        | _ => rfl
      rw [hquiet]
      refine .quiet (ss ▸ .refl _) (fun t => ?_) (fun t => ?_) hun hdone
      all_goals
        by_cases hts : t = s
        · subst t
          rw [hself]
          assumption
        · rw [hother t hts]
  | notified stands goes addr ss gc =>
      have hevents : p.lifeEvents (.session s a) = [.notified s] := by
        cases a with
        | thread c => exact if_pos stands
        | create _ _ | recvHandshake _ | recvBitfield _ =>
            simp [sessionEnabled, stands] at hen
        | scan m =>
            simp only [sessionEffect] at goes
            split at goes
            all_goals simp [Effect.after, panicEffect, stands] at goes
        | readFails _ | received _ =>
            simp [sessionEffect, Effect.after, stands] at goes
      rw [hevents]
      exact .notified s stands (hself.trans goes) hother ss hun hdone

theorem unfinished_ticked {r : Option (SessionCollection × Posts)}
    (h : ∀ sc posts, r = some (sc, posts) → sc.ss.Perm p.sh.sc.ss ∧
      sc.nUnfinishedSession = p.sh.sc.nUnfinishedSession ∧
        sc.gcDone = p.sh.sc.gcDone) :
    (p.ticked r).sh.sc.ss.Perm p.sh.sc.ss ∧
      (p.ticked r).sh.sc.nUnfinishedSession = p.sh.sc.nUnfinishedSession ∧
        (p.ticked r).sh.sc.gcDone = p.sh.sc.gcDone := by
  rcases r with - | ⟨sc, posts⟩
  · exact ⟨.refl _, rfl, rfl⟩
  · exact h sc posts rfl

theorem lifeChange_background {a : Act} (hlife : Lifecycle p)
    (hstep : p.step a = some p') (ha : a.isSession = false) :
    LifeChange p p' (p.lifeEvents a) := by
  have hb := background_step hstep ha
  obtain ⟨hen, hnext⟩ := step_eq_some.mp hstep
  have hquiet : p'.sh.sc.ss.Perm p.sh.sc.ss ∧
      p'.sh.sc.nUnfinishedSession = p.sh.sc.nUnfinishedSession ∧
      p'.sh.sc.gcDone = p.sh.sc.gcDone → LifeChange p p' [] := fun h =>
    .quiet h.1 (fun t => by rw [hb.pc]) (fun t => by rw [hb.pc]) h.2.1 h.2.2
  cases a with
  | session s act => cases ha
  | pnTick order =>
      simp only [enabled, Bool.and_eq_true, decide_eq_true_eq] at hen
      subst hnext
      refine hquiet (unfinished_ticked fun sc posts hr => ?_)
      unfold SessionCollection.pnAlgorithm at hr
      split at hr
      · cases hr
        exact ⟨hen.2.2.1, rfl, rfl⟩
      · contradiction
  | optTick rnd =>
      subst hnext
      refine hquiet (unfinished_ticked fun sc posts hr => ?_)
      unfold SessionCollection.optAlgorithm at hr
      repeat' split at hr
      all_goals cases hr
      all_goals exact ⟨.refl _, rfl, rfl⟩
  | cleanUp =>
      simp only [enabled, Bool.and_eq_true, Bool.not_eq_true'] at hen
      obtain ⟨-, ⟨-, hne⟩, hrunning⟩ := hen
      cases hgc : p.sh.sc.gcBq with
      | nil => simp [hgc] at hne
      | cons addr rest =>
          obtain ⟨e, he, haddr, hended⟩ :=
            hlife.queued addr (hgc ▸ List.mem_cons_self)
          have hfind := hlife.findAddr he haddr
          have hevents : p.lifeEvents .cleanUp = [.erased e.s] := by
            simp only [lifeEvents, hgc, hfind]
            rfl
          simp only [next, SessionCollection.cleanUp, hgc, hfind] at hnext
          rw [hevents]
          subst hnext
          exact .erased e he hended (fun _ => rfl) rfl rfl hrunning rfl
  | exit =>
      subst hnext
      exact hquiet ⟨.refl _, rfl, rfl⟩

theorem lifeChange {a : Act} (hlife : Lifecycle p)
    (hstep : p.step a = some p') : LifeChange p p' (p.lifeEvents a) := by
  cases a with
  | session s act =>
      obtain ⟨hen, rfl⟩ := session_step hstep
      exact lifeChange_session hen
  | _ => exact lifeChange_background hlife hstep rfl

structure Chronicled (n : Int) (p : Proc) (l : List LifeEvent) : Prop where
  created : ∀ t, l.count (.created t) =
    if (p.sess t).pc = .absent then 0 else 1
  notified : ∀ t, l.count (.notified t) =
    if (p.sess t).pc = .ended then 1 else 0
  erased : ∀ t, l.count (.erased t) + (if p.live t then 1 else 0) =
    l.count (.created t)
  unfinished : p.sh.sc.nUnfinishedSession = n - l.countP LifeEvent.isErased
  registered : p.sh.sc.ss.length + l.countP LifeEvent.isErased =
    l.countP LifeEvent.isCreated

theorem live_iff {t : Sid} : p.live t = true ↔ ∃ e ∈ p.sh.sc.ss, e.s = t := by
  simp [live]

theorem LifeChange.places {es : List LifeEvent} (h : LifeChange p p' es)
    (t : Sid) :
    (if (p'.sess t).pc = .absent then 0 else 1) =
        (if (p.sess t).pc = .absent then 0 else 1) + es.count (.created t) ∧
      (if (p'.sess t).pc = .ended then 1 else 0) =
        (if (p.sess t).pc = .ended then 1 else 0) + es.count (.notified t) := by
  cases h with
  | quiet ss absent ended =>
      simp only [absent, ended, List.count_nil, Nat.add_zero, and_self]
  | created s addr absent goes others =>
      by_cases hts : t = s
      · subst t
        simp [absent, goes]
      · simp [others t hts, Ne.symm hts]
  | notified s stands goes others =>
      by_cases hts : t = s
      · subst t
        simp [stands, goes]
      · simp [others t hts, Ne.symm hts]
  | erased e found ended others => simp [others]

theorem LifeChange.live {es : List LifeEvent} (h : LifeChange p p' es)
    (hlife : Lifecycle p) (t : Sid) :
    es.count (.erased t) + (if p'.live t then 1 else 0) =
      es.count (.created t) + if p.live t then 1 else 0 := by
  cases h with
  | quiet ss =>
      have hlive : p'.live t = p.live t := by
        rw [Bool.eq_iff_iff, live_iff, live_iff]
        simp only [ss.mem_iff]
      rw [hlive]
      rfl
  | created s addr absent goes others ss =>
      have hlive : p'.live t = true ↔ p.live t = true ∨ t = s := by
        rw [live_iff, live_iff, ss]
        simp only [List.mem_append, List.mem_singleton]
        constructor
        · rintro ⟨e, he | rfl, rfl⟩
          · exact .inl ⟨e, he, rfl⟩
          · exact .inr rfl
        · rintro (⟨e, he, rfl⟩ | rfl)
          · exact ⟨e, .inl he, rfl⟩
          · exact ⟨_, .inr rfl, rfl⟩
      by_cases hts : t = s
      · subst t
        have hnew : ¬p.live s = true := by
          rw [live_iff]
          rintro ⟨e, he, rfl⟩
          exact (hlife.stored e he).2 absent
        rw [if_pos (hlive.mpr (.inr rfl)), if_neg hnew]
        simp
      · simp [hlive, hts, Ne.symm hts]
  | notified s stands goes others ss =>
      have hlive : p'.live t = p.live t := by
        rw [Bool.eq_iff_iff, live_iff, live_iff, ss]
      simp [hlive]
  | erased e found ended others ss =>
      have hnodup : p.sh.sc.ss.Nodup := List.Nodup.of_map _ hlife.addrs
      have hlive : p'.live t = true ↔ p.live t = true ∧ t ≠ e.s := by
        rw [live_iff, live_iff, ss]
        simp only [hnodup.mem_erase_iff]
        constructor
        · rintro ⟨y, ⟨hne, hy⟩, rfl⟩
          exact ⟨⟨y, hy, rfl⟩, fun hs => hne (hlife.eq_of_sid hy found hs)⟩
        · rintro ⟨⟨y, hy, rfl⟩, hne⟩
          exact ⟨y, ⟨fun hs => hne (hs ▸ rfl), hy⟩, rfl⟩
      by_cases hts : t = e.s
      · subst t
        rw [if_neg fun hl => (hlive.mp hl).2 rfl,
          if_pos (live_iff.mpr ⟨e, found, rfl⟩)]
        simp
      · simp [hlive, hts, Ne.symm hts]

theorem LifeChange.totals {es : List LifeEvent} (h : LifeChange p p' es) :
    p'.sh.sc.nUnfinishedSession =
        p.sh.sc.nUnfinishedSession - es.countP LifeEvent.isErased ∧
      p'.sh.sc.ss.length + es.countP LifeEvent.isErased =
        p.sh.sc.ss.length + es.countP LifeEvent.isCreated := by
  cases h with
  | quiet ss _ _ unfinished =>
      rw [unfinished, ss.length_eq]
      simp
  | created s addr absent goes others ss unfinished =>
      rw [unfinished, ss]
      simp [LifeEvent.isErased, LifeEvent.isCreated]
  | notified s stands goes others ss unfinished =>
      rw [unfinished, ss]
      simp [LifeEvent.isErased, LifeEvent.isCreated]
  | erased e found ended others ss unfinished =>
      have hpos := List.length_pos_of_mem found
      rw [unfinished, ss, List.length_erase_of_mem found]
      simp [LifeEvent.isErased, LifeEvent.isCreated]
      omega

theorem Chronicled.step {n : Int} {a : Act} {l : List LifeEvent}
    (h : Chronicled n p l) (hlife : Lifecycle p)
    (hstep : p.step a = some p') : Chronicled n p' (l ++ p.lifeEvents a) := by
  have hchange := lifeChange hlife hstep
  obtain ⟨hunfinished, hregistered⟩ := hchange.totals
  constructor
  · intro t
    rw [List.count_append, h.created, (hchange.places t).1]
  · intro t
    rw [List.count_append, h.notified, (hchange.places t).2]
  · intro t
    have herased := h.erased t
    have hlive := hchange.live hlife t
    rw [List.count_append, List.count_append]
    omega
  · rw [hunfinished, h.unfinished, List.countP_append]
    omega
  · have hold := h.registered
    rw [List.countP_append, List.countP_append]
    omega

theorem chronicled_init (cfg : Config) :
    Chronicled (cfg.totalPeerCount - 1) (init cfg) [] := by
  refine ⟨?_, ?_, ?_, ?_, ?_⟩
  all_goals simp [init, SessionCollection.init, Session.fresh, live]

theorem chronicled_records {cfg : Config} {ok : Proc → Act → Prop}
    {l : List LifeEvent}
    (h : Records step lifeEvents ok (init cfg) (p, l)) :
    Chronicled (cfg.totalPeerCount - 1) p l :=
  h.history (chronicled_init cfg) fun _ _ _ _ hr ih _ hstep =>
    ih.step (lifecycle_reachable hr.reachable) hstep

/-- A session is erased at most once and after its `notifyCleanUp`, and is
registered in between. -/
theorem Chronicled.ordered {n : Int} {l : List LifeEvent}
    (h : Chronicled n p l) (hlife : Lifecycle p) (t : Sid) :
    l.count (.erased t) ≤ l.count (.notified t) ∧
      l.count (.notified t) ≤ l.count (.created t) ∧
      l.count (.created t) ≤ 1 ∧
      (p.live t = true ↔ .created t ∈ l ∧ .erased t ∉ l) := by
  have hcreated := h.created t
  have hnotified := h.notified t
  have herased := h.erased t
  have hstored : p.live t = true → (p.sess t).pc ≠ .absent := by
    rw [live_iff]
    rintro ⟨e, he, rfl⟩
    exact (hlife.stored e he).2
  rw [← List.count_pos_iff, ← List.count_eq_zero]
  by_cases habsent : (p.sess t).pc = .absent
  · have hdead : ¬p.live t = true := fun hl => hstored hl habsent
    rw [if_pos habsent] at hcreated
    rw [if_neg (by simp [habsent])] at hnotified
    rw [if_neg hdead] at herased
    exact ⟨by omega, by omega, by omega,
      iff_of_false hdead fun hl => by omega⟩
  · rw [if_neg habsent] at hcreated
    by_cases hl : p.live t = true
    · rw [if_pos hl] at herased
      exact ⟨by omega, by split at hnotified <;> omega, by omega,
        iff_of_true hl (by omega)⟩
    · have hended : (p.sess t).pc = .ended := by
        by_contra hne
        exact hl (live_iff.mpr ⟨_, hlife.live t habsent hne, rfl⟩)
      rw [if_pos hended] at hnotified
      rw [if_neg hl] at herased
      exact ⟨by omega, by omega, by omega,
        iff_of_false hl fun hl => by omega⟩

structure Finished (n : Int) (p : Proc) (l : List LifeEvent) : Prop where
  all : p.sh.sc.gcDone = true →
    0 < l.countP LifeEvent.isErased ∧ l.countP LifeEvent.isErased = n
  leaves : l.countP LifeEvent.isCreated ≤ n →
    0 < l.countP LifeEvent.isErased → l.countP LifeEvent.isErased = n →
    p.sh.sc.gcDone = true

theorem Finished.kept {n : Int} {l es : List LifeEvent} (h : Finished n p l)
    (hdone : p'.sh.sc.gcDone = p.sh.sc.gcDone)
    (hes : es.countP LifeEvent.isErased = 0) : Finished n p' (l ++ es) := by
  have herased : (l ++ es).countP LifeEvent.isErased =
      l.countP LifeEvent.isErased := by
    rw [List.countP_append, hes, Nat.add_zero]
  constructor
  · rw [hdone, herased]
    exact h.all
  · intro hle
    rw [hdone, herased]
    rw [List.countP_append] at hle
    exact h.leaves (by omega)

theorem Finished.step {n : Int} {a : Act} {l : List LifeEvent}
    (h : Finished n p l) (hc : Chronicled n p l) (hlife : Lifecycle p)
    (hstep : p.step a = some p') : Finished n p' (l ++ p.lifeEvents a) := by
  have hc' := hc.step hlife hstep
  have hchange := lifeChange hlife hstep
  generalize p.lifeEvents a = es at hchange hc'
  cases hchange with
  | quiet ss absent ended unfinished done => exact h.kept done rfl
  | created s addr absent goes others ss unfinished done => exact h.kept done rfl
  | notified s stands goes others ss unfinished done => exact h.kept done rfl
  | erased e found ended others ss unfinished running done =>
      have hpos : 0 < (l ++ [LifeEvent.erased e.s]).countP
          LifeEvent.isErased := by
        simp [List.countP_append, LifeEvent.isErased]
      refine ⟨fun hdone => ⟨hpos, ?_⟩, fun hle _ hall => ?_⟩
      · rw [done, decide_eq_true_eq, hc'.unfinished] at hdone
        omega
      · have hreg := hc'.registered
        rw [done, decide_eq_true_eq, hc'.unfinished,
          ← List.length_eq_zero_iff]
        omega

theorem finished_records {cfg : Config} {ok : Proc → Act → Prop}
    {l : List LifeEvent}
    (h : Records step lifeEvents ok (init cfg) (p, l)) :
    Finished (cfg.totalPeerCount - 1) p l := by
  refine (h.history (I := fun p l => Chronicled (cfg.totalPeerCount - 1) p l ∧
    Finished (cfg.totalPeerCount - 1) p l) ?_ ?_).2
  · refine ⟨chronicled_init cfg, ?_, ?_⟩
    all_goals simp [init, SessionCollection.init]
  · rintro p l a p' hr ⟨hc, hf⟩ - hstep
    have hlife := lifecycle_reachable hr.reachable
    exact ⟨hc.step hlife hstep, hf.step hc hlife hstep⟩

def UnknownAddress : Panic → Prop
  | .tryPreemptUnknown | .relinquishUnknown | .cleanUpUnknown => True
  | _ => False

theorem registered_thread {c : Choice} (hlife : Lifecycle p)
    (hrun : p.sh.halt = none) {r : Panic}
    (hr : (protocol p s c).sh.halt = some (.panic r)) : ¬UnknownAddress r := by
  have hcause := panic_protocol hrun hr
  have hknown : ¬(p.sh.sc.findAddr (p.sess s).addr = none ∧
      (p.sess s).pc ≠ .absent ∧ (p.sess s).pc ≠ .ended) := by
    rintro ⟨hfind, habsent, hended⟩
    rw [hlife.findAddr (hlife.live s habsent hended) rfl] at hfind
    cases hfind
  cases r with
  | tryPreemptUnknown | relinquishUnknown => exact absurd hcause hknown
  | cleanUpUnknown => exact hcause.elim
  | _ => exact id

theorem registered_step {a : Act} (hlife : Lifecycle p)
    (hok : ReadsFail p a) (hstep : p.step a = some p') {r : Panic}
    (hr : p'.sh.halt = some (.panic r)) : ¬UnknownAddress r := by
  have hrun := (step_cases hstep).1
  cases a with
  | session s act =>
      obtain ⟨-, rfl⟩ := session_step hstep
      rw [commit_sh] at hr
      cases act with
      | thread c => exact registered_thread hlife hrun hr
      | readFails h =>
          cases hr
          cases r with
          | tryPreemptUnknown | relinquishUnknown | cleanUpUnknown => cases hok
          | _ => exact id
      | create _ _ | received _ => exact absurd hr (not_halted hrun)
      | recvHandshake _ | recvBitfield _ =>
          simp only [sessionEffect] at hr
          split at hr
          all_goals first
            | exact absurd hr (not_halted hrun)
            | cases hr; exact id
      | scan m =>
          cases m
          all_goals first
            | exact absurd hr (not_halted hrun)
            | cases hr; exact id
  | _ =>
      obtain ⟨-, addr, rest, hgc, hfind⟩ := background_panic hstep rfl hr
      obtain ⟨e, he, haddr, -⟩ :=
        hlife.queued addr (hgc ▸ List.mem_cons_self)
      rw [hlife.findAddr he haddr] at hfind
      cases hfind

/--
Every session is created at most once, erased at most once and never before its
thread has called `notifyCleanUp`; no address is unknown where it is looked up;
the counter is its initial value less the erased sessions, so that `cleanUp`
leaves its loop with the last of the expected sessions.
-/
theorem session_lifecycle {cfg : Config} {l : List LifeEvent}
    (h : Records step lifeEvents ReadsFail (init cfg) (p, l)) :
    (∀ t, l.count (.erased t) ≤ l.count (.notified t) ∧
      l.count (.notified t) ≤ l.count (.created t) ∧
      l.count (.created t) ≤ 1 ∧
      (p.live t = true ↔ .created t ∈ l ∧ .erased t ∉ l)) ∧
    (∀ r, p.sh.halt = some (.panic r) → ¬UnknownAddress r) ∧
    p.sh.sc.nUnfinishedSession =
      (cfg.totalPeerCount - 1 : Int) - l.countP LifeEvent.isErased ∧
    (l.countP LifeEvent.isCreated ≤ (cfg.totalPeerCount - 1 : Int) →
      (p.sh.sc.gcDone = true ↔ 0 < l.countP LifeEvent.isErased ∧
        l.countP LifeEvent.isErased = (cfg.totalPeerCount - 1 : Int))) := by
  have hr := Reaches.of_records h
  have hlife := lifecycle_reachable hr.reachable
  have hc := chronicled_records h
  have hf := finished_records h
  refine ⟨fun t => ?_, ?_, hc.unfinished, fun hle => ⟨hf.all, fun hall =>
    hf.leaves hle hall.1 hall.2⟩⟩
  · exact hc.ordered hlife t
  · refine hr.invariant (I := fun p => ∀ r, p.sh.halt = some (.panic r) →
      ¬UnknownAddress r) ?_ ?_
    · intro r hhalt
      cases hhalt
    · intro p a p' hreach _ hok hstep r hhalt
      exact registered_step (lifecycle_reachable hreach.reachable) hok hstep
        hhalt

instance (p : Proc) : (a : Act) → Decidable (ReadsFail p a)
  | .session _ (.readFails _) => inferInstanceAs (Decidable (_ = true))
  | .session _ (.create ..) | .session _ (.thread _)
  | .session _ (.recvHandshake _) | .session _ (.recvBitfield _)
  | .session _ (.scan _) | .session _ (.received _)
  | .pnTick _ | .optTick _ | .cleanUp | .exit => .isTrue trivial

def lone : Config := { seed with totalPeerCount := 2 }

def finished : Proc × List LifeEvent :=
  (run (checkedStep (recorded step lifeEvents) fun q a => ReadsFail q.1 a)
    (init lone, [])
    (setupRun 0 [.owned] ++ threadSteps 0 3 ++ receive 0 .tearDownMsg 3 ++
      [.cleanUp])).get (by decide)

theorem session_lifecycle_finished :
    finished.2 = [.created 0, .notified 0, .erased 0] ∧
      finished.1.sh.sc.nUnfinishedSession = 0 ∧
        finished.1.sh.sc.gcDone = true := by
  have hevents : finished.2 = [.created 0, .notified 0, .erased 0] := by decide
  have hrun : Records step lifeEvents ReadsFail (init lone) finished :=
    reaches_get _
  obtain ⟨-, -, hunfinished, hdone⟩ :=
    session_lifecycle (p := finished.1) (l := finished.2) hrun
  refine ⟨hevents, ?_, (hdone ?_).mpr ?_⟩
  all_goals
    rw [hevents] at *
    decide

end Proc

end CntPeer
