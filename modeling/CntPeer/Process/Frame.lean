import CntPeer.Process

/-!
# What a step leaves alone

A step of one session changes that session and the shared state; every other
session only has events appended to its queue.
-/

namespace CntPeer

open CntPeer.Foundation

def Act.isSession : Act → Bool
  | .session _ _ => true
  | _ => false

namespace Session

variable (x : Session) (es : List Event)

@[simp] theorem enqAll_nil : x.enqAll [] = x := by simp [enqAll]
@[simp] theorem enqAll_addr : (x.enqAll es).addr = x.addr := rfl
@[simp] theorem enqAll_expectedPeerId :
    (x.enqAll es).expectedPeerId = x.expectedPeerId := rfl
@[simp] theorem enqAll_pc : (x.enqAll es).pc = x.pc := rfl
@[simp] theorem enqAll_eq : (x.enqAll es).eq = x.eq ++ es := rfl
@[simp] theorem enqAll_isActive : (x.enqAll es).isActive = x.isActive := rfl
@[simp] theorem enqAll_isBcastReady :
    (x.enqAll es).isBcastReady = x.isBcastReady := rfl
@[simp] theorem enqAll_isDone : (x.enqAll es).isDone = x.isDone := rfl
@[simp] theorem enqAll_peerOwn : (x.enqAll es).peerOwn = x.peerOwn := rfl
@[simp] theorem enqAll_peerSv : (x.enqAll es).peerSv = x.peerSv := rfl
@[simp] theorem enqAll_peerAll : (x.enqAll es).peerAll = x.peerAll := rfl
@[simp] theorem enqAll_scanning : (x.enqAll es).scanning = x.scanning := rfl
@[simp] theorem enqAll_selfChoke : (x.enqAll es).selfChoke = x.selfChoke := rfl
@[simp] theorem enqAll_peerChoke : (x.enqAll es).peerChoke = x.peerChoke := rfl
@[simp] theorem enqAll_peerInterest :
    (x.enqAll es).peerInterest = x.peerInterest := rfl
@[simp] theorem enqAll_bfMsg : (x.enqAll es).bfMsg = x.bfMsg := rfl
@[simp] theorem enqAll_sent : (x.enqAll es).sent = x.sent := rfl
@[simp] theorem enqAll_handled : (x.enqAll es).handled = x.handled := rfl
@[simp] theorem enqAll_commands :
    (x.enqAll es).commands = x.commands ++ es.filter Event.isTimer := rfl

@[simp] theorem enqAll_events : (x.enqAll es).events = x.events ++ es := by
  unfold events
  rw [enqAll_pc]
  split <;> simp

@[simp] theorem enqAll_pending :
    (x.enqAll es).pending = x.pending ++ es.filterMap Event.msg? := by
  simp [pending]

end Session

/-- What the handling of an event leaves alone, whatever the event. -/
structure Handles (sh : Shared) (x : Session) (e : Effect) : Prop where
  sh : ∃ halt, e.sh = { sh with halt := halt }
  posts : e.posts = []
  sent : e.after.sent = x.sent ++ e.out
  bfMsg : e.after.bfMsg = x.bfMsg
  commands : e.after.commands = x.commands

theorem handles (sh : Shared) (x : Session) (ev : Event) :
    Handles sh x (handle sh x ev) := by
  cases ev
  all_goals
    simp only [handle]
    repeat' split
  all_goals exact ⟨⟨_, rfl⟩, rfl, rfl, rfl, rfl⟩

/-- A turn of the loop in `broadcastHave` over the sessions that are left. -/
inductive BcastTurn (i : Nat) : List Sid → Pc → Prop
  | requestNext : BcastTurn i [] .requestNext
  | loop : BcastTurn i [] .loop
  | enq {t : Sid} {rest : List Sid} : BcastTurn i (t :: rest) (.bcastEnq i t rest)
  | wait {t : Sid} {rest : List Sid} :
      BcastTurn i (t :: rest) (.bcastWait i t rest)

namespace Proc

variable {p p' : Proc} {s t : Sid} {e : Effect}

theorem protocol_bcastNext {c : Choice} {i : Nat} {rest : List Sid}
    (hpc : (p.sess s).pc = .bcastNext i rest) :
    ∃ m pc, BcastTurn i rest pc ∧ protocol p s c =
      { sh := { p.sh with sc := { p.sh.sc with m := m } }
        me := (p.sess s).goto pc } := by
  cases rest with
  | nil =>
      simp only [protocol, hpc]
      split
      · exact ⟨none, _, .requestNext, rfl⟩
      · exact ⟨none, _, .loop, rfl⟩
  | cons t rest =>
      simp only [protocol, hpc]
      split
      · exact ⟨_, _, .enq, rfl⟩
      · exact ⟨_, _, .wait, rfl⟩

@[simp] theorem postsTo_nil : postsTo t [] = [] := rfl

@[simp] theorem postsTo_cons (u : Sid) (ev : Event) (posts : Posts) :
    postsTo t ((u, ev) :: posts) =
      if u = t then ev :: postsTo t posts else postsTo t posts := by
  simp only [postsTo, List.filterMap_cons]
  split <;> simp_all

@[simp] theorem postsTo_append (a b : Posts) :
    postsTo t (a ++ b) = postsTo t a ++ postsTo t b := by
  simp [postsTo]

theorem mem_postsTo {posts : Posts} {ev : Event} :
    ev ∈ postsTo t posts ↔ (t, ev) ∈ posts := by
  simp only [postsTo, List.mem_filterMap, Option.ite_none_right_eq_some,
    Option.some.injEq]
  constructor
  · rintro ⟨⟨u, ev'⟩, h, rfl, rfl⟩
    exact h
  · intro h
    exact ⟨(t, ev), h, rfl, rfl⟩

@[simp] theorem commit_sh : (p.commit s e).sh = e.sh := rfl

theorem commit_sess :
    (p.commit s e).sess t = (p.moved s e t).enqAll (postsTo t e.posts) := rfl

@[simp] theorem moved_self : p.moved s e s = e.after := by
  simp [moved]

theorem moved_of_ne (h : t ≠ s) : p.moved s e t = p.sess t := by
  simp [moved, h]

theorem commit_self :
    (p.commit s e).sess s = e.after.enqAll (postsTo s e.posts) := by
  rw [commit_sess, moved_self]

theorem commit_of_ne (h : t ≠ s) :
    (p.commit s e).sess t = (p.sess t).enqAll (postsTo t e.posts) := by
  rw [commit_sess, moved_of_ne h]

theorem commit_pc_self : ((p.commit s e).sess s).pc = e.after.pc := by
  rw [commit_self, Session.enqAll_pc]

theorem commit_pc_of_ne (h : t ≠ s) :
    ((p.commit s e).sess t).pc = (p.sess t).pc := by
  rw [commit_of_ne h, Session.enqAll_pc]

/-- What a step outside the sessions does to `ss` and the queue of `cleanUp`:
`nth_element` reorders, `cleanUp` erases the session it dequeued. -/
inductive LifeBack (sc sc' : SessionCollection) : Prop
  | kept (ss : sc'.ss.Perm sc.ss) (gc : sc'.gcBq = sc.gcBq)
  | erased (e : Sn) (queued : sc.gcBq = e.addr :: sc'.gcBq)
      (found : sc.findAddr e.addr = some e) (ss : sc'.ss = sc.ss.erase e)

/-- A step that belongs to no session: it edits the collection or stops the
process, and enqueues timer commands only. -/
structure Background (p p' : Proc) : Prop where
  selfPeerId : p'.sh.selfPeerId = p.sh.selfPeerId
  own : p'.sh.own = p.sh.own
  repo : p'.sh.repo = p.sh.repo
  log : p'.sh.log = p.sh.log
  mReq : p'.sh.mReq = p.sh.mReq
  m : p'.sh.sc.m = p.sh.sc.m
  life : LifeBack p.sh.sc p'.sh.sc
  sess : ∀ t, ∃ es, (∀ ev ∈ es, ev.isTimer = true) ∧
    p'.sess t = (p.sess t).enqAll es

theorem Background.haltWith (h : Halt) : Background p (p.haltWith h) :=
  ⟨rfl, rfl, rfl, rfl, rfl, rfl, .kept (.refl _) rfl,
    fun t => ⟨[], by simp, by simp [Proc.haltWith]⟩⟩

theorem Background.pc (h : Background p p') (t : Sid) :
    (p'.sess t).pc = (p.sess t).pc := by
  obtain ⟨es, -, hes⟩ := h.sess t
  rw [hes, Session.enqAll_pc]

def TimerPosts (posts : Posts) : Prop := ∀ e ∈ posts, e.2.isTimer = true

theorem timerPosts_chokeCmd (v : Sid → Session) (e : Sn) :
    TimerPosts (chokeCmd v e) := by
  unfold chokeCmd TimerPosts
  split <;> simp [Event.isTimer]

theorem timerPosts_unchokeCmd (v : Sid → Session) (e : Sn) :
    TimerPosts (unchokeCmd v e) := by
  unfold unchokeCmd TimerPosts
  split <;> simp [Event.isTimer]

theorem TimerPosts.append {a b : Posts} (ha : TimerPosts a)
    (hb : TimerPosts b) : TimerPosts (a ++ b) := by
  intro e he
  rcases List.mem_append.mp he with he | he
  · exact ha e he
  · exact hb e he

theorem TimerPosts.flatMap {l : List Sn} {f : Sn → Posts}
    (h : ∀ e, TimerPosts (f e)) : TimerPosts (l.flatMap f) := by
  intro e he
  obtain ⟨sn, -, he⟩ := List.mem_flatMap.mp he
  exact h sn e he

theorem timerPosts_pnAlgorithm {sc sc' : SessionCollection}
    {v : Sid → Session} {order : List Sn} {posts : Posts}
    (h : sc.pnAlgorithm v order = some (sc', posts)) : TimerPosts posts := by
  unfold SessionCollection.pnAlgorithm at h
  split at h
  · cases h
    exact (TimerPosts.flatMap (timerPosts_chokeCmd v)).append
      (TimerPosts.flatMap (timerPosts_unchokeCmd v))
  · contradiction

theorem timerPosts_optAlgorithm {sc sc' : SessionCollection}
    {v : Sid → Session} {rnd : Nat} {posts : Posts}
    (h : sc.optAlgorithm v rnd = some (sc', posts)) : TimerPosts posts := by
  unfold SessionCollection.optAlgorithm at h
  split at h
  · cases h
    simp [TimerPosts]
  · split at h
    · cases h
      exact timerPosts_unchokeCmd v _
    · split at h
      · cases h
        exact (timerPosts_unchokeCmd v _).append (timerPosts_chokeCmd v _)
      · contradiction

theorem timerPosts_tryPreempt {sc sc' : SessionCollection}
    {v : Sid → Session} {addr : Nat} {posts : Posts}
    (h : sc.tryPreempt v addr = .ok (sc', posts)) : TimerPosts posts := by
  unfold SessionCollection.tryPreempt at h
  repeat' split at h
  all_goals cases h
  all_goals first
    | exact timerPosts_unchokeCmd v _
    | simp [TimerPosts]

theorem timerPosts_replacementCmd (sc : SessionCollection)
    (v : Sid → Session) : TimerPosts (sc.replacementCmd v) := by
  unfold SessionCollection.replacementCmd
  split
  · simp [TimerPosts]
  · exact timerPosts_unchokeCmd v _

theorem timerPosts_relinquish {sc sc' : SessionCollection}
    {v : Sid → Session} {addr : Nat} {posts : Posts}
    (h : sc.relinquish v addr = .ok (sc', posts)) : TimerPosts posts := by
  unfold SessionCollection.relinquish at h
  repeat' split at h
  all_goals cases h
  all_goals first
    | exact (timerPosts_chokeCmd v _).append (timerPosts_replacementCmd sc v)
    | simp [TimerPosts]

theorem TimerPosts.postsTo {posts : Posts} (h : TimerPosts posts) (t : Sid) :
    ∀ ev ∈ postsTo t posts, ev.isTimer = true :=
  fun ev hev => h (t, ev) (mem_postsTo.mp hev)

theorem Background.ticked {r : Option (SessionCollection × Posts)}
    (h : ∀ sc posts, r = some (sc, posts) → sc.m = p.sh.sc.m ∧
      LifeBack p.sh.sc sc ∧ TimerPosts posts) : Background p (p.ticked r) := by
  match r with
  | none => exact .haltWith _
  | some (sc, posts) =>
      obtain ⟨hm, hlife, hposts⟩ := h sc posts rfl
      exact ⟨rfl, rfl, rfl, rfl, rfl, hm, hlife,
        fun t => ⟨_, hposts.postsTo t, rfl⟩⟩

theorem findAddr_addr {sc : SessionCollection} {addr : Nat} {e : Sn}
    (h : sc.findAddr addr = some e) : e.addr = addr := by
  simpa using List.find?_some h

theorem Background.cleanedUp : Background p (p.cleanedUp p.sh.sc.cleanUp) := by
  have hsc : ∀ sc', p.sh.sc.cleanUp = .ok sc' →
      sc'.m = p.sh.sc.m ∧ LifeBack p.sh.sc sc' := by
    intro sc' h
    unfold SessionCollection.cleanUp at h
    split at h
    · cases h
      exact ⟨rfl, .kept (.refl _) rfl⟩
    · rename_i addr rest hgc
      split at h
      · contradiction
      · rename_i e hfind
        cases h
        have haddr := findAddr_addr hfind
        subst haddr
        exact ⟨rfl, .erased e hgc hfind rfl⟩
  cases h : p.sh.sc.cleanUp with
  | error reason => exact .haltWith _
  | ok sc' =>
      obtain ⟨hm, hlife⟩ := hsc sc' h
      exact ⟨rfl, rfl, rfl, rfl, rfl, hm, hlife,
        fun t => ⟨[], by simp, by simp [Proc.cleanedUp]⟩⟩

theorem step_eq_some {a : Act} :
    p.step a = some p' ↔ p.enabled a = true ∧ p.next a = p' := by
  unfold step
  split <;> simp_all

theorem step_cases {a : Act} (h : p.step a = some p') :
    p.sh.halt = none ∧
      ((∃ s act, a = .session s act ∧ p.sessionEnabled s act = true ∧
          p' = p.commit s (p.sessionEffect s act)) ∨
        Background p p') := by
  obtain ⟨hen, rfl⟩ := step_eq_some.mp h
  unfold enabled at hen
  rw [Bool.and_eq_true, Option.isNone_iff_eq_none] at hen
  refine ⟨hen.1, ?_⟩
  cases a with
  | session s act => exact .inl ⟨s, act, rfl, hen.2, rfl⟩
  | pnTick order =>
      have hperm : order.Perm p.sh.sc.ss := by
        simp only [Bool.and_eq_true, decide_eq_true_eq] at hen
        exact hen.2.2.1
      refine .inr (.ticked fun sc posts hr => ?_)
      refine ⟨?_, ?_, timerPosts_pnAlgorithm hr⟩
      all_goals
        unfold SessionCollection.pnAlgorithm at hr
        split at hr
      · cases hr
        rfl
      · contradiction
      · cases hr
        exact .kept hperm rfl
      · contradiction
  | optTick rnd =>
      refine .inr (.ticked fun sc posts hr => ?_)
      refine ⟨?_, ?_, timerPosts_optAlgorithm hr⟩
      all_goals
        unfold SessionCollection.optAlgorithm at hr
        repeat' split at hr
      all_goals first
        | contradiction
        | cases hr; rfl
        | cases hr; exact .kept (.refl _) rfl
  | cleanUp => exact .inr .cleanedUp
  | exit => exact .inr (.haltWith _)

theorem session_step {a : SessionAct} (h : p.step (.session s a) = some p') :
    p.sessionEnabled s a = true ∧ p' = p.commit s (p.sessionEffect s a) := by
  obtain ⟨hen, rfl⟩ := step_eq_some.mp h
  rw [enabled, Bool.and_eq_true] at hen
  exact ⟨hen.2, rfl⟩

theorem background_step {a : Act} (h : p.step a = some p')
    (ha : a.isSession = false) : Background p p' := by
  obtain ⟨-, ⟨s, act, rfl, -⟩ | hb⟩ := step_cases h
  · cases ha
  · exact hb

/-- A step as one session sees it: events arrive, or the step is its own. -/
theorem sess_step {a : Act} (h : p.step a = some p') (t : Sid) :
    (∃ es, p'.sess t = (p.sess t).enqAll es) ∨
      ∃ act, a = .session t act ∧ p.sessionEnabled t act = true ∧
        p'.sess t = (p.sessionEffect t act).after.enqAll
          (postsTo t (p.sessionEffect t act).posts) := by
  obtain ⟨-, ⟨s, act, rfl, hen, rfl⟩ | hb⟩ := step_cases h
  · by_cases hts : t = s
    · subst t
      exact .inr ⟨act, rfl, hen, commit_self⟩
    · exact .inl ⟨_, commit_of_ne hts⟩
  · obtain ⟨es, -, hes⟩ := hb.sess t
    exact .inl ⟨es, hes⟩

/-- The rule for facts about single sessions that appended events leave true. -/
theorem forall_sess {I : Session → Prop} {a : Act} (h : ∀ s, I (p.sess s))
    (enq : ∀ x es, I x → I (x.enqAll es))
    (own : ∀ s act, p.sessionEnabled s act = true → I (p.sess s) →
      I (p.sessionEffect s act).after)
    (hstep : p.step a = some p') : ∀ s, I (p'.sess s) := by
  intro t
  rcases sess_step hstep t with ⟨es, heq⟩ | ⟨act, -, hen, heq⟩
  · rw [heq]
    exact enq _ es (h t)
  · rw [heq]
    exact enq _ _ (own t act hen (h t))

end Proc

end CntPeer
