import Mathlib.Data.List.Nodup
import CntPeer.Process.Frame

/-!
# The life of a session object

A session is in `ss` from its creation until `cleanUp` erases it, which happens
only after its thread has called `notifyCleanUp`.  Addresses in `ss` are
distinct; a freed address may be allocated again.
-/

namespace CntPeer

open CntPeer.Foundation

namespace Proc

variable {p p' : Proc} {s : Sid}

theorem tryPreempt_slots {sc sc' : SessionCollection} {v : Sid → Session}
    {addr : Nat} {posts : Posts}
    (h : sc.tryPreempt v addr = .ok (sc', posts)) :
    ∃ pnSet opt, sc' = { sc with pnSet := pnSet, opt := opt } := by
  unfold SessionCollection.tryPreempt at h
  repeat' split at h
  all_goals cases h
  all_goals exact ⟨_, _, rfl⟩

theorem relinquish_slots {sc sc' : SessionCollection} {v : Sid → Session}
    {addr : Nat} {posts : Posts}
    (h : sc.relinquish v addr = .ok (sc', posts)) :
    ∃ pnSet opt, sc' = { sc with pnSet := pnSet, opt := opt } := by
  unfold SessionCollection.relinquish at h
  repeat' split at h
  all_goals cases h
  all_goals exact ⟨_, _, rfl⟩

inductive LifeStep (p : Proc) (s : Sid) (a : SessionAct) (e : Effect) : Prop
  | created (addr : Nat) (act : ∃ epid, a = .create addr epid) (absent : (p.sess s).pc = .absent)
      (fresh : ∀ e ∈ p.sh.sc.ss, e.addr ≠ addr)
      (goes : e.after.pc = .handshake) (addr' : e.after.addr = addr)
      (ss : e.sh.sc.ss = p.sh.sc.ss ++ [⟨s, addr⟩])
      (gc : e.sh.sc.gcBq = p.sh.sc.gcBq)
  | kept (absent : e.after.pc = .absent ↔ (p.sess s).pc = .absent)
      (ended : e.after.pc = .ended ↔ (p.sess s).pc = .ended)
      (addr : e.after.addr = (p.sess s).addr)
      (ss : e.sh.sc.ss = p.sh.sc.ss) (gc : e.sh.sc.gcBq = p.sh.sc.gcBq)
  | notified (stands : (p.sess s).pc = .notify) (goes : e.after.pc = .ended)
      (addr : e.after.addr = (p.sess s).addr)
      (ss : e.sh.sc.ss = p.sh.sc.ss)
      (gc : e.sh.sc.gcBq = p.sh.sc.gcBq ++ [(p.sess s).addr])

theorem lifeStep_collection {r : Except Panic (SessionCollection × Posts)}
    {a : SessionAct} {pc : Pc} {out : List Msg}
    (h : ∀ sc' posts, r = .ok (sc', posts) →
      ∃ pnSet opt, sc' = { p.sh.sc with pnSet := pnSet, opt := opt })
    (habsent : (p.sess s).pc ≠ .absent) (hended : (p.sess s).pc ≠ .ended)
    (hpc : pc ≠ .absent) (hpc' : pc ≠ .ended) :
    LifeStep p s a (withCollection p.sh (p.sess s) r pc out) := by
  unfold withCollection
  split
  · exact .kept Iff.rfl Iff.rfl rfl rfl rfl
  · obtain ⟨pnSet, opt, rfl⟩ := h _ _ rfl
    exact .kept ⟨fun h => absurd h hpc, fun h => absurd h habsent⟩
      ⟨fun h => absurd h hpc', fun h => absurd h hended⟩ rfl rfl rfl

theorem lifeStep_protocol {c : Choice} (hrun : runnable p s = true) :
    LifeStep p s (.thread c) (protocol p s c) := by
  cases hpc : (p.sess s).pc with
  | absent | recvHandshake | recvBitfield | ended =>
      simp [runnable, hpc] at hrun
  | notify =>
      simp only [protocol, hpc]
      exact .notified hpc rfl rfl rfl rfl
  | preempt | relinquish | finalRelinquish =>
      simp only [protocol, hpc]
      exact lifeStep_collection
        (fun _ _ h => by
          first
            | exact tryPreempt_slots h
            | exact relinquish_slots h)
        (by simp [hpc]) (by simp [hpc]) (by simp) (by simp)
  | handle e =>
      simp only [protocol, hpc]
      cases e
      all_goals
        simp only [handle]
        repeat' split
      all_goals refine .kept ?_ ?_ rfl rfl rfl
      all_goals simp [Effect.after, panicEffect, Session.goto, hpc]
  | bcastNext i rest =>
      obtain ⟨m, pc, hturn, hstep⟩ := protocol_bcastNext (c := c) hpc
      rw [hstep]
      cases hturn
      all_goals refine .kept ?_ ?_ rfl rfl rfl
      all_goals simp [Effect.after, Session.goto, hpc]
  | sendTearDown received =>
      cases received
      all_goals
        simp only [protocol, hpc]
        refine .kept ?_ ?_ rfl rfl rfl
      all_goals simp [Effect.after, Session.goto, hpc]
  | _ =>
      simp only [protocol, hpc, withDifference, drainStep, awaitStep, discard]
      repeat' split
      all_goals refine .kept ?_ ?_ rfl rfl rfl
      all_goals simp [Effect.after, panicEffect, Session.goto, hpc]

theorem lifeStep_sessionEffect {a : SessionAct}
    (hen : p.sessionEnabled s a = true) :
    LifeStep p s a (p.sessionEffect s a) := by
  cases a with
  | thread c => exact lifeStep_protocol hen
  | create addr expectedPeerId =>
      simp only [sessionEnabled, Bool.and_eq_true, decide_eq_true_eq,
        List.all_eq_true] at hen
      exact .created addr ⟨expectedPeerId, rfl⟩ hen.1.2 hen.2 rfl rfl rfl rfl
  | recvHandshake peerId =>
      simp only [sessionEnabled, decide_eq_true_eq] at hen
      simp only [sessionEffect]
      split
      all_goals refine .kept ?_ ?_ rfl rfl rfl
      all_goals simp [Effect.after, panicEffect, Session.goto, hen]
  | recvBitfield m =>
      simp only [sessionEnabled, decide_eq_true_eq] at hen
      simp only [sessionEffect]
      split
      all_goals refine .kept ?_ ?_ rfl rfl rfl
      all_goals simp [Effect.after, panicEffect, hen]
  | scan m =>
      simp only [sessionEffect]
      split
      all_goals exact .kept Iff.rfl Iff.rfl rfl rfl rfl
  | readFails h => exact .kept Iff.rfl Iff.rfl rfl rfl rfl
  | received n => exact .kept Iff.rfl Iff.rfl rfl rfl rfl

structure Lifecycle (p : Proc) : Prop where
  addrs : (p.sh.sc.ss.map Sn.addr).Nodup
  stored : ∀ e ∈ p.sh.sc.ss,
    (p.sess e.s).addr = e.addr ∧ (p.sess e.s).pc ≠ .absent
  live : ∀ s, (p.sess s).pc ≠ .absent → (p.sess s).pc ≠ .ended →
    ⟨s, (p.sess s).addr⟩ ∈ p.sh.sc.ss
  queued : ∀ a ∈ p.sh.sc.gcBq, ∃ e ∈ p.sh.sc.ss,
    e.addr = a ∧ (p.sess e.s).pc = .ended
  gcNodup : p.sh.sc.gcBq.Nodup

theorem eq_of_addr {l : List Sn} (h : (l.map Sn.addr).Nodup) {e e' : Sn}
    (he : e ∈ l) (he' : e' ∈ l) (haddr : e.addr = e'.addr) : e = e' :=
  List.inj_on_of_nodup_map h he he' haddr

theorem Lifecycle.eq_of_sid (h : Lifecycle p) {e e' : Sn}
    (he : e ∈ p.sh.sc.ss) (he' : e' ∈ p.sh.sc.ss) (hs : e.s = e'.s) :
    e = e' := by
  refine eq_of_addr h.addrs he he' ?_
  rw [← (h.stored e he).1, ← (h.stored e' he').1, hs]

theorem Lifecycle.findAddr (h : Lifecycle p) {e : Sn} {addr : Nat}
    (he : e ∈ p.sh.sc.ss) (haddr : e.addr = addr) :
    p.sh.sc.findAddr addr = some e := by
  cases hfind : p.sh.sc.findAddr addr with
  | none =>
      have := List.find?_eq_none.mp hfind e he
      simp [haddr] at this
  | some e' =>
      have hmem := List.mem_of_find?_eq_some hfind
      rw [eq_of_addr h.addrs hmem he
        ((findAddr_addr hfind).trans haddr.symm)]

theorem Lifecycle.kept (h : Lifecycle p)
    (ss : p'.sh.sc.ss.Perm p.sh.sc.ss) (gc : p'.sh.sc.gcBq = p.sh.sc.gcBq)
    (stays : ∀ t, ((p'.sess t).pc = .absent ↔ (p.sess t).pc = .absent) ∧
      ((p'.sess t).pc = .ended ↔ (p.sess t).pc = .ended) ∧
      (p'.sess t).addr = (p.sess t).addr) : Lifecycle p' := by
  refine ⟨?_, ?_, ?_, ?_, ?_⟩
  · exact (ss.map Sn.addr).nodup_iff.mpr h.addrs
  · intro e he
    rw [ne_eq, (stays e.s).1, (stays e.s).2.2]
    exact h.stored e (ss.mem_iff.mp he)
  · intro t hpc hpc'
    rw [ne_eq, (stays t).1] at hpc
    rw [ne_eq, (stays t).2.1] at hpc'
    rw [(stays t).2.2, ss.mem_iff]
    exact h.live t hpc hpc'
  · intro a ha
    rw [gc] at ha
    obtain ⟨e, he, haddr, hpc⟩ := h.queued a ha
    exact ⟨e, ss.mem_iff.mpr he, haddr, (stays e.s).2.1.mpr hpc⟩
  · rw [gc]
    exact h.gcNodup

theorem Lifecycle.session {a : SessionAct} (h : Lifecycle p)
    (hen : p.sessionEnabled s a = true) :
    Lifecycle (p.commit s (p.sessionEffect s a)) := by
  generalize heff : p.sessionEffect s a = eff
  have hself : ∀ t, t = s → ((p.commit s eff).sess t).pc = eff.after.pc ∧
      ((p.commit s eff).sess t).addr = eff.after.addr := by
    rintro t rfl
    rw [commit_self]
    exact ⟨rfl, rfl⟩
  have hother : ∀ t, t ≠ s → ((p.commit s eff).sess t).pc = (p.sess t).pc ∧
      ((p.commit s eff).sess t).addr = (p.sess t).addr := by
    intro t ht
    rw [commit_of_ne ht]
    exact ⟨rfl, rfl⟩
  have hlife : LifeStep p s a eff := heff ▸ lifeStep_sessionEffect hen
  cases hlife with
  | created addr act absent fresh goes addr' ss gc =>
      have hne : ∀ e ∈ p.sh.sc.ss, e.s ≠ s := fun e he hs =>
        (h.stored e he).2 (hs ▸ absent)
      refine ⟨?_, ?_, ?_, ?_, ?_⟩
      · rw [commit_sh, ss, List.map_append, List.nodup_append]
        refine ⟨h.addrs, by simp, ?_⟩
        intro a ha b hb hab
        obtain ⟨e, he, rfl⟩ := List.mem_map.mp ha
        simp only [List.map_cons, List.map_nil, List.mem_singleton] at hb
        exact fresh e he (hab.trans hb)
      · intro e he
        rw [commit_sh, ss, List.mem_append, List.mem_singleton] at he
        rcases he with he | rfl
        · rw [(hother e.s (hne e he)).1, (hother e.s (hne e he)).2]
          exact h.stored e he
        · rw [(hself s rfl).1, (hself s rfl).2, goes]
          exact ⟨addr', by simp⟩
      · intro t hpc hpc'
        rw [commit_sh, ss, List.mem_append, List.mem_singleton]
        by_cases hts : t = s
        · rw [(hself t hts).2, addr', hts]
          exact .inr rfl
        · rw [(hother t hts).1] at hpc hpc'
          rw [(hother t hts).2]
          exact .inl (h.live t hpc hpc')
      · intro a ha
        rw [commit_sh, gc] at ha
        obtain ⟨e, he, rfl, hpc⟩ := h.queued a ha
        rw [commit_sh, ss]
        refine ⟨e, List.mem_append_left _ he, rfl, ?_⟩
        rw [(hother e.s (hne e he)).1, hpc]
      · rw [commit_sh, gc]
        exact h.gcNodup
  | kept absent ended addr ss gc =>
      refine h.kept (ss ▸ .refl _) gc fun t => ?_
      by_cases hts : t = s
      · rw [(hself t hts).1, (hself t hts).2, hts]
        exact ⟨absent, ended, addr⟩
      · rw [(hother t hts).1, (hother t hts).2]
        exact ⟨Iff.rfl, Iff.rfl, rfl⟩
  | notified stands goes addr ss gc =>
      have hmem := h.live s (by simp [stands]) (by simp [stands])
      refine ⟨?_, ?_, ?_, ?_, ?_⟩
      · rw [commit_sh, ss]
        exact h.addrs
      · intro e he
        rw [commit_sh, ss] at he
        by_cases hts : e.s = s
        · rw [(hself e.s hts).1, (hself e.s hts).2, goes, addr, ← hts]
          exact ⟨(h.stored e he).1, by simp⟩
        · rw [(hother e.s hts).1, (hother e.s hts).2]
          exact h.stored e he
      · intro t hpc hpc'
        by_cases hts : t = s
        · rw [(hself t hts).1, goes] at hpc'
          exact absurd rfl hpc'
        · rw [(hother t hts).1] at hpc hpc'
          rw [commit_sh, ss, (hother t hts).2]
          exact h.live t hpc hpc'
      · intro a ha
        rw [commit_sh, gc, List.mem_append, List.mem_singleton] at ha
        rw [commit_sh, ss]
        rcases ha with ha | rfl
        · obtain ⟨e, he, haddr, hpc⟩ := h.queued a ha
          refine ⟨e, he, haddr, ?_⟩
          by_cases hts : e.s = s
          · rw [(hself e.s hts).1, goes]
          · rw [(hother e.s hts).1, hpc]
        · exact ⟨_, hmem, rfl, by rw [(hself s rfl).1, goes]⟩
      · rw [commit_sh, gc, List.nodup_append]
        refine ⟨h.gcNodup, by simp, ?_⟩
        intro a ha b hb hab
        obtain ⟨e, he, haddr, hpc⟩ := h.queued a ha
        rw [List.mem_singleton] at hb
        have hes := eq_of_addr h.addrs he hmem (haddr.trans (hab.trans hb))
        rw [hes, stands] at hpc
        contradiction

theorem Lifecycle.background (h : Lifecycle p) (hb : Background p p') :
    Lifecycle p' := by
  have hsess : ∀ t, (p'.sess t).pc = (p.sess t).pc ∧
      (p'.sess t).addr = (p.sess t).addr := by
    intro t
    obtain ⟨es, -, hes⟩ := hb.sess t
    rw [hes]
    exact ⟨rfl, rfl⟩
  cases hb.life with
  | kept ss gc =>
      refine h.kept ss gc fun t => ?_
      rw [(hsess t).1, (hsess t).2]
      exact ⟨Iff.rfl, Iff.rfl, rfl⟩
  | erased e queued found ss =>
      have hnodup : p.sh.sc.ss.Nodup := List.Nodup.of_map _ h.addrs
      have hmem : ∀ e', e' ∈ p'.sh.sc.ss ↔ e' ≠ e ∧ e' ∈ p.sh.sc.ss := by
        intro e'
        rw [ss, hnodup.mem_erase_iff]
      have hgc := h.gcNodup
      rw [queued, List.nodup_cons] at hgc
      have hended : (p.sess e.s).pc = .ended := by
        obtain ⟨e', he', haddr, hpc⟩ :=
          h.queued e.addr (queued ▸ List.mem_cons_self)
        rw [h.findAddr he' haddr] at found
        rw [← Option.some.inj found, hpc]
      refine ⟨?_, ?_, ?_, ?_, ?_⟩
      · rw [ss]
        exact h.addrs.sublist (List.erase_sublist.map _)
      · intro e' he'
        rw [(hsess e'.s).1, (hsess e'.s).2]
        exact h.stored e' ((hmem e').mp he').2
      · intro t hpc hpc'
        rw [(hsess t).1] at hpc hpc'
        rw [(hsess t).2, hmem]
        refine ⟨?_, h.live t hpc hpc'⟩
        rintro rfl
        exact hpc' hended
      · intro a ha
        obtain ⟨e', he', haddr, hpc⟩ :=
          h.queued a (queued ▸ List.mem_cons_of_mem _ ha)
        refine ⟨e', (hmem e').mpr ⟨?_, he'⟩, haddr, by rw [(hsess e'.s).1, hpc]⟩
        rintro rfl
        exact hgc.1 (haddr ▸ ha)
      · exact hgc.2

theorem lifecycle_init (cfg : Config) : Lifecycle (init cfg) where
  addrs := List.nodup_nil
  stored := nofun
  live := fun _ h => absurd rfl h
  queued := nofun
  gcNodup := List.nodup_nil

theorem Lifecycle.step {a : Act} (h : Lifecycle p)
    (hstep : p.step a = some p') : Lifecycle p' := by
  obtain ⟨-, ⟨s, act, -, hen, rfl⟩ | hb⟩ := step_cases hstep
  · exact h.session hen
  · exact h.background hb

theorem lifecycle_reachable {cfg : Config} (h : Reachable cfg p) :
    Lifecycle p :=
  h.invariant (lifecycle_init cfg) fun _ _ _ _ ih _ hstep => ih.step hstep

end Proc

end CntPeer
