import CntPeer.Process.Conversation
import CntPeer.Process.Integrity

/-!
# A process at rest

When no thread of a process can take a step, no mutex is held across steps, and
each thread stands at one of the places where it waits for its peer or has
ended.
-/

namespace CntPeer

open CntPeer.Foundation

/-! ### Mutexes that are held across steps -/

/-- What a step of thread `s` does to the holder of a mutex; `inside` and
`inside'` say that the thread is in the section before and after it. -/
inductive HolderStep (holder holder' : Option Sid) (s : Sid)
    (inside inside' : Bool) : Prop
  | kept (same : holder' = holder) (stays : inside = true → inside' = true)
  | taken (by_ : holder' = some s) (enters : inside' = true)
  | released (free : holder' = none)

theorem HolderStep.guards {holder holder' : Option Sid} {s : Sid}
    (inside inside' : Sid → Bool)
    (h : HolderStep holder holder' s (inside s) (inside' s))
    (hother : ∀ t, t ≠ s → inside' t = inside t)
    (hold : ∀ t, holder = some t → inside t = true) :
    ∀ t, holder' = some t → inside' t = true := by
  intro t ht
  cases h with
  | kept same stays =>
      have hin := hold t (same ▸ ht)
      rcases eq_or_ne t s with rfl | hts
      · exact stays hin
      · rw [hother t hts, hin]
  | taken by_ enters =>
      cases by_.symm.trans ht
      exact enters
  | released free =>
      cases free.symm.trans ht

def Pc.broadcasts : Pc → Bool
  | .bcastNext _ _ | .bcastEnq _ _ _ | .bcastWait _ _ _ => true
  | _ => false

def Pc.picks : Pc → Bool
  | .setRequested _ => true
  | _ => false

namespace Proc

variable {p p' : Proc} {s t : Sid} {cfg : Config}

/-- The mutexes that are held across steps are held by threads that stand in
their sections. -/
structure Locked (p : Proc) : Prop where
  m : ∀ t, p.sh.sc.m = some t → (p.sess t).pc.broadcasts = true
  mReq : ∀ t, p.sh.mReq = some t → (p.sess t).pc.picks = true

theorem m_collection {x : Session} {r : Except Panic (SessionCollection × Posts)}
    {pc : Pc} {out : List Msg}
    (h : ∀ sc' posts, r = .ok (sc', posts) →
      ∃ pnSet opt, sc' = { p.sh.sc with pnSet := pnSet, opt := opt }) :
    (withCollection p.sh x r pc out).sh.sc.m = p.sh.sc.m := by
  unfold withCollection
  split
  · rfl
  · obtain ⟨pnSet, opt, rfl⟩ := h _ _ rfl
    rfl

theorem m_protocol {c : Choice} :
    HolderStep p.sh.sc.m (protocol p s c).sh.sc.m s
      (p.sess s).pc.broadcasts (protocol p s c).after.pc.broadcasts := by
  cases hpc : (p.sess s).pc with
  | handle e =>
      obtain ⟨halt, hsh⟩ := (handles p.sh (p.sess s) e).sh
      refine .kept ?_ fun h => by cases h
      simp only [protocol, hpc, hsh]
  | bcastLock i => exact .taken (by simp [protocol, hpc]) (by
      simp [protocol, hpc, Effect.after, Session.goto, Pc.broadcasts])
  | bcastNext i rest =>
      cases rest with
      | nil => exact .released (by simp [protocol, hpc])
      | cons t rest =>
          simp only [protocol, hpc]
          split
          all_goals exact .kept rfl fun _ => rfl
  | preempt =>
      refine .kept ?_ fun h => by cases h
      simp only [protocol, hpc]
      exact m_collection fun _ _ h => tryPreempt_slots h
  | relinquish | finalRelinquish =>
      refine .kept ?_ fun h => by cases h
      simp only [protocol, hpc]
      exact m_collection fun _ _ h => relinquish_slots h
  | bcastEnq i t rest | bcastWait i t rest =>
      refine .kept ?_ fun _ => ?_
      all_goals simp [protocol, hpc, Effect.after, Session.goto, Pc.broadcasts]
  | _ =>
      refine .kept ?_ fun h => by cases h
      simp only [protocol, hpc, withDifference, drainStep, awaitStep]
      repeat' split
      all_goals rfl

theorem mReq_protocol {c : Choice} :
    HolderStep p.sh.mReq (protocol p s c).sh.mReq s
      (p.sess s).pc.picks (protocol p s c).after.pc.picks := by
  cases hpc : (p.sess s).pc with
  | requestNext =>
      simp only [protocol, hpc, withDifference]
      repeat' split
      · exact .kept rfl fun h => by cases h
      · exact .kept rfl fun h => by cases h
      · exact .taken rfl rfl
  | setRequested i =>
      simp only [protocol, hpc]
      split
      · exact .released rfl
      · exact .kept rfl fun _ => by simp [Effect.after, panicEffect, hpc, Pc.picks]
  | _ =>
      refine .kept ?_ fun h => by cases h
      rcases protocol_mReq p s c with h | h | ⟨i, h⟩
      · exact h
      · cases hpc.symm.trans h
      · cases hpc.symm.trans h

theorem holders_sessionEffect {a : SessionAct} (hen : p.sessionEnabled s a = true)
    (ha : ∀ c, a ≠ .thread c) :
    (p.sessionEffect s a).sh.sc.m = p.sh.sc.m ∧
      (p.sessionEffect s a).sh.mReq = p.sh.mReq ∧
      ((p.sess s).pc.stage ≤ 5 ∨
        (p.sessionEffect s a).after.pc = (p.sess s).pc) := by
  cases a with
  | thread c => exact absurd rfl (ha c)
  | create addr epid =>
      simp only [sessionEnabled, Bool.and_eq_true, decide_eq_true_eq] at hen
      exact ⟨rfl, rfl, .inl (by simp [hen.1.2, Pc.stage])⟩
  | recvHandshake _ | recvBitfield _ =>
      simp only [sessionEnabled, decide_eq_true_eq] at hen
      simp only [sessionEffect]
      split
      all_goals exact ⟨rfl, rfl, .inl (by simp [hen, Pc.stage])⟩
  | scan m =>
      simp only [sessionEffect]
      split
      all_goals exact ⟨rfl, rfl, .inr rfl⟩
  | readFails _ | received _ => exact ⟨rfl, rfl, .inr rfl⟩

theorem stage_of_broadcasts {pc : Pc} (h : pc.broadcasts = true) :
    pc.stage = 8 := by
  cases pc <;> first | rfl | cases h

theorem stage_of_picks {pc : Pc} (h : pc.picks = true) : pc.stage = 8 := by
  cases pc <;> first | rfl | cases h

theorem holderStep_sessionEffect {a : SessionAct}
    (hen : p.sessionEnabled s a = true) :
    HolderStep p.sh.sc.m (p.sessionEffect s a).sh.sc.m s
        (p.sess s).pc.broadcasts (p.sessionEffect s a).after.pc.broadcasts ∧
      HolderStep p.sh.mReq (p.sessionEffect s a).sh.mReq s
        (p.sess s).pc.picks (p.sessionEffect s a).after.pc.picks := by
  by_cases ha : ∃ c, a = .thread c
  · obtain ⟨c, rfl⟩ := ha
    exact ⟨m_protocol, mReq_protocol⟩
  · obtain ⟨hm, hreq, hpc⟩ :=
      holders_sessionEffect hen fun c hc => ha ⟨c, hc⟩
    refine ⟨.kept hm fun hin => ?_, .kept hreq fun hin => ?_⟩
    · rcases hpc with hpc | hpc
      · rw [stage_of_broadcasts hin] at hpc
        omega
      · rw [hpc, hin]
    · rcases hpc with hpc | hpc
      · rw [stage_of_picks hin] at hpc
        omega
      · rw [hpc, hin]

theorem Locked.session {a : SessionAct} (h : Locked p)
    (hen : p.sessionEnabled s a = true) :
    Locked (p.commit s (p.sessionEffect s a)) := by
  obtain ⟨hm, hreq⟩ := holderStep_sessionEffect hen
  constructor
  · apply HolderStep.guards (s := s) (fun t => (p.sess t).pc.broadcasts)
      (fun t => ((p.commit s (p.sessionEffect s a)).sess t).pc.broadcasts)
      (by simpa only [commit_sh, commit_pc_self] using hm)
      (fun t hts => by rw [commit_pc_of_ne hts]) h.m
  · apply HolderStep.guards (s := s) (fun t => (p.sess t).pc.picks)
      (fun t => ((p.commit s (p.sessionEffect s a)).sess t).pc.picks)
      (by simpa only [commit_sh, commit_pc_self] using hreq)
      (fun t hts => by rw [commit_pc_of_ne hts]) h.mReq

theorem Locked.background (h : Locked p) (hb : Background p p') :
    Locked p' where
  m t ht := by
    rw [hb.pc]
    exact h.m t (hb.m ▸ ht)
  mReq t ht := by
    rw [hb.pc]
    exact h.mReq t (hb.mReq ▸ ht)

theorem locked_reachable (h : Reachable cfg p) : Locked p :=
  h.invariant ⟨nofun, nofun⟩ fun _ _ _ _ ih _ hstep => by
    obtain ⟨-, ⟨s, act, -, hen, rfl⟩ | hb⟩ := step_cases hstep
    · exact ih.session hen
    · exact ih.background hb

/-! ### Where the threads stand -/

def Still (p : Proc) : Prop := ∀ s, runnable p s = false

end Proc

def Idle (x : Session) : Prop :=
  match x.pc with
  | .absent | .recvHandshake | .recvBitfield | .ended => True
  | .loop => x.isDone = false ∧ x.eq = []
  | .awaitTearDown => x.eq = []
  | _ => False

namespace Proc

variable {p p' : Proc} {s t : Sid} {cfg : Config}

theorem broadcasts_runnable (h : (p.sess s).pc.broadcasts = true) :
    ∃ t, runnable p t = true ∧ (p.sess t).pc ≠ .loop := by
  cases hpc : (p.sess s).pc with
  | bcastNext i rest | bcastEnq i t rest =>
      exact ⟨s, by simp [runnable, hpc], by simp [hpc]⟩
  | bcastWait i t rest =>
      by_cases ht : (p.sess t).pc = .markReady
      · exact ⟨t, by simp [runnable, ht], by simp [ht]⟩
      · exact ⟨s, by simp [runnable, hpc, ht], by simp [hpc]⟩
  | _ => simp [hpc, Pc.broadcasts] at h

/-- What a thread has begun with `setOwned`, it or another thread can go on
with. -/
theorem settling_runnable (hr : Reachable cfg p)
    (h : settling (p.sess s).pc = true) :
    ∃ t, runnable p t = true ∧ (p.sess t).pc ≠ .loop := by
  cases hpc : (p.sess s).pc with
  | markOwned i => exact ⟨s, by simp [runnable, hpc], by simp [hpc]⟩
  | bcastLock i =>
      cases hm : p.sh.sc.m with
      | none => exact ⟨s, by simp [runnable, hpc, hm], by simp [hpc]⟩
      | some t => exact broadcasts_runnable ((locked_reachable hr).m t hm)
  | bcastNext i rest | bcastEnq i t rest | bcastWait i t rest =>
      exact broadcasts_runnable (s := s) (by simp [hpc, Pc.broadcasts])
  | _ => simp [hpc, settling] at h

theorem Still.not_broadcasting (h : Still p) (s : Sid) :
    (p.sess s).pc.broadcasts = false := by
  apply Bool.eq_false_iff.mpr
  intro hin
  obtain ⟨t, ht, -⟩ := broadcasts_runnable hin
  rw [h t] at ht
  cases ht

theorem Still.mutexes (h : Still p) (hr : Reachable cfg p) :
    p.sh.own.setting = none ∧ p.sh.mReq = none ∧ p.sh.sc.m = none := by
  have hsetting : p.sh.own.setting = none := by
    apply Option.eq_none_iff_forall_not_mem.mpr
    intro ⟨t, i⟩ hmem
    have hpc := (owning_reachable hr).mutex t i hmem
    have ht := h t
    simp [runnable, hpc] at ht
  refine ⟨hsetting, ?_, ?_⟩
  · apply Option.eq_none_iff_forall_not_mem.mpr
    intro t hmem
    have hpick := (locked_reachable hr).mReq t hmem
    have ht := h t
    cases hpc : (p.sess t).pc with
    | setRequested i => simp [runnable, hpc, hsetting] at ht
    | _ => simp [hpc, Pc.picks] at hpick
  · apply Option.eq_none_iff_forall_not_mem.mpr
    intro t hmem
    have hin := (locked_reachable hr).m t hmem
    rw [h.not_broadcasting t] at hin
    cases hin

theorem Still.idle (h : Still p) (hr : Reachable cfg p) (s : Sid) :
    Idle (p.sess s) := by
  obtain ⟨hsetting, hreq, hm⟩ := h.mutexes hr
  have hs := h s
  have hbcast := h.not_broadcasting s
  cases hpc : (p.sess s).pc with
  | absent | recvHandshake | recvBitfield | ended => simp [Idle, hpc]
  | loop => simpa [Idle, runnable, hpc] using hs
  | awaitTearDown => simpa [Idle, runnable, hpc] using hs
  | handle e => cases e <;> simp [runnable, hpc, hsetting] at hs
  | bcastWait i t rest => simp [hpc, Pc.broadcasts] at hbcast
  | _ => simp [runnable, hpc, hsetting, hreq, hm] at hs

end Proc

/-! ### What has been taken up -/

def Pc.heard : Pc → Bool
  | .sendTearDown true | .finalRelinquish | .notify | .ended => true
  | _ => false

/-- `TearDown` is taken up by the teardown loops only, and ends them. -/
def Heard (x : Session) : Prop :=
  .actual .tearDownMsg ∈ x.handled ↔ x.pc.heard = true

def Accepts (x : Session) : Prop :=
  ∀ i : Nat, x.pc.accepting = some i →
    ∃ d, .actual (.pieceMsg i d) ∈ x.handled

theorem heard_handle {sh : Shared} {x : Session} {e : Event}
    (hpc : x.pc = .handle e) (h : Heard x) : Heard (handle sh x e).after := by
  have hold : .actual .tearDownMsg ∉ x.handled := fun hmem => by
    have hx := h.mp hmem
    simp [hpc, Pc.heard] at hx
  unfold Heard
  cases e
  all_goals
    simp only [handle]
    repeat' split
    all_goals simp [Effect.after, panicEffect, Session.goto, Session.took, hold,
      hpc, Pc.heard]

theorem accepts_handle {sh : Shared} {x : Session} {e : Event}
    (hpc : x.pc = .handle e) : Accepts (handle sh x e).after := by
  cases e with
  | msgPiece j d =>
      simp only [handle]
      split
      · rename_i hrange
        obtain ⟨k, rfl, -⟩ := checkRange_iff.mp hrange
        split
        · intro i hi
          simp only [Effect.after, Session.goto, Session.took, Pc.accepting,
            Int.toNat_natCast, Option.some.injEq] at hi ⊢
          subst hi
          exact ⟨d, by simp⟩
        · simp [Accepts, Effect.after, panicEffect, hpc, Pc.accepting]
      · simp [Accepts, Effect.after, panicEffect, hpc, Pc.accepting]
  | _ =>
      simp only [handle]
      repeat' split
      all_goals simp [Accepts, Effect.after, panicEffect, Session.goto,
        Session.took, hpc, Pc.accepting]

namespace Proc

variable {p p' : Proc} {s t : Sid} {cfg : Config}

theorem heard_protocol {c : Choice} (h : Heard (p.sess s)) :
    Heard (protocol p s c).after := by
  unfold Heard at h
  cases hpc : (p.sess s).pc with
  | handle e =>
      simp only [protocol, hpc]
      exact heard_handle hpc h
  | drain | awaitTearDown =>
      simp only [hpc, Pc.heard, Bool.false_eq_true, iff_false] at h
      simp only [protocol, hpc, drainStep, awaitStep]
      split
      · simp [Heard, Effect.after, Session.goto, h, hpc, Pc.heard]
      · rename_i e rest heq
        cases e
        all_goals simp [Heard, Effect.after, Session.goto, discard, h, hpc,
          Event.msg?, Pc.heard]
  | bcastNext i rest =>
      obtain ⟨m, pc, hturn, hstep⟩ := protocol_bcastNext (c := c) hpc
      rw [hstep]
      rw [hpc] at h
      cases hturn
      all_goals exact h
  | sendTearDown received =>
      rw [hpc] at h
      simp only [protocol, hpc]
      cases received
      all_goals exact h
  | _ =>
      simp only [protocol, hpc, withDifference, withCollection]
      rw [hpc] at h
      repeat' split
      all_goals
        simp only [Heard, Effect.after, panicEffect, Session.goto, hpc]
        exact h

theorem accepts_protocol {c : Choice} (h : Accepts (p.sess s)) :
    Accepts (protocol p s c).after := by
  cases hpc : (p.sess s).pc with
  | handle e =>
      simp only [protocol, hpc]
      exact accepts_handle hpc
  | bcastNext i rest =>
      obtain ⟨m, pc, hturn, hstep⟩ := protocol_bcastNext (c := c) hpc
      rw [hstep]
      cases hturn
      all_goals simp [Accepts, Effect.after, Session.goto, Pc.accepting]
  | drain | awaitTearDown =>
      simp only [protocol, hpc, drainStep, awaitStep]
      split
      · simp [Accepts, Effect.after, Session.goto, hpc, Pc.accepting]
      · rename_i e rest heq
        cases e
        all_goals simp [Accepts, Effect.after, Session.goto, discard, hpc, Pc.accepting]
  | _ =>
      have hgoes := h
      simp only [Accepts, hpc, Pc.accepting] at hgoes
      simp only [protocol, hpc, withDifference, withCollection]
      repeat' split
      all_goals first
        | exact hgoes
        | exact h
        | simp [Accepts, Effect.after, Session.goto, Pc.accepting]

theorem tearDown_not_opening {l : List Msg} (h : ∀ m ∈ l, m.opens = true) :
    .actual .tearDownMsg ∉ l := fun hmem => by
  cases h _ hmem

theorem heard_sessionEffect {a : SessionAct}
    (hen : p.sessionEnabled s a = true) (h : Heard (p.sess s)) :
    Heard (p.sessionEffect s a).after := by
  cases actCases hen with
  | thread c => exact heard_protocol h
  | setup stands goes quiet keeps taken out posts own repo slots =>
      have hearly : ∀ pc : Pc, pc.stage ≤ 6 → pc.heard = false := by
        intro pc
        cases pc <;> simp [Pc.stage, Pc.heard]
      have hold : .actual .tearDownMsg ∉ (p.sess s).handled := fun hx => by
        have hpc := h.mp hx
        rw [hearly _ (stands.trans (by decide))] at hpc
        cases hpc
      unfold Heard
      rw [hearly _ goes]
      refine iff_of_false (fun hmem => ?_) Bool.false_ne_true
      rcases taken with taken | ⟨taken, hopens⟩
      · exact hold (taken ▸ hmem)
      · rw [taken] at hmem
        rcases List.mem_append.mp hmem with hmem | hmem
        · exact hold hmem
        · exact tearDown_not_opening hopens hmem
  | idle after out posts own repo sc =>
      obtain ⟨n, hafter⟩ := after
      rw [hafter]
      exact h

theorem heard_reachable (h : Reachable cfg p) : ∀ s, Heard (p.sess s) :=
  h.invariant (I := fun p => ∀ s, Heard (p.sess s))
    (fun _ => ⟨nofun, nofun⟩)
    fun _ _ _ _ ih _ hstep =>
      forall_sess ih (fun _ _ hx => hx)
        (fun _ _ hen hs => heard_sessionEffect hen hs) hstep

theorem accepts_sessionEffect {a : SessionAct}
    (hen : p.sessionEnabled s a = true) (h : Accepts (p.sess s)) :
    Accepts (p.sessionEffect s a).after := by
  cases actCases hen with
  | thread c => exact accepts_protocol h
  | setup stands goes quiet keeps taken out posts own repo slots =>
      intro i hi
      revert goes hi
      cases (p.sessionEffect s a).after.pc <;> simp [Pc.stage, Pc.accepting]
  | idle after out posts own repo sc =>
      obtain ⟨n, hafter⟩ := after
      rw [hafter]
      exact h

theorem accepts_reachable (h : Reachable cfg p) : ∀ s, Accepts (p.sess s) :=
  h.invariant (I := fun p => ∀ s, Accepts (p.sess s)) (fun _ _ => nofun)
    fun _ _ _ _ ih _ hstep =>
      forall_sess ih (fun _ _ hx => hx)
        (fun _ _ hen hs => accepts_sessionEffect hen hs) hstep

/-! ### Ended sessions -/

/-- A session that has ended and is not destroyed is queued for `cleanUp`. -/
def Queued (p : Proc) : Prop :=
  ∀ e ∈ p.sh.sc.ss, (p.sess e.s).pc = .ended → e.addr ∈ p.sh.sc.gcBq

theorem Queued.session {a : SessionAct} (h : Queued p) (hlife : Lifecycle p)
    (hen : p.sessionEnabled s a = true) :
    Queued (p.commit s (p.sessionEffect s a)) := by
  intro e he hend
  rw [commit_sh] at he ⊢
  cases lifeStep_sessionEffect hen with
  | created addr act absent fresh goes addr' ss gc =>
      rw [gc]
      rw [ss] at he
      rcases eq_or_ne e.s s with hes | hes
      · rw [hes, commit_pc_self, goes] at hend
        cases hend
      · rw [commit_pc_of_ne hes] at hend
        rcases List.mem_append.mp he with he | he
        · exact h e he hend
        · cases List.mem_singleton.mp he
          exact absurd rfl hes
  | kept absent ended addr ss gc =>
      rw [gc]
      rw [ss] at he
      apply h e he
      rcases eq_or_ne e.s s with hes | hes
      · rw [hes, commit_pc_self] at hend
        rw [hes]
        exact ended.mp hend
      · rwa [commit_pc_of_ne hes] at hend
  | notified stands goes addr ss gc =>
      rw [gc]
      rw [ss] at he
      rcases eq_or_ne e.s s with hes | hes
      · have haddr := (hlife.stored e he).1
        rw [hes] at haddr
        exact List.mem_append_right _ (List.mem_singleton.mpr haddr.symm)
      · rw [commit_pc_of_ne hes] at hend
        exact List.mem_append_left _ (h e he hend)

theorem Queued.background (h : Queued p) (hlife : Lifecycle p)
    (hb : Background p p') : Queued p' := by
  intro e he hend
  rw [hb.pc] at hend
  cases hb.life with
  | kept ss gc =>
      rw [gc]
      exact h e (ss.mem_iff.mp he) hend
  | erased f queued found ss =>
      rw [ss] at he
      have hmem := h e (List.mem_of_mem_erase he) hend
      rw [queued] at hmem
      rcases List.mem_cons.mp hmem with haddr | hmem
      · -- the session that is erased is the only one at its address
        have hf : f ∈ p.sh.sc.ss := List.mem_of_find?_eq_some found
        have hef := eq_of_addr hlife.addrs (List.mem_of_mem_erase he) hf haddr
        have hnodup : p.sh.sc.ss.Nodup := List.Nodup.of_map _ hlife.addrs
        rw [hef] at he
        exact absurd he hnodup.not_mem_erase
      · exact hmem

theorem queued_reachable (h : Reachable cfg p) : Queued p :=
  h.invariant (I := Queued) (fun _ => nofun) fun _ _ _ hr ih _ hstep => by
    obtain ⟨-, ⟨s, act, -, hen, rfl⟩ | hb⟩ := step_cases hstep
    · exact ih.session (lifecycle_reachable hr) hen
    · exact ih.background (lifecycle_reachable hr) hb

def Known (st : Option PieceStatus) : Prop :=
  st = none ∨ st = some .absent ∨ st = some .requested ∨ st = some .owned

theorem Known.forward {st st' : Option PieceStatus} (h : Known st)
    (hstep : Forward st st') : Known st' := by
  cases hstep with
  | same => exact h
  | requested => exact .inr (.inr (.inl rfl))
  | owned => exact .inr (.inr (.inr rfl))

theorem known_reachable (h : Reachable cfg p) (i : Nat) :
    Known p.sh.own.sv[i]? := by
  refine h.invariant (I := fun p => Known p.sh.own.sv[i]?) ?_
    fun _ _ _ hr ih _ hstep => ih.forward ((owning_reachable hr).forward hstep i)
  simp only [init, SyncPieceBitfield.init, List.getElem?_replicate]
  split
  · cases cfg.hasFile <;> simp [Known]
  · exact .inl rfl

theorem known_status (h : Reachable cfg p) {i : Nat}
    (hi : i < p.sh.own.sv.length) :
    p.sh.own.sv[i]? = some .absent ∨ p.sh.own.sv[i]? = some .requested ∨
      p.sh.own.sv[i]? = some .owned :=
  (known_reachable h i).resolve_left
    (by simp [List.getElem?_eq_getElem hi])

end Proc

end CntPeer
