import CntPeer.Process.Frame

/-!
# Piece statuses of one process

The statuses of `self_own` only move forward, and its counter is exact, whatever
the peers send.
-/

namespace CntPeer

open CntPeer.Foundation

/-- A status that no longer makes the piece eligible. -/
def Taken (sv : List PieceStatus) (i : Nat) : Prop :=
  sv[i]? = some .requested ∨ sv[i]? = some .owned

structure Advances (a b : List PieceStatus) : Prop where
  length : b.length = a.length
  owned : ∀ i : Nat, a[i]? = some .owned → b[i]? = some .owned
  taken : ∀ i : Nat, Taken a i → Taken b i
  absent : ∀ i : Nat, b[i]? = some .absent → a[i]? = some .absent

theorem Advances.refl (a : List PieceStatus) : Advances a a :=
  ⟨rfl, fun _ h => h, fun _ h => h, fun _ h => h⟩

theorem Advances.set_requested {sv : List PieceStatus} {i : Nat}
    (h : sv[i]? = some .absent) : Advances sv (sv.set i .requested) := by
  have hi := (List.getElem?_eq_some_iff.mp h).1
  refine ⟨by simp, ?_, ?_, ?_⟩ <;> intro j hj <;> by_cases hij : i = j
  · subst j
    rw [h] at hj
    cases hj
  · simpa [List.getElem?_set, hij] using hj
  · subst j
    left
    simp [hi]
  · simpa [Taken, List.getElem?_set, hij] using hj
  · subst j
    exact h
  · simpa [List.getElem?_set, hij] using hj

theorem Advances.set_owned {sv : List PieceStatus} {i : Nat}
    (h : Taken sv i) : Advances sv (sv.set i .owned) := by
  have hi : i < sv.length := by
    rcases h with h | h <;> exact (List.getElem?_eq_some_iff.mp h).1
  refine ⟨by simp, ?_, ?_, ?_⟩ <;> intro j hj <;> by_cases hij : i = j
  · subst j
    simp [hi]
  · simpa [List.getElem?_set, hij] using hj
  · subst j
    right
    simp [hi]
  · simpa [Taken, List.getElem?_set, hij] using hj
  · subst j
    simp [hi] at hj
  · simpa [List.getElem?_set, hij] using hj

inductive OwnStep (own : SyncPieceBitfield Sid) (s : Sid) (pc : Pc)
    (own' : SyncPieceBitfield Sid) (pc' : Pc) : Prop
  | same (stays : ∀ i, pc = .markOwned i → pc' = .markOwned i)
      (h : own' = own)
  | requested (i : Nat) (stands : pc = .setRequested i)
      (free : own.setting = none) (h : own' = own.setRequested i)
  | counted (i : Nat) (stands : pc = .countOwned i) (goes : pc' = .markOwned i)
      (free : own.setting = none) (inRange : i < own.sv.length)
      (h : own' = own.countOwned s i)
  | marked (i : Nat) (stands : pc = .markOwned i) (h : own' = own.markOwned i)

def OwnLocal (sh : Shared) (s : Sid) (x : Session) : Prop :=
  match x.pc with
  | .setRequested i => sh.mReq = some s ∧ sh.own.sv[i]? = some .absent
  | .sendRequest i | .savePiece i _ | .saveCache i _ | .readCount i
  | .logPiece i _ | .countOwned i => Taken sh.own.sv i
  | .markOwned i => sh.own.setting = some (s, i) ∧ Taken sh.own.sv i
  | _ => True

theorem OwnStep.advances {sh : Shared} {s : Sid} {x : Session}
    {own' : SyncPieceBitfield Sid} {pc' : Pc}
    (h : OwnStep sh.own s x.pc own' pc')
    (hl : OwnLocal sh s x) : Advances sh.own.sv own'.sv := by
  cases h with
  | same stays h =>
      subst own'
      exact .refl _
  | requested i hpc free h =>
      subst own'
      simp only [OwnLocal, hpc] at hl
      exact .set_requested hl.2
  | counted i hpc goes free hi h =>
      subst own'
      exact .refl _
  | marked i hpc h =>
      subst own'
      simp only [OwnLocal, hpc] at hl
      exact .set_owned hl.2

@[simp] theorem ownLocal_enqAll {sh : Shared} {s : Sid} {x : Session}
    {es : List Event} : OwnLocal sh s (x.enqAll es) ↔ OwnLocal sh s x := by
  simp [OwnLocal]

theorem OwnLocal.congr {sh sh' : Shared} {s : Sid} {x : Session}
    (h : OwnLocal sh s x) (hown : sh'.own = sh.own) (hm : sh'.mReq = sh.mReq) :
    OwnLocal sh' s x := by
  unfold OwnLocal at h ⊢
  rw [hown, hm]
  exact h

namespace Proc

variable {p p' : Proc} {s : Sid}

theorem protocol_own {c : Choice} (hrun : runnable p s = true) :
    OwnStep p.sh.own s (p.sess s).pc (protocol p s c).sh.own
      (protocol p s c).after.pc := by
  cases hpc : (p.sess s).pc with
  | setRequested i =>
      simp only [runnable, hpc, Option.isNone_iff_eq_none] at hrun
      simp only [protocol, hpc]
      split
      · exact .requested i rfl hrun rfl
      · exact .same (by simp) rfl
  | countOwned i =>
      simp only [runnable, hpc, Option.isNone_iff_eq_none] at hrun
      simp only [protocol, hpc]
      split
      · exact .counted i rfl rfl hrun ‹_› rfl
      · exact .same (by simp) rfl
  | markOwned i =>
      simp only [protocol, hpc]
      exact .marked i rfl rfl
  | handle e =>
      obtain ⟨halt, hsh⟩ := (handles p.sh (p.sess s) e).sh
      simp only [protocol, hpc]
      exact .same (by simp) (by rw [hsh])
  | bcastNext i rest =>
      obtain ⟨m, pc, hturn, hstep⟩ := protocol_bcastNext (c := c) hpc
      rw [hstep]
      cases hturn
      all_goals exact .same (by simp) rfl
  | _ =>
      simp only [protocol, hpc, withDifference, withCollection, drainStep,
        awaitStep]
      repeat' split
      all_goals exact .same (by simp) rfl

theorem sessionEffect_own {a : SessionAct}
    (hen : p.sessionEnabled s a = true) :
    OwnStep p.sh.own s (p.sess s).pc (p.sessionEffect s a).sh.own
      (p.sessionEffect s a).after.pc := by
  cases a with
  | thread c => exact protocol_own hen
  | create addr expectedPeerId =>
      refine .same (fun i hpc => ?_) rfl
      simp [sessionEnabled, hpc] at hen
  | recvHandshake peerId =>
      simp only [sessionEffect]
      split
      · exact .same (fun _ => id) rfl
      · refine .same (fun i hpc => ?_) rfl
        simp [sessionEnabled, hpc] at hen
  | recvBitfield m =>
      simp only [sessionEffect]
      split
      · refine .same (fun i hpc => ?_) rfl
        simp [sessionEnabled, hpc] at hen
      · exact .same (fun _ => id) rfl
  | scan m =>
      simp only [sessionEffect]
      split
      all_goals exact .same (fun _ => id) rfl
  | readFails h => exact .same (fun _ => id) rfl
  | received n => exact .same (fun _ => id) rfl

/-- The statuses and the counter of `self_own`, for `n` pieces. -/
structure Owning (n : Nat) (p : Proc) : Prop where
  length : p.sh.own.sv.length = n
  counted : p.sh.own.Counted
  mutex : ∀ s i, p.sh.own.setting = some (s, i) →
    (p.sess s).pc = .markOwned i
  locals : ∀ s, OwnLocal p.sh s (p.sess s)

theorem protocol_mReq (p : Proc) (s : Sid) (c : Choice) :
    (protocol p s c).sh.mReq = p.sh.mReq ∨
      (p.sess s).pc = .requestNext ∨ ∃ i, (p.sess s).pc = .setRequested i := by
  cases hpc : (p.sess s).pc with
  | requestNext => simp
  | setRequested i => simp
  | handle e =>
      left
      obtain ⟨halt, hsh⟩ := (handles p.sh (p.sess s) e).sh
      simp only [protocol, hpc]
      rw [hsh]
  | bcastNext i rest =>
      left
      obtain ⟨m, pc, -, hstep⟩ := protocol_bcastNext (c := c) hpc
      rw [hstep]
  | _ =>
      left
      simp only [protocol, hpc, withDifference, withCollection, drainStep,
        awaitStep]
      repeat' split
      all_goals rfl

theorem ownLocal_handle {sh : Shared} {s : Sid} {x : Session} {e : Event}
    (hpc : x.pc = .handle e) :
    OwnLocal (handle sh x e).sh s (handle sh x e).after := by
  cases e
  all_goals
    simp only [handle]
    repeat' split
  all_goals simp_all [OwnLocal, Effect.after, panicEffect, Session.goto,
    Session.took, Taken, SyncPieceBitfield.isRequested]

theorem ownLocal_protocol {c : Choice} (h : OwnLocal p.sh s (p.sess s)) :
    OwnLocal (protocol p s c).sh s (protocol p s c).after := by
  cases hpc : (p.sess s).pc with
  | handle e =>
      simp only [protocol, hpc]
      exact ownLocal_handle hpc
  | bcastNext i rest =>
      obtain ⟨m, pc, hturn, hstep⟩ := protocol_bcastNext (c := c) hpc
      rw [hstep]
      cases hturn
      all_goals simp_all [OwnLocal, Effect.after, Session.goto]
  | requestNext =>
      simp only [protocol, hpc, withDifference]
      repeat' split
      · simp_all [OwnLocal, Effect.after, panicEffect]
      · simp_all [OwnLocal, Effect.after, Session.goto]
      · rename_i is hdiff _ i hi
        have hmem : i ∈ is := List.mem_of_getElem? hi
        simp [OwnLocal, Effect.after, Session.goto,
          ((mem_of_difference hdiff i).mp hmem).2]
  | setRequested i =>
      simp only [protocol, hpc]
      split
      · simp_all [OwnLocal, Effect.after, Session.goto, Taken,
          SyncPieceBitfield.setRequested]
      · simp_all [OwnLocal]
  | countOwned i =>
      simp only [protocol, hpc]
      split
      · simp_all [OwnLocal, Effect.after, Session.goto,
          SyncPieceBitfield.countOwned]
      · simp_all [OwnLocal, Effect.after, panicEffect]
  | _ =>
      simp only [protocol, hpc, withDifference, withCollection, drainStep,
        awaitStep]
      repeat' split
      all_goals simp_all [OwnLocal, Effect.after, panicEffect, Session.goto,
        discard]

theorem ownLocal_sessionEffect {a : SessionAct}
    (h : OwnLocal p.sh s (p.sess s)) :
    OwnLocal (p.sessionEffect s a).sh s (p.sessionEffect s a).after := by
  cases a with
  | thread c => exact ownLocal_protocol h
  | _ =>
      simp only [sessionEffect]
      repeat' split
      all_goals simp_all [OwnLocal, Effect.after, panicEffect, Session.goto,
        Session.took]

theorem sessionEffect_mReq {a : SessionAct}
    (hen : p.sessionEnabled s a = true) :
    (p.sessionEffect s a).sh.mReq = p.sh.mReq ∨ p.sh.mReq = none ∨
      ∃ i, (p.sess s).pc = .setRequested i := by
  cases a with
  | thread c =>
      rcases protocol_mReq p s c with h | h | h
      · exact .inl h
      · simp [sessionEnabled, runnable, h] at hen
        exact .inr (.inl hen.2)
      · exact .inr (.inr h)
  | _ =>
      left
      simp only [sessionEffect]
      repeat' split
      all_goals rfl

/-- What a thread knows about its piece survives the steps of the others. -/
theorem Owning.stable {n : Nat} {a : SessionAct} {t : Sid}
    (h : Owning n p) (hen : p.sessionEnabled s a = true) (hts : t ≠ s) :
    OwnLocal (p.sessionEffect s a).sh t (p.sess t) := by
  have ht := h.locals t
  have hs := h.locals s
  have hown := sessionEffect_own hen
  have hadv := hown.advances hs
  cases hpc : (p.sess t).pc with
  | setRequested i =>
      simp only [OwnLocal, hpc] at ht ⊢
      have hm : ∀ j, (p.sess s).pc ≠ .setRequested j := by
        intro j hj
        simp only [OwnLocal, hj] at hs
        exact hts (Option.some.inj (ht.1.symm.trans hs.1))
      refine ⟨?_, ?_⟩
      · rcases sessionEffect_mReq hen with hreq | hreq | ⟨j, hj⟩
        · rw [hreq]
          exact ht.1
        · rw [ht.1] at hreq
          contradiction
        · exact absurd hj (hm j)
      · cases hown with
        | same stays heq =>
            rw [heq]
            exact ht.2
        | requested j hj => exact absurd hj (hm j)
        | counted j hj goes free lt heq =>
            rw [heq]
            exact ht.2
        | marked j hj heq =>
            simp only [OwnLocal, hj] at hs
            have hij : j ≠ i := by
              rintro rfl
              rcases hs.2 with h' | h' <;> rw [ht.2] at h' <;> cases h'
            rw [heq]
            simpa [SyncPieceBitfield.markOwned, List.getElem?_set, hij]
              using ht.2
  | markOwned i =>
      simp only [OwnLocal, hpc] at ht ⊢
      refine ⟨?_, hadv.taken i ht.2⟩
      cases hown with
      | same stays heq =>
          rw [heq]
          exact ht.1
      | requested j hj free heq =>
          rw [ht.1] at free
          contradiction
      | counted j hj goes free =>
          rw [ht.1] at free
          contradiction
      | marked j hj heq =>
          simp only [OwnLocal, hj] at hs
          have := Option.some.inj (ht.1.symm.trans hs.1)
          exact absurd (Prod.mk.inj this).1 hts
  | sendRequest i | savePiece i d | saveCache i d | readCount i | logPiece i k
  | countOwned i =>
      simp only [OwnLocal, hpc] at ht ⊢
      exact hadv.taken i ht
  | _ => simp only [OwnLocal, hpc]

theorem Owning.session {n : Nat} {a : SessionAct} (h : Owning n p)
    (hen : p.sessionEnabled s a = true) :
    Owning n (p.commit s (p.sessionEffect s a)) := by
  have hs := h.locals s
  have hown := sessionEffect_own hen
  refine ⟨?_, ?_, ?_, ?_⟩
  · rw [commit_sh, (hown.advances hs).length, h.length]
  · rw [commit_sh]
    cases hown with
    | same stays heq =>
        rw [heq]
        exact h.counted
    | requested i hpc free heq =>
        simp only [OwnLocal, hpc] at hs
        rw [heq]
        exact h.counted.setRequested free hs.2
    | counted i hpc goes free hi heq =>
        rw [heq]
        exact h.counted.countOwned free s hi
    | marked i hpc heq =>
        simp only [OwnLocal, hpc] at hs
        rw [heq]
        exact h.counted.markOwned hs.1
  · intro t i hset
    rw [commit_sh] at hset
    -- only the thread that locks can be found at `markOwned`
    cases hown with
    | same stays heq =>
        rw [heq] at hset
        have hpc := h.mutex t i hset
        by_cases hts : t = s
        · subst t
          rw [commit_pc_self]
          exact stays i hpc
        · rw [commit_pc_of_ne hts, hpc]
    | requested j hpc free heq =>
        rw [heq] at hset
        rw [SyncPieceBitfield.setRequested, free] at hset
        contradiction
    | counted j hpc goes free hi heq =>
        rw [heq] at hset
        obtain ⟨rfl, rfl⟩ := Prod.mk.inj (Option.some.inj hset)
        rw [commit_pc_self]
        exact goes
    | marked j hpc heq =>
        rw [heq] at hset
        contradiction
  · intro t
    by_cases hts : t = s
    · subst t
      rw [commit_self, ownLocal_enqAll]
      exact ownLocal_sessionEffect hs
    · rw [commit_of_ne hts, ownLocal_enqAll]
      exact h.stable hen hts

theorem Owning.background {n : Nat} (h : Owning n p) (hb : Background p p') :
    Owning n p' := by
  have hsess : ∀ t, ∃ es, p'.sess t = (p.sess t).enqAll es := fun t =>
    (hb.sess t).imp fun _ => And.right
  refine ⟨?_, ?_, ?_, ?_⟩
  · rw [hb.own, h.length]
  · rw [hb.own]
    exact h.counted
  · intro t i hset
    obtain ⟨es, hes⟩ := hsess t
    rw [hb.own] at hset
    rw [hes]
    exact h.mutex t i hset
  · intro t
    obtain ⟨es, hes⟩ := hsess t
    rw [hes, ownLocal_enqAll]
    exact (h.locals t).congr hb.own hb.mReq

theorem owning_init (cfg : Config) : Owning cfg.nPieces (init cfg) where
  length := by simp [init, SyncPieceBitfield.init]
  counted := SyncPieceBitfield.counted_init _ _
  mutex := nofun
  locals := fun _ => trivial

theorem Owning.step {n : Nat} {a : Act} (h : Owning n p)
    (hstep : p.step a = some p') : Owning n p' := by
  obtain ⟨-, ⟨s, act, -, hen, rfl⟩ | hb⟩ := step_cases hstep
  · exact h.session hen
  · exact h.background hb

theorem owning_reachable {cfg : Config} (h : Reachable cfg p) :
    Owning cfg.nPieces p :=
  h.invariant (owning_init cfg) fun _ _ _ _ ih _ hstep => ih.step hstep

theorem Owning.advances {n : Nat} {a : Act} (h : Owning n p)
    (hstep : p.step a = some p') : Advances p.sh.own.sv p'.sh.own.sv := by
  obtain ⟨-, ⟨s, act, -, hen, rfl⟩ | hb⟩ := step_cases hstep
  · exact (sessionEffect_own hen).advances (h.locals s)
  · rw [hb.own]
    exact .refl _

theorem seed_owns {cfg : Config} (h : Reachable cfg p)
    (hfile : cfg.hasFile = true) :
    ∀ i, i < cfg.nPieces → p.sh.own.sv[i]? = some .owned :=
  h.invariant
    (I := fun p => ∀ i, i < cfg.nPieces → p.sh.own.sv[i]? = some .owned)
    (fun i hi => by simp [init, SyncPieceBitfield.init, hfile, hi])
    fun _ _ _ hr ih _ hstep i hi =>
      ((owning_reachable hr).advances hstep).owned i (ih i hi)

end Proc

end CntPeer
