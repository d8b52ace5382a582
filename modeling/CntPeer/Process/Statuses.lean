import CntPeer.Process.Announce

/-!
# Requests and statuses against arbitrary peers

`m_req` serialises the choice of a piece and `setRequested`, so an index is
requested once only; the statuses move one step at a time, and the counter of
`self_own` agrees with them whenever its mutex is free.
-/

namespace CntPeer

open CntPeer.Foundation

inductive Forward : Option PieceStatus → Option PieceStatus → Prop
  | same (st : Option PieceStatus) : Forward st st
  | requested : Forward (some .absent) (some .requested)
  | owned : Forward (some .requested) (some .owned)

def Pc.aboutToRequest (pc : Pc) (j : Int) : Nat :=
  match pc with
  | .sendRequest i => if (i : Int) = j then 1 else 0
  | _ => 0

def requested (j : Int) (x : Session) : Nat :=
  x.sent.count (.actual (.requestMsg j)) + x.pc.aboutToRequest j

theorem OwnStep.forward {sh : Shared} {s : Sid} {x : Session}
    {own' : SyncPieceBitfield Sid} {pc' : Pc}
    (h : OwnStep sh.own s x.pc own' pc') (hl : OwnLocal sh s x) (i : Nat) :
    Forward sh.own.sv[i]? own'.sv[i]? := by
  cases h with
  | same stays h =>
      subst own'
      exact .same _
  | requested j hpc free h =>
      subst own'
      simp only [OwnLocal, hpc] at hl
      rw [SyncPieceBitfield.setRequested, List.getElem?_set]
      split
      · subst j
        have hi := (List.getElem?_eq_some_iff.mp hl.2).1
        rw [hl.2, if_pos hi]
        exact .requested
      · exact .same _
  | counted j hpc goes free hi h =>
      subst own'
      exact .same _
  | marked j hpc h =>
      subst own'
      simp only [OwnLocal, hpc] at hl
      rw [SyncPieceBitfield.markOwned, List.getElem?_set]
      split
      · subst j
        rcases hl.2 with hst | hst
        all_goals
          have hi := (List.getElem?_eq_some_iff.mp hst).1
          rw [hst, if_pos hi]
        · exact .owned
        · exact .same _
      · exact .same _

namespace Proc

variable {p p' : Proc} {s t : Sid} {j : Int}

theorem requested_handle {sh : Shared} {x : Session} {e : Event}
    (hpc : x.pc = .handle e) :
    requested j (handle sh x e).after = requested j x := by
  cases e
  all_goals
    simp only [handle]
    repeat' split
  all_goals simp [requested, Effect.after, panicEffect, Session.goto,
    Session.took, hpc, Pc.aboutToRequest]

theorem requested_protocol {c : Choice}
    (hl : OwnLocal p.sh s (p.sess s)) :
    requested j (protocol p s c).after = requested j (p.sess s) ∨
      ∃ i : Nat, (i : Int) = j ∧ (p.sess s).pc = .setRequested i ∧
        (protocol p s c).sh.own = p.sh.own.setRequested i ∧
        requested j (protocol p s c).after = requested j (p.sess s) + 1 := by
  cases hpc : (p.sess s).pc with
  | handle e =>
      simp only [protocol, hpc]
      exact .inl (requested_handle hpc)
  | setRequested i =>
      simp only [OwnLocal, hpc] at hl
      have hi := (List.getElem?_eq_some_iff.mp hl.2).1
      by_cases hij : (i : Int) = j
      · refine .inr ⟨i, hij, rfl, ?_, ?_⟩
        · simp [protocol, hpc, hi]
        · simp [protocol, hpc, hi, requested, Effect.after, Session.goto,
            Pc.aboutToRequest, hij]
      · left
        simp [protocol, hpc, hi, requested, Effect.after, Session.goto,
          Pc.aboutToRequest, hij]
  | sendRequest i =>
      left
      by_cases hij : (i : Int) = j
      all_goals simp [protocol, hpc, requested, Effect.after, Session.goto,
        Pc.aboutToRequest, hij]
  | markReady =>
      left
      cases hbf : (p.sess s).bfMsg
      all_goals simp [protocol, hpc, requested, Effect.after, Pc.aboutToRequest,
        hbf]
  | bcastNext i rest =>
      left
      obtain ⟨m, pc, hturn, hstep⟩ := protocol_bcastNext (c := c) hpc
      rw [hstep]
      cases hturn
      all_goals simp [requested, Effect.after, Session.goto, hpc,
        Pc.aboutToRequest]
  | _ =>
      left
      simp only [protocol, hpc, withDifference, withCollection, drainStep,
        awaitStep]
      repeat' split
      all_goals simp [requested, Effect.after, panicEffect, Session.goto,
        discard, Pc.aboutToRequest, *]

theorem requested_sessionEffect {a : SessionAct}
    (hen : p.sessionEnabled s a = true) (hl : OwnLocal p.sh s (p.sess s)) :
    requested j (p.sessionEffect s a).after = requested j (p.sess s) ∨
      ∃ i : Nat, (i : Int) = j ∧ (p.sess s).pc = .setRequested i ∧
        (p.sessionEffect s a).sh.own = p.sh.own.setRequested i ∧
        requested j (p.sessionEffect s a).after =
          requested j (p.sess s) + 1 := by
  have hquiet : ∀ {pc : Pc}, pc.stage ≤ 6 → pc.aboutToRequest j = 0 := by
    intro pc hpc
    cases pc with
    | sendRequest i => simp [Pc.stage] at hpc
    | _ => rfl
  have hact := actCases hen
  generalize p.sessionEffect s a = e at hact
  cases hact with
  | thread c => exact requested_protocol hl
  | setup stands goes quiet keeps =>
      left
      rw [requested, requested, keeps.sent, hquiet goes, hquiet (by omega)]
  | idle after =>
      obtain ⟨n, heq⟩ := after
      left
      rw [heq]
      rfl

/-- A request is made for a piece that is no longer `ABSENT`, and by one
session only. -/
structure RequestedOnce (p : Proc) (j : Int) : Prop where
  once : ∀ s, requested j (p.sess s) ≤ 1
  taken : ∀ s, 0 < requested j (p.sess s) →
    ∃ i : Nat, (i : Int) = j ∧ Taken p.sh.own.sv i
  alone : ∀ s t, 0 < requested j (p.sess s) → 0 < requested j (p.sess t) →
    s = t

theorem RequestedOnce.step {n : Nat} {a : Act} (h : RequestedOnce p j)
    (hown : Owning n p) (hstep : p.step a = some p') : RequestedOnce p' j := by
  have hadv := hown.advances hstep
  have htaken : ∀ s, 0 < requested j (p.sess s) →
      ∃ i : Nat, (i : Int) = j ∧ Taken p'.sh.own.sv i := by
    intro s hs
    obtain ⟨i, hi, ht⟩ := h.taken s hs
    exact ⟨i, hi, hadv.taken i ht⟩
  obtain ⟨-, ⟨s, act, -, hen, rfl⟩ | hb⟩ := step_cases hstep
  · have hother : ∀ t, t ≠ s →
        requested j ((p.commit s (p.sessionEffect s act)).sess t) =
          requested j (p.sess t) := by
      intro t ht
      rw [commit_of_ne ht]
      rfl
    have hself : requested j ((p.commit s (p.sessionEffect s act)).sess s) =
        requested j (p.sessionEffect s act).after := by
      rw [commit_self]
      rfl
    rcases requested_sessionEffect hen (hown.locals s) with
      hsame | ⟨i, hij, hpc, hset, hmore⟩
    · have hall : ∀ t,
          requested j ((p.commit s (p.sessionEffect s act)).sess t) =
            requested j (p.sess t) := by
        intro t
        by_cases hts : t = s
        · subst t
          rw [hself, hsame]
        · exact hother t hts
      exact ⟨fun t => hall t ▸ h.once t,
        fun t ht => htaken t (hall t ▸ ht),
        fun t u ht hu => h.alone t u (hall t ▸ ht) (hall u ▸ hu)⟩
    · -- the piece was `ABSENT`, so nobody had requested it
      have hl := hown.locals s
      simp only [OwnLocal, hpc] at hl
      have hnone : ∀ t, requested j (p.sess t) = 0 := by
        intro t
        by_contra hne
        obtain ⟨k, hk, ht⟩ := h.taken t (by omega)
        obtain rfl : k = i := by omega
        rcases ht with ht | ht
        all_goals
          rw [hl.2] at ht
          cases ht
      have hpos : ∀ t,
          0 < requested j ((p.commit s (p.sessionEffect s act)).sess t) →
            t = s := by
        intro t ht
        by_contra hts
        rw [hother t hts, hnone] at ht
        omega
      refine ⟨fun t => ?_, fun t ht => ?_, fun t u ht hu => ?_⟩
      · by_cases hts : t = s
        · subst t
          rw [hself, hmore, hnone]
        · rw [hother t hts, hnone]
          omega
      · refine ⟨i, hij, .inl ?_⟩
        have hi := (List.getElem?_eq_some_iff.mp hl.2).1
        rw [commit_sh, hset, SyncPieceBitfield.setRequested,
          List.getElem?_set_self hi]
      · rw [hpos t ht, hpos u hu]
  · have hall : ∀ t, requested j (p'.sess t) = requested j (p.sess t) := by
      intro t
      obtain ⟨es, -, hes⟩ := hb.sess t
      rw [hes]
      rfl
    exact ⟨fun t => hall t ▸ h.once t, fun t ht => htaken t (hall t ▸ ht),
      fun t u ht hu => h.alone t u (hall t ▸ ht) (hall u ▸ hu)⟩

theorem requestedOnce_reachable {cfg : Config} (h : Reachable cfg p)
    (j : Int) : RequestedOnce p j := by
  refine h.invariant (I := fun p => RequestedOnce p j) ?_
    fun _ _ _ hr ih _ hstep => ih.step (owning_reachable hr) hstep
  refine ⟨fun s => ?_, fun s hs => ?_, fun s t hs => ?_⟩
  · exact Nat.zero_le 1
  · cases hs
  · cases hs

theorem Owning.forward {n : Nat} {a : Act} (h : Owning n p)
    (hstep : p.step a = some p') (i : Nat) :
    Forward p.sh.own.sv[i]? p'.sh.own.sv[i]? := by
  obtain ⟨-, ⟨s, act, -, hen, rfl⟩ | hb⟩ := step_cases hstep
  · exact (sessionEffect_own hen).forward (h.locals s) i
  · rw [hb.own]
    exact .same _

/--
Whatever the peers send: a status only moves forward, no index is requested
twice, and the counter is exact whenever the mutex of `self_own` is free.
-/
theorem statuses_only_forward {cfg : Config} (h : Reachable cfg p) :
    (∀ a p', p.step a = some p' →
      ∀ i : Nat, Forward p.sh.own.sv[i]? p'.sh.own.sv[i]?) ∧
    (∀ j s, (p.sess s).sent.count (.actual (.requestMsg j)) ≤ 1) ∧
    (∀ j s t, .actual (.requestMsg j) ∈ (p.sess s).sent →
      .actual (.requestMsg j) ∈ (p.sess t).sent → s = t) ∧
    (p.sh.own.setting = none →
      p.sh.own.nOwned = p.sh.own.sv.count .owned ∧
      (p.sh.own.owningAll = true ↔
        ∀ i, i < p.sh.own.sv.length → p.sh.own.sv[i]? = some .owned)) := by
  have hown := owning_reachable h
  have hpos : ∀ j s, .actual (.requestMsg j) ∈ (p.sess s).sent →
      0 < requested j (p.sess s) := fun j s hmem =>
    Nat.lt_of_lt_of_le (List.count_pos_iff.mpr hmem) (Nat.le_add_right _ _)
  refine ⟨fun a p' hstep => hown.forward hstep, ?_, ?_, fun hfree => ?_⟩
  · intro j s
    exact Nat.le_trans (Nat.le_add_right _ _)
      ((requestedOnce_reachable h j).once s)
  · intro j s t hs ht
    exact (requestedOnce_reachable h j).alone s t (hpos j s hs) (hpos j t ht)
  · have hsettled : p.sh.own.settled = p.sh.own.sv := by
      simp only [SyncPieceBitfield.settled, hfree]
    have hcounted := hown.counted
    have hall := hcounted.owningAll_iff
    rw [SyncPieceBitfield.Counted, hsettled] at hcounted
    rw [hsettled] at hall
    exact ⟨hcounted, hall⟩

theorem statuses_only_forward_broadcasting :
    broadcasting.sh.own.nOwned = 1 ∧
      (broadcasting.sess 0).sent.count (.actual (.requestMsg 0)) = 1 ∧
      (broadcasting.sess 0).sent.count (.actual (.requestMsg 0)) ≤ 1 :=
  ⟨by decide, by decide,
    (statuses_only_forward (p := broadcasting) (reachable_get _)).2.1 0 0⟩

end Proc

end CntPeer
