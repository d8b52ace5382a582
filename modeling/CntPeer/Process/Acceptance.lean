import CntPeer.Foundation.History
import CntPeer.Process.TearDown
import CntPeer.Process.Tokens

/-!
# Accepting a piece

`MsgPiece` tests `isRequested`, stores the piece, marks it owned and broadcasts
it, each in a critical section of its own.  The test does not exclude a second
acceptance of the piece that is under way in another session.
-/

namespace CntPeer

open CntPeer.Foundation

inductive PieceEvent where
  | accepted (i : Nat)
  | saved (i : Nat)
  | broadcast (i : Nat)
  deriving DecidableEq

/-- A thread at this place has accepted piece `i` and not yet called
`broadcastHave`. -/
def Pc.takes (pc : Pc) (i : Nat) : Prop :=
  pc.accepting = some i ∨ pc = .bcastLock i

/-- A thread at this place has read the counter for its entry and has not
incremented it. -/
def Pc.reports : Pc → Bool
  | .logPiece _ _ | .countOwned _ => true
  | _ => false

namespace Proc

variable {p p' : Proc} {s t : Sid} {i : Nat}

def pieceEvents (p : Proc) : Act → List PieceEvent
  | .session s (.thread _) =>
      match (p.sess s).pc with
      | .handle (.msgPiece j _) =>
          if checkRange p.sh.own.sv j && p.sh.own.isRequested j.toNat then
            [.accepted j.toNat]
          else []
      | .savePiece i _ => [.saved i]
      | .bcastLock i => [.broadcast i]
      | _ => []
  | _ => []

/-- No session passes the test for a piece that another one is accepting. -/
def SoleAcceptor (p : Proc) : Act → Prop
  | .session s (.thread _) =>
      match (p.sess s).pc with
      | .handle (.msgPiece j _) => checkRange p.sh.own.sv j = true →
          p.sh.own.isRequested j.toNat = true →
          ∀ e ∈ p.sh.sc.ss, (p.sess e.s).pc.accepting ≠ some j.toNat
      | _ => True
  | _ => True

inductive AcceptStep (p : Proc) (s : Sid) (e : Effect) :
    List PieceEvent → Prop
  | quiet (accepting : e.after.pc.accepting = (p.sess s).pc.accepting)
      (saving : ∀ i d, e.after.pc = .savePiece i d →
        (p.sess s).pc = .savePiece i d)
      (locking : ∀ i, e.after.pc = .bcastLock i → (p.sess s).pc = .bcastLock i)
      (own : e.sh.own.sv = p.sh.own.sv ∨ ∃ i, (p.sess s).pc = .setRequested i ∧
        e.sh.own.sv = p.sh.own.sv.set i .requested) : AcceptStep p s e []
  | accepted (j : Int) (d : Piece)
      (stands : (p.sess s).pc = .handle (.msgPiece j d))
      (range : checkRange p.sh.own.sv j = true)
      (requested : p.sh.own.isRequested j.toNat = true)
      (goes : e.after.pc = .savePiece j.toNat d) (own : e.sh.own = p.sh.own) :
      AcceptStep p s e [.accepted j.toNat]
  | saved (i : Nat) (d : Piece) (stands : (p.sess s).pc = .savePiece i d)
      (goes : e.after.pc = .saveCache i d ∨
        e.sh.halt ≠ none ∧ e.after.pc = .savePiece i d)
      (own : e.sh.own = p.sh.own) : AcceptStep p s e [.saved i]
  | marked (i : Nat) (stands : (p.sess s).pc = .markOwned i)
      (goes : e.after.pc = .bcastLock i)
      (own : e.sh.own = p.sh.own.markOwned i) : AcceptStep p s e []
  | broadcast (i : Nat) (rest : List Sid) (stands : (p.sess s).pc = .bcastLock i)
      (goes : e.after.pc = .bcastNext i rest) (own : e.sh.own = p.sh.own) :
      AcceptStep p s e [.broadcast i]

theorem acceptStep_handle {c : Choice} {e : Event}
    (hpc : (p.sess s).pc = .handle e) :
    AcceptStep p s (protocol p s c)
      (p.pieceEvents (.session s (.thread c))) := by
  cases e with
  | msgPiece j d =>
      simp only [protocol, pieceEvents, hpc, handle]
      split
      · rename_i hrange
        split
        · rename_i hreq
          simp only [hrange, hreq, Bool.and_self, if_true]
          exact .accepted j d hpc hrange hreq rfl rfl
        · simp only [*, Bool.and_false]
          exact .quiet rfl (fun _ _ h => h) (fun _ h => h) (.inl rfl)
      · simp only [*, Bool.false_and]
        exact .quiet rfl (fun _ _ h => h) (fun _ h => h) (.inl rfl)
  | _ =>
      simp only [protocol, pieceEvents, hpc, handle]
      repeat' split
      all_goals refine .quiet ?_ ?_ ?_ (.inl rfl)
      all_goals simp [Effect.after, panicEffect, Session.goto, hpc,
        Pc.accepting]

theorem acceptStep_protocol {c : Choice} :
    AcceptStep p s (protocol p s c)
      (p.pieceEvents (.session s (.thread c))) := by
  cases hpc : (p.sess s).pc with
  | handle e => exact acceptStep_handle hpc
  | savePiece i d =>
      simp only [protocol, pieceEvents, hpc]
      split
      · exact .saved i d hpc (.inr ⟨by simp [panicEffect], hpc⟩) rfl
      · exact .saved i d hpc (.inl rfl) rfl
  | markOwned i =>
      simp only [protocol, pieceEvents, hpc]
      exact .marked i hpc rfl rfl
  | bcastLock i =>
      simp only [protocol, pieceEvents, hpc]
      exact .broadcast i _ hpc rfl rfl
  | setRequested i =>
      simp only [protocol, pieceEvents, hpc]
      split
      · refine .quiet ?_ ?_ ?_ (.inr ⟨i, hpc, rfl⟩)
        all_goals simp [Effect.after, Session.goto, hpc, Pc.accepting]
      · exact .quiet rfl (fun _ _ h => h) (fun _ h => h) (.inl rfl)
  | bcastNext i rest =>
      simp only [pieceEvents, hpc]
      obtain ⟨m, pc, hturn, hstep⟩ := protocol_bcastNext (c := c) hpc
      rw [hstep]
      cases hturn
      all_goals refine .quiet ?_ ?_ ?_ (.inl rfl)
      all_goals simp [Effect.after, Session.goto, hpc, Pc.accepting]
  | sendTearDown received =>
      simp only [protocol, pieceEvents, hpc]
      cases received
      all_goals refine .quiet ?_ ?_ ?_ (.inl rfl)
      all_goals simp [Effect.after, Session.goto, hpc, Pc.accepting]
  | _ =>
      simp only [protocol, pieceEvents, hpc, withDifference, withCollection,
        drainStep, awaitStep]
      repeat' split
      all_goals refine .quiet ?_ ?_ ?_ (.inl rfl)
      all_goals simp [Effect.after, panicEffect, Session.goto, discard, hpc,
        Pc.accepting]

theorem acceptStep_sessionEffect {a : SessionAct}
    (hen : p.sessionEnabled s a = true) :
    AcceptStep p s (p.sessionEffect s a) (p.pieceEvents (.session s a)) := by
  have hsetup : ∀ {pc : Pc}, pc.stage ≤ 6 → pc.accepting = none ∧
      (∀ i d, pc ≠ .savePiece i d) ∧ ∀ i, pc ≠ .bcastLock i := by
    intro pc hpc
    cases pc <;> simp_all [Pc.stage, Pc.accepting]
  have hact := actCases hen
  cases a with
  | thread c => exact acceptStep_protocol
  | _ =>
      change AcceptStep p s _ []
      generalize p.sessionEffect s _ = e at hact
      cases hact with
      | setup stands goes quiet keeps taken out posts own =>
          obtain ⟨hnone, -⟩ := hsetup (show (p.sess s).pc.stage ≤ 6 by omega)
          obtain ⟨hnone', hsave', hlock'⟩ := hsetup goes
          exact .quiet (hnone'.trans hnone.symm)
            (fun i d h => absurd h (hsave' i d))
            (fun i h => absurd h (hlock' i)) (.inl (by rw [own]))
      | idle after out posts own =>
          obtain ⟨n, heq⟩ := after
          have hpc : e.after.pc = (p.sess s).pc := by rw [heq]
          exact .quiet (by rw [hpc]) (fun _ _ h => hpc ▸ h)
            (fun _ h => hpc ▸ h) (.inl (by rw [own]))

/-- A piece that is being accepted is still `REQUESTED`, by one thread only. -/
structure Sole (p : Proc) : Prop where
  requested : ∀ s i, (p.sess s).pc.accepting = some i →
    p.sh.own.sv[i]? = some .requested
  owned : ∀ s i, (p.sess s).pc = .bcastLock i →
    p.sh.own.sv[i]? = some .owned
  alone : ∀ s t i, (p.sess s).pc.takes i → (p.sess t).pc.takes i → s = t

def Open (p : Proc) (i : Nat) : Prop :=
  p.sh.own.sv[i]? ≠ some .owned ∧ ∀ s, (p.sess s).pc.accepting ≠ some i

theorem open_of_requested {c : Choice} {j : Int} {d : Piece}
    (hlife : Lifecycle p) (hok : SoleAcceptor p (.session s (.thread c)))
    (stands : (p.sess s).pc = .handle (.msgPiece j d))
    (range : checkRange p.sh.own.sv j = true)
    (requested : p.sh.own.isRequested j.toNat = true) : Open p j.toNat := by
  have hreq : p.sh.own.sv[j.toNat]? = some .requested := by
    simpa [SyncPieceBitfield.isRequested] using requested
  refine ⟨by simp [hreq], fun t hacc => ?_⟩
  simp only [SoleAcceptor, stands] at hok
  refine hok range requested _ (hlife.live t ?_ ?_) hacc
  all_goals
    intro hpc
    rw [hpc] at hacc
    cases hacc

/-- What everybody knows of the pieces stays true when nothing is newly
accepted or marked. -/
theorem Sole.mono (h : Sole p)
    (keeps : ∀ i : Nat, p.sh.own.sv[i]? ≠ some .absent →
      p'.sh.own.sv[i]? = p.sh.own.sv[i]?)
    (accepting : ∀ t i, (p'.sess t).pc.accepting = some i →
      (p.sess t).pc.accepting = some i)
    (locking : ∀ t i, (p'.sess t).pc = .bcastLock i →
      (p.sess t).pc = .bcastLock i) : Sole p' where
  requested t i ht := by
    have hreq := h.requested t i (accepting t i ht)
    rw [keeps i (by simp [hreq]), hreq]
  owned t i ht := by
    have howned := h.owned t i (locking t i ht)
    rw [keeps i (by simp [howned]), howned]
  alone t u i ht hu :=
    h.alone t u i (ht.imp (accepting t i) (locking t i))
      (hu.imp (accepting u i) (locking u i))

theorem Sole.moves (h : Sole p)
    (keeps : ∀ i : Nat, p.sh.own.sv[i]? ≠ some .absent →
      p'.sh.own.sv[i]? = p.sh.own.sv[i]?)
    (hother : ∀ t, t ≠ s → (p'.sess t).pc = (p.sess t).pc)
    (accepting : ∀ i, (p'.sess s).pc.accepting = some i →
      (p.sess s).pc.accepting = some i)
    (locking : ∀ i, (p'.sess s).pc = .bcastLock i →
      (p.sess s).pc = .bcastLock i) : Sole p' := by
  apply h.mono keeps
  · intro t i ht
    by_cases hts : t = s
    · subst t
      exact accepting i ht
    · rwa [hother t hts] at ht
  · intro t i ht
    by_cases hts : t = s
    · subst t
      exact locking i ht
    · rwa [hother t hts] at ht

theorem Sole.accepts (h : Sole p) (hopen : Open p i)
    (hreq : p.sh.own.sv[i]? = some .requested)
    (hown : p'.sh.own = p.sh.own)
    (hother : ∀ t, t ≠ s → (p'.sess t).pc = (p.sess t).pc)
    (goes : ∀ j, (p'.sess s).pc.takes j →
      (p'.sess s).pc.accepting = some j ∧ j = i) : Sole p' := by
  have hfree : ∀ t, ¬(p.sess t).pc.takes i := by
    rintro t (hacc | hlock)
    · exact hopen.2 t hacc
    · exact hopen.1 (h.owned t i hlock)
  have htakes : ∀ t j, (p'.sess t).pc.takes j →
      t = s ∧ j = i ∨ t ≠ s ∧ (p.sess t).pc.takes j := by
    intro t j ht
    by_cases hts : t = s
    · subst t
      exact .inl ⟨rfl, (goes j ht).2⟩
    · rw [hother t hts] at ht
      exact .inr ⟨hts, ht⟩
  refine ⟨?_, ?_, ?_⟩
  · intro t j ht
    rw [hown]
    by_cases hts : t = s
    · subst t
      rw [(goes j (.inl ht)).2, hreq]
    · rw [hother t hts] at ht
      exact h.requested t j ht
  · intro t j ht
    rw [hown]
    by_cases hts : t = s
    · subst t
      have hacc := (goes j (.inr ht)).1
      rw [ht] at hacc
      cases hacc
    · rw [hother t hts] at ht
      exact h.owned t j ht
  · intro t u j ht hu
    rcases htakes t j ht with ⟨rfl, rfl⟩ | ⟨-, ht'⟩
    · rcases htakes u _ hu with ⟨rfl, -⟩ | ⟨-, hu'⟩
      · rfl
      · exact absurd hu' (hfree u)
    · rcases htakes u j hu with ⟨rfl, rfl⟩ | ⟨-, hu'⟩
      · exact absurd ht' (hfree t)
      · exact h.alone t u j ht' hu'

theorem Sole.marks (h : Sole p) (hacc : (p.sess s).pc.accepting = some i)
    (hown : p'.sh.own.sv = p.sh.own.sv.set i .owned)
    (hother : ∀ t, t ≠ s → (p'.sess t).pc = (p.sess t).pc)
    (goes : (p'.sess s).pc = .bcastLock i) : Sole p' := by
  have hi := (List.getElem?_eq_some_iff.mp (h.requested s i hacc)).1
  have helse : ∀ j : Nat, j ≠ i → p'.sh.own.sv[j]? = p.sh.own.sv[j]? := by
    intro j hj
    rw [hown, List.getElem?_set_ne hj.symm]
  have htakes : ∀ t j, (p'.sess t).pc.takes j → (p.sess t).pc.takes j := by
    intro t j ht
    by_cases hts : t = s
    · subst t
      rw [goes] at ht
      rcases ht with ht | ht <;> cases ht
      exact .inl hacc
    · rwa [hother t hts] at ht
  refine ⟨?_, ?_, ?_⟩
  · intro t j ht
    by_cases hts : t = s
    · subst t
      rw [goes] at ht
      cases ht
    · rw [hother t hts] at ht
      rw [helse, h.requested t j ht]
      rintro rfl
      exact hts (h.alone t s j (.inl ht) (.inl hacc))
  · intro t j ht
    by_cases hji : j = i
    · rw [hji, hown, List.getElem?_set_self hi]
    · rw [helse j hji]
      by_cases hts : t = s
      · subst t
        rw [goes] at ht
        cases ht
        exact absurd rfl hji
      · rw [hother t hts] at ht
        exact h.owned t j ht
  · intro t u j ht hu
    exact h.alone t u j (htakes t j ht) (htakes u j hu)

theorem Sole.session {n : Nat} {a : SessionAct} (h : Sole p)
    (hown : Owning n p) (hlife : Lifecycle p)
    (hen : p.sessionEnabled s a = true)
    (hok : SoleAcceptor p (.session s a)) :
    Sole (p.commit s (p.sessionEffect s a)) := by
  have hself : ((p.commit s (p.sessionEffect s a)).sess s).pc =
      (p.sessionEffect s a).after.pc := commit_pc_self
  have hother : ∀ t, t ≠ s → ((p.commit s (p.sessionEffect s a)).sess t).pc =
      (p.sess t).pc := fun t ht => commit_pc_of_ne ht
  have hl := hown.locals s
  have hstep := acceptStep_sessionEffect hen
  generalize hes : p.pieceEvents (.session s a) = es at hstep
  cases hstep with
  | quiet accepting saving locking own =>
      refine h.moves ?_ hother ?_ ?_
      · intro i hi
        rw [commit_sh]
        rcases own with heq | ⟨j, hpc, heq⟩
        · rw [heq]
        · simp only [OwnLocal, hpc] at hl
          rw [heq, List.getElem?_set_ne]
          rintro rfl
          exact hi hl.2
      · intro i ht
        rwa [hself, accepting] at ht
      · intro i ht
        rw [hself] at ht
        exact locking i ht
  | saved i d stands goes own =>
      refine h.moves (fun _ _ => by rw [commit_sh, own]) hother ?_ ?_
      all_goals
        intro j ht
        rw [hself] at ht
        rcases goes with goes | ⟨-, goes⟩
      · rw [goes] at ht
        rwa [stands]
      · rwa [stands, ← goes]
      · rw [goes] at ht
        cases ht
      · rw [goes] at ht
        cases ht
  | broadcast i rest stands goes own =>
      refine h.moves (fun _ _ => by rw [commit_sh, own]) hother ?_ ?_
      all_goals
        intro j ht
        rw [hself, goes] at ht
        cases ht
  | accepted j d stands range requested goes own =>
      obtain ⟨c, rfl⟩ : ∃ c, a = .thread c := by
        cases a with
        | thread c => exact ⟨c, rfl⟩
        | _ => cases hes
      refine h.accepts (open_of_requested hlife hok stands range requested) ?_ own
        hother fun i ht => ?_
      · simpa [SyncPieceBitfield.isRequested] using requested
      · rw [hself, goes] at ht ⊢
        rcases ht with ht | ht
        · cases ht
          exact ⟨rfl, rfl⟩
        · cases ht
  | marked i stands goes own =>
      refine h.marks ?_ ?_ hother (hself.trans goes)
      · rw [stands]
        rfl
      · rw [commit_sh, own]
        rfl

theorem Sole.step {n : Nat} {a : Act} (h : Sole p) (hown : Owning n p)
    (hlife : Lifecycle p) (hok : SoleAcceptor p a)
    (hstep : p.step a = some p') : Sole p' := by
  obtain ⟨-, ⟨s, act, rfl, hen, rfl⟩ | hb⟩ := step_cases hstep
  · exact h.session hown hlife hen hok
  · exact h.mono (fun _ _ => by rw [hb.own]) (fun t i ht => hb.pc t ▸ ht)
      fun t i ht => hb.pc t ▸ ht

theorem sole_reaches {cfg : Config}
    (h : Reaches step SoleAcceptor (init cfg) p) : Sole p := by
  refine h.invariant ⟨?_, ?_, ?_⟩ fun _ _ _ hr ih hok hstep =>
    ih.step (owning_reachable hr.reachable) (lifecycle_reachable hr.reachable)
      hok hstep
  · intro s i hs
    cases hs
  · intro s i hs
    cases hs
  · intro s t i hs
    rcases hs with hs | hs <;> cases hs

theorem acceptStep {a : Act} (hstep : p.step a = some p') :
    (∃ s e, AcceptStep p s e (p.pieceEvents a) ∧ p'.sh = e.sh ∧
      (p'.sess s).pc = e.after.pc ∧
      (∀ t, t ≠ s → (p'.sess t).pc = (p.sess t).pc) ∧
      (p.pieceEvents a ≠ [] → ∃ c, a = .session s (.thread c))) ∨
    p.pieceEvents a = [] ∧ p'.sh.own = p.sh.own ∧
      ∀ t, (p'.sess t).pc = (p.sess t).pc := by
  cases a with
  | session s b =>
      obtain ⟨hen, rfl⟩ := session_step hstep
      refine .inl ⟨s, _, acceptStep_sessionEffect hen, rfl, commit_pc_self,
        fun t ht => commit_pc_of_ne ht, fun hne => ?_⟩
      cases b with
      | thread c => exact ⟨c, rfl⟩
      | _ => exact absurd rfl hne
  | _ =>
      have hb := background_step hstep rfl
      exact .inr ⟨rfl, hb.own, hb.pc⟩

theorem accepting_kept {a : Act} (hsole : Sole p) {t : Sid}
    (hstep : p.step a = some p') (h : (p.sess t).pc.accepting = some i) :
    (p'.sess t).pc.accepting = some i ∨ p'.sh.own.sv[i]? = some .owned := by
  rcases acceptStep hstep with ⟨s, e, hacc, hsh, hpc, hother, -⟩ | ⟨-, -, hpc⟩
  · by_cases hts : t = s
    · subst t
      rw [hpc, hsh]
      generalize p.pieceEvents a = es at hacc
      cases hacc with
      | quiet accepting => exact .inl (accepting.trans h)
      | accepted j d stands =>
          rw [stands] at h
          cases h
      | saved j d stands goes =>
          rw [stands] at h
          rcases goes with goes | ⟨-, goes⟩ <;> rw [goes] <;> exact .inl h
      | marked j stands goes own =>
          right
          have hreq := hsole.requested s i h
          rw [stands] at h
          cases h
          rw [own, SyncPieceBitfield.markOwned,
            List.getElem?_set_self (List.getElem?_eq_some_iff.mp hreq).1]
      | broadcast j rest stands =>
          rw [stands] at h
          cases h
    · rw [hother t hts]
      exact .inl h
  · rw [hpc]
    exact .inl h

theorem Open.of_step {n : Nat} {a : Act} (hsole : Sole p) (hown : Owning n p)
    (hstep : p.step a = some p') (h : Open p' i) : Open p i := by
  refine ⟨fun howned => h.1 ((hown.advances hstep).owned i howned), ?_⟩
  intro t ht
  rcases accepting_kept hsole hstep ht with hacc | howned
  · exact h.2 t hacc
  · exact h.1 howned

theorem takes_of_step {a : Act} (hlife : Lifecycle p)
    (hok : SoleAcceptor p a) (hstep : p.step a = some p')
    (h : (p'.sess t).pc.takes i) : (p.sess t).pc.takes i ∨ Open p i := by
  rcases acceptStep hstep with
    ⟨s, e, hacc, hsh, hpc, hother, hthread⟩ | ⟨-, -, hpc⟩
  · by_cases hts : t = s
    · subst t
      rw [hpc] at h
      generalize hes : p.pieceEvents a = es at hacc hthread
      cases hacc with
      | quiet accepting saving locking =>
          exact .inl (h.imp (accepting ▸ ·) (locking i))
      | accepted j d stands range requested goes =>
          obtain ⟨c, rfl⟩ := hthread (by simp)
          rw [goes] at h
          rcases h with h | h <;> cases h
          exact .inr (open_of_requested hlife hok stands range requested)
      | saved j d stands goes =>
          left
          rw [stands]
          rcases goes with goes | ⟨-, goes⟩ <;> rw [goes] at h
          · rcases h with h | h <;> cases h
            exact .inl rfl
          · exact h
      | marked j stands goes =>
          rw [goes] at h
          rw [stands]
          rcases h with h | h <;> cases h
          exact .inl (.inl rfl)
      | broadcast j rest stands goes =>
          rw [goes] at h
          rcases h with h | h <;> cases h
    · rw [hother t hts] at h
      exact .inl h
  · rw [hpc] at h
    exact .inl h

theorem saving_of_step {a : Act} {d : Piece} (hlife : Lifecycle p)
    (hok : SoleAcceptor p a) (hstep : p.step a = some p')
    (hrun : p'.sh.halt = none) (h : (p'.sess t).pc = .savePiece i d) :
    (∃ d, (p.sess t).pc = .savePiece i d) ∨ Open p i := by
  rcases acceptStep hstep with
    ⟨s, e, hacc, hsh, hpc, hother, hthread⟩ | ⟨-, -, hpc⟩
  · by_cases hts : t = s
    · subst t
      rw [hpc] at h
      rw [hsh] at hrun
      generalize hes : p.pieceEvents a = es at hacc hthread
      cases hacc with
      | quiet accepting saving => exact .inl ⟨d, saving i d h⟩
      | accepted j d' stands range requested goes =>
          obtain ⟨c, rfl⟩ := hthread (by simp)
          rw [goes] at h
          cases h
          exact .inr (open_of_requested hlife hok stands range requested)
      | saved j d' stands goes =>
          rcases goes with goes | ⟨hhalt, -⟩
          · rw [goes] at h
            cases h
          · exact absurd hrun hhalt
      | marked j stands goes =>
          rw [goes] at h
          cases h
      | broadcast j rest stands goes =>
          rw [goes] at h
          cases h
    · rw [hother t hts] at h
      exact .inl ⟨d, h⟩
  · rw [hpc] at h
    exact .inl ⟨d, h⟩

theorem acceptStep_mem {a : Act} {x : PieceEvent}
    (hstep : p.step a = some p') (hx : x ∈ p.pieceEvents a) :
    (p.pieceEvents a).count x = 1 ∧ ∃ s c e, a = .session s (.thread c) ∧
      AcceptStep p s e [x] ∧ p'.sh = e.sh ∧ (p'.sess s).pc = e.after.pc ∧
      ∀ t, t ≠ s → (p'.sess t).pc = (p.sess t).pc := by
  rcases acceptStep hstep with
    ⟨s, e, hacc, hsh, hpc, hother, hthread⟩ | ⟨hnil, -⟩
  · obtain ⟨c, rfl⟩ := hthread (List.ne_nil_of_mem hx)
    have hone : p.pieceEvents (.session s (.thread c)) = [x] := by
      generalize p.pieceEvents (.session s (.thread c)) = es at hacc hx
      cases hacc
      all_goals simp_all
    rw [hone] at hacc ⊢
    exact ⟨by simp, s, c, e, rfl, hacc, hsh, hpc, hother⟩
  · rw [hnil] at hx
    cases hx

section

variable {cfg : Config} {l : List PieceEvent}
  (h : Records step pieceEvents SoleAcceptor (init cfg) (p, l))

include h

theorem accepted_once (i : Nat) : l.count (.accepted i) ≤ 1 := by
  refine (h.at_most_once (M := fun p => Open p i) ?_ ?_).1
  · intro p a p' hr hok hstep hopen
    exact hopen.of_step (sole_reaches hr) (owning_reachable hr.reachable) hstep
  · intro p a p' hr hok hstep hmem
    obtain ⟨hcount, s, c, e, rfl, hacc, -, hpc, -⟩ := acceptStep_mem hstep hmem
    refine ⟨?_, ?_, hcount⟩
    all_goals cases hacc with | accepted j d stands range requested goes => ?_
    · exact open_of_requested (lifecycle_reachable hr.reachable) hok stands
        range requested
    · intro hopen
      exact hopen.2 s (by rw [hpc, goes]; rfl)

theorem saved_once (i : Nat) : l.count (.saved i) ≤ 1 := by
  refine (h.at_most_once (M := fun p => p.sh.halt = none ∧
    (Open p i ∨ ∃ s d, (p.sess s).pc = .savePiece i d)) ?_ ?_).1
  · rintro p a p' hr hok hstep ⟨hrun, hmay⟩
    refine ⟨(step_cases hstep).1, ?_⟩
    rcases hmay with hopen | ⟨t, d, ht⟩
    · exact .inl (hopen.of_step (sole_reaches hr)
        (owning_reachable hr.reachable) hstep)
    · rcases saving_of_step (lifecycle_reachable hr.reachable) hok hstep hrun
        ht with ⟨d', hd⟩ | hopen
      · exact .inr ⟨t, d', hd⟩
      · exact .inl hopen
  · intro p a p' hr hok hstep hmem
    obtain ⟨hcount, s, c, e, rfl, hacc, hsh, hpc, hother⟩ :=
      acceptStep_mem hstep hmem
    refine ⟨?_, ?_, hcount⟩
    all_goals cases hacc with | saved i d stands goes => ?_
    · exact ⟨(step_cases hstep).1, .inr ⟨s, d, stands⟩⟩
    · rintro ⟨hrun, hmay⟩
      have hnext : (p'.sess s).pc = .saveCache i d := by
        rcases goes with goes | ⟨hhalt, -⟩
        · exact hpc.trans goes
        · exact absurd (hsh ▸ hrun) hhalt
      rcases hmay with hopen | ⟨t, d', ht⟩
      · exact hopen.2 s (by rw [hnext]; rfl)
      · by_cases hts : t = s
        · subst t
          rw [hnext] at ht
          cases ht
        · rw [hother t hts] at ht
          refine hts ((sole_reaches hr).alone t s i ?_ ?_)
          · exact .inl (by rw [ht]; rfl)
          · exact .inl (by rw [stands]; rfl)

theorem broadcast_once (i : Nat) : l.count (.broadcast i) ≤ 1 := by
  refine (h.at_most_once (M := fun p => Open p i ∨
    ∃ s, (p.sess s).pc.takes i) ?_ ?_).1
  · rintro p a p' hr hok hstep (hopen | ⟨t, ht⟩)
    · exact .inl (hopen.of_step (sole_reaches hr)
        (owning_reachable hr.reachable) hstep)
    · rcases takes_of_step (lifecycle_reachable hr.reachable) hok hstep ht with
        htakes | hopen
      · exact .inr ⟨t, htakes⟩
      · exact .inl hopen
  · intro p a p' hr hok hstep hmem
    obtain ⟨hcount, s, c, e, rfl, hacc, hsh, hpc, hother⟩ :=
      acceptStep_mem hstep hmem
    have hsole := sole_reaches hr
    refine ⟨?_, ?_, hcount⟩
    all_goals cases hacc with | broadcast i rest stands goes own => ?_
    · exact .inr ⟨s, .inr stands⟩
    · rintro (hopen | ⟨t, ht⟩)
      · refine hopen.1 ?_
        rw [hsh, own]
        exact hsole.owned s i stands
      · by_cases hts : t = s
        · subst t
          rw [hpc, goes] at ht
          rcases ht with ht | ht <;> cases ht
        · rw [hother t hts] at ht
          exact hts (hsole.alone t s i ht (.inr stands))

end

/-- What a step of session `s` writes to the log, and how its thread passes the
places between the read of the counter and `setOwned`. -/
inductive LogStep (p : Proc) (s : Sid) (e : Effect) : Prop
  | quiet (log : e.sh.log = p.sh.log)
      (places : e.after.pc = (p.sess s).pc ∨
        e.after.pc.reports = false ∧ (p.sess s).pc.reports = false)
  | read (i : Nat) (stands : (p.sess s).pc = .readCount i)
      (goes : e.after.pc = .logPiece i (p.sh.own.nOwned + 1))
      (own : e.sh.own = p.sh.own) (log : e.sh.log = p.sh.log)
  | logged (i n : Nat) (stands : (p.sess s).pc = .logPiece i n)
      (goes : e.after.pc = .countOwned i) (own : e.sh.own = p.sh.own)
      (log : e.sh.log = p.sh.log ++ [.pieceDownloaded (p.sess s).peerId i n])
  | counted (i : Nat) (stands : (p.sess s).pc = .countOwned i)
      (goes : e.after.pc = .markOwned i) (free : p.sh.own.setting = none)
      (inRange : i < p.sh.own.sv.length) (own : e.sh.own = p.sh.own.countOwned s i)
      (log : e.sh.log = p.sh.log ++ if e.sh.own.owningAll then [.fileDownloaded] else [])

theorem logStep_protocol {c : Choice} (hrun : runnable p s = true) :
    LogStep p s (protocol p s c) := by
  cases hpc : (p.sess s).pc with
  | readCount i =>
      simp only [protocol, hpc]
      exact .read i hpc rfl rfl rfl
  | logPiece i n =>
      simp only [protocol, hpc]
      exact .logged i n hpc rfl rfl rfl
  | countOwned i =>
      simp only [runnable, hpc, Option.isNone_iff_eq_none] at hrun
      simp only [protocol, hpc]
      split
      · exact .counted i hpc rfl hrun ‹_› rfl rfl
      · exact .quiet rfl (.inl rfl)
  | handle e =>
      simp only [protocol, hpc]
      cases e
      all_goals
        simp only [handle]
        repeat' split
      all_goals first
        | exact .quiet rfl (.inr ⟨rfl, by rw [hpc]; rfl⟩)
        | exact .quiet rfl (.inl rfl)
  | bcastNext i rest =>
      obtain ⟨m, pc, hturn, hstep⟩ := protocol_bcastNext (c := c) hpc
      rw [hstep]
      cases hturn
      all_goals exact .quiet rfl (.inr ⟨rfl, by rw [hpc]; rfl⟩)
  | sendTearDown received =>
      simp only [protocol, hpc]
      cases received
      all_goals exact .quiet rfl (.inr ⟨rfl, by rw [hpc]; rfl⟩)
  | _ =>
      simp only [protocol, hpc, withDifference, withCollection, drainStep,
        awaitStep]
      repeat' split
      all_goals first
        | exact .quiet rfl (.inr ⟨rfl, by rw [hpc]; rfl⟩)
        | exact .quiet rfl (.inl rfl)

theorem log_of_not_thread {a : SessionAct} (hen : p.sessionEnabled s a = true)
    (ha : ∀ c, a ≠ .thread c) :
    (p.sessionEffect s a).sh.log = p.sh.log ∧
      ((p.sessionEffect s a).after.pc = (p.sess s).pc ∨
        (p.sessionEffect s a).after.pc.reports = false ∧
          (p.sess s).pc.reports = false) := by
  have hsetup : ∀ {pc : Pc}, pc.stage ≤ 6 → pc.reports = false := by
    intro pc hpc
    cases pc <;> simp_all [Pc.stage, Pc.reports]
  have hact := actCases hen
  cases a with
  | thread c => exact (ha c rfl).elim
  | _ =>
      refine ⟨?_, ?_⟩
      · simp only [sessionEffect]
        repeat' split
        all_goals rfl
      · generalize p.sessionEffect s _ = e at hact
        cases hact with
        | setup stands goes => exact .inr ⟨hsetup goes, hsetup (by omega)⟩
        | idle after =>
            obtain ⟨n, heq⟩ := after
            exact .inl (by rw [heq])

theorem logStep_sessionEffect {a : SessionAct} (hen : p.sessionEnabled s a = true) :
    LogStep p s (p.sessionEffect s a) := by
  cases a with
  | thread c => exact logStep_protocol hen
  | _ =>
      obtain ⟨log, places⟩ := log_of_not_thread hen nofun
      exact .quiet log places

theorem log_sessionEffect {a : SessionAct}
    (hen : p.sessionEnabled s a = true) :
    (p.sessionEffect s a).sh.log.count .fileDownloaded =
        p.sh.log.count .fileDownloaded ∨
      ∃ i, (p.sess s).pc = .countOwned i ∧ p.sh.own.setting = none ∧
        (p.sessionEffect s a).sh.own.owningAll = true ∧
        (p.sessionEffect s a).sh.log.count .fileDownloaded =
          p.sh.log.count .fileDownloaded + 1 := by
  cases logStep_sessionEffect hen with
  | quiet log places => exact .inl (by rw [log])
  | read i stands goes own log => exact .inl (by rw [log])
  | logged i n stands goes own log => exact .inl (by simp [log])
  | counted i stands goes free inRange own log =>
      cases hall : (p.sessionEffect s a).sh.own.owningAll with
      | false => exact .inl (by simp [log, hall])
      | true =>
          exact .inr ⟨i, stands, free, rfl, by simp [log, hall]⟩

structure LoggedOnce (p : Proc) : Prop where
  once : p.sh.log.count .fileDownloaded ≤ 1
  full : 0 < p.sh.log.count .fileDownloaded → p.sh.own.owningAll = true

theorem LoggedOnce.step {n : Nat} {a : Act} (h : LoggedOnce p)
    (hreq : ∀ s i, (p.sess s).pc.accepting = some i →
      p.sh.own.sv[i]? = some .requested)
    (hown : Owning n p) (hown' : Owning n p') (hstep : p.step a = some p') :
    LoggedOnce p' := by
  obtain ⟨-, ⟨s, act, -, hen, rfl⟩ | hb⟩ := step_cases hstep
  · have hfull : p.sh.own.owningAll = true →
        (p.sessionEffect s act).sh.own.owningAll = true :=
      (sessionEffect_own hen).owningAll (hown.locals s) hown.counted
        hown'.counted
    rcases log_sessionEffect hen with hsame | ⟨i, hpc, hfree, hall, hmore⟩
    · refine ⟨?_, fun hpos => ?_⟩
      · rw [commit_sh, hsame]
        exact h.once
      · rw [commit_sh, hsame] at hpos
        exact hfull (h.full hpos)
    · -- the piece being counted is not owned yet
      have hreq := hreq s i (by rw [hpc]; rfl)
      have hnone : p.sh.log.count .fileDownloaded = 0 := by
        by_contra hne
        have howned := hown.counted.owningAll_iff.mp (h.full (by omega)) i
          (List.getElem?_eq_some_iff.mp hreq).1
        simp only [SyncPieceBitfield.settled, hfree] at howned
        rw [hreq] at howned
        cases howned
      refine ⟨?_, fun _ => hall⟩
      rw [commit_sh, hmore, hnone]
  · refine ⟨?_, ?_⟩
    · rw [hb.log]
      exact h.once
    · rw [hb.log, hb.own]
      exact h.full

theorem loggedOnce_init (cfg : Config) : LoggedOnce (init cfg) := by
  refine ⟨?_, ?_⟩
  · cases hfile : cfg.hasFile <;> simp [init, hfile]
  · cases hfile : cfg.hasFile <;>
      simp [init, hfile, SyncPieceBitfield.init, SyncPieceBitfield.owningAll]

theorem loggedOnce_reaches {cfg : Config}
    (h : Reaches step SoleAcceptor (init cfg) p) : LoggedOnce p :=
  h.invariant (loggedOnce_init cfg) fun _ _ _ hr ih _ hstep =>
    ih.step (sole_reaches hr).requested (owning_reachable hr.reachable)
      ((owning_reachable hr.reachable).step hstep) hstep

/--
When no session passes the test for a piece that another one is accepting, each
piece is accepted, saved and broadcast at most once, and the completion of the
file is logged at most once.
-/
theorem accepted_at_most_once {cfg : Config} {l : List PieceEvent}
    (h : Records step pieceEvents SoleAcceptor (init cfg) (p, l)) :
    (∀ i, l.count (.accepted i) ≤ 1 ∧ l.count (.saved i) ≤ 1 ∧
      l.count (.broadcast i) ≤ 1) ∧
    p.sh.log.count .fileDownloaded ≤ 1 :=
  ⟨fun i => ⟨accepted_once h i, saved_once h i, broadcast_once h i⟩,
    (loggedOnce_reaches (.of_records h)).once⟩

instance (p : Proc) : (a : Act) → Decidable (SoleAcceptor p a)
  | .session s (.thread _) => by
      dsimp only [SoleAcceptor]
      generalize (p.sess s).pc = pc
      apply @Pc.casesOn _ pc
      case handle =>
        intro e
        apply @Event.casesOn _ e
        all_goals
          intros
          infer_instance
      all_goals
        intros
        infer_instance
  | .session _ (.create ..) | .session _ (.recvHandshake _)
  | .session _ (.recvBitfield _) | .session _ (.scan _)
  | .session _ (.readFails _) | .session _ (.received _)
  | .pnTick _ | .optTick _ | .cleanUp | .exit => .isTrue trivial

def stolen : Proc × List PieceEvent :=
  (run (checkedStep (recorded step pieceEvents) fun q a => SoleAcceptor q.1 a)
    (init leech, []) (setupRun 0 [.owned] ++ setupRun 1 [.owned] ++
      receive 0 .unchokeMsg 5 ++ receive 1 (.pieceMsg 0 [7]) 13)).get (by decide)

theorem accepted_at_most_once_stolen :
    stolen.2 = [.accepted 0, .saved 0, .broadcast 0] ∧
      stolen.2.count (.saved 0) ≤ 1 ∧
        stolen.1.sh.log.count .fileDownloaded ≤ 1 := by
  have hrun : Records step pieceEvents SoleAcceptor (init leech) stolen :=
    reaches_get _
  have h := accepted_at_most_once (p := stolen.1) (l := stolen.2) hrun
  exact ⟨by decide, (h.1 0).2.1, h.2⟩

/-- Both peers send the piece, and both sessions pass the test before either
marks it owned. -/
def doubled : Proc × List PieceEvent :=
  (run (recorded step pieceEvents) (init leech, [])
    (setupRun 0 [.owned] ++ setupRun 1 [.owned] ++ receive 0 .unchokeMsg 5 ++
      receive 0 (.pieceMsg 0 [7]) 2 ++ receive 1 (.pieceMsg 0 [7]) 2 ++
      threadSteps 0 12 ++ threadSteps 1 8)).get (by decide)

/-- Without the condition, a piece can be accepted, saved and broadcast twice
and the completion logged twice. -/
theorem accepted_twice :
    ¬ ∀ (cfg : Config) (p : Proc) (l : List PieceEvent),
      Records step pieceEvents anyStep (init cfg) (p, l) →
      (∀ i, l.count (.accepted i) ≤ 1 ∧ l.count (.saved i) ≤ 1 ∧
        l.count (.broadcast i) ≤ 1) ∧
      p.sh.log.count .fileDownloaded ≤ 1 := by
  intro h
  have hrun : Records step pieceEvents anyStep (init leech) doubled :=
    reachable_get _
  obtain ⟨-, hlog⟩ := h leech doubled.1 doubled.2 hrun
  exact absurd hlog (by decide)

example : doubled.2.count (.accepted 0) = 2 ∧ doubled.2.count (.saved 0) = 2 ∧
    doubled.2.count (.broadcast 0) = 2 := by decide

end Proc

end CntPeer
