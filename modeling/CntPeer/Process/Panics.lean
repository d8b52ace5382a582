import CntPeer.Process.Channel

/-!
# Why a process panics

The state from which the thread of a session runs into each panic.
-/

namespace CntPeer

open CntPeer.Foundation

def PanicCause (sh : Shared) (x : Session) : Panic → Prop
  | .pieceNotOwned => ∃ j, x.pc = .handle (.msgRequest j) ∧
      sh.own.isOwned j.toNat = false
  | .pieceNotRequested => ∃ j d, x.pc = .handle (.msgPiece j d) ∧
      sh.own.isRequested j.toNat = false
  | .unexpectedPieceSize => ∃ i d, x.pc = .savePiece i d ∧
      d.length ≠ sh.repo.expectedSize i
  | .fileNotWritable => ∃ i d, x.pc = .savePiece i d ∧
      sh.repo.writable = false
  | .indexOutOfBound =>
      (∃ j, x.pc = .handle (.msgHave j) ∧ checkRange x.peerSv j = false) ∨
      (∃ j, x.pc = .handle (.msgRequest j) ∧
        checkRange sh.own.sv j = false) ∨
      (∃ j d, x.pc = .handle (.msgPiece j d) ∧
        checkRange sh.own.sv j = false) ∨
      ∃ i, (x.pc = .setRequested i ∨ x.pc = .countOwned i) ∧
        sh.own.sv.length ≤ i
  | .operandsSize => 6 ≤ x.pc.stage ∧ x.peerSv.length ≠ sh.own.sv.length
  | .prematureTearDown => x.pc = .handle .msgTearDown
  | .shortRead => ∃ i, x.pc = .readPiece i
  | .tryPreemptUnknown | .relinquishUnknown =>
      sh.sc.findAddr x.addr = none ∧ x.pc ≠ .absent ∧ x.pc ≠ .ended
  | _ => False

theorem not_halted {sh : Shared} {h : Halt} (hrun : sh.halt = none) :
    sh.halt ≠ some h := by
  rw [hrun]
  simp

namespace Proc

variable {p p' : Proc} {s : Sid}

theorem panic_handle {sh : Shared} {x : Session} {e : Event} {r : Panic}
    (hpc : x.pc = .handle e) (hrun : sh.halt = none)
    (h : (handle sh x e).sh.halt = some (.panic r)) : PanicCause sh x r := by
  cases e
  all_goals
    simp only [handle] at h
    repeat' split at h
  all_goals first
    | exact absurd h (not_halted hrun)
    | cases h; simp_all [PanicCause]

theorem panic_collection {sh : Shared} {x : Session} {r : Panic} {pc : Pc}
    {out : List Msg} {res : Except Panic (SessionCollection × Posts)}
    (hrun : sh.halt = none)
    (h : (withCollection sh x res pc out).sh.halt = some (.panic r)) :
    res = .error r := by
  unfold withCollection at h
  split at h
  · cases h
    rfl
  · exact absurd h (not_halted hrun)

theorem panic_difference {sh : Shared} {x : Session} {r : Panic}
    {k : List Nat → Effect} (hrun : sh.halt = none)
    (hk : ∀ is, (k is).sh.halt = sh.halt)
    (h : (withDifference sh x k).sh.halt = some (.panic r)) :
    r = .operandsSize ∧ x.peerSv.length ≠ sh.own.sv.length := by
  unfold withDifference at h
  split at h
  · cases h
    exact ⟨rfl, difference_eq_none.mp ‹_›⟩
  · rw [hk, hrun] at h
    cases h

theorem panic_protocol {c : Choice} {r : Panic} (hrun : p.sh.halt = none)
    (h : (protocol p s c).sh.halt = some (.panic r)) :
    PanicCause p.sh (p.sess s) r := by
  cases hpc : (p.sess s).pc with
  | handle e =>
      simp only [protocol, hpc] at h
      exact panic_handle hpc hrun h
  | sendInterest | bcastInterest | haveInterest | drainInterest =>
      simp only [protocol, hpc] at h
      obtain ⟨rfl, hlen⟩ := panic_difference hrun (fun _ => rfl) h
      exact ⟨by rw [hpc]; decide, hlen⟩
  | requestNext =>
      simp only [protocol, hpc] at h
      obtain ⟨rfl, hlen⟩ := panic_difference hrun
        (fun _ => by split <;> rfl) h
      exact ⟨by rw [hpc]; decide, hlen⟩
  | preempt =>
      simp only [protocol, hpc] at h
      have herr := panic_collection hrun h
      unfold SessionCollection.tryPreempt at herr
      repeat' split at herr
      all_goals cases herr
      exact ⟨‹_›, by simp [hpc], by simp [hpc]⟩
  | relinquish | finalRelinquish =>
      simp only [protocol, hpc] at h
      have herr := panic_collection hrun h
      unfold SessionCollection.relinquish at herr
      repeat' split at herr
      all_goals cases herr
      exact ⟨‹_›, by simp [hpc], by simp [hpc]⟩
  | setRequested i | countOwned i =>
      simp only [protocol, hpc] at h
      split at h
      · exact absurd h (not_halted hrun)
      · cases h
        refine .inr (.inr (.inr ⟨i, ?_, by omega⟩))
        simp [hpc]
  | readPiece i =>
      simp only [protocol, hpc] at h
      split at h
      · exact absurd h (not_halted hrun)
      · cases h
        exact ⟨i, hpc⟩
  | savePiece i d =>
      simp only [protocol, hpc] at h
      split at h
      · rename_i reason hwrite
        cases h
        unfold PieceRepository.write at hwrite
        repeat' split at hwrite
        all_goals cases hwrite
        · exact ⟨i, d, hpc, ‹_›⟩
        · exact ⟨i, d, hpc,
            Bool.eq_false_iff.mpr ‹¬p.sh.repo.writable = true›⟩
      · exact absurd h (not_halted hrun)
  | bcastNext i rest =>
      obtain ⟨m, pc, -, hstep⟩ := protocol_bcastNext (c := c) hpc
      rw [hstep] at h
      exact absurd h (not_halted hrun)
  | _ =>
      simp only [protocol, hpc, drainStep, awaitStep] at h
      repeat' split at h
      all_goals exact absurd h (not_halted hrun)

theorem background_panic {a : Act} (hstep : p.step a = some p')
    (ha : a.isSession = false) {r : Panic}
    (h : p'.sh.halt = some (.panic r)) :
    r = .cleanUpUnknown ∧ ∃ addr rest, p.sh.sc.gcBq = addr :: rest ∧
      p.sh.sc.findAddr addr = none := by
  have hrun := (step_cases hstep).1
  obtain ⟨-, rfl⟩ := step_eq_some.mp hstep
  have hticked : ∀ {res}, (p.ticked res).sh.halt ≠ some (.panic r) := by
    intro res
    rcases res with - | ⟨sc, posts⟩
    · simp [ticked, haltWith]
    · simp [ticked, hrun]
  cases a with
  | session s act => cases ha
  | pnTick order => exact absurd h hticked
  | optTick rnd => exact absurd h hticked
  | cleanUp =>
      simp only [next] at h
      cases hres : p.sh.sc.cleanUp with
      | ok sc =>
          rw [hres, cleanedUp, hrun] at h
          cases h
      | error reason =>
          rw [hres, cleanedUp] at h
          cases h
          unfold SessionCollection.cleanUp at hres
          repeat' split at hres
          all_goals cases hres
          exact ⟨rfl, _, _, ‹_›, ‹_›⟩
  | exit => cases h

end Proc

end CntPeer
